import Almos.Fat
import Almos.Machine

/-!
# Page transfers of a VFAT file

`vfat_pgio_reg` goes from a page to clusters through a pair kept in the file: a cluster of the
chain and its rank. `vfat_lseek` moves the same pair.
-/
namespace Almos

/-- The fields of `vfat_file_s`. -/
structure VfatFile where
  nodeCluster : ℕ
  pgCurrentCluster : ℕ
  pgCurrentRank : ℕ

structure BlkRequest where
  src : ℕ
  dst : ℕ
  count : ℕ
  deriving DecidableEq

namespace Vfat
open Word

variable (ctx : VfatContext) (loads : ℕ → Bool)

/-- `VFAT_CONVERT_CLUSTER`, the first sector of a cluster. -/
def vfatConvertCluster (cluster : ℕ) : ℕ :=
  wadd ctx.clusterBeginLba (wsub cluster 2 * ctx.sectorsPerCluster)

def clustersPerPage : ℕ :=
  if bytesPerCluster ctx ≤ pageSize then pageSize / bytesPerCluster ctx else 1

/-- `vfat_lseek`, to the offset `f_offset` of the file. -/
def vfatLseek (fat : Fat) (file : VfatFile) (offset : ℕ) : Fat × VfatFile × Except VfsError Unit :=
  if offset = 0 then
    (fat, { file with pgCurrentCluster := file.nodeCluster, pgCurrentRank := 0 }, .ok ())
  else
    let rank := offset % 2 ^ 32 / bytesPerCluster ctx
    if rank = file.pgCurrentRank then (fat, file, .ok ())
    else
      let effective := if file.pgCurrentRank < rank then rank - file.pgCurrentRank else rank
      let next := if file.pgCurrentRank < rank then file.pgCurrentCluster else file.nodeCluster
      if effective ≠ 0 then
        match vfatClusterLookup ctx loads fat next effective with
        | (fat, .error err) => (fat, file, .error err)
        | (fat, .ok (next, _)) =>
            (fat, { file with pgCurrentCluster := next, pgCurrentRank := rank }, .ok ())
      else (fat, { file with pgCurrentCluster := next, pgCurrentRank := rank }, .ok ())

/-- `cluster_index[0]` and `extended[0]` of `vfat_pgio_reg`. With rank 0 there is no lookup, and
`cluster_index[0]` keeps the current cluster. -/
def firstCluster (fat : Fat) (file : VfatFile) (rank : ℕ) : Fat × Except VfsError (ℕ × Bool) :=
  if rank ≠ file.pgCurrentRank then
    let effective := if file.pgCurrentRank < rank then rank - file.pgCurrentRank else rank
    let current := if file.pgCurrentRank < rank then file.pgCurrentCluster else file.nodeCluster
    if effective ≠ 0 then vfatClusterLookup ctx loads fat current effective
    else (fat, .ok (file.pgCurrentCluster, false))
  else (fat, .ok (file.pgCurrentCluster, false))

/-- The loop of `vfat_pgio_reg` that finds the other clusters of the page. A read stops where the
volume is full, with an entry of `cluster_index` not written yet (`junk`). -/
def nextClusters (isRead : Bool) (junk : ℕ) :
    ℕ → Fat → ℕ → Fat × Except VfsError (List (ℕ × Bool))
  | 0, fat, _ => (fat, .ok [])
  | todo + 1, fat, current =>
      match vfatClusterLookup ctx loads fat current 1 with
      | (fat, .ok (next, extended)) =>
          match nextClusters isRead junk todo fat next with
          | (fat, .ok rest) => (fat, .ok ((next, extended) :: rest))
          | (fat, .error err) => (fat, .error err)
      | (fat, .error err) =>
          if err = .enospc ∧ isRead then (fat, .ok [(junk, true)]) else (fat, .error err)

/-- The loop that fills the requests: `todo` requests to go, `rest` the clusters after the current
one. It returns them with the last current cluster and its rank. -/
def fillRequests (count : ℕ) : ℕ → List ℕ → ℕ → ℕ → ℕ → ℕ → List BlkRequest × ℕ × ℕ
  | 0, _, _, _, current, rank => ([], current, rank)
  | todo + 1, [], start, dst, current, rank =>
      let (requests, final) := fillRequests count todo [] start dst current rank
      (⟨start, dst, count⟩ :: requests, final)
  | todo + 1, next :: rest, start, dst, _, rank =>
      let (requests, final) := fillRequests count todo rest (vfatConvertCluster ctx next)
        (dst + bytesPerCluster ctx) next (rank + 1)
      (⟨start, dst, count⟩ :: requests, final)

/-- What a call of `vfat_pgio_reg` meets: `blkio_init` may fail, and so may `blkio_sync`. -/
structure PgioOutcome where
  loads : ℕ → Bool
  junk : ℕ
  initOk : Bool
  syncOk : Bool

/-- `vfat_pgio_reg`: also the requests passed to the device. -/
def vfatPgioReg (env : PgioOutcome) (fat : Fat) (file : VfatFile) (index : ℕ) (isRead : Bool) :
    Fat × VfatFile × List BlkRequest × Except VfsError Unit :=
  let rank := index * pageSize % 2 ^ 32 / bytesPerCluster ctx
  match firstCluster ctx env.loads fat file rank with
  | (fat, .error err) => (fat, file, [], .error err)
  | (fat, .ok (first, extended)) =>
      match nextClusters ctx env.loads isRead env.junk (clustersPerPage ctx - 1) fat first with
      | (fat, .error err) => (fat, file, [], .error err)
      | (fat, .ok rest) =>
          let clusters := (first, extended) :: rest
          let i := if isRead then (clusters.takeWhile fun c => !c.2).length else clustersPerPage ctx
          if i = 0 then (fat, file, [], .ok ())
          else if env.initOk then
            let start := vfatConvertCluster ctx first
            let spanned := pageSize < bytesPerCluster ctx
            let count := if spanned then pageSize / ctx.bytesPerSector else ctx.sectorsPerCluster
            let start :=
              if spanned then wadd start (index % (bytesPerCluster ctx / pageSize) * count)
              else start
            let (requests, current, rank) :=
              fillRequests ctx count i (rest.map Prod.fst) start 0 first rank
            (fat, { file with pgCurrentCluster := current, pgCurrentRank := rank }, requests,
              if env.syncOk then .ok () else .error .ioErr)
          else (fat, file, [], .error .enomem)

/-- The cluster of a rank in the chain that starts at `cluster`. -/
def chainAt (fat : Fat) (cluster : ℕ) : ℕ → ℕ
  | 0 => cluster
  | rank + 1 => entryAt fat (lookupAddr ctx (chainAt fat cluster rank))

/-- The chain has a cluster of rank `rank`. -/
def InChain (fat : Fat) (cluster rank : ℕ) : Prop :=
  ∀ k < rank, 0 < chainAt ctx fat cluster (k + 1) ∧ chainAt ctx fat cluster (k + 1) < badCluster

instance (fat : Fat) (cluster rank : ℕ) : Decidable (InChain ctx fat cluster rank) :=
  inferInstanceAs (Decidable (∀ k < rank, _))

def lastRank (index : ℕ) : ℕ :=
  if bytesPerCluster ctx ≤ pageSize then index * clustersPerPage ctx + (clustersPerPage ctx - 1)
  else index / (bytesPerCluster ctx / pageSize)

def pageRequests (fat : Fat) (cluster index : ℕ) : List BlkRequest :=
  if bytesPerCluster ctx ≤ pageSize then
    (List.range (clustersPerPage ctx)).map fun k =>
      ⟨vfatConvertCluster ctx (chainAt ctx fat cluster (index * clustersPerPage ctx + k)),
        k * bytesPerCluster ctx, ctx.sectorsPerCluster⟩
  else
    let pages := bytesPerCluster ctx / pageSize
    [⟨wadd (vfatConvertCluster ctx (chainAt ctx fat cluster (index / pages)))
      (index % pages * sectorsPerPage ctx), 0, sectorsPerPage ctx⟩]

structure FileRun where
  fat : Fat
  file : VfatFile
  issued : List (ℕ × List BlkRequest)

inductive FileCall
  | lseek (offset : ℕ) (loads : ℕ → Bool)
  | pgio (index : ℕ) (isRead : Bool) (env : PgioOutcome)

/-- Calls inside the chain; offsets and page indexes are words. -/
def fileStep (s : FileRun) : FileCall → Option FileRun
  | .lseek offset loads =>
      if offset < 2 ^ 32 ∧
          InChain ctx s.fat s.file.nodeCluster (offset / bytesPerCluster ctx) then
        let (fat, file, _) := vfatLseek ctx loads s.fat s.file offset
        some { s with fat := fat, file := file }
      else none
  | .pgio index isRead env =>
      if index < 2 ^ 32 ∧ InChain ctx s.fat s.file.nodeCluster (lastRank ctx index) then
        let (fat, file, requests, _) := vfatPgioReg ctx env s.fat s.file index isRead
        some ⟨fat, file, if requests = [] then s.issued else (index, requests) :: s.issued⟩
      else none

def fileMachine : Machine FileRun FileCall where
  init s := s.file.pgCurrentCluster = s.file.nodeCluster ∧ s.file.pgCurrentRank = 0 ∧ s.issued = []
  step := fileStep ctx

section Lookups
variable {ctx loads} {fat : Fat} {c r : ℕ}

lemma chainAt_add (a b : ℕ) : chainAt ctx fat c (a + b) = chainAt ctx fat (chainAt ctx fat c a) b := by
  induction b with
  | zero => rfl
  | succ b ih =>
    rw [← add_assoc]
    simp only [chainAt, ih]

lemma chainAt_next (k : ℕ) :
    chainAt ctx fat (entryAt fat (lookupAddr ctx c)) k = chainAt ctx fat c (k + 1) := by
  rw [add_comm, chainAt_add]
  rfl

lemma InChain.mono {r' : ℕ} (h : InChain ctx fat c r) (hle : r' ≤ r) : InChain ctx fat c r' :=
  fun k hk => h k (hk.trans_le hle)

lemma InChain.drop {a b : ℕ} (h : InChain ctx fat c (a + b)) :
    InChain ctx fat (chainAt ctx fat c a) b := by
  intro k hk
  rw [← chainAt_add]
  exact h (a + k) (by omega)

/-- The outcome is `good` and the table is as before, unless a page could not be loaded. -/
def Finds {α : Type} (loads : ℕ → Bool) (fat : Fat) (good : α)
    (out : Fat × Except VfsError α) : Prop :=
  out = (fat, .ok good) ∨ out = (fat, .error .ioErr) ∧ ∃ page, loads page = false

lemma lookupLoop_finds (extended : Bool) (h : InChain ctx fat c r) :
    Finds loads fat (chainAt ctx fat c r, extended) (lookupLoop ctx loads r fat c extended) := by
  induction r generalizing c with
  | zero => exact .inl rfl
  | succ r ih =>
    have hnext := h 0 (by omega)
    rw [← chainAt_next] at hnext
    change 0 < entryAt fat (lookupAddr ctx c) ∧ entryAt fat (lookupAddr ctx c) < badCluster at hnext
    have hrest : InChain ctx fat (entryAt fat (lookupAddr ctx c)) r :=
      InChain.drop (a := 1) (by rwa [add_comm])
    have hbad : entryAt fat (lookupAddr ctx c) ≠ badCluster := hnext.2.ne
    have hend : ¬endOfChain ≤ entryAt fat (lookupAddr ctx c) := by
      simp only [badCluster, endOfChain] at hnext ⊢
      omega
    rw [← chainAt_next]
    simp only [lookupLoop, if_neg hbad, if_neg hend]
    split_ifs with hload
    · exact ih hrest
    · exact .inr ⟨rfl, _, by simpa using hload⟩

variable (loads) in
theorem vfatClusterLookup_finds (h : InChain ctx fat c r) :
    Finds loads fat (chainAt ctx fat c r, false) (vfatClusterLookup ctx loads fat c r) := by
  unfold vfatClusterLookup
  split_ifs with hload
  · exact lookupLoop_finds false h
  · exact .inr ⟨rfl, _, by simpa using hload⟩

/-- The clusters that follow `c` in its chain. -/
def clustersAfter (ctx : VfatContext) (fat : Fat) : ℕ → ℕ → List ℕ
  | 0, _ => []
  | n + 1, c =>
      let next := entryAt fat (lookupAddr ctx c)
      next :: clustersAfter ctx fat n next

lemma clustersAfter_eq (n : ℕ) :
    clustersAfter ctx fat n c = (List.range n).map fun k => chainAt ctx fat c (k + 1) := by
  induction n generalizing c with
  | zero => rfl
  | succ n ih =>
    simp only [clustersAfter, ih, chainAt_next, List.range_succ_eq_map, List.map_cons, List.map_map]
    rfl

variable (loads) in
lemma nextClusters_finds (isRead : Bool) (junk : ℕ) (h : InChain ctx fat c r) :
    Finds loads fat ((clustersAfter ctx fat r c).map fun next => (next, false))
      (nextClusters ctx loads isRead junk r fat c) := by
  induction r generalizing c with
  | zero => exact .inl rfl
  | succ r ih =>
    have hrest : InChain ctx fat (entryAt fat (lookupAddr ctx c)) r :=
      InChain.drop (a := 1) (by rwa [add_comm])
    rcases vfatClusterLookup_finds loads (h.mono (show 1 ≤ _ by omega)) with
      hlookup | ⟨hlookup, hload⟩
    · rcases ih hrest with htail | ⟨htail, hload⟩
      · refine .inl ?_
        simp only [nextClusters, hlookup]
        change (match nextClusters ctx loads isRead junk r fat (entryAt fat (lookupAddr ctx c)) with
          | (fat, .ok rest) => _
          | (fat, .error err) => _) = _
        rw [htail]
        rfl
      · refine .inr ⟨?_, hload⟩
        simp only [nextClusters, hlookup]
        change (match nextClusters ctx loads isRead junk r fat (entryAt fat (lookupAddr ctx c)) with
          | (fat, .ok rest) => _
          | (fat, .error err) => _) = _
        rw [htail]
    · refine .inr ⟨?_, hload⟩
      simp only [nextClusters, hlookup]
      simp

variable (ctx fat) in
lemma fillRequests_clustersAfter (count start dst rank n : ℕ) :
    fillRequests ctx count (n + 1) (clustersAfter ctx fat n c) start dst c rank =
      (⟨start, dst, count⟩ :: (List.range n).map (fun k =>
        ⟨vfatConvertCluster ctx (chainAt ctx fat c (k + 1)),
          dst + (k + 1) * bytesPerCluster ctx, count⟩),
        chainAt ctx fat c n, rank + n) := by
  induction n generalizing c start dst rank with
  | zero => rfl
  | succ n ih =>
    simp only [clustersAfter, fillRequests, ih, chainAt_next, List.range_succ_eq_map, List.map_cons,
      List.map_map]
    refine Prod.ext ?_ (Prod.ext rfl (by simp only; omega))
    simp only [zero_add, one_mul, List.cons.injEq, true_and]
    refine ⟨rfl, List.map_congr_left fun k _ => ?_⟩
    simp only [Function.comp_apply, BlkRequest.mk.injEq, true_and, and_true]
    rw [Nat.succ_eq_add_one]
    ring

end Lookups

section Geometry
variable {ctx} {index : ℕ}

/-- The rank that `vfat_pgio_reg` computes for a page. -/
def pageRank (ctx : VfatContext) (index : ℕ) : ℕ :=
  index * pageSize % 2 ^ 32 / bytesPerCluster ctx

lemma bytesPerCluster_dvd (h : bytesPerCluster ctx ≤ pageSize) :
    bytesPerCluster ctx ∣ pageSize ∧ 0 < bytesPerCluster ctx := by
  rcases ctx.cluster_page with hdvd | ⟨hdvd, hpos⟩
  · exact ⟨hdvd, Nat.pos_of_dvd_of_pos hdvd (by decide)⟩
  · have hsector : 0 < ctx.bytesPerSector := Nat.pos_of_dvd_of_pos ctx.sector_page (by decide)
    have hbytes : 0 < bytesPerCluster ctx := Nat.mul_pos hsector hpos
    have heq : bytesPerCluster ctx = pageSize := le_antisymm h (Nat.le_of_dvd hbytes hdvd)
    exact ⟨by rw [heq], hbytes⟩

lemma pageSize_dvd (h : ¬bytesPerCluster ctx ≤ pageSize) : pageSize ∣ bytesPerCluster ctx := by
  rcases ctx.cluster_page with hdvd | ⟨hdvd, -⟩
  · exact absurd (Nat.le_of_dvd (by decide) hdvd) h
  · exact hdvd

lemma clustersPerPage_pos : 0 < clustersPerPage ctx := by
  unfold clustersPerPage
  split_ifs with h
  · exact Nat.div_pos h (bytesPerCluster_dvd h).2
  · exact one_pos

lemma pageRank_of_le (hindex : index < 2 ^ 20) (h : bytesPerCluster ctx ≤ pageSize) :
    pageRank ctx index = index * clustersPerPage ctx := by
  have hwrap : index * pageSize < 2 ^ 32 := by
    rw [pageSize]
    omega
  rw [pageRank, Nat.mod_eq_of_lt hwrap, Nat.mul_div_assoc _ (bytesPerCluster_dvd h).1,
    clustersPerPage, if_pos h]

lemma pageRank_of_lt (hindex : index < 2 ^ 20) (h : ¬bytesPerCluster ctx ≤ pageSize) :
    pageRank ctx index = index / (bytesPerCluster ctx / pageSize) := by
  obtain ⟨pages, hpages⟩ := pageSize_dvd h
  have hwrap : index * pageSize < 2 ^ 32 := by
    rw [pageSize]
    omega
  rw [pageRank, Nat.mod_eq_of_lt hwrap, hpages, Nat.mul_div_cancel_left _ (by decide), mul_comm,
    Nat.mul_div_mul_left _ _ (by decide)]

lemma lastRank_eq (hindex : index < 2 ^ 20) :
    lastRank ctx index = pageRank ctx index + (clustersPerPage ctx - 1) := by
  unfold lastRank
  split_ifs with h
  · rw [pageRank_of_le hindex h]
  · rw [pageRank_of_lt hindex h, clustersPerPage, if_neg h]
    rfl

lemma pageRequests_eq (fat : Fat) (c : ℕ) (hindex : index < 2 ^ 20) :
    let first := chainAt ctx fat c (pageRank ctx index)
    let spanned := pageSize < bytesPerCluster ctx
    let count := if spanned then pageSize / ctx.bytesPerSector else ctx.sectorsPerCluster
    pageRequests ctx fat c index =
      ⟨if spanned then wadd (vfatConvertCluster ctx first)
        (index % (bytesPerCluster ctx / pageSize) * count) else vfatConvertCluster ctx first,
        0, count⟩ ::
      (List.range (clustersPerPage ctx - 1)).map fun k =>
        ⟨vfatConvertCluster ctx (chainAt ctx fat first (k + 1)), 0 + (k + 1) * bytesPerCluster ctx,
          count⟩ := by
  intro first spanned count
  by_cases h : bytesPerCluster ctx ≤ pageSize
  · have hspanned : ¬spanned := not_lt.2 h
    have hfirst : first = chainAt ctx fat c (index * clustersPerPage ctx) := by
      rw [← pageRank_of_le hindex h]
    have hpos : 0 < clustersPerPage ctx := clustersPerPage_pos
    obtain ⟨n, hn⟩ : ∃ n, clustersPerPage ctx = n + 1 := ⟨_, (Nat.sub_add_cancel hpos).symm⟩
    simp only [pageRequests, if_pos h, count, if_neg hspanned, hfirst, ← chainAt_add]
    rw [hn, List.range_succ_eq_map, List.map_cons, List.map_map]
    simp only [Nat.add_sub_cancel, zero_mul, add_zero, zero_add]
    rfl
  · have hspanned : spanned := not_le.1 h
    have hone : clustersPerPage ctx = 1 := by rw [clustersPerPage, if_neg h]
    have hfirst : first = chainAt ctx fat c (index / (bytesPerCluster ctx / pageSize)) := by
      rw [← pageRank_of_lt hindex h]
    simp only [pageRequests, if_neg h, count, if_pos hspanned, hone, hfirst, sectorsPerPage]
    rfl

end Geometry

def PairOk (fat : Fat) (file : VfatFile) : Prop :=
  file.pgCurrentCluster = chainAt ctx fat file.nodeCluster file.pgCurrentRank

section Calls
variable {ctx loads} {fat : Fat} {file : VfatFile} {rank : ℕ}

variable (loads) in
/-- A lookup of a higher rank goes on from the pair, one of a lower rank from the start. -/
lemma pair_lookup (hpair : PairOk ctx fat file)
    (hin : InChain ctx fat file.nodeCluster rank) :
    Finds loads fat (chainAt ctx fat file.nodeCluster rank, false)
      (vfatClusterLookup ctx loads fat
        (if file.pgCurrentRank < rank then file.pgCurrentCluster else file.nodeCluster)
        (if file.pgCurrentRank < rank then rank - file.pgCurrentRank else rank)) := by
  by_cases hlt : file.pgCurrentRank < rank
  · have hsum : file.pgCurrentRank + (rank - file.pgCurrentRank) = rank := by omega
    rw [if_pos hlt, if_pos hlt, hpair]
    nth_rewrite 1 [← hsum]
    rw [chainAt_add]
    exact vfatClusterLookup_finds loads (InChain.drop (by rwa [hsum]))
  · rw [if_neg hlt, if_neg hlt]
    exact vfatClusterLookup_finds loads hin

variable (loads) in
lemma firstCluster_finds (hpair : PairOk ctx fat file)
    (hfirst : rank = 0 → file.pgCurrentRank = 0) (hin : InChain ctx fat file.nodeCluster rank) :
    Finds loads fat (chainAt ctx fat file.nodeCluster rank, false)
      (firstCluster ctx loads fat file rank) := by
  unfold firstCluster
  by_cases hne : rank ≠ file.pgCurrentRank
  · have heffective :
        (if file.pgCurrentRank < rank then rank - file.pgCurrentRank else rank) ≠ 0 := by
      split_ifs with hlt
      · omega
      · intro hzero
        exact hne (hzero.trans (hfirst hzero).symm)
    simp only [if_pos hne, if_pos heffective]
    exact pair_lookup loads hpair hin
  · have heq : rank = file.pgCurrentRank := not_not.1 hne
    rw [if_neg hne, heq, ← hpair]
    exact .inl rfl

variable (loads) in
theorem vfatLseek_pairOk (hpair : PairOk ctx fat file) {offset : ℕ} (hoffset : offset < 2 ^ 32)
    (hin : InChain ctx fat file.nodeCluster (offset / bytesPerCluster ctx)) :
    (vfatLseek ctx loads fat file offset).1 = fat ∧
      (vfatLseek ctx loads fat file offset).2.1.nodeCluster = file.nodeCluster ∧
      PairOk ctx fat (vfatLseek ctx loads fat file offset).2.1 := by
  unfold vfatLseek
  by_cases hzero : offset = 0
  · rw [if_pos hzero]
    exact ⟨rfl, rfl, rfl⟩
  · simp only [if_neg hzero, Nat.mod_eq_of_lt hoffset]
    by_cases heq : offset / bytesPerCluster ctx = file.pgCurrentRank
    · rw [if_pos heq]
      exact ⟨rfl, rfl, hpair⟩
    · rw [if_neg heq]
      by_cases heffective : (if file.pgCurrentRank < offset / bytesPerCluster ctx then
          offset / bytesPerCluster ctx - file.pgCurrentRank else offset / bytesPerCluster ctx) ≠ 0
      · rw [if_pos heffective]
        rcases pair_lookup loads hpair hin with hlookup | ⟨hlookup, -⟩
        · rw [hlookup]
          exact ⟨rfl, rfl, rfl⟩
        · rw [hlookup]
          exact ⟨rfl, rfl, hpair⟩
      · -- the rank is 0, and the lookup would be from the start of the chain
        have hlow : ¬file.pgCurrentRank < offset / bytesPerCluster ctx := by
          intro hlt
          rw [if_pos hlt] at heffective
          omega
        rw [if_neg hlow, not_not] at heffective
        rw [if_neg (by simp [heffective]), if_neg hlow, heffective]
        exact ⟨rfl, rfl, rfl⟩

/-- The page is one whose index `<< 12` is a word, and no other rank was cached when the page
starts in the first cluster. -/
def PageFound (ctx : VfatContext) (file : VfatFile) (index : ℕ) : Prop :=
  index < 2 ^ 20 ∧ (pageRank ctx index = 0 → file.pgCurrentRank = 0)

theorem vfatPgioReg_outcome (env : PgioOutcome) {index : ℕ} (isRead : Bool)
    (hpair : PairOk ctx fat file) (hfound : PageFound ctx file index)
    (hin : InChain ctx fat file.nodeCluster (lastRank ctx index)) :
    vfatPgioReg ctx env fat file index isRead =
        (fat, { file with pgCurrentCluster := chainAt ctx fat file.nodeCluster (lastRank ctx index)
                          pgCurrentRank := lastRank ctx index },
          pageRequests ctx fat file.nodeCluster index,
          if env.syncOk then .ok () else .error .ioErr) ∨
      ∃ err, vfatPgioReg ctx env fat file index isRead = (fat, file, [], .error err) ∧
        (env.initOk = false ∨ ∃ page, env.loads page = false) := by
  obtain ⟨hindex, hrank⟩ := hfound
  have hlast : lastRank ctx index = pageRank ctx index + (clustersPerPage ctx - 1) :=
    lastRank_eq hindex
  have hcount : 0 < clustersPerPage ctx := clustersPerPage_pos
  rw [hlast] at hin
  have hfirst := firstCluster_finds env.loads hpair hrank (hin.mono (by omega))
  have hnext := nextClusters_finds env.loads isRead env.junk hin.drop
  obtain ⟨first, hfirstEq⟩ : ∃ first, first = chainAt ctx fat file.nodeCluster (pageRank ctx index) :=
    ⟨_, rfl⟩
  rw [← hfirstEq] at hfirst hnext
  have hpage : index * pageSize % 2 ^ 32 / bytesPerCluster ctx = pageRank ctx index := rfl
  unfold vfatPgioReg
  rcases hfirst with hfirst | ⟨hfirst, hload⟩
  · rcases hnext with hnext | ⟨hnext, hload⟩
    · -- none of the clusters is new, so a read issues all the requests as a write does
      have hread : (((first, false) :: (clustersAfter ctx fat (clustersPerPage ctx - 1) first).map
          fun next => (next, false)).takeWhile fun c => !c.2).length = clustersPerPage ctx := by
        rw [List.takeWhile_eq_self_iff.2 (by simp), List.length_cons, List.length_map,
          clustersAfter_eq, List.length_map, List.length_range]
        omega
      have hreads : (if isRead then (((first, false) ::
          (clustersAfter ctx fat (clustersPerPage ctx - 1) first).map
          fun next => (next, false)).takeWhile fun c => !c.2).length else clustersPerPage ctx) =
          clustersPerPage ctx := by
        rw [hread, ite_self]
      have hmap : ((clustersAfter ctx fat (clustersPerPage ctx - 1) first).map
          fun next => (next, false)).map Prod.fst =
          clustersAfter ctx fat (clustersPerPage ctx - 1) first := by
        rw [List.map_map]
        exact List.map_id _
      cases hinit : env.initOk with
      | false =>
        refine .inr ⟨.enomem, ?_, .inl rfl⟩
        simp only [hpage, hfirst, hnext, hreads]
        rw [if_neg (by omega), if_neg (by simp)]
      | true =>
        have hfill := fun count start dst rank => fillRequests_clustersAfter ctx fat
          (c := first) count start dst rank (clustersPerPage ctx - 1)
        rw [Nat.sub_add_cancel hcount] at hfill
        refine .inl ?_
        simp only [hpage, hfirst, hnext, hreads, hmap, hfill]
        rw [if_neg (by omega), if_pos (by simp), pageRequests_eq fat file.nodeCluster hindex, hlast,
          chainAt_add, ← hfirstEq]
    · refine .inr ⟨.ioErr, ?_, .inr hload⟩
      simp only [hpage, hfirst, hnext]
  · refine .inr ⟨.ioErr, ?_, .inr hload⟩
    simp only [hpage, hfirst]

end Calls

/-- The branch of `vfat_pgio_reg` that forgets the first cluster is not taken. -/
def Usable (s : FileRun) : FileCall → Prop
  | .lseek _ _ => True
  | .pgio index _ _ => PageFound ctx s.file index

structure FileOk (s : FileRun) : Prop where
  pair : PairOk ctx s.fat s.file
  requests : ∀ index requests, (index, requests) ∈ s.issued →
    requests = pageRequests ctx s.fat s.file.nodeCluster index

variable {ctx}

theorem FileOk.keep {s t : FileRun} {e : FileCall} (h : FileOk ctx s) (hok : Usable ctx s e)
    (hstep : fileStep ctx s e = some t) : FileOk ctx t := by
  cases e with
  | lseek offset loads =>
    simp only [fileStep] at hstep
    split_ifs at hstep with hcall
    obtain ⟨hfat, hnode, hpair⟩ := vfatLseek_pairOk loads h.pair hcall.1 hcall.2
    cases hstep
    refine ⟨by simpa only [hfat] using hpair, fun index requests hmem => ?_⟩
    simp only [hfat, hnode]
    exact h.requests index requests hmem
  | pgio index isRead env =>
    by_cases hcall : index < 2 ^ 32 ∧ InChain ctx s.fat s.file.nodeCluster (lastRank ctx index)
    · simp only [fileStep, if_pos hcall] at hstep
      rcases vfatPgioReg_outcome env isRead h.pair hok hcall.2 with hout | ⟨err, hout, -⟩
      · rw [hout] at hstep
        cases hstep
        refine ⟨rfl, fun index' requests hmem => ?_⟩
        simp only at hmem ⊢
        split_ifs at hmem
        · exact h.requests index' requests hmem
        · rcases List.mem_cons.1 hmem with heq | hmem
          · cases heq
            rfl
          · exact h.requests index' requests hmem
      · rw [hout] at hstep
        cases hstep
        exact ⟨h.pair, h.requests⟩
    · simp only [fileStep, if_neg hcall] at hstep
      cases hstep

/-- Whatever was accessed before, the requests issued for a page are those of its clusters in the
chain; a call whose page loads and whose device requests succeed issues them and returns 0. -/
theorem page_requests_follow_chain {s : FileRun} (h : (fileMachine ctx).Reach (Usable ctx) s) :
    s.file.pgCurrentCluster = chainAt ctx s.fat s.file.nodeCluster s.file.pgCurrentRank ∧
      (∀ index requests, (index, requests) ∈ s.issued →
        requests = pageRequests ctx s.fat s.file.nodeCluster index) ∧
      ∀ index isRead (env : PgioOutcome), PageFound ctx s.file index →
        InChain ctx s.fat s.file.nodeCluster (lastRank ctx index) →
        (∀ page, env.loads page = true) → env.initOk = true → env.syncOk = true →
        (vfatPgioReg ctx env s.fat s.file index isRead).2.2 =
          (pageRequests ctx s.fat s.file.nodeCluster index, .ok ()) := by
  have hok : FileOk ctx s := by
    refine h.invariant ?_ fun s e t hs hguard hstep => hs.keep hguard hstep
    rintro s ⟨hcluster, hrank, hissued⟩
    refine ⟨?_, by simp [hissued]⟩
    rw [PairOk, hcluster, hrank]
    rfl
  refine ⟨hok.pair, hok.requests, ?_⟩
  intro index isRead env hfound hin hloads hinit hsync
  rcases vfatPgioReg_outcome env isRead hok.pair hfound hin with hout | ⟨err, -, hfail⟩
  · rw [hout, hsync]
    rfl
  · rcases hfail with hfail | ⟨page, hfail⟩
    · simp [hinit] at hfail
    · simp [hloads] at hfail

def twoClusters : Fat :=
  ⟨fun page word => if page = 0 ∧ word = 2 then 5 else endOfChain, 0, 2⟩

def opened : FileRun := ⟨twoClusters, ⟨2, 2, 0⟩, []⟩

def readPage (index : ℕ) : FileCall := .pgio index true ⟨fun _ => true, 0, true, true⟩

def secondRead : FileRun := ⟨twoClusters, ⟨2, 5, 1⟩, [(1, [⟨124, 0, 8⟩])]⟩

theorem page_requests_follow_chain_second :
    (fileMachine smallVolume).Reach (Usable smallVolume) secondRead ∧
      ∀ requests, (1, requests) ∈ secondRead.issued →
        requests = pageRequests smallVolume twoClusters 2 1 := by
  have hreach : (fileMachine smallVolume).Reach (Usable smallVolume) secondRead := by
    refine .step (s := opened) (e := readPage 1) (.init ⟨rfl, rfl, rfl⟩) ⟨by decide, ?_⟩ ?_
    · intro _
      rfl
    · rfl
  exact ⟨hreach, (page_requests_follow_chain hreach).2.1 1⟩

/-- The first page read after the second gives the second cluster again. -/
theorem first_page_reads_second_cluster :
    ∃ s, (fileMachine smallVolume).Reachable s ∧
      (0, [⟨124, 0, 8⟩]) ∈ s.issued ∧
      pageRequests smallVolume s.fat s.file.nodeCluster 0 = [⟨100, 0, 8⟩] ∧
      s.file.pgCurrentRank = 0 ∧ s.file.pgCurrentCluster = 5 ∧
      chainAt smallVolume s.fat s.file.nodeCluster 0 = 2 := by
  refine ⟨⟨twoClusters, ⟨2, 5, 0⟩, [(0, [⟨124, 0, 8⟩]), (1, [⟨124, 0, 8⟩])]⟩, ?_, ?_⟩
  · have hsecond : (fileMachine smallVolume).Reachable secondRead :=
      .step (s := opened) (e := readPage 1) (.init ⟨rfl, rfl, rfl⟩) trivial rfl
    exact .step (e := readPage 0) hsecond trivial rfl
  · decide

end Vfat
end Almos
