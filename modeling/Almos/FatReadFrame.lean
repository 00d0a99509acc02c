import Almos.FatPageIo
import Almos.FatAllocation

/-!
# What a read does to the FAT

A page read looks up the clusters of the page with the function that writes use, which extends a
chain at its end.
-/
namespace Almos.Vfat
open Word

variable (ctx : VfatContext) (loads : ℕ → Bool)

def FindsFree (fat : Fat) : Prop :=
  ∃ s i, fat.lastAllocatedSector ≤ s ∧ s < ctx.fatBeginLba + ctx.fatBlkCount ∧
    i < sectorEntries ctx ∧ (s = fat.lastAllocatedSector → fat.lastAllocatedIndex ≤ i) ∧
    entryAt fat (sectorAddr ctx s i) = 0 ∧
    ∀ t, fat.lastAllocatedSector ≤ t → t ≤ s → loads (t / sectorsPerPage ctx) = true

/-- The entry of the cluster of rank `k` after `start` can be read. -/
def Readable (fat : Fat) (start k : ℕ) : Prop :=
  loads (lookupAddr ctx (chainAt ctx fat start k)).1 = true

/-- The cluster of rank `k` after `start` links to one more. -/
def Continues (fat : Fat) (start k : ℕ) : Prop :=
  chainAt ctx fat start (k + 1) ≠ badCluster ∧ chainAt ctx fat start (k + 1) < endOfChain

def MeetsEnd (fat : Fat) (start steps : ℕ) : Prop :=
  ∃ k < steps, (∀ j ≤ k, Readable ctx loads fat start j) ∧ (∀ j < k, Continues ctx fat start j) ∧
    endOfChain ≤ chainAt ctx fat start (k + 1)

def StaysInside (fat : Fat) (start steps : ℕ) : Prop :=
  (∀ j ≤ steps, Readable ctx loads fat start j) ∧ ∀ j < steps, Continues ctx fat start j

/-- Where the lookups of a page start, and how many links they follow. -/
def walkStart (file : VfatFile) (rank : ℕ) : ℕ :=
  if file.pgCurrentRank < rank ∨ rank = file.pgCurrentRank ∨ rank = 0 then file.pgCurrentCluster
  else file.nodeCluster

def firstSteps (file : VfatFile) (rank : ℕ) : ℕ :=
  if file.pgCurrentRank ≤ rank then rank - file.pgCurrentRank else rank

def readRank (index : ℕ) : ℕ := index * pageSize % 2 ^ 32 / bytesPerCluster ctx

def walkSteps (file : VfatFile) (index : ℕ) : ℕ :=
  firstSteps file (readRank ctx index) + (clustersPerPage ctx - 1)

def TableKept (fat fat' : Fat) : Prop := ∀ c, entryOf ctx fat' c = entryOf ctx fat c

structure Keeps (fat fat' : Fat) : Prop where
  used : ∀ c, entryOf ctx fat c ≠ 0 → entryOf ctx fat' c ≠ 0
  cursor : ctx.fatBeginLba ≤ fat'.lastAllocatedSector

structure Grown (fat fat' : Fat) : Prop extends Keeps ctx fat fat' where
  taken : ∃ n, entryOf ctx fat n = 0 ∧ entryOf ctx fat' n ≠ 0

section Walks
variable {ctx loads} {fat fat' fat'' : Fat} {start a b : ℕ}

lemma Keeps.trans (h : Keeps ctx fat fat') (h' : Keeps ctx fat' fat'') : Keeps ctx fat fat'' :=
  ⟨fun c hc => h'.used c (h.used c hc), h'.cursor⟩

lemma Grown.trans (h : Grown ctx fat fat') (h' : Keeps ctx fat' fat'') : Grown ctx fat fat'' := by
  obtain ⟨n, hfree, hused⟩ := h.taken
  exact ⟨h.toKeeps.trans h', n, hfree, h'.used n hused⟩

lemma Grown.not_kept (h : Grown ctx fat fat') : ¬TableKept ctx fat fat' := by
  obtain ⟨n, hfree, hused⟩ := h.taken
  intro hkept
  exact hused (hkept n ▸ hfree)

lemma readable_add (k : ℕ) : Readable ctx loads fat (chainAt ctx fat start a) k ↔
    Readable ctx loads fat start (a + k) := by
  rw [Readable, Readable, chainAt_add]

lemma continues_add (k : ℕ) : Continues ctx fat (chainAt ctx fat start a) k ↔
    Continues ctx fat start (a + k) := by
  rw [Continues, Continues, ← chainAt_add]
  rfl

/-- A walk comes to the end in its first part, or stays inside there and does in the rest. -/
lemma meetsEnd_add : MeetsEnd ctx loads fat start (a + b) ↔ MeetsEnd ctx loads fat start a ∨
    StaysInside ctx loads fat start a ∧ MeetsEnd ctx loads fat (chainAt ctx fat start a) b := by
  constructor
  · rintro ⟨k, hk, hread, hcont, hend⟩
    by_cases hka : k < a
    · exact .inl ⟨k, hka, hread, hcont, hend⟩
    · obtain ⟨j, rfl⟩ := Nat.exists_eq_add_of_le (not_lt.1 hka)
      refine .inr ⟨⟨fun i hi => hread i (by omega), fun i hi => hcont i (by omega)⟩, j, by omega,
        ?_, ?_, ?_⟩
      · exact fun i hi => (readable_add i).2 (hread _ (by omega))
      · exact fun i hi => (continues_add i).2 (hcont _ (by omega))
      · rw [← chainAt_add, ← add_assoc]
        exact hend
  · rintro (⟨k, hk, hread, hcont, hend⟩ | ⟨⟨hreadA, hcontA⟩, k, hk, hread, hcont, hend⟩)
    · exact ⟨k, by omega, hread, hcont, hend⟩
    · refine ⟨a + k, by omega, ?_, ?_, ?_⟩
      · intro j hj
        by_cases hja : j ≤ a
        · exact hreadA j hja
        · obtain ⟨i, rfl⟩ := Nat.exists_eq_add_of_le (show a ≤ j by omega)
          exact (readable_add i).1 (hread i (by omega))
      · intro j hj
        by_cases hja : j < a
        · exact hcontA j hja
        · obtain ⟨i, rfl⟩ := Nat.exists_eq_add_of_le (not_lt.1 hja)
          exact (continues_add i).1 (hcont i (by omega))
      · rw [← chainAt_add, ← add_assoc] at hend
        exact hend

lemma staysInside_add : StaysInside ctx loads fat start (a + b) ↔
    StaysInside ctx loads fat start a ∧ StaysInside ctx loads fat (chainAt ctx fat start a) b := by
  constructor
  · rintro ⟨hread, hcont⟩
    refine ⟨⟨fun j hj => hread j (by omega), fun j hj => hcont j (by omega)⟩, fun j hj => ?_,
      fun j hj => ?_⟩
    · exact (readable_add j).2 (hread _ (by omega))
    · exact (continues_add j).2 (hcont _ (by omega))
  · rintro ⟨⟨hreadA, hcontA⟩, hread, hcont⟩
    refine ⟨fun j hj => ?_, fun j hj => ?_⟩
    · by_cases hja : j ≤ a
      · exact hreadA j hja
      · obtain ⟨i, rfl⟩ := Nat.exists_eq_add_of_le (show a ≤ j by omega)
        exact (readable_add i).1 (hread i (by omega))
    · by_cases hja : j < a
      · exact hcontA j hja
      · obtain ⟨i, rfl⟩ := Nat.exists_eq_add_of_le (not_lt.1 hja)
        exact (continues_add i).1 (hcont i (by omega))

end Walks

section Extensions
variable {ctx loads} {fat : Fat} {current : ℕ}

/-- The search finds an entry just when there is a free one with the pages up to it read. -/
lemma scanSector_finds (todo sector index : ℕ) :
    (∃ found, scanSector ctx loads fat todo sector index = .ok (some found)) ↔
      ∃ s i, sector ≤ s ∧ s < sector + todo ∧ i < sectorEntries ctx ∧ (s = sector → index ≤ i) ∧
        entryAt fat (sectorAddr ctx s i) = 0 ∧
        ∀ t, sector ≤ t → t ≤ s → loads (t / sectorsPerPage ctx) = true := by
  induction todo generalizing sector index with
  | zero =>
    refine iff_of_false (by simp [scanSector]) ?_
    rintro ⟨s, i, hle, hlt, -⟩
    omega
  | succ todo ih =>
    rw [scanSector]
    by_cases hload : loads (sector / sectorsPerPage ctx) = true
    · rw [if_pos hload]
      rcases scanIndex_spec fat sector (sectorEntries ctx - index) index with
        ⟨found, hscan, hindex, hlt, hfree, -⟩ | ⟨hscan, hnone⟩
      · rw [hscan]
        refine iff_of_true ⟨_, rfl⟩ ⟨sector, found, le_rfl, by omega, by omega, fun _ => hindex,
          hfree, fun t hle hge => ?_⟩
        rwa [le_antisymm hge hle]
      · rw [hscan]
        simp only
        rw [ih (sector + 1) 0]
        constructor
        · rintro ⟨s, i, hle, hlt, hi, -, hfree, hread⟩
          refine ⟨s, i, by omega, by omega, hi, fun heq => absurd heq (by omega), hfree, ?_⟩
          intro t hge hts
          rcases hge.eq_or_lt with rfl | hgt
          · exact hload
          · exact hread t hgt hts
        · rintro ⟨s, i, hle, hlt, hi, hindex, hfree, hread⟩
          have hne : s ≠ sector := by
            rintro rfl
            exact hnone i (hindex rfl) (by have := hindex rfl; omega) hfree
          exact ⟨s, i, by omega, by omega, hi, fun _ => Nat.zero_le i, hfree,
            fun t hge hts => hread t (by omega) hts⟩
    · rw [if_neg hload]
      refine iff_of_false (by simp) ?_
      rintro ⟨s, i, hle, -, -, -, -, hread⟩
      exact hload (hread sector le_rfl hle)

variable (loads) in
/-- An allocation marks a free entry when it finds one, and else changes nothing. -/
lemma vfatAllocFatEntry_finds (hcursor : ctx.fatBeginLba ≤ fat.lastAllocatedSector) :
    (FindsFree ctx loads fat ∧ ∃ n, (vfatAllocFatEntry ctx loads fat).2 = .ok n ∧
      n < entryCount ctx ∧ entryOf ctx fat n = 0 ∧
      (∀ c, entryOf ctx (vfatAllocFatEntry ctx loads fat).1 c =
        if c = n then endOfChain else entryOf ctx fat c) ∧
      ctx.fatBeginLba ≤ (vfatAllocFatEntry ctx loads fat).1.lastAllocatedSector) ∨
    (¬FindsFree ctx loads fat ∧ (vfatAllocFatEntry ctx loads fat).1 = fat ∧
      ((vfatAllocFatEntry ctx loads fat).2 = .ok 0 ∨
        ∃ err, (vfatAllocFatEntry ctx loads fat).2 = .error err)) := by
  have hfinds : FindsFree ctx loads fat ↔ ScanFinds ctx loads fat := by
    rw [ScanFinds, scanSector_finds, FindsFree]
    refine exists_congr fun s => exists_congr fun i => and_congr_right fun hle => ?_
    rw [show s < fat.lastAllocatedSector +
      (ctx.fatBeginLba + ctx.fatBlkCount - fat.lastAllocatedSector) ↔
        s < ctx.fatBeginLba + ctx.fatBlkCount by omega]
  rw [hfinds]
  exact vfatAllocFatEntry_cases loads fat hcursor

variable (loads) in
lemma vfatFreeFatEntry_end (fuel : ℕ) {c : ℕ} (hend : badCluster ≤ entryOf ctx fat c) :
    (vfatFreeFatEntry ctx loads (fuel + 2) fat c).1 = fat ∨
      (vfatFreeFatEntry ctx loads (fuel + 2) fat c).1 = setEntry fat (clusterAddr ctx c) 0 := by
  rw [vfatFreeFatEntry]
  split_ifs
  · simp only [freeEntry]
    rw [vfatFreeFatEntry, if_neg (fun h => absurd h.2 (not_lt.2 hend))]
    exact .inr rfl
  · exact .inl rfl
  · exact .inl rfl

lemma keeps_marked {fat' : Fat} {n : ℕ} (hfree : entryOf ctx fat n = 0)
    (hmark : ∀ c, entryOf ctx fat' c = if c = n then endOfChain else entryOf ctx fat c)
    (hcursor : ctx.fatBeginLba ≤ fat'.lastAllocatedSector) :
    Keeps ctx fat fat' ∧ Keeps ctx fat (setEntry fat' (clusterAddr ctx n) 0) := by
  refine ⟨⟨fun c hc => ?_, hcursor⟩, ⟨fun c hc => ?_, hcursor⟩⟩
  · rw [hmark]
    split_ifs
    · decide
    · exact hc
  · rw [entryOf_setEntry, hmark]
    have hne : c ≠ n := by
      rintro rfl
      exact hc hfree
    rw [if_neg hne, if_neg hne]
    exact hc

variable (current) in
lemma grown_linked {fat' : Fat} {n : ℕ} (hfree : entryOf ctx fat n = 0)
    (hmark : ∀ c, entryOf ctx fat' c = if c = n then endOfChain else entryOf ctx fat c)
    (hcursor : ctx.fatBeginLba ≤ fat'.lastAllocatedSector) (hn : n % 2 ^ 28 ≠ 0) :
    Grown ctx fat (setEntry fat' (clusterAddr ctx current) n) := by
  have hset : ∀ c, entryOf ctx fat' c ≠ 0 →
      entryOf ctx (setEntry fat' (clusterAddr ctx current) n) c ≠ 0 := by
    intro c hc
    rw [entryOf_setEntry]
    split_ifs
    · exact hn
    · exact hc
  have hkeeps := (keeps_marked hfree hmark hcursor).1
  refine ⟨⟨fun c hc => hset c (hkeeps.used c hc), hcursor⟩, n, hfree, hset n ?_⟩
  rw [hmark, if_pos rfl]
  decide

variable (loads current) in
/-- An extension changes nothing when the allocation finds no entry. Else it gives no entry back
that was in use, and takes one if the chain really ends there. -/
lemma vfatExtendCluster_spec (hcursor : ctx.fatBeginLba ≤ fat.lastAllocatedSector) :
    (¬FindsFree ctx loads fat ∧ (vfatExtendCluster ctx loads fat current).1 = fat ∧
      ((vfatExtendCluster ctx loads fat current).2 = .ok 0 ∨
        ∃ err, (vfatExtendCluster ctx loads fat current).2 = .error err)) ∨
    (FindsFree ctx loads fat ∧ Keeps ctx fat (vfatExtendCluster ctx loads fat current).1 ∧
      (loads (clusterAddr ctx current).1 = true → endOfChain ≤ entryOf ctx fat current →
        Grown ctx fat (vfatExtendCluster ctx loads fat current).1)) := by
  have hspec := vfatAllocFatEntry_finds loads hcursor
  rw [vfatExtendCluster]
  rcases halloc : vfatAllocFatEntry ctx loads fat with ⟨fat', result⟩
  rw [halloc] at hspec
  rcases hspec with ⟨hfinds, n, hresult, hlt, hfree, hmark, hcur⟩ | ⟨hfinds, hsame, hresult⟩
  · have hkeeps := keeps_marked hfree hmark hcur
    simp only at hresult
    subst hresult
    refine .inr ⟨hfinds, ?_⟩
    have hcurrent : endOfChain ≤ entryOf ctx fat current →
        entryOf ctx fat' current = entryOf ctx fat current := by
      intro hend
      have hne : current ≠ n := by
        rintro rfl
        rw [hfree] at hend
        exact absurd hend (by decide)
      rw [hmark, if_neg hne]
    cases n with
    | zero =>
      refine ⟨hkeeps.1, fun _ _ => ⟨hkeeps.1, 0, hfree, ?_⟩⟩
      simp only
      rw [hmark, if_pos rfl]
      decide
    | succ k =>
      have hn : (k + 1) % 2 ^ 28 ≠ 0 := by
        have := ctx.entries_max
        rw [Nat.mod_eq_of_lt (hlt.trans_le this)]
        exact Nat.succ_ne_zero k
      have hfailed : Keeps ctx fat (vfatFreeFatEntry ctx loads (2 ^ 28) fat' (k + 1)).1 := by
        have hend : badCluster ≤ entryOf ctx fat' (k + 1) := by
          rw [hmark, if_pos rfl]
          decide
        have hrelease := vfatFreeFatEntry_end loads (2 ^ 28 - 2) hend
        rw [show (2 : ℕ) ^ 28 - 2 + 2 = 2 ^ 28 by norm_num] at hrelease
        rcases hrelease with hrelease | hrelease
        · rw [hrelease]
          exact hkeeps.1
        · rw [hrelease]
          exact hkeeps.2
      have hgrown := grown_linked current hfree hmark hcur hn
      simp only [extendLink]
      by_cases hload : loads (clusterAddr ctx current).1 = true
      · rw [if_pos hload]
        by_cases hlast : endOfChain ≤ entryAt fat' (clusterAddr ctx current)
        · rw [if_pos hlast]
          exact ⟨hgrown.toKeeps, fun _ _ => hgrown⟩
        · rw [if_neg hlast]
          refine ⟨?_, fun _ hend => absurd (hend.trans (hcurrent hend).ge) hlast⟩
          simp only
          split_ifs
          · exact hkeeps.2
          · exact hfailed
      · rw [if_neg hload]
        exact ⟨hfailed, fun hread => absurd hread hload⟩
  · simp only at hsame hresult
    subst hsame
    refine .inl ⟨hfinds, ?_⟩
    rcases hresult with rfl | ⟨err, rfl⟩
    · exact ⟨rfl, .inl rfl⟩
    · exact ⟨rfl, .inr ⟨err, rfl⟩⟩

end Extensions

section Lookups
variable {ctx loads} {fat : Fat} {current todo : ℕ} {extended : Bool}

lemma Keeps.refl (hcursor : ctx.fatBeginLba ≤ fat.lastAllocatedSector) : Keeps ctx fat fat :=
  ⟨fun _ hc => hc, hcursor⟩

variable (loads current) in
lemma vfatExtendCluster_keeps (hcursor : ctx.fatBeginLba ≤ fat.lastAllocatedSector) :
    Keeps ctx fat (vfatExtendCluster ctx loads fat current).1 := by
  rcases vfatExtendCluster_spec loads current hcursor with ⟨-, hsame, -⟩ | ⟨-, hkeeps, -⟩
  · rw [hsame]
    exact .refl hcursor
  · exact hkeeps

variable (loads current todo extended) in
lemma lookupLoop_keeps (hcursor : ctx.fatBeginLba ≤ fat.lastAllocatedSector) :
    Keeps ctx fat (lookupLoop ctx loads todo fat current extended).1 := by
  induction todo generalizing fat current extended with
  | zero => exact .refl hcursor
  | succ todo ih =>
    have hextend := vfatExtendCluster_keeps loads current hcursor
    rw [lookupLoop]
    split_ifs
    · exact .refl hcursor
    · split
      · rename_i hresult
        rw [hresult] at hextend
        exact hextend
      · rename_i hresult
        rw [hresult] at hextend
        exact hextend
      · rename_i hresult
        rw [hresult] at hextend
        split_ifs
        · exact hextend.trans (ih _ _ hextend.cursor)
        · exact hextend
    · exact ih _ _ hcursor
    · exact .refl hcursor

/-- What a lookup of so many links does: it takes an entry at the end of the chain, or finds its
cluster in the chain, or fails. -/
def Outcome (ctx : VfatContext) (loads : ℕ → Bool) (fat : Fat) (start steps : ℕ)
    (out : Fat × Except VfsError (ℕ × Bool)) : Prop :=
  (Grown ctx fat out.1 ∧ MeetsEnd ctx loads fat start steps ∧ FindsFree ctx loads fat) ∨
  (out.1 = fat ∧ (∃ e, out.2 = .ok (chainAt ctx fat start steps, e)) ∧
    StaysInside ctx loads fat start steps) ∨
  (out.1 = fat ∧ (∃ err, out.2 = .error err) ∧ ¬StaysInside ctx loads fat start steps ∧
    ¬(MeetsEnd ctx loads fat start steps ∧ FindsFree ctx loads fat))

lemma meetsEnd_one : MeetsEnd ctx loads fat current 1 ↔
    Readable ctx loads fat current 0 ∧ endOfChain ≤ entryAt fat (lookupAddr ctx current) := by
  constructor
  · rintro ⟨k, hk, hread, -, hend⟩
    obtain rfl : k = 0 := by omega
    exact ⟨hread 0 le_rfl, hend⟩
  · rintro ⟨hread, hend⟩
    refine ⟨0, Nat.one_pos, fun j hj => ?_, fun j hj => absurd hj (Nat.not_lt_zero j), hend⟩
    rwa [Nat.le_zero.1 hj]

lemma staysInside_one : StaysInside ctx loads fat current 1 ↔
    Readable ctx loads fat current 0 ∧ Readable ctx loads fat current 1 ∧
      Continues ctx fat current 0 := by
  constructor
  · rintro ⟨hread, hcont⟩
    exact ⟨hread 0 (by omega), hread 1 le_rfl, hcont 0 Nat.one_pos⟩
  · rintro ⟨hzero, hone, hcont⟩
    refine ⟨fun j hj => ?_, fun j hj => ?_⟩
    · obtain rfl | rfl : j = 0 ∨ j = 1 := by omega
      · exact hzero
      · exact hone
    · obtain rfl : j = 0 := by omega
      exact hcont

/-- A walk that stops at its first link neither stays inside nor comes to the end. -/
lemma outcome_stop {out : Fat × Except VfsError (ℕ × Bool)} (hsame : out.1 = fat)
    (herr : ∃ err, out.2 = .error err) (hinside : ¬StaysInside ctx loads fat current 1)
    (hend : ¬(MeetsEnd ctx loads fat current 1 ∧ FindsFree ctx loads fat)) :
    Outcome ctx loads fat current (todo + 1) out := by
  refine .inr (.inr ⟨hsame, herr, fun h => ?_, fun h => ?_⟩)
  · rw [add_comm, staysInside_add] at h
    exact hinside h.1
  · rw [add_comm, meetsEnd_add] at h
    rcases h with ⟨hmeets | ⟨hstays, -⟩, hfree⟩
    · exact hend ⟨hmeets, hfree⟩
    · exact hinside hstays

lemma StaysInside.not_meetsEnd {steps : ℕ} (h : StaysInside ctx loads fat current steps) :
    ¬MeetsEnd ctx loads fat current steps := by
  rintro ⟨k, hk, -, -, hend⟩
  exact absurd (h.2 k hk).2 (not_lt.2 hend)

lemma Outcome.add {steps : ℕ} {out : Fat × Except VfsError (ℕ × Bool)}
    (h : Outcome ctx loads fat (chainAt ctx fat current steps) todo out)
    (hinside : StaysInside ctx loads fat current steps) :
    Outcome ctx loads fat current (todo + steps) out := by
  rw [Outcome, add_comm todo, meetsEnd_add, staysInside_add, chainAt_add]
  rcases h with ⟨hgrown, hmeets, hfree⟩ | ⟨hsame, hok, hstays⟩ | ⟨hsame, herr, hstays, hmeets⟩
  · exact .inl ⟨hgrown, .inr ⟨hinside, hmeets⟩, hfree⟩
  · exact .inr (.inl ⟨hsame, hok, hinside, hstays⟩)
  · refine .inr (.inr ⟨hsame, herr, fun h => hstays h.2, ?_⟩)
    rintro ⟨hfirst | ⟨-, hrest⟩, hfree⟩
    · exact hinside.not_meetsEnd hfirst
    · exact hmeets ⟨hrest, hfree⟩

lemma lookupLoop_outcome (hcursor : ctx.fatBeginLba ≤ fat.lastAllocatedSector)
    (hread : Readable ctx loads fat current 0) :
    Outcome ctx loads fat current todo (lookupLoop ctx loads todo fat current extended) := by
  induction todo generalizing current extended with
  | zero =>
    refine .inr (.inl ⟨rfl, ⟨extended, rfl⟩, fun j hj => ?_, fun j hj => absurd hj (by omega)⟩)
    rwa [Nat.le_zero.1 hj]
  | succ todo ih =>
    rw [lookupLoop]
    split_ifs with hbad hend hload
    · refine outcome_stop rfl ⟨_, rfl⟩ (fun h => ?_) fun h => ?_
      · exact (staysInside_one.1 h).2.2.1 hbad
      · have hlast := (meetsEnd_one.1 h.1).2
        rw [hbad] at hlast
        exact absurd hlast (by decide)
    · have hinside : ¬StaysInside ctx loads fat current 1 :=
        fun h => absurd (staysInside_one.1 h).2.2.2 (not_lt.2 hend)
      have hmeets : MeetsEnd ctx loads fat current 1 := meetsEnd_one.2 ⟨hread, hend⟩
      rcases vfatExtendCluster_spec loads current hcursor with
        ⟨hfinds, hsame, hresult⟩ | ⟨hfinds, hkeeps, hgrown⟩
      · rcases hext : vfatExtendCluster ctx loads fat current with ⟨fat', result⟩
        rw [hext] at hsame hresult
        simp only at hsame hresult
        rcases hresult with rfl | ⟨err, rfl⟩
        · exact outcome_stop hsame ⟨_, rfl⟩ hinside fun h => hfinds h.2
        · exact outcome_stop hsame ⟨_, rfl⟩ hinside fun h => hfinds h.2
      · refine .inl ⟨?_, ?_, hfinds⟩
        · have hentry : endOfChain ≤ entryOf ctx fat current := by
            rw [entryOf, clusterAddr_eq_lookupAddr]
            exact hend
          have hpage : loads (clusterAddr ctx current).1 = true := by
            rw [clusterAddr_eq_lookupAddr]
            exact hread
          have hgrow := hgrown hpage hentry
          rcases hext : vfatExtendCluster ctx loads fat current with ⟨fat', result⟩
          rw [hext] at hgrow
          split
          · rename_i heq
            rw [← (Prod.mk.inj heq).1]
            exact hgrow
          · rename_i heq
            rw [← (Prod.mk.inj heq).1]
            exact hgrow
          · rename_i heq
            obtain ⟨rfl, -⟩ := Prod.mk.inj heq
            split_ifs
            · exact hgrow.trans (lookupLoop_keeps loads _ _ _ hgrow.cursor)
            · exact hgrow
        · rw [add_comm, meetsEnd_add]
          exact .inl hmeets
    · have hnext : StaysInside ctx loads fat current 1 :=
        staysInside_one.2 ⟨hread, hload, hbad, not_le.1 hend⟩
      have hrest : Outcome ctx loads fat (chainAt ctx fat current 1) todo (lookupLoop ctx loads todo
          fat (entryAt fat (lookupAddr ctx current)) extended) := ih hload
      exact hrest.add hnext
    · refine outcome_stop rfl ⟨_, rfl⟩ (fun h => ?_) fun h => ?_
      · exact hload (staysInside_one.1 h).2.1
      · exact hend (meetsEnd_one.1 h.1).2

variable (loads current todo) in
lemma vfatClusterLookup_keeps (hcursor : ctx.fatBeginLba ≤ fat.lastAllocatedSector) :
    Keeps ctx fat (vfatClusterLookup ctx loads fat current todo).1 := by
  rw [vfatClusterLookup]
  split_ifs
  · exact lookupLoop_keeps loads current todo false hcursor
  · exact .refl hcursor

variable (loads current todo) in
lemma vfatClusterLookup_outcome (hcursor : ctx.fatBeginLba ≤ fat.lastAllocatedSector) :
    Outcome ctx loads fat current todo (vfatClusterLookup ctx loads fat current todo) := by
  rw [vfatClusterLookup]
  split_ifs with hload
  · exact lookupLoop_outcome hcursor hload
  · refine .inr (.inr ⟨rfl, ⟨_, rfl⟩, fun h => hload (h.1 0 (Nat.zero_le _)), ?_⟩)
    rintro ⟨⟨k, -, hread, -⟩, -⟩
    exact hload (hread 0 (Nat.zero_le k))

def Frame (ctx : VfatContext) (loads : ℕ → Bool) (fat : Fat) (start steps : ℕ) (fat' : Fat) :
    Prop :=
  Grown ctx fat fat' ∧ MeetsEnd ctx loads fat start steps ∧ FindsFree ctx loads fat ∨
    fat' = fat ∧ ¬(MeetsEnd ctx loads fat start steps ∧ FindsFree ctx loads fat)

lemma Frame.tableKept {fat' : Fat} {steps : ℕ} (h : Frame ctx loads fat current steps fat') :
    TableKept ctx fat fat' ↔
      ¬(MeetsEnd ctx loads fat current steps ∧ FindsFree ctx loads fat) := by
  rcases h with ⟨hgrown, hmeets⟩ | ⟨rfl, hmeets⟩
  · exact iff_of_false hgrown.not_kept (not_not.2 hmeets)
  · exact iff_of_true (fun _ => rfl) hmeets

lemma Outcome.frame {steps : ℕ} {out : Fat × Except VfsError (ℕ × Bool)} {fat' : Fat}
    (h : Outcome ctx loads fat current steps out) (hkeeps : Keeps ctx out.1 fat')
    (hfailed : (∃ err, out.2 = .error err) → fat' = out.1)
    (hfound : ∀ e, out = (fat, .ok (chainAt ctx fat current steps, e)) →
      Frame ctx loads fat (chainAt ctx fat current steps) todo fat') :
    Frame ctx loads fat current (steps + todo) fat' := by
  rw [Frame, meetsEnd_add]
  rcases h with ⟨hgrown, hmeets, hfree⟩ | ⟨hsame, ⟨e, hok⟩, hstays⟩ | ⟨hsame, herr, hstays, hmeets⟩
  · exact .inl ⟨hgrown.trans hkeeps, .inl hmeets, hfree⟩
  · rcases hfound e (Prod.ext hsame hok) with ⟨hgrown, hmeets, hfree⟩ | ⟨hsame', hmeets⟩
    · exact .inl ⟨hgrown, .inr ⟨hstays, hmeets⟩, hfree⟩
    · refine .inr ⟨hsame', ?_⟩
      rintro ⟨hfirst | ⟨-, hrest⟩, hfree⟩
      · exact hstays.not_meetsEnd hfirst
      · exact hmeets ⟨hrest, hfree⟩
  · refine .inr ⟨(hfailed herr).trans hsame, ?_⟩
    rintro ⟨hfirst | ⟨hinside, -⟩, hfree⟩
    · exact hmeets ⟨hfirst, hfree⟩
    · exact hstays hinside

variable (loads current todo) in
lemma nextClusters_keeps (isRead : Bool) (junk : ℕ)
    (hcursor : ctx.fatBeginLba ≤ fat.lastAllocatedSector) :
    Keeps ctx fat (nextClusters ctx loads isRead junk todo fat current).1 := by
  induction todo generalizing fat current with
  | zero => exact .refl hcursor
  | succ todo ih =>
    have hlookup := vfatClusterLookup_keeps loads current 1 hcursor
    rw [nextClusters]
    rcases hresult : vfatClusterLookup ctx loads fat current 1 with ⟨fat', err | ⟨next, extended⟩⟩
    · rw [hresult] at hlookup
      simp only
      split_ifs
      · exact hlookup
      · exact hlookup
    · rw [hresult] at hlookup
      have hrest := hlookup.trans (ih next hlookup.cursor)
      simp only
      rcases hnext : nextClusters ctx loads isRead junk todo fat' next with ⟨fat'', err | rest⟩
      · rw [hnext] at hrest
        exact hrest
      · rw [hnext] at hrest
        exact hrest

variable (loads current todo) in
lemma nextClusters_frame (isRead : Bool) (junk : ℕ)
    (hcursor : ctx.fatBeginLba ≤ fat.lastAllocatedSector) :
    Frame ctx loads fat current todo
      (nextClusters ctx loads isRead junk todo fat current).1 := by
  induction todo generalizing current with
  | zero => exact .inr ⟨rfl, fun ⟨⟨k, hk, _⟩, _⟩ => absurd hk (Nat.not_lt_zero k)⟩
  | succ todo ih =>
    have hlookup := vfatClusterLookup_outcome loads current 1 hcursor
    have hkeeps := vfatClusterLookup_keeps loads current 1 hcursor
    rw [add_comm]
    refine hlookup.frame ?_ ?_ ?_
    · rw [add_comm, nextClusters]
      rcases hresult : vfatClusterLookup ctx loads fat current 1 with ⟨fat', err | ⟨next, extended⟩⟩
      · rw [hresult] at hkeeps
        simp only
        split_ifs
        · exact .refl hkeeps.cursor
        · exact .refl hkeeps.cursor
      · rw [hresult] at hkeeps
        have hrest := nextClusters_keeps loads next todo isRead junk hkeeps.cursor
        simp only at hrest ⊢
        rcases hnext : nextClusters ctx loads isRead junk todo fat' next with ⟨fat'', err | rest⟩
        · rw [hnext] at hrest
          exact hrest
        · rw [hnext] at hrest
          exact hrest
    · rintro ⟨err, herr⟩
      rw [add_comm, nextClusters]
      rcases hresult : vfatClusterLookup ctx loads fat current 1 with ⟨fat', result⟩
      rw [hresult] at herr
      simp only at herr
      subst herr
      simp only
      split_ifs
      · rfl
      · rfl
    · intro e hok
      have hrest := ih (chainAt ctx fat current 1)
      rw [add_comm, nextClusters, hok]
      simp only
      rcases hnext : nextClusters ctx loads isRead junk todo fat (chainAt ctx fat current 1) with
        ⟨fat'', err | rest⟩
      · rw [hnext] at hrest
        exact hrest
      · rw [hnext] at hrest
        exact hrest

def tableAfter (ctx : VfatContext) (env : PgioOutcome) (fat : Fat) (file : VfatFile) (rank : ℕ)
    (isRead : Bool) : Fat :=
  match firstCluster ctx env.loads fat file rank with
  | (fat, .error _) => fat
  | (fat, .ok (first, _)) =>
      (nextClusters ctx env.loads isRead env.junk (clustersPerPage ctx - 1) fat first).1

lemma vfatPgioReg_table (env : PgioOutcome) (file : VfatFile) (index : ℕ) (isRead : Bool) :
    (vfatPgioReg ctx env fat file index isRead).1 =
      tableAfter ctx env fat file (readRank ctx index) isRead := by
  rw [vfatPgioReg, tableAfter]
  simp only [readRank]
  rcases firstCluster ctx env.loads fat file (index * pageSize % 2 ^ 32 / bytesPerCluster ctx) with
    ⟨fat', err | ⟨first, extended⟩⟩
  · rfl
  · simp only
    rcases nextClusters ctx env.loads isRead env.junk (clustersPerPage ctx - 1) fat' first with
      ⟨fat'', err | rest⟩
    · rfl
    · simp only
      split_ifs <;> rfl

end Lookups

variable {ctx} {fat : Fat}

variable (ctx fat) in
lemma firstCluster_eq (file : VfatFile) (rank : ℕ) :
    firstCluster ctx loads fat file rank = if firstSteps file rank = 0
      then (fat, .ok (walkStart file rank, false))
      else vfatClusterLookup ctx loads fat (walkStart file rank) (firstSteps file rank) := by
  rw [firstCluster, firstSteps, walkStart]
  rcases lt_trichotomy file.pgCurrentRank rank with hlt | rfl | hgt
  · have hsteps : rank - file.pgCurrentRank ≠ 0 := Nat.sub_ne_zero_of_lt hlt
    simp only [if_pos hlt, if_pos hlt.le, if_pos hlt.ne', if_pos hsteps, if_neg hsteps]
    rw [if_pos (.inl hlt)]
  · simp
  · simp only [if_pos hgt.ne, if_neg hgt.not_gt, if_neg hgt.not_ge]
    by_cases hzero : rank = 0
    · rw [if_neg (not_not.2 hzero), if_pos hzero, if_pos (.inr (.inr hzero))]
    · rw [if_pos hzero, if_neg hzero, if_neg (by omega)]

lemma tableAfter_frame (env : PgioOutcome) (file : VfatFile) (rank : ℕ) (isRead : Bool)
    (hcursor : ctx.fatBeginLba ≤ fat.lastAllocatedSector) :
    Frame ctx env.loads fat (walkStart file rank)
      (firstSteps file rank + (clustersPerPage ctx - 1)) (tableAfter ctx env fat file rank isRead)
    := by
  rw [tableAfter, firstCluster_eq]
  split_ifs with hsteps
  · rw [hsteps, zero_add]
    exact nextClusters_frame env.loads _ _ isRead env.junk hcursor
  · have hlookup :=
      vfatClusterLookup_outcome env.loads (walkStart file rank) (firstSteps file rank) hcursor
    have hkeeps :=
      vfatClusterLookup_keeps env.loads (walkStart file rank) (firstSteps file rank) hcursor
    refine hlookup.frame ?_ ?_ ?_
    · rcases hresult : vfatClusterLookup ctx env.loads fat (walkStart file rank)
        (firstSteps file rank) with ⟨fat', err | ⟨first, extended⟩⟩
      · rw [hresult] at hkeeps
        exact .refl hkeeps.cursor
      · rw [hresult] at hkeeps
        exact nextClusters_keeps env.loads first _ isRead env.junk hkeeps.cursor
    · rintro ⟨err, herr⟩
      rcases hresult : vfatClusterLookup ctx env.loads fat (walkStart file rank)
        (firstSteps file rank) with ⟨fat', result⟩
      rw [hresult] at herr
      simp only at herr
      subst herr
      rfl
    · intro e hok
      rw [hok]
      exact nextClusters_frame env.loads _ _ isRead env.junk hcursor

/-- `vfat_file_read_page` -/
def vfatFileReadPage (ctx : VfatContext) (env : PgioOutcome) (fat : Fat) (file : VfatFile)
    (index : ℕ) : Fat × VfatFile × List BlkRequest × Except VfsError Unit :=
  vfatPgioReg ctx env fat file index true

/-- `vfat_node_read_page`, for a page of a node. -/
def vfatNodeReadPage (ctx : VfatContext) (env : PgioOutcome) (fat : Fat) (nodeCluster index : ℕ) :
    Fat × VfatFile × List BlkRequest × Except VfsError Unit :=
  vfatPgioReg ctx env fat ⟨nodeCluster, nodeCluster, 0⟩ index true

inductive VolumeCall
  | alloc (loads : ℕ → Bool)
  | free (loads : ℕ → Bool) (cluster : ℕ)
  | lseek (loads : ℕ → Bool) (file : VfatFile) (offset : ℕ)
  | pgio (env : PgioOutcome) (file : VfatFile) (index : ℕ) (isRead : Bool)

def volumeStep (ctx : VfatContext) (fat : Fat) : VolumeCall → Option Fat
  | .alloc loads => some (vfatAllocFatEntry ctx loads fat).1
  | .free loads cluster => some (vfatFreeFatEntry ctx loads (2 ^ 28) fat cluster).1
  | .lseek loads file offset => some (vfatLseek ctx loads fat file offset).1
  | .pgio env file index isRead => some (vfatPgioReg ctx env fat file index isRead).1

/-- Any table, with the cursor where `vfat_context_init` puts it. -/
def volumeMachine (ctx : VfatContext) : Machine Fat VolumeCall where
  init fat := fat.lastAllocatedSector = ctx.fatBeginLba ∧ fat.lastAllocatedIndex = 2
  step := volumeStep ctx

lemma vfatLseek_cursor (file : VfatFile) (offset : ℕ)
    (hcursor : ctx.fatBeginLba ≤ fat.lastAllocatedSector) :
    ctx.fatBeginLba ≤ (vfatLseek ctx loads fat file offset).1.lastAllocatedSector := by
  have hlookup : ∀ {start steps fat' result}, vfatClusterLookup ctx loads fat start steps =
      (fat', result) → ctx.fatBeginLba ≤ fat'.lastAllocatedSector := by
    intro start steps fat' result heq
    have hkeeps := vfatClusterLookup_keeps loads start steps hcursor
    rw [heq] at hkeeps
    exact hkeeps.cursor
  rw [vfatLseek]
  split_ifs
  · exact hcursor
  · simp only
    split_ifs
    · exact hcursor
    · split
      · rename_i heq
        exact hlookup heq
      · rename_i heq
        exact hlookup heq
    · exact hcursor
    · split
      · rename_i heq
        exact hlookup heq
      · rename_i heq
        exact hlookup heq
    · exact hcursor

lemma cursor_reachable (h : (volumeMachine ctx).Reachable fat) :
    ctx.fatBeginLba ≤ fat.lastAllocatedSector := by
  refine Machine.Reachable.invariant (I := fun fat => ctx.fatBeginLba ≤ fat.lastAllocatedSector)
    (fun _ (hinit : _ ∧ _) => hinit.1.ge) (fun fat e fat' hcursor hstep => ?_) h
  cases e with
  | alloc loads =>
    obtain rfl := Option.some.inj hstep
    rcases vfatAllocFatEntry_finds loads hcursor with ⟨-, n, -, -, -, -, hcur⟩ | ⟨-, hsame, -⟩
    · exact hcur
    · rw [hsame]
      exact hcursor
  | free loads cluster =>
    obtain rfl := Option.some.inj hstep
    rw [(vfatFreeFatEntry_cursor ctx loads fat (2 ^ 28) cluster).1]
    exact hcursor
  | lseek loads file offset =>
    obtain rfl := Option.some.inj hstep
    exact vfatLseek_cursor loads file offset hcursor
  | pgio env file index isRead =>
    obtain rfl := Option.some.inj hstep
    rw [vfatPgioReg_table]
    rcases tableAfter_frame env file (readRank ctx index) isRead hcursor with ⟨hgrown, -⟩ | ⟨hsame, -⟩
    · exact hgrown.cursor
    · rw [hsame]
      exact hcursor

/-- A read of a page leaves the table as it is unless the lookups of the page come to the end of the
chain and a free entry is found. -/
theorem read_page_keeps_table (h : (volumeMachine ctx).Reachable fat) (env : PgioOutcome)
    (index : ℕ) :
    (∀ file, TableKept ctx fat (vfatFileReadPage ctx env fat file index).1 ↔
      ¬(MeetsEnd ctx env.loads fat (walkStart file (readRank ctx index)) (walkSteps ctx file index) ∧
        FindsFree ctx env.loads fat)) ∧
    ∀ nodeCluster, TableKept ctx fat (vfatNodeReadPage ctx env fat nodeCluster index).1 ↔
      ¬(MeetsEnd ctx env.loads fat nodeCluster
          (readRank ctx index + (clustersPerPage ctx - 1)) ∧
        FindsFree ctx env.loads fat) := by
  have hframe := fun file =>
    (tableAfter_frame env file (readRank ctx index) true (cursor_reachable h)).tableKept
  refine ⟨fun file => ?_, fun nodeCluster => ?_⟩
  · rw [vfatFileReadPage, vfatPgioReg_table]
    exact hframe file
  · have hsteps : firstSteps ⟨nodeCluster, nodeCluster, 0⟩ (readRank ctx index) =
        readRank ctx index := by
      simp [firstSteps]
    have hstart : walkStart ⟨nodeCluster, nodeCluster, 0⟩ (readRank ctx index) = nodeCluster := by
      simp only [walkStart]
      split_ifs <;> rfl
    have hnode := hframe ⟨nodeCluster, nodeCluster, 0⟩
    rw [hsteps, hstart] at hnode
    rw [vfatNodeReadPage, vfatPgioReg_table]
    exact hnode

theorem read_page_keeps_table_second :
    TableKept smallVolume twoClusters
      (vfatNodeReadPage smallVolume ⟨allLoad, 0, true, true⟩ twoClusters 2 1).1 := by
  refine ((read_page_keeps_table (.init ⟨rfl, rfl⟩) _ 1).2 2).2 ?_
  rintro ⟨⟨k, hk, -, -, hend⟩, -⟩
  obtain rfl : k = 0 := Nat.lt_one_iff.1 hk
  exact absurd hend (by decide)

def halfPages : VfatContext :=
  { smallVolume with
    sectorsPerCluster := 4
    cluster_page := by decide }

def oneCluster : Fat := ⟨fun page word => if page = 0 ∧ word = 2 then endOfChain else 0, 0, 2⟩

def filePages (size : ℕ) : ℕ := (size + pageSize - 1) / pageSize

/-- The read of the only page of a file of 100 bytes takes a cluster. -/
theorem read_page_takes_cluster :
    ∃ fat, (volumeMachine halfPages).Reachable fat ∧ 100 ≤ bytesPerCluster halfPages ∧
      endOfChain ≤ entryOf halfPages fat 2 ∧ 0 < filePages 100 ∧
      ¬TableKept halfPages fat
        (vfatNodeReadPage halfPages ⟨allLoad, 0, true, true⟩ fat 2 0).1 := by
  refine ⟨oneCluster, .init ⟨rfl, rfl⟩, by decide, by decide, by decide, fun hkept => ?_⟩
  exact absurd (hkept 3) (by decide)

end Almos.Vfat
