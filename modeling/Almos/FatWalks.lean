import Mathlib.Data.Nat.Count
import Almos.FatAddresses

/-!
# Walks over the FAT that the disk decides

`vfat_cluster_count`, `vfat_free_fat_entry` and `vfat_cluster_lookup` follow links that can be
anything, and every page read can fail: `loads` tells for each moment of a call and each page
whether the page can be read. A walk that does not end within its fuel has no result.
-/
namespace Almos.Vfat
open Word

def wordAt (place : ℕ × ℕ) : ℕ × ℕ := (place.1, place.2 / 4)

structure Walk where
  fat : Fat
  clock : ℕ

/-- A walk returns when some amount of fuel gives a result. -/
def Returns {α : Type} (walk : ℕ → Option α) : Prop := ∃ fuel, (walk fuel).isSome

variable (ctx : VfatContext)

def queryWord (cluster : ℕ) : ℕ × ℕ :=
  wordAt (queryPlace ctx.fatBeginLba ctx.bytesPerSector cluster)

def lookupWord (cluster : ℕ) : ℕ × ℕ :=
  wordAt (lookupPlace ctx.fatBeginLba ctx.bytesPerSector cluster)

def extendWord (cluster : ℕ) : ℕ × ℕ :=
  wordAt (extendPlace ctx.fatBeginLba ctx.bytesPerSector cluster)

def freeWord (cluster : ℕ) : ℕ × ℕ :=
  wordAt (freePlace ctx.fatBeginLba ctx.bytesPerSector cluster)

/-- The loop of `vfat_cluster_count`, where `reads` tells which of the reads of the call succeed. A
read that fails leaves `next` as it was. -/
def countLoop (fat : Fat) (reads : ℕ → Bool) : ℕ → ℕ → ℕ → ℕ → Option ℕ
  | 0, _, _, _ => none
  | fuel + 1, i, cluster, next =>
      if next < endOfChain then
        let next := if reads i then entryAt fat (queryWord ctx cluster) else next
        countLoop fat reads fuel (i + 1) next next
      else some i

/-- `vfat_cluster_count` -/
def vfatClusterCount (fat : Fat) (reads : ℕ → Bool) (cluster fuel : ℕ) : Option ℕ :=
  countLoop ctx fat reads fuel 0 cluster 0

variable (loads : ℕ → ℕ → Bool)

/-- The loop of `vfat_free_fat_entry` -/
def freeWalk : ℕ → Walk → ℕ → Option (Walk × Except VfsError Unit)
  | 0, _, _ => none
  | fuel + 1, w, current =>
      if 0 < current ∧ current < badCluster then
        if loads w.clock (freeWord ctx current).1 then
          freeWalk fuel ⟨setEntry w.fat (freeWord ctx current) 0, w.clock + 1⟩
            (entryAt w.fat (freeWord ctx current))
        else some (⟨w.fat, w.clock + 1⟩, .error .ioErr)
      else some (w, .ok ())

/-- The error exit of `vfat_extend_cluster` -/
def extendError (fuel : ℕ) (w : Walk) (next : ℕ) : Option (Walk × Except VfsError ℕ) :=
  (freeWalk ctx loads fuel w next).map fun r => (r.1, .error .ioErr)

/-- `vfat_extend_cluster`; an allocation reads no page twice. -/
def extendWalk (fuel : ℕ) (w : Walk) (current : ℕ) : Option (Walk × Except VfsError ℕ) :=
  match vfatAllocFatEntry ctx (loads w.clock) w.fat with
  | (fat, .error err) => some (⟨fat, w.clock + 1⟩, .error err)
  | (fat, .ok 0) => some (⟨fat, w.clock + 1⟩, .ok 0)
  | (fat, .ok next) =>
      if loads (w.clock + 1) (extendWord ctx current).1 then
        if endOfChain ≤ entryAt fat (extendWord ctx current) then
          some (⟨setEntry fat (extendWord ctx current) next, w.clock + 2⟩, .ok next)
        else if loads (w.clock + 2) (extendWord ctx next).1 then
          some (⟨setEntry fat (extendWord ctx next) 0, w.clock + 3⟩, .ok next)
        else extendError ctx loads fuel ⟨fat, w.clock + 3⟩ next
      else extendError ctx loads fuel ⟨fat, w.clock + 2⟩ next

/-- The end of a turn of `vfat_cluster_lookup`: the page of `next` is read if it is another one. -/
def turnPage (w : Walk) (current next : ℕ) : Option Walk :=
  if (lookupWord ctx next).1 = (lookupWord ctx current).1 then some w
  else if loads w.clock (lookupWord ctx next).1 then some ⟨w.fat, w.clock + 1⟩
  else none

/-- The loop of `vfat_cluster_lookup`, `todo` links away from the cluster looked for. -/
def lookupWalk (fuel : ℕ) : ℕ → Walk → ℕ → Bool → Option (Walk × Except VfsError (ℕ × Bool))
  | 0, w, current, extended => some (w, .ok (current, extended))
  | todo + 1, w, current, extended =>
      let next := entryAt w.fat (lookupWord ctx current)
      if next = badCluster then some (w, .error .ebadblk)
      else if endOfChain ≤ next then
        match extendWalk ctx loads fuel w current with
        | none => none
        | some (w, .error _) => some (w, .error .ioErr)
        | some (w, .ok 0) => some (w, .error .enospc)
        | some (w, .ok next) =>
            match turnPage ctx loads w current next with
            | none => some (w, .error .ioErr)
            | some w => lookupWalk fuel todo w next true
      else
        match turnPage ctx loads w current next with
        | none => some (w, .error .ioErr)
        | some w => lookupWalk fuel todo w next extended

/-- `vfat_cluster_lookup` -/
def clusterLookupWalk (w : Walk) (nodeCluster clusterRank fuel : ℕ) :
    Option (Walk × Except VfsError (ℕ × Bool)) :=
  if loads w.clock (lookupWord ctx nodeCluster).1 then
    lookupWalk ctx loads fuel clusterRank ⟨w.fat, w.clock + 1⟩ nodeCluster false
  else some (⟨w.fat, w.clock + 1⟩, .error .ioErr)

section Ends
variable {ctx loads} {w : Walk} {fuel current : ℕ}

def linked (ctx : VfatContext) (fat : Fat) (bound : ℕ) : Finset (ℕ × ℕ) :=
  ((Finset.range bound).image (freeWord ctx)).filter fun a => entryAt fat a ≠ 0

variable (ctx) in
lemma linked_card_le (fat : Fat) (bound : ℕ) : (linked ctx fat bound).card ≤ bound :=
  (Finset.card_filter_le _ _).trans (Finset.card_image_le.trans (Finset.card_range bound).le)

lemma linked_setEntry_lt {fat : Fat} {bound : ℕ} (hcurrent : current < bound)
    (hlink : entryAt fat (freeWord ctx current) ≠ 0) :
    (linked ctx (setEntry fat (freeWord ctx current) 0) bound).card <
      (linked ctx fat bound).card := by
  refine Finset.card_lt_card (Finset.ssubset_iff_of_subset ?_ |>.2 ⟨freeWord ctx current, ?_, ?_⟩)
  · intro a ha
    rw [linked, Finset.mem_filter, entryAt_setEntry] at ha
    rw [linked, Finset.mem_filter]
    refine ⟨ha.1, fun hzero => ha.2 ?_⟩
    split_ifs
    · rfl
    · exact hzero
  · rw [linked, Finset.mem_filter]
    exact ⟨Finset.mem_image_of_mem _ (Finset.mem_range.2 hcurrent), hlink⟩
  · rw [linked, Finset.mem_filter, entryAt_setEntry, if_pos rfl]
    exact fun h => h.2 rfl

/-- A release takes a turn for each word with a link at most, one for a word without, and one to
see that it is over. -/
lemma freeWalk_isSome (hfuel : (linked ctx w.fat badCluster).card + 2 ≤ fuel) :
    (freeWalk ctx loads fuel w current).isSome := by
  induction fuel generalizing w current with
  | zero => omega
  | succ fuel ih =>
    rw [freeWalk]
    split_ifs with hcurrent hload
    · by_cases hlink : entryAt w.fat (freeWord ctx current) = 0
      · obtain ⟨left, rfl⟩ : ∃ left, fuel = left + 1 := ⟨fuel - 1, by omega⟩
        rw [hlink, freeWalk, if_neg (fun h => absurd h.1 (lt_irrefl 0))]
        rfl
      · have hlt := linked_setEntry_lt hcurrent.2 hlink
        exact ih (by simp only; omega)
    · rfl
    · rfl

lemma freeWalk_bound (hfuel : badCluster + 2 ≤ fuel) :
    (freeWalk ctx loads fuel w current).isSome :=
  freeWalk_isSome (by have := linked_card_le ctx w.fat badCluster; omega)

lemma freeWord_eq_clusterAddr (hcurrent : current < 2 ^ 28)
    (hfit : ctx.fatBeginLba * ctx.bytesPerSector + 4 * current < 2 ^ 32) :
    freeWord ctx current = clusterAddr ctx current := by
  obtain ⟨words, sectors, hpos, -, hbytes, hsectors, hsize⟩ :=
    words_of_sector ctx.words_sector ctx.sector_page
  have hdiv : ctx.bytesPerSector / 4 = words := by
    rw [hbytes]
    exact Nat.mul_div_cancel_left _ (by decide)
  rw [freeWord, freePlace_eq hpos hbytes hsectors hsize hcurrent hfit, clusterAddr_eq_lookupAddr,
    lookupAddr, hdiv, wordAt, Nat.mul_div_cancel _ (by decide)]

/-- When a page can be read or not during the whole call, the release is that of the table. -/
theorem freeWalk_eq {readable : ℕ → Bool} {r : Walk × Except VfsError Unit}
    (hfit : ctx.fatBeginLba * ctx.bytesPerSector + 2 ^ 30 ≤ 2 ^ 32)
    (hwalk : freeWalk ctx (fun _ => readable) fuel w current = some r) :
    vfatFreeFatEntry ctx readable fuel w.fat current = (r.1.fat, r.2) := by
  induction fuel generalizing w current with
  | zero => exact absurd hwalk (by simp [freeWalk])
  | succ fuel ih =>
    rw [freeWalk] at hwalk
    rw [vfatFreeFatEntry]
    split_ifs at hwalk with hcurrent hload
    · have hlt : current < 2 ^ 28 := hcurrent.2.trans (by decide)
      have haddr : freeWord ctx current = clusterAddr ctx current :=
        freeWord_eq_clusterAddr hlt (by omega)
      rw [haddr] at hload hwalk
      rw [if_pos hcurrent, if_pos hload]
      exact ih hwalk
    · have hlt : current < 2 ^ 28 := hcurrent.2.trans (by decide)
      have haddr : freeWord ctx current = clusterAddr ctx current :=
        freeWord_eq_clusterAddr hlt (by omega)
      rw [haddr] at hload
      rw [if_pos hcurrent, if_neg hload, ← Option.some.inj hwalk]
    · rw [if_neg hcurrent, ← Option.some.inj hwalk]

lemma extendWalk_isSome (hfuel : badCluster + 2 ≤ fuel) :
    (extendWalk ctx loads fuel w current).isSome := by
  have herror : ∀ w next, (extendError ctx loads fuel w next).isSome := by
    intro w next
    rw [extendError, Option.isSome_map]
    exact freeWalk_bound hfuel
  rw [extendWalk]
  split
  · rfl
  · rfl
  · split_ifs
    · rfl
    · rfl
    · exact herror _ _
    · exact herror _ _

lemma lookupWalk_isSome (hfuel : badCluster + 2 ≤ fuel) (todo : ℕ) (extended : Bool) :
    (lookupWalk ctx loads fuel todo w current extended).isSome := by
  induction todo generalizing w current extended with
  | zero => rfl
  | succ todo ih =>
    have hextend : (extendWalk ctx loads fuel w current).isSome := extendWalk_isSome hfuel
    rw [lookupWalk]
    split_ifs
    · rfl
    · split
      · rename_i hnone
        rw [hnone] at hextend
        exact absurd hextend (by simp)
      · rfl
      · rfl
      · split
        · rfl
        · exact ih _
    · split
      · rfl
      · exact ih _

end Ends

def queryLink (fat : Fat) (cluster : ℕ) : ℕ := entryAt fat (queryWord ctx cluster)

/-- Where the count really starts: when its first read fails, it goes on from cluster 0. -/
def countStart (reads : ℕ → Bool) (cluster : ℕ) : ℕ := if reads 0 then cluster else 0

/-- After the first `n` reads: as many links are followed as reads succeeded. -/
def countedTo (fat : Fat) (reads : ℕ → Bool) (cluster n : ℕ) : ℕ :=
  (queryLink ctx fat)^[Nat.count (fun t => reads t = true) n] (countStart reads cluster)

section Count
variable {ctx} {fat : Fat} {reads : ℕ → Bool} {cluster : ℕ}

variable (ctx fat reads cluster) in
lemma countedTo_succ (i : ℕ) : countedTo ctx fat reads cluster (i + 1) =
    if reads i then queryLink ctx fat (countedTo ctx fat reads cluster i)
    else countedTo ctx fat reads cluster i := by
  rw [countedTo, Nat.count_succ]
  split_ifs
  · exact Function.iterate_succ_apply' _ _ _
  · rfl

lemma countedTo_one : countedTo ctx fat reads cluster 1 =
    if reads 0 then queryLink ctx fat cluster else 0 := by
  rw [countedTo_succ, countedTo, Nat.count_zero, Function.iterate_zero_apply, countStart]
  split_ifs <;> rfl

lemma countLoop_isSome (fuel i : ℕ) :
    (countLoop ctx fat reads fuel i (countedTo ctx fat reads cluster i)
        (countedTo ctx fat reads cluster i)).isSome ↔
      ∃ n, i ≤ n ∧ n < i + fuel ∧ endOfChain ≤ countedTo ctx fat reads cluster n := by
  induction fuel generalizing i with
  | zero =>
    refine iff_of_false (by simp [countLoop]) ?_
    rintro ⟨n, hle, hlt, -⟩
    omega
  | succ fuel ih =>
    rw [countLoop]
    by_cases hend : countedTo ctx fat reads cluster i < endOfChain
    · have hnext := countedTo_succ ctx fat reads cluster i
      rw [queryLink] at hnext
      rw [if_pos hend]
      simp only [← hnext, ih (i + 1)]
      constructor
      · rintro ⟨n, hle, hlt, hmark⟩
        exact ⟨n, by omega, by omega, hmark⟩
      · rintro ⟨n, hle, hlt, hmark⟩
        have hne : n ≠ i := by
          rintro rfl
          omega
        exact ⟨n, by omega, by omega, hmark⟩
    · rw [if_neg hend]
      exact iff_of_true rfl ⟨i, le_rfl, by omega, not_lt.1 hend⟩

lemma clusterCount_returns :
    Returns (vfatClusterCount ctx fat reads cluster) ↔
      ∃ n, 0 < n ∧ endOfChain ≤ countedTo ctx fat reads cluster n := by
  have hfirst : ∀ fuel, (vfatClusterCount ctx fat reads cluster (fuel + 1)).isSome ↔
      ∃ n, 1 ≤ n ∧ n < 1 + fuel ∧ endOfChain ≤ countedTo ctx fat reads cluster n := by
    intro fuel
    rw [← countLoop_isSome, countedTo_one, vfatClusterCount, countLoop, if_pos (by decide)]
    rfl
  constructor
  · rintro ⟨fuel, hsome⟩
    cases fuel with
    | zero => exact absurd hsome (by simp [vfatClusterCount, countLoop])
    | succ fuel =>
      obtain ⟨n, hle, -, hmark⟩ := (hfirst fuel).1 hsome
      exact ⟨n, hle, hmark⟩
  · rintro ⟨n, hpos, hmark⟩
    exact ⟨n + 1, (hfirst n).2 ⟨n, hpos, by omega, hmark⟩⟩

end Count

/-- The three walks return, whatever the disk holds and whichever reads fail, if and only if the
count gets to an end mark: following, from its cluster (from cluster 0 when the first read fails),
as many links as reads succeed. -/
theorem fat_walks_return (fat : Fat) (reads : ℕ → Bool) (loads loads' : ℕ → ℕ → Bool)
    (counted freed looked rank : ℕ) :
    (Returns (vfatClusterCount ctx fat reads counted) ∧
      Returns (fun fuel => freeWalk ctx loads fuel ⟨fat, 0⟩ freed) ∧
      Returns (clusterLookupWalk ctx loads' ⟨fat, 0⟩ looked rank)) ↔
    ∃ n, 0 < n ∧ endOfChain ≤ countedTo ctx fat reads counted n := by
  have hfree : Returns (fun fuel => freeWalk ctx loads fuel ⟨fat, 0⟩ freed) :=
    ⟨badCluster + 2, freeWalk_bound le_rfl⟩
  have hlookup : Returns (clusterLookupWalk ctx loads' ⟨fat, 0⟩ looked rank) := by
    refine ⟨badCluster + 2, ?_⟩
    rw [clusterLookupWalk]
    split_ifs
    · exact lookupWalk_isSome le_rfl _ _
    · rfl
  rw [clusterCount_returns]
  exact and_iff_left ⟨hfree, hlookup⟩

def loopVolume : VfatContext := smallVolume

def loopFat : Fat := ⟨fun _ _ => 5, 0, 2⟩

theorem fat_count_does_not_return :
    ¬Returns (vfatClusterCount loopVolume loopFat (fun _ => true) 5) := by
  rw [clusterCount_returns]
  rintro ⟨n, -, hmark⟩
  have hfixed : ∀ n, countedTo loopVolume loopFat (fun _ => true) 5 n = 5 := by
    intro n
    induction n with
    | zero => rfl
    | succ n ih => rw [countedTo_succ, if_pos rfl, ih]; rfl
  rw [hfixed n] at hmark
  exact absurd hmark (by decide)

end Almos.Vfat
