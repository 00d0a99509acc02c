import Almos.Fat
import Almos.Machine

/-!
# Completeness of the FAT allocation

`vfat_alloc_fat_entry` searches from the cursor that the last allocation left to the end of the
table. Every page can be read.
-/
namespace Almos.Vfat

def allLoad (_ : ℕ) : Bool := true

inductive FatCall
  | alloc
  | free (cluster : ℕ)

variable (ctx : VfatContext)

def allocStep (fat : Fat) : FatCall → Option Fat
  | .alloc => some (vfatAllocFatEntry ctx allLoad fat).1
  | .free cluster => some (vfatFreeFatEntry ctx allLoad (2 ^ 28) fat cluster).1

/-- Any table, with the cursor at the first cluster. -/
def allocMachine : Machine Fat FatCall where
  init fat := fat.lastAllocatedSector = ctx.fatBeginLba ∧ fat.lastAllocatedIndex = 2
  step := allocStep ctx

/-- The number of the entry that `vfat_alloc_fat_entry` looks at first from a sector and an index. -/
def firstFrom (sector index : ℕ) : ℕ :=
  if index < sectorEntries ctx then index + (sector - ctx.fatBeginLba) * sectorEntries ctx
  else (sector + 1 - ctx.fatBeginLba) * sectorEntries ctx

def searchStart (fat : Fat) : ℕ := firstFrom ctx fat.lastAllocatedSector fat.lastAllocatedIndex

/-- A call returns a cluster from 2 on whose entry was free and ends a chain now, or 0 when no entry
from 2 on is free. -/
def AllocComplete (fat : Fat) : Prop :=
  ∃ n, (vfatAllocFatEntry ctx allLoad fat).2 = .ok n ∧
    (n ≠ 0 → 2 ≤ n ∧ n < entryCount ctx ∧ entryOf ctx fat n = 0 ∧
      entryOf ctx (vfatAllocFatEntry ctx allLoad fat).1 n = endOfChain) ∧
    (n = 0 → ∀ c, 2 ≤ c → c < entryCount ctx → entryOf ctx fat c ≠ 0)

variable {ctx} {fat : Fat}

variable (fat) in
lemma scanIndex_spec (sector todo index : ℕ) :
    (∃ found, scanIndex ctx fat sector todo index = some found ∧ index ≤ found ∧
      found < index + todo ∧ entryAt fat (sectorAddr ctx sector found) = 0 ∧
      ∀ i, index ≤ i → i < found → entryAt fat (sectorAddr ctx sector i) ≠ 0) ∨
    (scanIndex ctx fat sector todo index = none ∧
      ∀ i, index ≤ i → i < index + todo → entryAt fat (sectorAddr ctx sector i) ≠ 0) := by
  induction todo generalizing index with
  | zero => exact .inr ⟨rfl, fun i hle hlt => absurd hlt (by omega)⟩
  | succ todo ih =>
    rw [scanIndex]
    split_ifs with hfree
    · exact .inl ⟨index, rfl, le_rfl, by omega, hfree, fun i hle hlt => absurd hlt (by omega)⟩
    · have hstep : ∀ i, index ≤ i → (index + 1 ≤ i → entryAt fat (sectorAddr ctx sector i) ≠ 0) →
          entryAt fat (sectorAddr ctx sector i) ≠ 0 := by
        intro i hle hrest
        rcases hle.eq_or_lt with rfl | hlt
        · exact hfree
        · exact hrest hlt
      rcases ih (index + 1) with ⟨found, hscan, hle, hlt, hzero, hbefore⟩ | ⟨hscan, hall⟩
      · exact .inl ⟨found, hscan, by omega, by omega, hzero,
          fun i hi hif => hstep i hi fun hi => hbefore i hi hif⟩
      · exact .inr ⟨hscan, fun i hi hil => hstep i hi fun hi => hall i hi (by omega)⟩

lemma sector_succ {sector : ℕ} (hsector : ctx.fatBeginLba ≤ sector) :
    (sector + 1 - ctx.fatBeginLba) * sectorEntries ctx =
      (sector - ctx.fatBeginLba) * sectorEntries ctx + sectorEntries ctx := by
  rw [Nat.sub_add_comm hsector, Nat.succ_mul]

lemma entryOf_sector {sector c : ℕ} (hsector : ctx.fatBeginLba ≤ sector)
    (hlow : (sector - ctx.fatBeginLba) * sectorEntries ctx ≤ c)
    (hhigh : c < (sector - ctx.fatBeginLba) * sectorEntries ctx + sectorEntries ctx) :
    entryOf ctx fat c = entryAt fat
      (sectorAddr ctx sector (c - (sector - ctx.fatBeginLba) * sectorEntries ctx)) := by
  have hindex : c - (sector - ctx.fatBeginLba) * sectorEntries ctx < sectorEntries ctx := by omega
  rw [entryOf, sectorAddr_eq_clusterAddr hsector hindex, Nat.sub_add_cancel hlow]

variable (fat) in
lemma scanSector_spec (todo sector index : ℕ) (hsector : ctx.fatBeginLba ≤ sector) :
    (∃ s i, scanSector ctx allLoad fat todo sector index = .ok (some (s, i)) ∧
      sector ≤ s ∧ s < sector + todo ∧ i < sectorEntries ctx ∧
      firstFrom ctx sector index ≤ i + (s - ctx.fatBeginLba) * sectorEntries ctx ∧
      entryOf ctx fat (i + (s - ctx.fatBeginLba) * sectorEntries ctx) = 0 ∧
      ∀ c, firstFrom ctx sector index ≤ c →
        c < i + (s - ctx.fatBeginLba) * sectorEntries ctx → entryOf ctx fat c ≠ 0) ∨
    (scanSector ctx allLoad fat todo sector index = .ok none ∧
      ∀ c, firstFrom ctx sector index ≤ c →
        c < (sector + todo - ctx.fatBeginLba) * sectorEntries ctx → entryOf ctx fat c ≠ 0) := by
  induction todo generalizing sector index with
  | zero =>
    refine .inr ⟨rfl, fun c hle hlt => ?_⟩
    rw [firstFrom, sector_succ hsector] at hle
    rw [Nat.add_zero] at hlt
    split_ifs at hle <;> omega
  | succ todo ih =>
    have hsucc := sector_succ hsector
    have hentry : ∀ i < sectorEntries ctx,
        entryOf ctx fat (i + (sector - ctx.fatBeginLba) * sectorEntries ctx) =
          entryAt fat (sectorAddr ctx sector i) := by
      intro i hi
      rw [entryOf_sector hsector (by omega) (by omega), Nat.add_sub_cancel]
    rw [scanSector, if_pos (show allLoad _ = true from rfl)]
    rcases scanIndex_spec fat sector (sectorEntries ctx - index) index with
      ⟨found, hscan, hle, hlt, hzero, hbefore⟩ | ⟨hscan, hall⟩
    · have hindex : index < sectorEntries ctx := by omega
      refine .inl ⟨sector, found, by rw [hscan], le_rfl, by omega, by omega, ?_, ?_, ?_⟩
      · rw [firstFrom, if_pos hindex]
        omega
      · rw [hentry found (by omega)]
        exact hzero
      · intro c hc hcm
        rw [firstFrom, if_pos hindex] at hc
        rw [entryOf_sector hsector (by omega) (by omega)]
        exact hbefore _ (by omega) (by omega)
    · have hnext : firstFrom ctx (sector + 1) 0 =
          (sector - ctx.fatBeginLba) * sectorEntries ctx + sectorEntries ctx := by
        rw [firstFrom, if_pos sectorEntries_pos, hsucc, Nat.zero_add]
      have hfirst : firstFrom ctx sector index ≤ firstFrom ctx (sector + 1) 0 := by
        rw [hnext, firstFrom, hsucc]
        split_ifs <;> omega
      -- the rest of this sector is not free
      have hrest : ∀ c, firstFrom ctx sector index ≤ c → (firstFrom ctx (sector + 1) 0 ≤ c →
          entryOf ctx fat c ≠ 0) → entryOf ctx fat c ≠ 0 := by
        intro c hc hlater
        by_cases hin : firstFrom ctx (sector + 1) 0 ≤ c
        · exact hlater hin
        · rw [hnext] at hin
          rw [firstFrom, hsucc] at hc
          split_ifs at hc with hindex
          · rw [entryOf_sector hsector (by omega) (by omega)]
            exact hall _ (by omega) (by omega)
          · omega
      rw [hscan]
      rcases ih (sector + 1) 0 (by omega) with
        ⟨s, i, hrec, hs, hst, hi, hle, hzero, hbefore⟩ | ⟨hrec, hnone⟩
      · exact .inl ⟨s, i, hrec, by omega, by omega, hi, by omega, hzero,
          fun c hc hcm => hrest c hc fun hc => hbefore c hc hcm⟩
      · refine .inr ⟨hrec, fun c hc hlt => hrest c hc fun hc => hnone c hc ?_⟩
        rwa [Nat.add_right_comm, Nat.add_assoc]

def CursorOk (ctx : VfatContext) (fat : Fat) : Prop :=
  ctx.fatBeginLba ≤ fat.lastAllocatedSector ∧ 1 ≤ searchStart ctx fat

lemma firstFrom_pos {sector index : ℕ} (hsector : ctx.fatBeginLba ≤ sector)
    (h : 0 < index ∨ ctx.fatBeginLba < sector) : 1 ≤ firstFrom ctx sector index := by
  have hpos : 0 < sectorEntries ctx := sectorEntries_pos
  rw [firstFrom]
  split_ifs
  · rcases h with h | h
    · omega
    · have := Nat.mul_pos (show 0 < sector - ctx.fatBeginLba by omega) hpos
      omega
  · exact Nat.mul_pos (by omega) hpos

/-- A call returns the first free entry from the cursor on, and marks it, or finds none. -/
lemma vfatAllocFatEntry_first (hcursor : CursorOk ctx fat) :
    (∃ n, (vfatAllocFatEntry ctx allLoad fat).2 = .ok n ∧ searchStart ctx fat ≤ n ∧
      n < entryCount ctx ∧ entryOf ctx fat n = 0 ∧
      (∀ c, searchStart ctx fat ≤ c → c < n → entryOf ctx fat c ≠ 0) ∧
      entryOf ctx (vfatAllocFatEntry ctx allLoad fat).1 n = endOfChain ∧
      CursorOk ctx (vfatAllocFatEntry ctx allLoad fat).1) ∨
    (vfatAllocFatEntry ctx allLoad fat = (fat, .ok 0) ∧
      ∀ c, searchStart ctx fat ≤ c → c < entryCount ctx → entryOf ctx fat c ≠ 0) := by
  obtain ⟨hsector, -⟩ := hcursor
  simp only [vfatAllocFatEntry, searchStart]
  rcases scanSector_spec fat (ctx.fatBeginLba + ctx.fatBlkCount - fat.lastAllocatedSector)
    fat.lastAllocatedSector fat.lastAllocatedIndex hsector with
    ⟨s, i, hscan, hlast, hend, hi, hle, hzero, hbefore⟩ | ⟨hscan, hnone⟩
  · have hs : ctx.fatBeginLba ≤ s := hsector.trans hlast
    refine .inl ⟨_, by rw [hscan], hle, ?_, hzero, hbefore, ?_, ?_⟩
    · have hsectors : (s - ctx.fatBeginLba + 1) * sectorEntries ctx ≤ entryCount ctx :=
        Nat.mul_le_mul_right _ (by omega)
      rw [Nat.succ_mul] at hsectors
      omega
    · have hset := entryOf_setEntry ctx fat (i + (s - ctx.fatBeginLba) * sectorEntries ctx)
        (i + (s - ctx.fatBeginLba) * sectorEntries ctx) endOfChain
      rw [← sectorAddr_eq_clusterAddr hs hi, if_pos rfl] at hset
      rw [hscan]
      simp only
      split_ifs <;> exact hset
    · rw [hscan]
      simp only
      split_ifs with hinside hwrap
      · have hmod : (i + 1) % sectorEntries ctx = i + 1 := Nat.mod_eq_of_lt (by omega)
        rw [hmod]
        exact ⟨hs, firstFrom_pos hs (.inl (Nat.succ_pos i))⟩
      · exact ⟨le_rfl, firstFrom_pos le_rfl (.inl Nat.two_pos)⟩
      · exact ⟨hs.trans (Nat.le_succ s),
          firstFrom_pos (hs.trans (Nat.le_succ s)) (.inr (Nat.lt_succ_of_le hs))⟩
  · refine .inr ⟨by rw [hscan], fun c hc hlt => hnone c hc (hlt.trans_le ?_)⟩
    exact Nat.mul_le_mul_right _ (by omega)

lemma vfatFreeFatEntry_cursor (ctx : VfatContext) (loads : ℕ → Bool) (fat : Fat)
    (fuel current : ℕ) :
    (vfatFreeFatEntry ctx loads fuel fat current).1.lastAllocatedSector =
        fat.lastAllocatedSector ∧
      (vfatFreeFatEntry ctx loads fuel fat current).1.lastAllocatedIndex =
        fat.lastAllocatedIndex := by
  induction fuel generalizing fat current with
  | zero => exact ⟨rfl, rfl⟩
  | succ fuel ih =>
    rw [vfatFreeFatEntry]
    split_ifs
    · exact ih (freeEntry ctx fat current).1 _
    · exact ⟨rfl, rfl⟩
    · exact ⟨rfl, rfl⟩

lemma cursorOk_step {fat' : Fat} {e : FatCall} (h : CursorOk ctx fat)
    (hstep : allocStep ctx fat e = some fat') : CursorOk ctx fat' := by
  cases e with
  | alloc =>
    obtain rfl := Option.some.inj hstep
    rcases vfatAllocFatEntry_first h with ⟨n, -, -, -, -, -, -, hcursor⟩ | ⟨hsame, -⟩
    · exact hcursor
    · rw [hsame]
      exact h
  | free cluster =>
    obtain rfl := Option.some.inj hstep
    obtain ⟨hsector, hindex⟩ := vfatFreeFatEntry_cursor ctx allLoad fat (2 ^ 28) cluster
    rw [CursorOk, searchStart, hsector, hindex]
    exact h

lemma cursorOk_reachable (h : (allocMachine ctx).Reachable fat) : CursorOk ctx fat := by
  refine Machine.Reachable.invariant (I := CursorOk ctx) (fun fat hinit => ?_)
    (fun _ _ _ hok hstep => cursorOk_step hok hstep) h
  obtain ⟨hsector, hindex⟩ := hinit
  rw [CursorOk, searchStart, hsector, hindex]
  exact ⟨le_rfl, firstFrom_pos le_rfl (.inl Nat.two_pos)⟩

/-- After any history, a call does what it should if and only if it finds a free entry from the
cursor on or none is free at all, and the first entry it looks at is not a free cluster 1. -/
theorem fat_alloc_complete (h : (allocMachine ctx).Reachable fat) :
    AllocComplete ctx fat ↔
      ((∃ c, searchStart ctx fat ≤ c ∧ c < entryCount ctx ∧ entryOf ctx fat c = 0) ∨
        ∀ c, 2 ≤ c → c < entryCount ctx → entryOf ctx fat c ≠ 0) ∧
      ¬(searchStart ctx fat = 1 ∧ 1 < entryCount ctx ∧ entryOf ctx fat 1 = 0) := by
  have hcursor := cursorOk_reachable h
  have hstart := hcursor.2
  rw [AllocComplete]
  rcases vfatAllocFatEntry_first hcursor with
    ⟨n, hresult, hle, hlt, hzero, hbefore, hmark, -⟩ | ⟨hresult, hnone⟩
  · rw [hresult]
    constructor
    · rintro ⟨n', hok, hgood, -⟩
      obtain rfl := Except.ok.inj hok
      obtain ⟨htwo, -⟩ := hgood (by omega)
      refine ⟨.inl ⟨n, hle, hlt, hzero⟩, fun hone => ?_⟩
      exact hbefore 1 hone.1.le (by omega) hone.2.2
    · rintro ⟨-, hone⟩
      refine ⟨n, rfl, fun _ => ⟨?_, hlt, hzero, hmark⟩, fun h0 => absurd h0 (by omega)⟩
      by_contra hlow
      obtain rfl : n = 1 := by omega
      exact hone ⟨by omega, hlt, hzero⟩
  · rw [hresult]
    constructor
    · rintro ⟨n', hok, -, hgood⟩
      obtain rfl := Except.ok.inj hok
      refine ⟨.inr (hgood rfl), fun hone => ?_⟩
      exact hnone 1 hone.1.le hone.2.1 hone.2.2
    · rintro ⟨hor, -⟩
      refine ⟨0, rfl, fun h0 => absurd rfl h0, fun _ => ?_⟩
      rcases hor with ⟨c, hc, hlt, hzero⟩ | hall
      · exact absurd hzero (hnone c hc hlt)
      · exact hall

/-! ### A free entry behind the cursor -/

def tinyVolume : VfatContext :=
  ⟨0, 1, 16, 256, 100, by decide, by decide, by decide, by decide⟩

def oneFree : Fat := ⟨fun _ word => if word = 2 then 0 else endOfChain, 0, 2⟩

def oneTaken : Fat := (vfatAllocFatEntry tinyVolume allLoad oneFree).1

def oneGivenBack : Fat := (vfatFreeFatEntry tinyVolume allLoad (2 ^ 28) oneTaken 2).1

lemma vfatFreeFatEntry_single {fuel c : ℕ} (hpos : 0 < c) (hlt : c < badCluster)
    (hend : badCluster ≤ entryOf ctx fat c) :
    (vfatFreeFatEntry ctx allLoad (fuel + 2) fat c).1 = setEntry fat (clusterAddr ctx c) 0 := by
  rw [vfatFreeFatEntry, if_pos ⟨hpos, hlt⟩, if_pos (show allLoad _ = true from rfl)]
  simp only [freeEntry]
  rw [vfatFreeFatEntry, if_neg (fun h => absurd h.2 (not_lt.2 hend))]

lemma oneGivenBack_eq : oneGivenBack = setEntry oneTaken (clusterAddr tinyVolume 2) 0 :=
  vfatFreeFatEntry_single (by decide) (by decide) (by decide)

/-- After the last free cluster was allocated and given back, the disk is reported full. -/
theorem fat_alloc_misses_freed :
    ∃ fat, (allocMachine tinyVolume).Reachable fat ∧ ¬AllocComplete tinyVolume fat := by
  have hstart : (allocMachine tinyVolume).Reachable oneFree := .init ⟨rfl, rfl⟩
  have htaken : (allocMachine tinyVolume).Reachable oneTaken :=
    hstart.step (e := .alloc) trivial rfl
  refine ⟨oneGivenBack, htaken.step (e := .free 2) trivial rfl, ?_⟩
  rw [oneGivenBack_eq]
  rintro ⟨n, hresult, -, hfull⟩
  have hzero : (vfatAllocFatEntry tinyVolume allLoad
      (setEntry oneTaken (clusterAddr tinyVolume 2) 0)).2 = .ok 0 := rfl
  obtain rfl := Except.ok.inj (hresult.symm.trans hzero)
  exact hfull rfl 2 le_rfl (by decide) (by decide)

theorem fat_alloc_complete_first : AllocComplete tinyVolume oneFree := by
  refine (fat_alloc_complete (.init ⟨rfl, rfl⟩)).2 ⟨.inl ⟨2, ?_⟩, ?_⟩
  · decide
  · decide

end Almos.Vfat
