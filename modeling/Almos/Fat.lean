import Almos.Word

/-!
# The FAT of a VFAT volume

The file allocation table is read and written through the pages of a mapper, 1024 entries a
page. An entry has 28 bits that count. Loading a page may fail: `loads` tells for each page
whether it succeeds during the call. A table has at most `2 ^ 28` entries.
-/
namespace Almos
open Word

inductive VfsError
  | ioErr
  | enospc
  | ebadblk
  | enomem
  | eexist
  | notFound
  | enotempty
  | eodir
  deriving DecidableEq

namespace Vfat

/-- `PMM_PAGE_SIZE` -/
def pageSize : ℕ := 4096

def badCluster : ℕ := 0x0FFFFFF7

def endOfChain : ℕ := 0x0FFFFFF8

end Vfat

open Vfat in
/-- What the boot sector says of a volume. Sectors are parts of a page; a cluster is a part of a
page or made of whole pages. -/
structure VfatContext where
  fatBeginLba : ℕ
  fatBlkCount : ℕ
  bytesPerSector : ℕ
  sectorsPerCluster : ℕ
  clusterBeginLba : ℕ
  words_sector : 4 ∣ bytesPerSector
  sector_page : bytesPerSector ∣ pageSize
  cluster_page : bytesPerSector * sectorsPerCluster ∣ pageSize ∨
    pageSize ∣ bytesPerSector * sectorsPerCluster ∧ 0 < sectorsPerCluster
  entries_max : fatBlkCount * (bytesPerSector / 4) ≤ 2 ^ 28

structure Fat where
  words : ℕ → ℕ → ℕ
  lastAllocatedSector : ℕ
  lastAllocatedIndex : ℕ

namespace Vfat

def smallVolume : VfatContext :=
  ⟨0, 8, 512, 8, 100, by decide, by decide, by decide, by decide⟩

def bytesPerCluster (ctx : VfatContext) : ℕ := ctx.bytesPerSector * ctx.sectorsPerCluster

def sectorsPerPage (ctx : VfatContext) : ℕ := pageSize / ctx.bytesPerSector

/-- `sector_size / 4` -/
def sectorEntries (ctx : VfatContext) : ℕ := ctx.bytesPerSector / 4

def entryAt (fat : Fat) (a : ℕ × ℕ) : ℕ := fat.words a.1 a.2 % 2 ^ 28

def setEntry (fat : Fat) (a : ℕ × ℕ) (val : ℕ) : Fat :=
  { fat with words := Function.update fat.words a.1 (Function.update (fat.words a.1) a.2 val) }

/-- The entry of a cluster as `vfat_cluster_lookup` finds it. -/
def lookupAddr (ctx : VfatContext) (cluster : ℕ) : ℕ × ℕ :=
  let offset := ctx.fatBeginLba * (ctx.bytesPerSector / 4) + cluster
  (offset / (pageSize / 4), offset % (pageSize / 4))

/-- An entry by sector and index, as `vfat_alloc_fat_entry` finds it. -/
def sectorAddr (ctx : VfatContext) (sector index : ℕ) : ℕ × ℕ :=
  (sector / sectorsPerPage ctx, sector % sectorsPerPage ctx * sectorEntries ctx + index)

/-- The entry of a cluster as `vfat_extend_cluster` and `vfat_free_fat_entry` find it. -/
def clusterAddr (ctx : VfatContext) (cluster : ℕ) : ℕ × ℕ :=
  sectorAddr ctx (ctx.fatBeginLba + cluster * 4 / ctx.bytesPerSector) (cluster % sectorEntries ctx)

variable (ctx : VfatContext) (loads : ℕ → Bool)

/-- The inner loop of `vfat_alloc_fat_entry` over `todo` indexes. -/
def scanIndex (fat : Fat) (sector : ℕ) : ℕ → ℕ → Option ℕ
  | 0, _ => none
  | todo + 1, index =>
      if entryAt fat (sectorAddr ctx sector index) = 0 then some index
      else scanIndex fat sector todo (index + 1)

/-- The outer loop over `todo` sectors: the free entry found, if any. -/
def scanSector (fat : Fat) : ℕ → ℕ → ℕ → Except VfsError (Option (ℕ × ℕ))
  | 0, _, _ => .ok none
  | todo + 1, sector, index =>
      if loads (sector / sectorsPerPage ctx) then
        match scanIndex ctx fat sector (sectorEntries ctx - index) index with
        | some index => .ok (some (sector, index))
        | none => scanSector fat todo (sector + 1) 0
      else .error .ioErr

/-- `vfat_alloc_fat_entry`; the cluster is 0 when no entry was found. -/
def vfatAllocFatEntry (fat : Fat) : Fat × Except VfsError ℕ :=
  let eofSector := ctx.fatBeginLba + ctx.fatBlkCount
  match scanSector ctx loads fat (eofSector - fat.lastAllocatedSector) fat.lastAllocatedSector
    fat.lastAllocatedIndex with
  | .error err => (fat, .error err)
  | .ok none => (fat, .ok 0)
  | .ok (some (sector, index)) =>
      let fat := setEntry fat (sectorAddr ctx sector index) endOfChain
      let fat :=
        if index ≠ sectorEntries ctx - 1 then
          { fat with lastAllocatedSector := sector
                     lastAllocatedIndex := (index + 1) % sectorEntries ctx }
        else if sector + 1 = eofSector then
          { fat with lastAllocatedSector := ctx.fatBeginLba, lastAllocatedIndex := 2 }
        else
          { fat with lastAllocatedSector := sector + 1
                     lastAllocatedIndex := (index + 1) % sectorEntries ctx }
      (fat, .ok (index + (sector - ctx.fatBeginLba) * sectorEntries ctx))

/-- What a turn of `vfat_free_fat_entry` does with the page of the entry locked: the entry is
cleared, and its link returned. -/
def freeEntry (fat : Fat) (current : ℕ) : Fat × ℕ :=
  (setEntry fat (clusterAddr ctx current) 0, entryAt fat (clusterAddr ctx current))

/-- `vfat_free_fat_entry`; every turn of the loop clears an entry, `fuel` bounds them. -/
def vfatFreeFatEntry : ℕ → Fat → ℕ → Fat × Except VfsError Unit
  | 0, fat, _ => (fat, .ok ())
  | fuel + 1, fat, current =>
      if 0 < current ∧ current < badCluster then
        if loads (clusterAddr ctx current).1 then
          let (fat, next) := freeEntry ctx fat current
          vfatFreeFatEntry fuel fat next
        else (fat, .error .ioErr)
      else (fat, .ok ())

/-- What `vfat_extend_cluster` does with the page of the current entry locked: the link is written
if the entry ends a chain. -/
def extendLink (fat : Fat) (current next : ℕ) : Option Fat :=
  if endOfChain ≤ entryAt fat (clusterAddr ctx current) then
    some (setEntry fat (clusterAddr ctx current) next)
  else none

/-- `vfat_extend_cluster`. When the cluster has a successor already, the new entry is cleared, and
still returned. -/
def vfatExtendCluster (fat : Fat) (current : ℕ) : Fat × Except VfsError ℕ :=
  match vfatAllocFatEntry ctx loads fat with
  | (fat, .error err) => (fat, .error err)
  | (fat, .ok 0) => (fat, .ok 0)
  | (fat, .ok next) =>
      let failed := ((vfatFreeFatEntry ctx loads (2 ^ 28) fat next).1, .error .ioErr)
      if loads (clusterAddr ctx current).1 then
        match extendLink ctx fat current next with
        | some fat => (fat, .ok next)
        | none =>
            if loads (clusterAddr ctx next).1 then ((freeEntry ctx fat next).1, .ok next)
            else failed
      else failed

/-- The loop of `vfat_cluster_lookup`, `todo` links away from the cluster looked for. -/
def lookupLoop : ℕ → Fat → ℕ → Bool → Fat × Except VfsError (ℕ × Bool)
  | 0, fat, current, extended => (fat, .ok (current, extended))
  | todo + 1, fat, current, extended =>
      let next := entryAt fat (lookupAddr ctx current)
      if next = badCluster then (fat, .error .ebadblk)
      else if endOfChain ≤ next then
        match vfatExtendCluster ctx loads fat current with
        | (fat, .error _) => (fat, .error .ioErr)
        | (fat, .ok 0) => (fat, .error .enospc)
        | (fat, .ok next) =>
            if loads (lookupAddr ctx next).1 then lookupLoop todo fat next true
            else (fat, .error .ioErr)
      else if loads (lookupAddr ctx next).1 then lookupLoop todo fat next extended
      else (fat, .error .ioErr)

/-- `vfat_cluster_lookup`: the cluster found, and whether the chain was extended. -/
def vfatClusterLookup (fat : Fat) (nodeCluster clusterRank : ℕ) :
    Fat × Except VfsError (ℕ × Bool) :=
  if loads (lookupAddr ctx nodeCluster).1 then lookupLoop ctx loads clusterRank fat nodeCluster false
  else (fat, .error .ioErr)

theorem clusterAddr_eq_lookupAddr (cluster : ℕ) :
    clusterAddr ctx cluster = lookupAddr ctx cluster := by
  obtain ⟨words, hwords⟩ := ctx.words_sector
  obtain ⟨sectors, hsectors⟩ := ctx.sector_page
  have hpos : 0 < words ∧ 0 < sectors := by
    rw [hwords, pageSize] at hsectors
    constructor
    · by_contra hzero
      simp [Nat.eq_zero_of_not_pos hzero] at hsectors
    · by_contra hzero
      simp [Nat.eq_zero_of_not_pos hzero] at hsectors
  have hentries : ctx.bytesPerSector / 4 = words := by
    rw [hwords]
    exact Nat.mul_div_cancel_left _ (by decide)
  have hpage : sectorsPerPage ctx = sectors := by
    rw [sectorsPerPage, hsectors]
    exact Nat.mul_div_cancel_left _ (by omega)
  have hsize : pageSize / 4 = words * sectors := by
    rw [hsectors, hwords, mul_assoc]
    exact Nat.mul_div_cancel_left _ (by decide)
  have hsector : cluster * 4 / ctx.bytesPerSector = cluster / words := by
    rw [hwords, mul_comm cluster]
    exact Nat.mul_div_mul_left _ _ (by decide)
  have hdiv : (ctx.fatBeginLba * words + cluster) / words = ctx.fatBeginLba + cluster / words := by
    rw [mul_comm, Nat.mul_add_div hpos.1]
  have hmod : (ctx.fatBeginLba * words + cluster) % words = cluster % words := by
    rw [mul_comm, Nat.mul_add_mod]
  simp only [clusterAddr, sectorAddr, lookupAddr, sectorEntries, hentries, hpage, hsize, hsector]
  rw [← Nat.div_div_eq_div_mul, hdiv, Nat.mod_mul, hdiv, hmod, mul_comm words, add_comm (_ % words)]

section Entries
variable {ctx loads}

def entryCount (ctx : VfatContext) : ℕ := ctx.fatBlkCount * sectorEntries ctx

def entryOf (ctx : VfatContext) (fat : Fat) (cluster : ℕ) : ℕ := entryAt fat (clusterAddr ctx cluster)

lemma clusterAddr_inj {c d : ℕ} : clusterAddr ctx c = clusterAddr ctx d ↔ c = d := by
  constructor
  · intro h
    rw [clusterAddr_eq_lookupAddr, clusterAddr_eq_lookupAddr, lookupAddr, lookupAddr,
      Prod.mk.injEq] at h
    have hc := Nat.div_add_mod (ctx.fatBeginLba * (ctx.bytesPerSector / 4) + c) (pageSize / 4)
    have hd := Nat.div_add_mod (ctx.fatBeginLba * (ctx.bytesPerSector / 4) + d) (pageSize / 4)
    rw [h.1, h.2] at hc
    omega
  · rintro rfl
    rfl

lemma entryAt_setEntry (fat : Fat) (a b : ℕ × ℕ) (val : ℕ) :
    entryAt (setEntry fat a val) b = if b = a then val % 2 ^ 28 else entryAt fat b := by
  simp only [entryAt, setEntry]
  rcases eq_or_ne b.1 a.1 with hpage | hpage
  · rw [hpage, Function.update_self]
    rcases eq_or_ne b.2 a.2 with hword | hword
    · rw [if_pos (Prod.ext hpage hword), hword, Function.update_self]
    · have hne : b ≠ a := fun h => hword (congrArg Prod.snd h)
      rw [if_neg hne, Function.update_of_ne hword]
  · have hne : b ≠ a := fun h => hpage (congrArg Prod.fst h)
    rw [if_neg hne, Function.update_of_ne hpage]

variable (ctx) in
lemma entryOf_setEntry (fat : Fat) (c d val : ℕ) :
    entryOf ctx (setEntry fat (clusterAddr ctx c) val) d =
      if d = c then val % 2 ^ 28 else entryOf ctx fat d := by
  simp only [entryOf, entryAt_setEntry, clusterAddr_inj]

lemma sectorEntries_pos : 0 < sectorEntries ctx := by
  obtain ⟨words, hwords⟩ := ctx.words_sector
  have hpos : 0 < ctx.bytesPerSector := Nat.pos_of_dvd_of_pos ctx.sector_page (by decide)
  rw [sectorEntries]
  omega

/-- An entry found by sector and index is that of the cluster `vfat_alloc_fat_entry` returns. -/
lemma sectorAddr_eq_clusterAddr {sector index : ℕ} (hsector : ctx.fatBeginLba ≤ sector)
    (hindex : index < sectorEntries ctx) :
    sectorAddr ctx sector index =
      clusterAddr ctx (index + (sector - ctx.fatBeginLba) * sectorEntries ctx) := by
  have hpos : 0 < sectorEntries ctx := sectorEntries_pos
  have hbytes : ctx.bytesPerSector = sectorEntries ctx * 4 :=
    (Nat.div_mul_cancel ctx.words_sector).symm
  have hdiv : (index + (sector - ctx.fatBeginLba) * sectorEntries ctx) * 4 / ctx.bytesPerSector =
      sector - ctx.fatBeginLba := by
    rw [hbytes, Nat.mul_div_mul_right _ _ (by decide), Nat.add_mul_div_right _ _ hpos,
      Nat.div_eq_of_lt hindex, zero_add]
  rw [clusterAddr, hdiv, Nat.add_mul_mod_self_right, Nat.mod_eq_of_lt hindex,
    Nat.add_sub_cancel' hsector]

lemma scanIndex_some {fat : Fat} {sector todo index found : ℕ}
    (h : scanIndex ctx fat sector todo index = some found) :
    found < index + todo ∧ entryAt fat (sectorAddr ctx sector found) = 0 := by
  induction todo generalizing index with
  | zero => simp [scanIndex] at h
  | succ todo ih =>
    simp only [scanIndex] at h
    split_ifs at h with hzero
    · cases h
      exact ⟨by omega, hzero⟩
    · obtain ⟨hlt, hfree⟩ := ih h
      exact ⟨by omega, hfree⟩

lemma scanSector_some {fat : Fat} {todo start index sector found : ℕ}
    (h : scanSector ctx loads fat todo start index = .ok (some (sector, found))) :
    start ≤ sector ∧ sector < start + todo ∧ found < sectorEntries ctx ∧
      entryAt fat (sectorAddr ctx sector found) = 0 := by
  induction todo generalizing start index with
  | zero => simp [scanSector] at h
  | succ todo ih =>
    simp only [scanSector] at h
    split_ifs at h with hload
    cases hscan : scanIndex ctx fat start (sectorEntries ctx - index) index with
    | none =>
      rw [hscan] at h
      obtain ⟨hle, hlt, hrest⟩ := ih h
      exact ⟨by omega, by omega, hrest⟩
    | some i =>
      rw [hscan] at h
      cases h
      obtain ⟨hlt, hfree⟩ := scanIndex_some hscan
      have hpos : index < sectorEntries ctx := by
        by_contra hge
        simp [Nat.sub_eq_zero_of_le (not_lt.1 hge), scanIndex] at hscan
      exact ⟨le_rfl, by omega, by omega, hfree⟩

def ScanFinds (ctx : VfatContext) (loads : ℕ → Bool) (fat : Fat) : Prop :=
  ∃ found, scanSector ctx loads fat (ctx.fatBeginLba + ctx.fatBlkCount - fat.lastAllocatedSector)
    fat.lastAllocatedSector fat.lastAllocatedIndex = .ok (some found)

variable (loads) in
/-- `vfat_alloc_fat_entry` marks a free entry of the table and returns it, or changes nothing. -/
theorem vfatAllocFatEntry_cases (fat : Fat) (hcursor : ctx.fatBeginLba ≤ fat.lastAllocatedSector) :
    (ScanFinds ctx loads fat ∧ ∃ n, (vfatAllocFatEntry ctx loads fat).2 = .ok n ∧
      n < entryCount ctx ∧ entryOf ctx fat n = 0 ∧
      (∀ c, entryOf ctx (vfatAllocFatEntry ctx loads fat).1 c =
        if c = n then endOfChain else entryOf ctx fat c) ∧
      ctx.fatBeginLba ≤ (vfatAllocFatEntry ctx loads fat).1.lastAllocatedSector) ∨
    (¬ScanFinds ctx loads fat ∧ (vfatAllocFatEntry ctx loads fat).1 = fat ∧
      ((vfatAllocFatEntry ctx loads fat).2 = .ok 0 ∨
        ∃ err, (vfatAllocFatEntry ctx loads fat).2 = .error err)) := by
  simp only [vfatAllocFatEntry, ScanFinds]
  cases hscan : scanSector ctx loads fat
      (ctx.fatBeginLba + ctx.fatBlkCount - fat.lastAllocatedSector) fat.lastAllocatedSector
      fat.lastAllocatedIndex with
  | error err => exact .inr ⟨by simp, rfl, .inr ⟨err, rfl⟩⟩
  | ok found =>
    cases found with
    | none => exact .inr ⟨by simp, rfl, .inl rfl⟩
    | some found =>
      obtain ⟨sector, index⟩ := found
      obtain ⟨hle, hlt, hindex, hfree⟩ := scanSector_some hscan
      have haddr := sectorAddr_eq_clusterAddr (hcursor.trans hle) hindex
      rw [haddr] at hfree
      refine .inl ⟨⟨_, rfl⟩, _, rfl, ?_, hfree, ?_, ?_⟩
      · have hsectors : (sector - ctx.fatBeginLba + 1) * sectorEntries ctx ≤ entryCount ctx :=
          Nat.mul_le_mul_right _ (by omega)
        rw [Nat.add_mul, one_mul] at hsectors
        omega
      · intro c
        have hset := entryOf_setEntry ctx fat
          (index + (sector - ctx.fatBeginLba) * sectorEntries ctx) c endOfChain
        rw [← haddr] at hset
        simp only
        split_ifs at hset ⊢ <;> exact hset
      · simp only
        split_ifs
        · exact hcursor.trans hle
        · exact le_rfl
        · exact (hcursor.trans hle).trans (Nat.le_succ _)

end Entries

end Vfat
end Almos
