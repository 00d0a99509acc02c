import Almos.Fat

/-!
# The place of a FAT entry

The entry of a cluster is found by byte offset, by word offset, and by sector and index, all in
32-bit arithmetic. A place is a page of the FAT's mapper and a byte in it.
-/
namespace Almos.Vfat
open Word

def wmul (a b : ℕ) : ℕ := a * b % 2 ^ 32

variable (lba bytesPerSector : ℕ)

/-- `vfat_query_fat` -/
def queryPlace (cluster : ℕ) : ℕ × ℕ :=
  let clusterOffset := wadd (wmul lba bytesPerSector) (wmul cluster 4)
  (clusterOffset / pageSize, clusterOffset % pageSize)

/-- `vfat_cluster_lookup`, which counts in words. -/
def lookupPlace (cluster : ℕ) : ℕ × ℕ :=
  let clusterOffset := wadd (wmul lba (bytesPerSector / 4)) cluster
  (clusterOffset / (pageSize / 4), clusterOffset % (pageSize / 4) * 4)

def sectorPlace (sector index : ℕ) : ℕ × ℕ :=
  let sectorsPerPage := pageSize / bytesPerSector
  (sector / sectorsPerPage, (sector % sectorsPerPage * (bytesPerSector / 4) + index) * 4)

/-- `vfat_extend_cluster`, for the cluster extended and for one given back. -/
def extendPlace (cluster : ℕ) : ℕ × ℕ :=
  sectorPlace bytesPerSector (wadd lba (wmul cluster 4 / bytesPerSector))
    (cluster % (bytesPerSector / 4))

/-- `vfat_free_fat_entry` -/
def freePlace (cluster : ℕ) : ℕ × ℕ :=
  sectorPlace bytesPerSector (wadd lba (wmul cluster 4 / bytesPerSector))
    (cluster % (bytesPerSector / 4))

/-- `vfat_alloc_fat_entry` at a sector and an index of its loops. -/
def allocPlace (sector index : ℕ) : ℕ × ℕ := sectorPlace bytesPerSector sector index

/-- The cluster that `vfat_alloc_fat_entry` returns for a sector and an index. -/
def allocCluster (sector index : ℕ) : ℕ :=
  wadd index (wmul (wsub sector lba) (bytesPerSector / 4))

variable {lba bytesPerSector} {cluster sector index : ℕ}

lemma words_of_sector (hwords : 4 ∣ bytesPerSector) (hpage : bytesPerSector ∣ pageSize) :
    ∃ words sectors, 0 < words ∧ 0 < sectors ∧ bytesPerSector = 4 * words ∧
      pageSize / bytesPerSector = sectors ∧ pageSize / 4 = words * sectors := by
  obtain ⟨words, rfl⟩ := hwords
  obtain ⟨sectors, hsectors⟩ := hpage
  have hpos : 0 < 4 * words * sectors := hsectors ▸ (by decide)
  have hwords : 0 < words := by
    by_contra hzero
    simp [Nat.eq_zero_of_not_pos hzero] at hpos
  have hsectorsPos : 0 < sectors := by
    by_contra hzero
    simp [Nat.eq_zero_of_not_pos hzero] at hpos
  refine ⟨words, sectors, hwords, hsectorsPos, rfl, ?_, ?_⟩
  · rw [hsectors]
    exact Nat.mul_div_cancel_left _ (by omega)
  · rw [hsectors, mul_assoc]
    exact Nat.mul_div_cancel_left _ (by decide)

lemma sectorPlace_eq {words sectors entry : ℕ} (hbytes : bytesPerSector = 4 * words)
    (hsectors : pageSize / bytesPerSector = sectors) (hpage : pageSize / 4 = words * sectors)
    (hsector : sector = entry / words) (hindex : index = entry % words) :
    sectorPlace bytesPerSector sector index =
      (entry / (pageSize / 4), entry % (pageSize / 4) * 4) := by
  have hdiv : bytesPerSector / 4 = words := by
    rw [hbytes]
    exact Nat.mul_div_cancel_left _ (by decide)
  rw [sectorPlace, hsectors, hdiv, hpage, hsector, hindex]
  simp only [Prod.mk.injEq]
  rw [Nat.div_div_eq_div_mul, Nat.mod_mul, mul_comm (entry / words % sectors),
    add_comm (entry % words)]
  exact ⟨rfl, rfl⟩

lemma queryPlace_eq {words : ℕ} (hbytes : bytesPerSector = 4 * words) (hcluster : cluster < 2 ^ 28)
    (hfit : lba * bytesPerSector + 4 * cluster < 2 ^ 32) :
    queryPlace lba bytesPerSector cluster =
      ((lba * words + cluster) / (pageSize / 4), (lba * words + cluster) % (pageSize / 4) * 4) := by
  have hmul : lba * bytesPerSector = 4 * (lba * words) := by
    rw [hbytes]
    ring
  rw [hmul] at hfit
  have hoffset : wadd (wmul lba bytesPerSector) (wmul cluster 4) = 4 * (lba * words + cluster) := by
    rw [wmul, wmul, hmul, Nat.mod_eq_of_lt (by omega), Nat.mod_eq_of_lt (by omega),
      wadd_of_lt (by omega)]
    omega
  rw [queryPlace, hoffset]
  simp only [pageSize, Prod.mk.injEq]
  omega

lemma lookupPlace_eq {words : ℕ} (hbytes : bytesPerSector = 4 * words)
    (hfit : lba * bytesPerSector + 4 * cluster < 2 ^ 32) :
    lookupPlace lba bytesPerSector cluster =
      ((lba * words + cluster) / (pageSize / 4), (lba * words + cluster) % (pageSize / 4) * 4) := by
  have hmul : lba * bytesPerSector = 4 * (lba * words) := by
    rw [hbytes]
    ring
  have hdiv : bytesPerSector / 4 = words := by
    rw [hbytes]
    exact Nat.mul_div_cancel_left _ (by decide)
  rw [hmul] at hfit
  rw [lookupPlace, hdiv, wmul, Nat.mod_eq_of_lt (by omega), wadd_of_lt (by omega)]

lemma freePlace_eq {words sectors : ℕ} (hpos : 0 < words) (hbytes : bytesPerSector = 4 * words)
    (hsectors : pageSize / bytesPerSector = sectors) (hpage : pageSize / 4 = words * sectors)
    (hcluster : cluster < 2 ^ 28) (hfit : lba * bytesPerSector + 4 * cluster < 2 ^ 32) :
    freePlace lba bytesPerSector cluster =
      ((lba * words + cluster) / (pageSize / 4), (lba * words + cluster) % (pageSize / 4) * 4) := by
  have hmul : lba * bytesPerSector = 4 * (lba * words) := by
    rw [hbytes]
    ring
  have hlba : lba ≤ lba * words := Nat.le_mul_of_pos_right lba hpos
  have hdiv : wmul cluster 4 / bytesPerSector = cluster / words := by
    rw [wmul, Nat.mod_eq_of_lt (by omega), hbytes, mul_comm cluster]
    exact Nat.mul_div_mul_left _ _ (by decide)
  have hle : cluster / words ≤ cluster := Nat.div_le_self _ _
  have hwords : bytesPerSector / 4 = words := by
    rw [hbytes]
    exact Nat.mul_div_cancel_left _ (by decide)
  refine sectorPlace_eq hbytes hsectors hpage ?_ ?_
  · rw [hdiv, wadd_of_lt (by omega), mul_comm, Nat.mul_add_div hpos]
  · rw [hwords, mul_comm, Nat.mul_add_mod]

theorem lookupPlace_eq_lookupAddr (ctx : VfatContext)
    (hfit : ctx.fatBeginLba * ctx.bytesPerSector + 4 * cluster < 2 ^ 32) :
    lookupPlace ctx.fatBeginLba ctx.bytesPerSector cluster =
      ((lookupAddr ctx cluster).1, (lookupAddr ctx cluster).2 * 4) := by
  obtain ⟨words, hwords⟩ := ctx.words_sector
  have hdiv : ctx.bytesPerSector / 4 = words := by
    rw [hwords]
    exact Nat.mul_div_cancel_left _ (by decide)
  rw [lookupPlace_eq hwords hfit, lookupAddr, hdiv]

/-- All the ways to the entry of a cluster lead to one place: that of the query, of the lookup, of
the extension, of the release and of the allocation that returns the cluster; and no other cluster
has this place. -/
theorem fat_accessors_agree (hwords : 4 ∣ bytesPerSector) (hpage : bytesPerSector ∣ pageSize)
    (hcluster : cluster < 2 ^ 28) (hfit : lba * bytesPerSector + 4 * cluster < 2 ^ 32) :
    lookupPlace lba bytesPerSector cluster = queryPlace lba bytesPerSector cluster ∧
    extendPlace lba bytesPerSector cluster = queryPlace lba bytesPerSector cluster ∧
    freePlace lba bytesPerSector cluster = queryPlace lba bytesPerSector cluster ∧
    (∀ sector index, lba ≤ sector → sector < 2 ^ 32 → index < bytesPerSector / 4 →
      index + (sector - lba) * (bytesPerSector / 4) < 2 ^ 32 →
      allocCluster lba bytesPerSector sector index = cluster →
        allocPlace bytesPerSector sector index = queryPlace lba bytesPerSector cluster) ∧
    (∃ sector index, lba ≤ sector ∧ sector < 2 ^ 32 ∧ index < bytesPerSector / 4 ∧
      index + (sector - lba) * (bytesPerSector / 4) < 2 ^ 32 ∧
      allocCluster lba bytesPerSector sector index = cluster) ∧
    ∀ d < 2 ^ 28, lba * bytesPerSector + 4 * d < 2 ^ 32 →
      queryPlace lba bytesPerSector d = queryPlace lba bytesPerSector cluster → d = cluster := by
  obtain ⟨words, sectors, hpos, -, hbytes, hsectors, hsize⟩ := words_of_sector hwords hpage
  have hdiv : bytesPerSector / 4 = words := by
    rw [hbytes]
    exact Nat.mul_div_cancel_left _ (by decide)
  have hquery := queryPlace_eq hbytes hcluster hfit
  have hfree := freePlace_eq hpos hbytes hsectors hsize hcluster hfit
  refine ⟨?_, ?_, ?_, ?_, ?_, ?_⟩
  · rw [hquery, lookupPlace_eq hbytes hfit]
  · exact hfree.trans hquery.symm
  · exact hfree.trans hquery.symm
  · intro sector index hsector hlt hindex hnumber halloc
    rw [hdiv] at hindex hnumber
    have hnum : index + (sector - lba) * words = cluster := by
      rw [allocCluster, hdiv, wsub_of_le hsector hlt, wmul, Nat.mod_eq_of_lt (by omega),
        wadd_of_lt hnumber] at halloc
      exact halloc
    have hentry : lba * words + cluster = words * sector + index := by
      obtain ⟨rest, rfl⟩ := Nat.exists_eq_add_of_le hsector
      rw [Nat.add_sub_cancel_left] at hnum
      rw [← hnum]
      ring
    rw [hquery, allocPlace]
    refine sectorPlace_eq hbytes hsectors hsize ?_ ?_
    · rw [hentry, Nat.mul_add_div hpos, Nat.div_eq_of_lt hindex, Nat.add_zero]
    · rw [hentry, Nat.mul_add_mod, Nat.mod_eq_of_lt hindex]
  · have hlba : lba ≤ lba * words := Nat.le_mul_of_pos_right lba hpos
    have hle : cluster / words ≤ cluster := Nat.div_le_self _ _
    have hmul : lba * bytesPerSector = 4 * (lba * words) := by
      rw [hbytes]
      ring
    have hnum : cluster % words + cluster / words * words = cluster := Nat.mod_add_div' _ _
    have hlt : cluster % words < words := Nat.mod_lt _ hpos
    obtain ⟨q, hq⟩ : ∃ q, cluster / words = q := ⟨_, rfl⟩
    obtain ⟨r, hr⟩ : ∃ r, cluster % words = r := ⟨_, rfl⟩
    rw [hq] at hle hnum
    rw [hr] at hnum hlt
    refine ⟨lba + q, r, by omega, by omega, ?_, ?_, ?_⟩
    · rw [hdiv]
      exact hlt
    · rw [hdiv, Nat.add_sub_cancel_left, hnum]
      omega
    · rw [allocCluster, hdiv, wsub_of_le (by omega) (by omega), Nat.add_sub_cancel_left, wmul,
        Nat.mod_eq_of_lt (by omega), wadd_of_lt (by omega), hnum]
  · intro d hd hdfit hsame
    rw [hquery, queryPlace_eq hbytes hd hdfit, Prod.mk.injEq] at hsame
    simp only [pageSize] at hsame
    omega

theorem fat_accessors_agree_third :
    lookupPlace 32 512 2 = queryPlace 32 512 2 ∧ allocPlace 512 32 2 = queryPlace 32 512 2 := by
  obtain ⟨hlookup, -, -, halloc, -⟩ :=
    @fat_accessors_agree 32 512 2 (by decide) (by decide) (by decide) (by decide)
  exact ⟨hlookup, halloc 32 2 (by decide) (by decide) (by decide) (by decide) (by decide)⟩

end Almos.Vfat
