import Mathlib
import Almos.KcmAccounting

/-!
# The blocks of a page

The number of blocks is found from the plain size of the header, and the blocks are placed after the
rounded one. The rounding costs less than a block unless the blocks have the smallest size, 32.
-/
namespace Almos.Kcm
open Word Bits

variable {c : Config}

lemma blank_aligne : (blank c).aligne = if 0 < c.aligne ∧ c.aligne ≤ 32 then 32 else 64 := by
  have hcond : (c.aligne ≠ 0 ∧ c.aligne < 33) ↔ 0 < c.aligne ∧ c.aligne ≤ 32 := by omega
  simp only [blank, kcmAligne, hcond]

lemma blank_size (hlow : 1 ≤ c.size) (hhigh : c.size ≤ 1024) :
    if 0 < c.aligne ∧ c.aligne ≤ 32 ∧ c.size ≤ 32 then (blank c).size = 32
    else 64 ≤ (blank c).size ∧ (blank c).size ≤ 1024 ∧ (blank c).size % 32 = 0 := by
  have hsize : (blank c).size = arroundUp c.size (blank c).aligne := rfl
  rw [hsize, blank_aligne, arroundUp]
  by_cases haligne : 0 < c.aligne ∧ c.aligne ≤ 32
  · rw [if_pos haligne]
    split_ifs <;> omega
  · rw [if_neg haligne]
    split_ifs <;> omega

lemma header_blank : arroundUp sizeofPageInfo (blank c).aligne = 64 := by
  rw [blank_aligne]
  split_ifs <;> rfl

lemma blank_blocksNr : (blank c).blocksNr =
    if sizeofPageInfo ≤ 4096 % (blank c).size then 4096 / (blank c).size
    else wsub (4096 / (blank c).size) 1 := rfl

/-- There is a block at least when a block takes at most a quarter of the page. -/
lemma blocksNr_pos {size : ℕ} (hlow : 64 ≤ size) (hhigh : size ≤ 1024) :
    1 ≤ if sizeofPageInfo ≤ 4096 % size then 4096 / size else wsub (4096 / size) 1 := by
  have hfour : 4 ≤ 4096 / size := by
    calc 4 = 4096 / 1024 := rfl
      _ ≤ 4096 / size := Nat.div_le_div_left hhigh (by omega)
  have hall : 4096 / size ≤ 4096 := Nat.div_le_self _ _
  by_cases hrem : sizeofPageInfo ≤ 4096 % size
  · rw [if_pos hrem]
    omega
  · rw [if_neg hrem, wsub_of_le (by omega) (by omega)]
    omega

/-- The bitmap has a bit for each block and the blocks end in their page, except for objects of at
most 32 bytes with an alignment from 1 to 32. -/
theorem kcm_geometry (c : Config) (hlow : 1 ≤ c.size) (hhigh : c.size ≤ kcmPageSize / 4) :
    (1 ≤ (blank c).blocksNr ∧ (blank c).blocksNr ≤ 128 ∧
        arroundUp sizeofPageInfo (blank c).aligne + (blank c).blocksNr * (blank c).size ≤
          kcmPageSize) ↔
      ¬(0 < c.aligne ∧ c.aligne ≤ 32 ∧ c.size ≤ 32) := by
  have hsize := blank_size hlow hhigh
  rw [header_blank, blank_blocksNr]
  by_cases hsmall : 0 < c.aligne ∧ c.aligne ≤ 32 ∧ c.size ≤ 32
  · rw [if_pos hsmall] at hsize
    rw [hsize]
    refine iff_of_false ?_ (not_not.mpr hsmall)
    decide
  · rw [if_neg hsmall] at hsize
    obtain ⟨h64, h1024, hmod⟩ := hsize
    obtain ⟨hfit, hle⟩ := blocks_fit h64 h1024 hmod
    exact iff_of_true ⟨blocksNr_pos h64 h1024, hle, hfit⟩ hsmall

theorem kcm_geometry_quarter :
    (blank ⟨1024, 0, 1, 1, false, false⟩).blocksNr * (blank ⟨1024, 0, 1, 1, false, false⟩).size ≤
      4032 := by
  obtain ⟨-, -, hfit⟩ :=
    (kcm_geometry ⟨1024, 0, 1, 1, false, false⟩ (by decide) (by decide)).mpr (by decide)
  rw [header_blank] at hfit
  unfold kcmPageSize at hfit
  omega

/-- 127 blocks of 32 bytes after a header of 64 bytes take 32 bytes of the next page. -/
theorem kcm_blocks_past_page : ¬∀ c : Config, 1 ≤ c.size → c.size ≤ kcmPageSize / 4 →
    arroundUp sizeofPageInfo (blank c).aligne + (blank c).blocksNr * (blank c).size ≤ kcmPageSize := by
  intro h
  exact absurd (h ⟨32, 32, 1, 1, false, false⟩ (by decide) (by decide)) (by decide)

end Almos.Kcm
