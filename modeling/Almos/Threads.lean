import Mathlib

/-!
# Threads and their places

Finitely many threads, each at a place of its program. When one thread moves, the number of threads
at places of some kind changes by what its old and its new place count for.
-/
namespace Almos.Threads
variable {ι κ : Type*} [Fintype ι] {kind : κ → Bool} {place : ι → κ}

def count (kind : κ → Bool) (place : ι → κ) : ℕ := ∑ i, (kind (place i)).toNat

lemma sum_update [DecidableEq ι] (weight : κ → ℕ) (place : ι → κ) (i : ι) (k : κ) :
    ∑ j, weight (Function.update place i k j) + weight (place i) =
      ∑ j, weight (place j) + weight k := by
  have hold : ∑ j, weight (place j) =
      weight (place i) + ∑ j ∈ Finset.univ.erase i, weight (place j) :=
    (Finset.add_sum_erase _ _ (Finset.mem_univ i)).symm
  have hnew : ∑ j, weight (Function.update place i k j) =
      weight k + ∑ j ∈ Finset.univ.erase i, weight (place j) := by
    rw [← Finset.add_sum_erase _ _ (Finset.mem_univ i), Function.update_self]
    congr 1
    apply Finset.sum_congr rfl
    intro j hj
    rw [Function.update_of_ne (Finset.ne_of_mem_erase hj)]
  omega

lemma count_update [DecidableEq ι] (kind : κ → Bool) (place : ι → κ) (i : ι) (k : κ) :
    count kind (Function.update place i k) + (kind (place i)).toNat =
      count kind place + (kind k).toNat :=
  sum_update (fun k => (kind k).toNat) place i k

lemma count_pos {i : ι} (h : kind (place i) = true) : 0 < count kind place := by
  have hle : (kind (place i)).toNat ≤ count kind place :=
    Finset.single_le_sum (f := fun i => (kind (place i)).toNat) (fun _ _ => Nat.zero_le _)
      (Finset.mem_univ i)
  rw [h, Bool.toNat_true] at hle
  exact hle

lemma count_eq_zero (h : ∀ i, kind (place i) = false) : count kind place = 0 := by
  apply Finset.sum_eq_zero
  intro i _
  rw [h i, Bool.toNat_false]

lemma two_le_count [DecidableEq ι] {i j : ι} (hne : i ≠ j) (hi : kind (place i) = true)
    (hj : kind (place j) = true) : 2 ≤ count kind place := by
  have hle : (kind (place j)).toNat ≤ ∑ k ∈ Finset.univ.erase i, (kind (place k)).toNat :=
    Finset.single_le_sum (f := fun k => (kind (place k)).toNat) (fun _ _ => Nat.zero_le _)
      (Finset.mem_erase.mpr ⟨hne.symm, Finset.mem_univ j⟩)
  have hsum : count kind place =
      (kind (place i)).toNat + ∑ k ∈ Finset.univ.erase i, (kind (place k)).toNat :=
    (Finset.add_sum_erase _ _ (Finset.mem_univ i)).symm
  rw [hi, Bool.toNat_true] at hsum
  rw [hj, Bool.toNat_true] at hle
  omega

lemma count_le_one {i : ι} (h : ∀ j, j ≠ i → kind (place j) = false) : count kind place ≤ 1 := by
  have hsum : count kind place = (kind (place i)).toNat := by
    apply Finset.sum_eq_single i
    · intro j _ hne
      rw [h j hne, Bool.toNat_false]
    · exact fun hnot => absurd (Finset.mem_univ i) hnot
  rw [hsum]
  exact Bool.toNat_le _

end Almos.Threads
