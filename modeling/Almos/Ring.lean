import Mathlib

/-!
# Circular buffers

A list held in a circular buffer, from a start position on and around its end.
-/
namespace Almos.Ring
variable {α : Type*} {size start n i j : ℕ} {tbl tbl' : ℕ → α} {q r : List α}

lemma add_mod_inj (hi : i < size) (hj : j < size) :
    (start + i) % size = (start + j) % size ↔ i = j := by
  constructor
  · intro h
    have hmod : i ≡ j [MOD size] := Nat.ModEq.add_left_cancel' start h
    rwa [Nat.ModEq, Nat.mod_eq_of_lt hi, Nat.mod_eq_of_lt hj] at hmod
  · rintro rfl
    rfl

def Holds (size : ℕ) (tbl : ℕ → α) (start : ℕ) (q : List α) : Prop :=
  ∀ i (h : i < q.length), tbl ((start + i) % size) = q[i]

lemma Holds.nil : Holds size tbl start [] := fun i h => absurd h (Nat.not_lt_zero i)

lemma holds_mod : Holds size tbl (start % size) q ↔ Holds size tbl start q := by
  simp only [Holds, Nat.mod_add_mod]

lemma Holds.append (h : Holds size tbl start q)
    (hold : ∀ i < q.length, tbl' ((start + i) % size) = tbl ((start + i) % size))
    (hnew : Holds size tbl' (start + q.length) r) : Holds size tbl' start (q ++ r) := by
  intro i hi
  rw [List.getElem_append]
  split_ifs with hlt
  · rw [hold i hlt, h i hlt]
  · have hplace : start + q.length + (i - q.length) = start + i := by omega
    have hnewi := hnew (i - q.length) (by simp only [List.length_append] at hi; omega)
    rwa [hplace] at hnewi

lemma Holds.push (h : Holds size tbl start q) (hroom : q.length < size) (v : α) :
    Holds size (Function.update tbl ((start + q.length) % size) v) start (q ++ [v]) := by
  refine h.append (fun i hi => ?_) fun i hi => ?_
  · have hne : (start + i) % size ≠ (start + q.length) % size := by
      rw [ne_eq, add_mod_inj (hi.trans hroom) hroom]
      omega
    exact Function.update_of_ne hne _ _
  · obtain rfl : i = 0 := by simpa using hi
    simp

lemma Holds.drop (h : Holds size tbl start q) (n : ℕ) : Holds size tbl (start + n) (q.drop n) := by
  intro i hi
  have hplace : start + n + i = start + (n + i) := by omega
  rw [hplace, List.getElem_drop, h (n + i) (by rw [List.length_drop] at hi; omega)]

lemma Holds.head {v : α} (h : Holds size tbl start (v :: q)) : tbl (start % size) = v :=
  h 0 (by simp)

lemma Holds.tail {v : α} (h : Holds size tbl start (v :: q)) : Holds size tbl (start + 1) q :=
  h.drop 1

end Almos.Ring
