import Mathlib

/-!
# Strings with a NUL

The comparison of two strings is zero for equal ones alone.
-/
namespace Almos

structure CString where
  bytes : List (BitVec 8)
  nonzero : 0#8 ∉ bytes
deriving DecidableEq

/-- The loop of `strcmp`. -/
def strcmp : List (BitVec 8) → List (BitVec 8) → ℤ
  | [], [] => 0
  | [], c :: _ => 0 - c.toInt
  | c :: _, [] => c.toInt
  | c :: s1, d :: s2 => if c = d then strcmp s1 s2 else c.toInt - d.toInt

lemma strcmp_eq_zero_iff {s t : List (BitVec 8)} (hs : 0#8 ∉ s) (ht : 0#8 ∉ t) :
    strcmp s t = 0 ↔ s = t := by
  have hne : ∀ {c d : BitVec 8}, c ≠ d → c.toInt - d.toInt ≠ 0 := by
    intro c d hcd hsub
    exact hcd (BitVec.eq_of_toInt_eq (by omega))
  have hzero : (0#8).toInt = 0 := rfl
  induction s generalizing t with
  | nil =>
    cases t with
    | nil => simp [strcmp]
    | cons d t =>
      have hd : (0#8).toInt - d.toInt ≠ 0 := hne fun heq => ht (heq ▸ List.mem_cons_self)
      simpa [strcmp, hzero] using hd
  | cons c s ih =>
    cases t with
    | nil =>
      have hc : c.toInt - (0#8).toInt ≠ 0 := hne fun heq => hs (heq ▸ List.mem_cons_self)
      simpa [strcmp, hzero] using hc
    | cons d t =>
      by_cases hcd : c = d
      · subst hcd
        have hrest : strcmp s t = 0 ↔ s = t := ih (fun h => hs (List.mem_cons_of_mem _ h))
          fun h => ht (List.mem_cons_of_mem _ h)
        rw [strcmp, if_pos rfl, hrest]
        simp
      · rw [strcmp, if_neg hcd]
        simp [hne hcd, hcd]

lemma strcmp_name (s t : CString) : strcmp s.bytes t.bytes = 0 ↔ s = t := by
  rw [strcmp_eq_zero_iff s.nonzero t.nonzero]
  cases s
  cases t
  simp

end Almos
