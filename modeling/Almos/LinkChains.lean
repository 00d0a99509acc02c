import Mathlib

/-!
# Chains in a table of links

A table gives each element at most one successor. Its chains are disjoint when no element has
two predecessors and no chain comes back to an element. Cutting a link keeps this, and so does a
link from an end to an element without predecessor, unless the end is in the chain of that
element.
-/
namespace Almos

/-- `b` is in the chain that starts at `a`. -/
def Reaches {α : Type*} (link : α → Option α) : α → α → Prop :=
  Relation.ReflTransGen fun a b => link a = some b

structure Chains {α : Type*} (link : α → Option α) : Prop where
  unique : ∀ a b d, link a = some d → link b = some d → a = b
  acyclic : ∀ a b, link a = some b → ¬Reaches link b a

namespace Chains
variable {α : Type*} {link : α → Option α} {a b c n x : α}

/-- Chains that start at different elements without predecessor share nothing. -/
theorem eq_of_reaches (h : Chains link) (ha : ∀ x, link x ≠ some a) (hb : ∀ x, link x ≠ some b)
    (hax : Reaches link a x) (hbx : Reaches link b x) : a = b := by
  induction hax with
  | refl =>
    rcases Relation.ReflTransGen.cases_tail hbx with heq | ⟨y, -, hya⟩
    · exact heq
    · exact absurd hya (ha y)
  | @tail y x _ hyx ih =>
    rcases Relation.ReflTransGen.cases_tail hbx with rfl | ⟨z, hbz, hzx⟩
    · exact absurd hyx (hb y)
    · obtain rfl : y = z := h.unique y z x hyx hzx
      exact ih hbz

variable [DecidableEq α]

lemma link_of_clear (h : Function.update link c none a = some b) : link a = some b := by
  rcases eq_or_ne a c with rfl | hne
  · simp at h
  · rwa [Function.update_of_ne hne] at h

theorem clear (h : Chains link) (c : α) : Chains (Function.update link c none) := by
  refine ⟨fun a b d ha hb => h.unique a b d (link_of_clear ha) (link_of_clear hb), ?_⟩
  intro a b hab hpath
  apply h.acyclic a b (link_of_clear hab)
  exact Relation.ReflTransGen.mono (fun x y hxy => link_of_clear hxy) b a hpath

lemma reaches_join (hpath : Reaches (Function.update link c (some n)) a b) :
    Reaches link a b ∨ Reaches link a c ∧ Reaches link n b := by
  induction hpath with
  | refl => exact .inl .refl
  | @tail x y _ hxy ih =>
    rcases eq_or_ne x c with rfl | hne
    · obtain rfl : n = y := by simpa using hxy
      rcases ih with hax | ⟨hax, -⟩
      · exact .inr ⟨hax, .refl⟩
      · exact .inr ⟨hax, .refl⟩
    · rw [Function.update_of_ne hne] at hxy
      rcases ih with hax | ⟨hac, hnx⟩
      · exact .inl (hax.tail hxy)
      · exact .inr ⟨hac, hnx.tail hxy⟩

theorem join (h : Chains link) (hfree : ∀ a, link a ≠ some n) (hpath : ¬Reaches link n c) :
    Chains (Function.update link c (some n)) := by
  constructor
  · intro a b d ha hb
    rcases eq_or_ne a c with rfl | hac
    · rcases eq_or_ne b a with rfl | hba
      · rfl
      · rw [Function.update_of_ne hba] at hb
        obtain rfl : n = d := by simpa using ha
        exact absurd hb (hfree b)
    · rw [Function.update_of_ne hac] at ha
      rcases eq_or_ne b c with rfl | hbc
      · obtain rfl : n = d := by simpa using hb
        exact absurd ha (hfree a)
      · rw [Function.update_of_ne hbc] at hb
        exact h.unique a b d ha hb
  · intro a b hab hba
    rcases eq_or_ne a c with rfl | hac
    · obtain rfl : n = b := by simpa using hab
      rcases reaches_join hba with hna | ⟨hna, -⟩
      · exact hpath hna
      · exact hpath hna
    · rw [Function.update_of_ne hac] at hab
      rcases reaches_join hba with hback | ⟨hbc, hna⟩
      · exact h.acyclic a b hab hback
      · exact hpath ((hna.tail hab).trans hbc)

end Chains
end Almos
