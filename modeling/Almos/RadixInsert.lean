import Mathlib
import Almos.RadixShape

/-!
# Insertion short of memory

Runs of insertions only, where any allocation of a node may fail. A failed insertion may leave new
levels and empty nodes behind, which no lookup sees.
-/
namespace Almos.Radix

variable {ι : Type} {s t : State ι}

def InsertOnly (_ : State ι) : Event ι → Prop
  | .insert _ _ _ => True
  | .delete _ _ => False

lemma insertOnly_step {e : Event ι} (h : Inv s.tree s.map) (hok : InsertOnly s e)
    (hstep : shapeStep s e = some t) : Inv t.tree t.map := by
  cases e with
  | delete key deleted => exact hok.elim
  | insert key item allocs =>
    by_cases hlegal : key < 2 ^ 32 ∧ Fresh s.tree allocs
    · obtain ⟨tree, out, heq, hout⟩ := radixTreeInsert_spec h hlegal.1 item hlegal.2
      simp only [shapeStep, if_pos hlegal, heq, Option.bind_eq_bind, Option.bind_some,
        Option.some.injEq] at hstep
      subst hstep
      obtain ⟨rfl, -, hinv⟩ | ⟨rfl, -, hinv⟩ | ⟨rfl, -, hinv⟩ := hout
      · exact hinv
      · exact hinv
      · exact hinv
    · simp only [shapeStep, if_neg hlegal, reduceCtorEq] at hstep

lemma insertOnly_inv (hs : (shapeMachine ι).Reach InsertOnly s) : Inv s.tree s.map := by
  refine Machine.Reach.invariant (I := fun s => Inv s.tree s.map) ?_ ?_ hs
  · rintro _ ⟨heap, rfl⟩
    exact inv_init heap
  · intro s e t h hok hstep
    exact insertOnly_step h hok hstep

/-- An insertion that returns 0 changes what is found under its key and nothing else. One that fails
changes nothing, and it finds the key present only when it is. -/
theorem radix_insert_law (s : State ι) (hs : (shapeMachine ι).Reach InsertOnly s) (key : ℕ)
    (hkey : key < 2 ^ 32) (item : ι) (allocs : List ℕ) (hfresh : Fresh s.tree allocs) :
    ∃ tree out, radixTreeInsert s.tree key item allocs = some (tree, out) ∧
      (out = 0 ∧ radixTreeLookup tree key = some (some item) ∧
          (∀ k < 2 ^ 32, k ≠ key → radixTreeLookup tree k = radixTreeLookup s.tree k) ∨
        out = -eEXIST ∧ (∃ present, radixTreeLookup s.tree key = some (some present)) ∧
          (∀ k < 2 ^ 32, radixTreeLookup tree k = radixTreeLookup s.tree k) ∨
        out = -eNOMEM ∧ ∀ k < 2 ^ 32, radixTreeLookup tree k = radixTreeLookup s.tree k) := by
  have h := insertOnly_inv hs
  obtain ⟨tree, out, heq, hout⟩ := radixTreeInsert_spec h hkey item hfresh
  refine ⟨tree, out, heq, ?_⟩
  obtain ⟨hzero, -, hinv⟩ | ⟨hexist, hm, hinv⟩ | ⟨hnomem, -, hinv⟩ := hout
  · refine .inl ⟨hzero, ?_, fun k hk hne => ?_⟩
    · rw [radixTreeLookup_spec hinv hkey, Function.update_self]
    · rw [radixTreeLookup_spec hinv hk, radixTreeLookup_spec h hk, Function.update_of_ne hne]
  · obtain ⟨present, hpresent⟩ := Option.ne_none_iff_exists'.mp hm
    refine .inr (.inl ⟨hexist, ⟨present, ?_⟩, fun k hk => ?_⟩)
    · rw [radixTreeLookup_spec h hkey, hpresent]
    · rw [radixTreeLookup_spec hinv hk, radixTreeLookup_spec h hk]
  · refine .inr (.inr ⟨hnomem, fun k hk => ?_⟩)
    rw [radixTreeLookup_spec hinv hk, radixTreeLookup_spec h hk]

/-- The third allocation for key 64 fails; key 7 is stored as before. -/
theorem radix_insert_law_short :
    ∃ s tree out, (shapeMachine ℕ).run start [.insert 7 70 [0]] = some s ∧
      radixTreeInsert s.tree 64 640 [1] = some (tree, out) ∧ out = -eNOMEM ∧
      radixTreeLookup tree 7 = some (some 70) := by
  obtain ⟨s, hs⟩ : ∃ s, shapeStep start (.insert 7 70 [0]) = some s := ⟨_, rfl⟩
  have hstart : (shapeMachine ℕ).Reach InsertOnly start := .init ⟨_, rfl⟩
  have hok : InsertOnly start (.insert 7 70 [0]) := trivial
  have hreach : (shapeMachine ℕ).Reach InsertOnly s := .step hstart hok hs
  obtain rfl : _ = s := Option.some.inj hs
  obtain ⟨tree, out, heq, hout⟩ :=
    radix_insert_law _ hreach 64 (by decide) 640 [1] (by decide)
  obtain rfl : -eNOMEM = out := by
    injection heq with heq
    exact congrArg Prod.snd heq
  have hlookup : radixTreeLookup tree 7 = some (some 70) := by
    obtain ⟨hzero, -⟩ | ⟨hexist, -⟩ | ⟨-, hsame⟩ := hout
    · exact absurd hzero (by decide)
    · exact absurd hexist (by decide)
    · rw [hsame 7 (by decide)]
      rfl
  exact ⟨_, tree, _, rfl, heq, rfl, hlookup⟩

end Almos.Radix
