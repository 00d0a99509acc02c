import Mathlib

/-!
# Searching a tree by position

`descend above stop t` walks down from the root: to the left of a value that is above
the position searched, to the right of one that is not, and no further once a value
above the position also meets `stop`. It returns the last value above the position and
the place where the walk ended, as the tree with a hole there.
-/
namespace Almos.SearchTree

variable {α : Type*}

def inorder : BinaryTree α → List α
  | .nil => []
  | .node a l r => inorder l ++ a :: inorder r

theorem length_inorder (t : BinaryTree α) : (inorder t).length = t.numNodes := by
  induction t with
  | nil => rfl
  | node a l r ihl ihr =>
    simp only [inorder, List.length_append, List.length_cons, ihl, ihr, BinaryTree.numNodes]
    omega

def leaf (a : α) : BinaryTree α := .node a .nil .nil

def descend (above stop : α → Bool) : BinaryTree α → Option α × (BinaryTree α → BinaryTree α)
  | .nil => (none, id)
  | .node a l r =>
      if above a then
        if stop a then (some a, id)
        else
          let found := descend above stop l
          (found.1.or (some a), fun t => .node a (found.2 t) r)
      else
        let found := descend above stop r
        (found.1, fun t => .node a l (found.2 t))

def Sorted (above stop : α → Bool) (l : List α) : Prop :=
  l.Pairwise fun a b => above a → above b ∧ ¬stop b

structure Found (above stop : α → Bool) (l : List α)
    (found : Option α × (BinaryTree α → BinaryTree α)) (lower upper : List α) : Prop where
  split : l = lower ++ upper
  notAbove : ∀ a ∈ lower, ¬above a
  isAbove : ∀ a ∈ upper, above a
  first : found.1 = upper.head?
  link : (∀ a ∈ upper, ¬stop a) → ∀ x, inorder (found.2 (leaf x)) = lower ++ x :: upper

theorem descend_spec {above stop : α → Bool} :
    ∀ t : BinaryTree α, Sorted above stop (inorder t) →
      ∃ lower upper, Found above stop (inorder t) (descend above stop t) lower upper := by
  intro t
  induction t with
  | nil =>
    intro _
    exact ⟨[], [], by simp [inorder], by simp, by simp, by simp [descend], by simp [descend, leaf, inorder]⟩
  | node a l r ihl ihr =>
    intro hsorted
    obtain ⟨hl, hr, hlr⟩ := List.pairwise_append.mp hsorted
    obtain ⟨har, hr⟩ := List.pairwise_cons.mp hr
    by_cases habove : above a = true
    · have hright : ∀ b ∈ inorder r, above b = true := fun b hb => (har b hb habove).1
      by_cases hstop : stop a = true
      · -- nothing on the left is above, since it would put `a` out of reach of `stop`
        refine ⟨inorder l, a :: inorder r, rfl, ?_, ?_, ?_, ?_⟩
        · intro b hb hbabove
          exact (hlr b hb a (by simp) hbabove).2 hstop
        · intro b hb
          cases List.mem_cons.mp hb with
          | inl heq => rw [heq, habove]
          | inr hmem => exact hright b hmem
        · simp [descend, habove, hstop]
        · intro hnone
          exact absurd hstop (hnone a (by simp))
      · obtain ⟨lower, upper, hfound⟩ := ihl hl
        refine ⟨lower, upper ++ a :: inorder r, ?_, hfound.notAbove, ?_, ?_, ?_⟩
        · simp [inorder, hfound.split]
        · intro b hb
          obtain hmem | heq | hmem : b ∈ upper ∨ b = a ∨ b ∈ inorder r := by simpa using hb
          · exact hfound.isAbove b hmem
          · rw [heq, habove]
          · exact hright b hmem
        · simp only [descend, habove, hstop, hfound.first]
          cases upper with
          | nil => simp
          | cons b bs => simp
        · intro hnone x
          have hlink := hfound.link (fun b hb => hnone b (by simp [hb])) x
          simp [descend, habove, hstop, inorder, hlink]
    · obtain ⟨lower, upper, hfound⟩ := ihr hr
      refine ⟨inorder l ++ a :: lower, upper, ?_, ?_, hfound.isAbove, ?_, ?_⟩
      · simp [inorder, hfound.split]
      · intro b hb
        obtain hmem | heq | hmem : b ∈ inorder l ∨ b = a ∨ b ∈ lower := by simpa using hb
        · intro hbabove
          exact habove (hlr b hmem a (by simp) hbabove).1
        · rw [heq]
          exact habove
        · exact hfound.notAbove b hmem
      · simp [descend, habove, hfound.first]
      · intro hnone x
        have hlink := hfound.link hnone x
        simp [descend, habove, inorder, hlink]

end Almos.SearchTree
