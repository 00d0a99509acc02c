import Mathlib

/-!
# Trees of blocks that hold references

Named roots and, in each block, indexed references to further blocks, 0 standing for none. A place
is a root with a path of indexes. When a fresh block is hung at an empty place, and holds no
references itself if there are places below, every other place keeps its block; so different
places never come to share a block.
-/
namespace Almos

structure RefTree (ρ ι β : Type*) where
  root : ρ → β
  ref : β → ι → β

namespace RefTree
variable {ρ ι β : Type*} [Zero β] [DecidableEq β]

/-- The block at the end of `path`, 0 as soon as a reference on the way is missing. -/
def node (t : RefTree ρ ι β) (r : ρ) (path : List ι) : β :=
  path.foldl (fun b i => if b = 0 then 0 else t.ref b i) (t.root r)

@[simp] lemma node_nil (t : RefTree ρ ι β) (r : ρ) : t.node r [] = t.root r := rfl

lemma node_concat (t : RefTree ρ ι β) (r : ρ) (path : List ι) (i : ι) :
    t.node r (path ++ [i]) = if t.node r path = 0 then 0 else t.ref (t.node r path) i := by
  rw [node, List.foldl_append]
  rfl

lemma node_append_eq_zero {t : RefTree ρ ι β} {r : ρ} {path : List ι} (h : t.node r path = 0)
    (rest : List ι) : t.node r (path ++ rest) = 0 := by
  induction rest using List.reverseRecOn with
  | nil => simpa using h
  | append_singleton rest i ih => rw [← List.append_assoc, node_concat, if_pos ih]

/-- No two places down to `depth` have the same block, and all their blocks are in use. -/
structure Linked (depth : ρ → ℕ) (used : Set β) (t : RefTree ρ ι β) : Prop where
  inj : ∀ r p s q, p.length ≤ depth r → q.length ≤ depth s → t.node r p ≠ 0 →
    t.node r p = t.node s q → r = s ∧ p = q
  used : ∀ r p, p.length ≤ depth r → t.node r p ≠ 0 → t.node r p ∈ used

/-- `new` hangs at the place `path` of `r`, which was empty; nothing else has changed. -/
structure Attached (depth : ρ → ℕ) (t t' : RefTree ρ ι β) (r : ρ) (path : List ι) (new : β) :
    Prop where
  empty : t.node r path = 0
  here : t'.node r path = new
  other : ∀ s q, q.length ≤ depth s → ¬(s = r ∧ q = path) → t'.node s q = t.node s q

variable {depth : ρ → ℕ} {used : Set β} {t t' : RefTree ρ ι β} {r s : ρ} {p q : List ι} {i : ι}
  {new : β}

lemma Linked.node_eq (h : t.Linked depth used) (hroot : t'.root = t.root)
    (href : ∀ b ∈ used, t'.ref b = t.ref b) (hq : q.length ≤ depth s) :
    t'.node s q = t.node s q := by
  induction q using List.reverseRecOn with
  | nil => rw [node_nil, node_nil, hroot]
  | append_singleton q j ih =>
    rw [List.length_append, List.length_singleton] at hq
    rw [node_concat, node_concat, ih (by omega)]
    split_ifs with hzero
    · rfl
    · rw [href _ (h.used s q (by omega) hzero)]

lemma Linked.attach_root (h : t.Linked depth used) (hnew : new ∉ used) (hempty : t.root r = 0)
    (hset : t'.root r = new) (hroot : ∀ s, s ≠ r → t'.root s = t.root s)
    (href : ∀ b, b ≠ new → t'.ref b = t.ref b) (hbelow : 0 < depth r → ∀ i, t'.ref new i = 0) :
    Attached depth t t' r [] new := by
  refine ⟨hempty, hset, ?_⟩
  intro s q
  induction q using List.reverseRecOn with
  | nil =>
    intro _ hne
    rw [node_nil, node_nil, hroot s fun hs => hne ⟨hs, rfl⟩]
  | append_singleton q j ih =>
    intro hq _
    rw [List.length_append, List.length_singleton] at hq
    rw [node_concat, node_concat]
    by_cases hplace : s = r ∧ q = []
    · obtain ⟨rfl, rfl⟩ := hplace
      rw [node_nil, node_nil, hempty, hset, if_pos rfl, hbelow (by omega), ite_self]
    · rw [ih (by omega) hplace]
      split_ifs with hzero
      · rfl
      · have hused := h.used s q (by omega) hzero
        rw [href _ (ne_of_mem_of_not_mem hused hnew)]

lemma Linked.attach_child (h : t.Linked depth used) (hnew : new ∉ used) (hnz : new ≠ 0)
    (hp : p.length < depth r) (hparent : t.node r p ≠ 0) (hempty : t.node r (p ++ [i]) = 0)
    (hroot : t'.root = t.root)
    (href : ∀ b, b ≠ new → b ≠ t.node r p → t'.ref b = t.ref b)
    (hset : t'.ref (t.node r p) i = new)
    (hkeep : ∀ j, j ≠ i → t'.ref (t.node r p) j = t.ref (t.node r p) j)
    (hbelow : p.length + 1 < depth r → ∀ j, t'.ref new j = 0) :
    Attached depth t t' r (p ++ [i]) new := by
  have hstep : ∀ s q, q.length ≤ depth s → (s = r ∧ q = p ++ [i] → t'.node s q = new) ∧
      (¬(s = r ∧ q = p ++ [i]) → t'.node s q = t.node s q) := by
    intro s q
    induction q using List.reverseRecOn with
    | nil =>
      intro _
      refine ⟨fun hplace => by simp at hplace, fun _ => ?_⟩
      rw [node_nil, node_nil, hroot]
    | append_singleton q j ih =>
      intro hq
      rw [List.length_append, List.length_singleton] at hq
      have hprev := ih (by omega)
      rw [node_concat, node_concat]
      by_cases hplace : s = r ∧ q = p ++ [i]
      · -- just below the new block, which holds no references
        rw [hprev.1 hplace, if_neg hnz]
        obtain ⟨rfl, rfl⟩ := hplace
        rw [List.length_append, List.length_singleton] at hq
        rw [hempty, if_pos rfl, hbelow (by omega)]
        refine ⟨fun hsame => ?_, fun _ => rfl⟩
        have hlength := congrArg List.length hsame.2
        simp at hlength
      · rw [hprev.2 hplace]
        by_cases hhere : s = r ∧ q = p
        · obtain ⟨rfl, rfl⟩ := hhere
          rw [if_neg hparent, if_neg hparent]
          by_cases hj : j = i
          · subst hj
            exact ⟨fun _ => hset, fun hne => absurd ⟨rfl, rfl⟩ hne⟩
          · refine ⟨fun hsame => ?_, fun _ => hkeep j hj⟩
            exact absurd (List.append_inj_right' hsame.2 rfl) (by simpa using hj)
        · refine ⟨fun hsame => ?_, fun _ => ?_⟩
          · exact absurd ⟨hsame.1, List.append_inj_left' hsame.2 rfl⟩ hhere
          · split_ifs with hzero
            · rfl
            · have hused := h.used s q (by omega) hzero
              have hne : t.node s q ≠ t.node r p :=
                fun hsame => hhere (h.inj s q r p (by omega) (by omega) hzero hsame)
              rw [href _ (ne_of_mem_of_not_mem hused hnew) hne]
  have hlength : (p ++ [i]).length ≤ depth r := by simpa using hp
  exact ⟨hempty, (hstep r _ hlength).1 ⟨rfl, rfl⟩, fun s q hq => (hstep s q hq).2⟩

lemma Attached.keeps (h : Attached depth t t' r p new) (hq : q.length ≤ depth s)
    (hne : t.node s q ≠ 0) : t'.node s q = t.node s q := by
  apply h.other s q hq
  rintro ⟨rfl, rfl⟩
  exact hne h.empty

theorem Linked.attach (h : t.Linked depth used) (hnew : new ∉ used)
    (hatt : Attached depth t t' r p new) : t'.Linked depth (insert new used) := by
  have hused : ∀ s q, q.length ≤ depth s → ¬(s = r ∧ q = p) → t'.node s q ≠ 0 →
      t'.node s q ∈ used := by
    intro s q hq hplace hne
    rw [hatt.other s q hq hplace] at hne ⊢
    exact h.used s q hq hne
  constructor
  · intro s q s' q' hq hq' hne hsame
    by_cases hplace : s = r ∧ q = p
    · by_cases hplace' : s' = r ∧ q' = p
      · exact ⟨hplace.1.trans hplace'.1.symm, hplace.2.trans hplace'.2.symm⟩
      · have hmem := hused s' q' hq' hplace' (hsame ▸ hne)
        rw [← hsame, hplace.1, hplace.2, hatt.here] at hmem
        exact absurd hmem hnew
    · have hmem := hused s q hq hplace hne
      by_cases hplace' : s' = r ∧ q' = p
      · rw [hsame, hplace'.1, hplace'.2, hatt.here] at hmem
        exact absurd hmem hnew
      · rw [hatt.other s q hq hplace] at hne hsame
        rw [hatt.other s' q' hq' hplace'] at hsame
        exact h.inj s q s' q' hq hq' hne hsame
  · intro s q hq hne
    by_cases hplace : s = r ∧ q = p
    · rw [hplace.1, hplace.2, hatt.here]
      exact Set.mem_insert new used
    · exact Set.mem_insert_of_mem new (hused s q hq hplace hne)

lemma Linked.of_node_eq {used' : Set β} (h : t.Linked depth used)
    (hnode : ∀ s q, q.length ≤ depth s → t'.node s q = t.node s q) (hsub : used ⊆ used') :
    t'.Linked depth used' := by
  constructor
  · intro r p s q hp hq hne hsame
    rw [hnode r p hp] at hne hsame
    rw [hnode s q hq] at hsame
    exact h.inj r p s q hp hq hne hsame
  · intro r p hp hne
    rw [hnode r p hp] at hne ⊢
    exact hsub (h.used r p hp hne)

end RefTree
end Almos
