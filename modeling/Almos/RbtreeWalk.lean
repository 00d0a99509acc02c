import Almos.RbtreeSuccessor

/-!
# Walks through a red-black tree

From either end the nodes come in order: a step goes to the first node of the subtree behind, or up
to the first node that is passed on the other side.
-/
namespace Almos.Rb
open RBTree RBTree.RBNode RBTree.RBColor RedBlack

def fromSide (d : Side) (l : List Ptr) : List Ptr :=
  match d with
  | .left => l
  | .right => l.reverse

/-- What comes after the hole, seen from side `d`. -/
def after (d : Side) (path : Path Ptr) : List Ptr :=
  match d with
  | .left => path.listR
  | .right => path.listL.reverse

section Order
variable {d e : Side} {c : RBColor} {v : Ptr} {t x y : RBNode Ptr} {path : Path Ptr}

lemma fromSide_join : fromSide d (join d c v x y).toList =
    fromSide d x.toList ++ v :: fromSide d y.toList := by
  cases d <;> simp [fromSide, join]

lemma after_down : after d (down d c v y path) = v :: (fromSide d y.toList ++ after d path) := by
  cases d <;> simp [after, fromSide, down]

lemma after_down_other : after d (down d.other c v y path) = after d path := by
  cases d <;> simp [after, down, Side.other]

lemma fromSide_fill (d : Side) (path : Path Ptr) : ∃ l, ∀ t : RBNode Ptr,
    fromSide d (path.fill t).toList = l ++ fromSide d t.toList ++ after d path := by
  cases d with
  | left => exact ⟨path.listL, fun t => toList_fill path t⟩
  | right =>
    refine ⟨path.listR.reverse, fun t => ?_⟩
    simp [fromSide, after]

lemma fromSide_nodup {l : List Ptr} (h : l.Nodup) : (fromSide d l).Nodup := by
  cases d with
  | left => exact h
  | right => exact List.nodup_reverse.mpr h

lemma length_fromSide (d : Side) (l : List Ptr) : (fromSide d l).length = l.length := by
  cases d <;> simp [fromSide]

end Order

def headOrNull (l : List Ptr) : Ptr := l.head?.getD 0#32

section Walks
variable {d e : Side} {c : RBColor} {v p : Ptr} {s t x y : RBNode Ptr} {path : Path Ptr}
  {root : RbRoot} {fuel : ℕ}

lemma furthest_first (h : At root path t) (ht : t ≠ nil) (hfuel : t.depth ≤ fuel) (l : List Ptr) :
    furthest d root fuel (addr t) = some (headOrNull (fromSide d t.toList ++ l)) := by
  obtain ⟨sp, c, v, s, hrun, rfl, -⟩ := furthest_spec (d := d) h ht hfuel
  have hfirst : ∀ sp : Spine,
      ∃ l, fromSide d (plug d sp (join d c v nil s)).toList = v :: l := by
    intro sp
    induction sp with
    | nil => exact ⟨fromSide d s.toList, by rw [plug, fromSide_join]; cases d <;> rfl⟩
    | cons f sp ih =>
      obtain ⟨l, hl⟩ := ih
      exact ⟨l ++ f.2.1 :: fromSide d f.2.2.toList, by rw [plug, fromSide_join, hl]; rfl⟩
  obtain ⟨l', hl'⟩ := hfirst sp
  rw [hrun, hl']
  rfl

lemma climb_spec (h : At root path t) (ht : t ≠ nil) (hfuel : pathLength path + 1 ≤ fuel) :
    climb d root fuel (addr t) = some (headOrNull (after d path)) := by
  induction fuel generalizing path t with
  | zero => omega
  | succ fuel ih =>
    obtain ⟨r, hr, hparent⟩ := h.parent ht
    obtain rfl | ⟨e, c, u, s, path, rfl⟩ := path_cases path
    · rw [climb, hr]
      simp only [Option.bind_eq_bind, Option.bind_some, hparent]
      cases d <;> rfl
    · have hp := at_down.mpr h
      have hne := h.sibling_ne ht
      rw [pathLength_down] at hfuel
      rw [climb, hr]
      simp only [Option.bind_eq_bind, Option.bind_some, hparent, pathAddr_down, if_neg hp.node.1,
        hp.deref]
      by_cases hde : e = d
      · subst hde
        rw [child_other_cell, if_neg hne.symm, after_down]
        rfl
      · obtain rfl : e = d.other := by cases d <;> cases e <;> first | rfl | exact absurd rfl hde
        rw [child_cell, if_pos rfl, after_down_other]
        have := ih hp join_ne_nil (by omega)
        rwa [addr_join] at this

theorem rbStep_spec (h : At root .root t) {l₁ l₂ : List Ptr}
    (hlist : fromSide d t.toList = l₁ ++ v :: l₂) (hfuel : t.depth ≤ fuel) :
    rbStep d root v fuel = some (headOrNull l₂) := by
  have hv : v ∈ t.toList := by
    have : v ∈ fromSide d t.toList := by simp [hlist]
    cases d with
    | left => exact this
    | right => exact List.mem_reverse.mp this
  obtain ⟨path, c, x, y, rfl⟩ : ∃ (path : Path Ptr) (c : RBColor) (x y : RBNode Ptr),
      path.fill (join d c v x y) = t := by
    obtain ⟨path, c, x, y, hfill⟩ := exists_place .root hv
    cases d with
    | left => exact ⟨path, c, y, x, hfill⟩
    | right => exact ⟨path, c, x, y, hfill⟩
  have hplace := h.of_top
  obtain ⟨hv₀, -⟩ := hplace.node
  have hnodup := fromSide_nodup (d := d) h.fill_nodup
  have hlength := pathLength_add_depth path (join d c v x y)
  rw [depth_join] at hlength
  -- the part of the order behind the node
  have hl₂ : l₂ = fromSide d y.toList ++ after d path := by
    obtain ⟨l, hl⟩ := fromSide_fill d path
    have hsplit := hl (join d c v x y)
    rw [fromSide_join] at hsplit
    change fromSide d (path.fill (join d c v x y)).toList = _ at hlist
    change (fromSide d (path.fill (join d c v x y)).toList).Nodup at hnodup
    rw [hlist] at hsplit hnodup
    have hmiddle : l₁ ++ v :: l₂ =
        (l ++ fromSide d x.toList) ++ v :: (fromSide d y.toList ++ after d path) := by
      rw [hsplit]
      simp
    have hnot₁ := (List.nodup_middle.mp hnodup).notMem
    have hnot₂ := (List.nodup_middle.mp (hmiddle ▸ hnodup)).notMem
    rw [List.mem_append, not_or] at hnot₁ hnot₂
    exact (List.append_cons_inj_of_notMem hnot₁.1 hnot₁.2).mp hmiddle |>.2.2
  have hself : (cell d c (pathAddr path) (addr x) (addr y)).rbParent ≠ v := by
    rw [rbParent_cell hplace.aligned]
    intro heq
    by_cases hroot : path = .root
    · subst hroot
      exact hv₀ heq.symm
    · exact hplace.notMem.2.2 (heq ▸ pathAddr_mem hroot)
  rw [rbStep, hplace.deref]
  simp only [Option.bind_eq_bind, Option.bind_some, if_neg hself, child_other_cell]
  by_cases hy : y = nil
  · subst hy
    rw [if_neg (by simp [addr]), hl₂]
    have hclimb := climb_spec (d := d) hplace join_ne_nil (show pathLength path + 1 ≤ fuel by omega)
    rw [addr_join] at hclimb
    rw [hclimb]
    cases d <;> rfl
  · have hy₀ : addr y ≠ 0#32 := hplace.child_ne_zero (.inr (addr_mem hy))
    rw [if_pos hy₀, hl₂]
    exact furthest_first (at_down_other.mp hplace) hy (by omega) _

theorem rbEnd_spec (h : At root .root t) (hfuel : t.depth ≤ fuel) :
    rbEnd d root fuel = some (headOrNull (fromSide d t.toList)) := by
  have hroot : root.rbNode = addr t := h.around
  by_cases ht : t = nil
  · subst ht
    rw [rbEnd, if_pos (show root.rbNode = 0#32 from hroot)]
    cases d <;> rfl
  · have hne : addr t ≠ 0#32 := (h.nodes _ (List.mem_append_left _ (addr_mem ht))).1
    have hfirst := furthest_first (d := d) h ht hfuel []
    rw [List.append_nil] at hfirst
    rw [rbEnd, hroot, if_neg hne, hfirst]

lemma browseLoop_spec (h : At root .root t) (hfuel : t.depth ≤ fuel) {l₁ l₂ : List Ptr}
    (hlist : fromSide d t.toList = l₁ ++ l₂) {rounds : ℕ} (hrounds : l₂.length < rounds) :
    browseLoop d root fuel rounds (headOrNull l₂) = some l₂ := by
  induction l₂ generalizing l₁ rounds with
  | nil =>
    obtain ⟨k, rfl⟩ : ∃ k, rounds = k + 1 := ⟨rounds - 1, by omega⟩
    rfl
  | cons v l₂ ih =>
    obtain ⟨k, rfl⟩ : ∃ k, rounds = k + 1 := ⟨rounds - 1, by omega⟩
    rw [List.length_cons] at hrounds
    have hv : v ∈ t.toList := by
      have : v ∈ fromSide d t.toList := by simp [hlist]
      cases d with
      | left => exact this
      | right => exact List.mem_reverse.mp this
    have hv₀ : v ≠ 0#32 := (h.nodes v (List.mem_append_left _ hv)).1
    have hstep := rbStep_spec h hlist hfuel
    have hlist' : fromSide d t.toList = (l₁ ++ [v]) ++ l₂ := by rw [hlist, List.append_cons]
    have hrest := ih hlist' (by omega : l₂.length < k)
    have hhead : headOrNull (v :: l₂) = v := rfl
    rw [hhead, browseLoop, if_neg hv₀, hstep]
    simp only [Option.bind_eq_bind, Option.bind_some, hrest]

end Walks

end Almos.Rb
