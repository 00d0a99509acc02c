import Almos.RbtreeInsert

/-!
# Removal from a red-black tree

The loop of `__rb_erase_color` moves a subtree that lacks a black node up the tree, until a rotation
or a red node makes up for it.
-/
namespace Almos.Rb
open RBTree RBTree.RBNode RBTree.RBColor RedBlack

section Turns
variable {d : Side} {c c' : RBColor} {p o v : Ptr} {s t x y a b : RBNode Ptr} {path : Path Ptr}
  {root : RbRoot} {k n n₀ : ℕ}

lemma bit_eq_zero : bit c = 0#32 ↔ c = red := by cases c <;> simp [bit]

lemma eraseRedSibling_spec (h : At root (down d black p (join d red o a b) path) t) :
    ∃ root', eraseRedSibling d root p o = some (root', addr a) ∧
      At root' (down d red p a (down d black o b path)) t := by
  obtain ⟨r₁, hr₁, h₁⟩ := (at_down_other.mp (at_down.mpr h)).recolor
    fun _ => rbSetBlack_cell
  obtain ⟨r₂, hr₂, h₂⟩ := (at_down_other.mpr h₁).recolor rbSetRed_cell
  obtain ⟨r₃, hr₃, h₃⟩ := h₂.rotate
  have hp := at_down.mp h₃
  refine ⟨r₃, ?_, at_down.mp hp⟩
  rw [eraseRedSibling, hr₁]
  simp only [Option.bind_eq_bind, Option.bind_some, hr₂, hr₃, hp.deref, child_other_cell]

lemma eraseRedNephew_spec (h : At root (down d c p (join d black o (join d red v x y) b) path) t) :
    ∃ root', eraseRedNephew d root p o v = some (root', v) ∧
      At root' (down d c p (join d black v x (join d red o y b)) path) t := by
  have ho := at_down_other.mp (at_down.mpr h)
  obtain ⟨r₁, hr₁, h₁⟩ := (at_down.mp ho).recolor fun _ => rbSetBlack_cell
  obtain ⟨r₂, hr₂, h₂⟩ := (at_down.mpr h₁).recolor rbSetRed_cell
  rw [← join_other, ← join_other (d := d) (c := black)] at h₂
  obtain ⟨r₃, hr₃, h₃⟩ := h₂.rotate
  rw [join_other, join_other] at h₃
  have hp := at_down_other.mpr h₃
  refine ⟨r₃, ?_, at_down.mp hp⟩
  rw [eraseRedNephew, hr₁]
  simp only [Option.bind_eq_bind, Option.bind_some, hr₂, hr₃, hp.deref, child_other_cell, addr_join]

lemma eraseLast_spec (h : At root (down d c p (join d c' o a (join d red v x y)) path) t) :
    ∃ root', eraseLast d root p o = some root' ∧
      At root' path (join d c o (join d black p t a) (join d black v x y)) := by
  have hp := at_down.mpr h
  obtain ⟨r₁, hr₁, h₁⟩ := (at_down_other.mp hp).recolor rbSetColor_cell
  obtain ⟨r₂, hr₂, h₂⟩ := (at_down_other.mpr h₁).recolor fun _ => rbSetBlack_cell
  have ho := at_down_other.mp h₂
  obtain ⟨r₃, hr₃, h₃⟩ := (at_down_other.mp ho).recolor fun _ => rbSetBlack_cell
  obtain ⟨r₄, hr₄, h₄⟩ := (at_down_other.mpr (at_down_other.mpr h₃)).rotate
  refine ⟨r₄, ?_, h₄⟩
  rw [eraseLast, hp.deref]
  simp only [Option.bind_eq_bind, Option.bind_some, rbColor_cell hp.aligned, hr₁, hr₂, ho.deref,
    child_other_cell, addr_join, hr₃, hr₄]

/-- What one turn of `__rb_erase_color` leaves: another subtree that lacks a black node, not below `k`
unless it is red, or a balanced tree. -/
inductive EraseTurned (root : RbRoot) (next : Option (Ptr × Ptr)) (k n₀ : ℕ) (l : List Ptr) : Prop
  | up {path : Path Ptr} {t : RBNode Ptr} {n : ℕ} (place : At root path t)
      (next : next = some (addr t, pathAddr path)) (nonnil : t ≠ nil)
      (fits : path.Balanced black n₀ black (n + 1)) (lacking : Lacking t n)
      (shorter : rootColor t = black → pathLength path ≤ k) (toList : (path.fill t).toList = l)
  | last (next : next = none) (repaired : Repaired root l)

/-- The parent of a tree that lacks a black node lacks one when the sibling turns red. -/
lemma eraseTurn_up (h : At root (down d c p (join d black o a b) path) t)
    (ht : t.Balanced black n) (ha : a.Balanced black n) (hb : b.Balanced black n)
    (hpath : (down d c p (join d black o a b) path).Balanced black n₀ black (n + 1))
    (hk : c = black → pathLength path ≤ k) :
    ∃ root' next, eraseBlackSibling d root p o = some (root', next) ∧
      EraseTurned root' next k n₀ (path.fill (join d c p t (join d black o a b))).toList := by
  have ho := at_down_other.mp (at_down.mpr h)
  have hblack : root.BlackAt (addr a) ∧ root.BlackAt (addr b) :=
    ⟨(at_down.mp ho).blackAt_iff.mpr (rootColor_of_balanced ha),
      (at_down_other.mp ho).blackAt_iff.mpr (rootColor_of_balanced hb)⟩
  obtain ⟨r₁, hr₁, h₁⟩ := ho.recolor rbSetRed_cell
  have hp := at_down_other.mpr h₁
  refine ⟨r₁, some (p, pathAddr path), ?_, ?_⟩
  · rw [eraseBlackSibling, ho.deref]
    simp only [Option.bind_eq_bind, Option.bind_some, child_cell, child_other_cell, if_pos hblack,
      hr₁, hp.deref, rbParent_cell hp.aligned]
  · have hlist : (path.fill (join d c p t (join d red o a b))).toList =
        (path.fill (join d c p t (join d black o a b))).toList := by
      rw [toList_fill, toList_fill]
      cases d <;> simp [join]
    obtain ⟨rfl, -, -, hpath'⟩ | ⟨rfl, -, hpath'⟩ := Path.Balanced.of_down hpath
    · exact .up hp (by rw [addr_join]) (by cases d <;> simp [join])
        (Path.Balanced.black_of_red hpath') (lacking_red ht (Balanced.join_red ha hb))
        (fun hc => by simp at hc) hlist
    · exact .up hp (by rw [addr_join]) (by cases d <;> simp [join]) hpath'
        (.inl (Balanced.join_black ht (Balanced.join_red ha hb))) (fun _ => hk rfl) hlist

lemma eraseTurn_last (h : At root (down d c p (join d black o a b) path) t)
    (ht : t.Balanced black n) {ca cb : RBColor} (ha : a.Balanced ca n) (hb : b.Balanced cb n)
    (hred : ¬(ca = black ∧ cb = black))
    (hpath : (down d c p (join d black o a b) path).Balanced black n₀ black (n + 1)) :
    ∃ root' next, eraseBlackSibling d root p o = some (root', next) ∧
      EraseTurned root' next k n₀ (path.fill (join d c p t (join d black o a b))).toList := by
  have ho := at_down_other.mp (at_down.mpr h)
  have hnear := (at_down.mp ho).blackAt_iff
  have hfar := (at_down_other.mp ho).blackAt_iff
  rw [rootColor_of_balanced ha] at hnear
  rw [rootColor_of_balanced hb] at hfar
  have hboth : ¬(root.BlackAt (addr a) ∧ root.BlackAt (addr b)) := by
    rw [hnear, hfar]
    exact hred
  -- the root of the subtree gets the color that the parent had
  have hend : ∀ {v : Ptr} {x y : RBNode Ptr}, x.Balanced black (n + 1) → y.Balanced black (n + 1) →
      (path.fill (join d c v x y)).Balanced black n₀ := by
    intro v x y hx hy
    obtain ⟨rfl, -, -, hpath'⟩ | ⟨rfl, -, hpath'⟩ := Path.Balanced.of_down hpath
    · exact hpath'.fill (Balanced.join_red hx hy)
    · exact hpath'.fill (Balanced.join_black hx hy)
  have hdo := ho.deref
  cases cb with
  | red =>
    have hb₀ : b ≠ nil := by
      rintro rfl
      cases hb
    obtain ⟨cb, v, x, y, rfl⟩ := exists_join d hb₀
    obtain ⟨rfl, hx, hy⟩ := Balanced.of_red hb
    obtain ⟨r₁, hr₁, h₁⟩ := eraseLast_spec h
    have hfar' : ¬root.BlackAt v := by
      rw [addr_join] at hfar
      simp [hfar]
    refine ⟨r₁, none, ?_, .last rfl ⟨_, n₀, h₁.top, ?_, ?_⟩⟩
    · rw [eraseBlackSibling, hdo]
      rw [addr_join] at hboth
      simp only [Option.bind_eq_bind, Option.bind_some, child_cell, child_other_cell, addr_join,
        if_neg hboth, if_neg hfar', hr₁, Option.map_some]
    · exact hend (Balanced.join_black ht ha) (Balanced.join_black hx hy)
    · rw [toList_fill, toList_fill]
      cases d <;> simp [join]
  | black =>
    have hca : ca = red := by
      cases ca with
      | red => rfl
      | black => exact absurd ⟨rfl, rfl⟩ hred
    subst hca
    have ha₀ : a ≠ nil := by
      rintro rfl
      cases ha
    obtain ⟨ca, v, x, y, rfl⟩ := exists_join d ha₀
    obtain ⟨rfl, hx, hy⟩ := Balanced.of_red ha
    obtain ⟨r₀, hr₀, h₀⟩ := eraseRedNephew_spec h
    obtain ⟨r₁, hr₁, h₁⟩ := eraseLast_spec h₀
    refine ⟨r₁, none, ?_, .last rfl ⟨_, n₀, h₁.top, ?_, ?_⟩⟩
    · rw [eraseBlackSibling, hdo]
      rw [addr_join] at hboth
      simp only [Option.bind_eq_bind, Option.bind_some, child_cell, child_other_cell, addr_join,
        if_neg hboth, if_pos (hfar.mpr rfl), hr₀, hr₁, Option.map_some]
    · exact hend (Balanced.join_black ht hx) (Balanced.join_black hy hb)
    · rw [toList_fill, toList_fill]
      cases d <;> simp [join]

lemma eraseBlackSibling_spec (h : At root (down d c p (join d black o a b) path) t)
    (ht : t.Balanced black n)
    (hpath : (down d c p (join d black o a b) path).Balanced black n₀ black (n + 1))
    (hs : (join d black o a b).Balanced black (n + 1)) (hk : c = black → pathLength path ≤ k) :
    ∃ root' next, eraseBlackSibling d root p o = some (root', next) ∧
      EraseTurned root' next k n₀ (path.fill (join d c p t (join d black o a b))).toList := by
  obtain ⟨-, m, ca, cb, hm, ha, hb⟩ := Balanced.of_black hs
  obtain rfl : n = m := by omega
  by_cases hblack : ca = black ∧ cb = black
  · obtain ⟨rfl, rfl⟩ := hblack
    exact eraseTurn_up h ht ha hb hpath hk
  · exact eraseTurn_last h ht ha hb hblack hpath

lemma eraseTurn_spec (h : At root (down d c p s path) t) (ht : t.Balanced black n)
    (hpath : (down d c p s path).Balanced black n₀ black (n + 1)) :
    ∃ root' next, eraseTurn d root p = some (root', next) ∧
      EraseTurned root' next (pathLength path) n₀ (path.fill (join d c p t s)).toList := by
  have hp := at_down.mpr h
  have hs : ∃ cs, s.Balanced cs (n + 1) := by
    obtain ⟨-, -, hs, -⟩ | ⟨-, hs, -⟩ := Path.Balanced.of_down hpath
    · exact ⟨black, hs⟩
    · exact hs
  obtain ⟨cs, hs⟩ := hs
  have hs₀ : s ≠ nil := by
    rintro rfl
    cases hs
  obtain ⟨cs', o, a, b, rfl⟩ := exists_join d hs₀
  obtain rfl := (rootColor_join.symm.trans (rootColor_of_balanced hs))
  have ho := at_down_other.mp hp
  have hdp := hp.deref
  have hdo := ho.deref
  rw [pathAddr_down] at hdo
  have hpa : Aligned p := by simpa using ho.aligned
  cases cs' with
  | red =>
    obtain ⟨-, ha, hb⟩ := Balanced.of_red hs
    obtain ⟨-, -, hred, -⟩ | ⟨rfl, -, hpath'⟩ := Path.Balanced.of_down hpath
    · have := rootColor_of_balanced hred
      simp at this
    obtain ⟨r₁, hr₁, h₁⟩ := eraseRedSibling_spec h
    have ha₀ : a ≠ nil := by
      rintro rfl
      cases ha
    obtain ⟨ca, v, x, y, rfl⟩ := exists_join d ha₀
    obtain rfl : ca = black := (rootColor_join.symm.trans (rootColor_of_balanced ha))
    rw [addr_join] at hr₁
    obtain ⟨root', next, hrun, hturned⟩ := eraseBlackSibling_spec (k := pathLength path) h₁ ht
      (Path.Balanced.down_red ha (Path.Balanced.down_black hb hpath')) ha
      fun hc => absurd hc (by simp)
    refine ⟨root', next, ?_, ?_⟩
    · rw [eraseTurn, hdp]
      simp only [Option.bind_eq_bind, Option.bind_some, child_other_cell, addr_join, hdo,
        rbColor_cell hpa, if_pos (bit_eq_zero.mpr rfl), hr₁, hrun]
    · have hlist : ((down d black o b path).fill (join d red p t (join d black v x y))).toList =
          (path.fill (join d black p t (join d red o (join d black v x y) b))).toList := by
        rw [fill_down, toList_fill, toList_fill]
        cases d <;> simp [join]
      rwa [hlist] at hturned
  | black =>
    obtain ⟨root', next, hrun, hturned⟩ := eraseBlackSibling_spec (k := pathLength path) h ht hpath hs
      fun _ => le_rfl
    refine ⟨root', next, ?_, hturned⟩
    rw [eraseTurn, hdp]
    simp only [Option.bind_eq_bind, Option.bind_some, child_other_cell, addr_join, hdo,
      rbColor_cell hpa]
    rw [if_neg (fun h => RBColor.noConfusion (bit_eq_zero.mp h))]
    exact hrun

lemma PathRep.root_mem (h : PathRep root (down d c p s path) v) :
    root.rbNode ∈ pathNodes (down d c p s path) := by
  induction path using path_induction generalizing d c p s v with
  | root =>
    obtain ⟨-, -, hroot⟩ := pathRep_down.mp h
    exact mem_pathNodes_down.mpr (.inl hroot)
  | down e c' g u path ih =>
    obtain ⟨-, -, hpath⟩ := pathRep_down.mp h
    exact mem_pathNodes_down.mpr (.inr (.inr (ih hpath)))

lemma At.ne_root (h : At root (down d c p s path) t) : addr t ≠ root.rbNode := by
  have hmem := PathRep.root_mem h.around
  by_cases ht : t = nil
  · rw [ht]
    exact (h.nodes _ (List.mem_append_right _ hmem)).1.symm
  · intro heq
    exact List.disjoint_of_nodup_append h.nodup (addr_mem ht) (heq ▸ hmem)

lemma setBlackOf_spec (h : At root path t) (hbalanced : (path.fill t.setBlack).Balanced black n) :
    ∃ root', setBlackOf root (addr t) = some root' ∧ Repaired root' (path.fill t).toList := by
  by_cases ht : t = nil
  · subst ht
    exact ⟨root, if_pos rfl, _, n, h.top, hbalanced, rfl⟩
  · obtain ⟨c, v, x, y, rfl⟩ := exists_join .left ht
    obtain ⟨root', hrun, hroot'⟩ := h.recolor fun _ => rbSetBlack_cell
    rw [setBlack_join] at hbalanced
    refine ⟨root', ?_, _, n, hroot'.top, hbalanced, ?_⟩
    · rw [setBlackOf, addr_join, if_neg h.node.1, hrun]
    · rw [toList_fill, toList_fill, toList_join_color black c]

lemma setBlack_of_balanced (h : t.Balanced black n) : t.setBlack = t := by
  cases h <;> rfl

lemma setBlackOf_root (h : At root .root t) (hbalanced : t.Balanced black n) :
    ∃ root', setBlackOf root root.rbNode = some root' ∧ Repaired root' t.toList := by
  have hroot : addr t = root.rbNode := h.around.symm
  rw [← hroot]
  refine setBlackOf_spec h (n := n) ?_
  rwa [setBlack_of_balanced hbalanced]

theorem rbEraseColor_spec {fuel : ℕ} (h : At root path t)
    (hpath : path.Balanced black n₀ black (n + 1)) (hlacking : Lacking t n) (hfuel : 1 ≤ fuel)
    (hlength : rootColor t = black → pathLength path + 1 ≤ fuel) :
    ∃ root', rbEraseColor root (addr t) (pathAddr path) fuel = some root' ∧
      Repaired root' (path.fill t).toList := by
  induction fuel using Nat.strong_induction_on generalizing root path t n with
  | _ fuel ih =>
    obtain ⟨fuel, rfl⟩ : ∃ k, fuel = k + 1 := ⟨fuel - 1, by omega⟩
    obtain ht | ⟨e, v, x, y, rfl, ht⟩ := hlacking
    · have hcolor := rootColor_of_balanced ht
      obtain rfl | ⟨d, c, p, s, path, rfl⟩ := path_cases path
      · have hroot : addr t = root.rbNode := h.around.symm
        obtain ⟨root', hrun, hrep⟩ := setBlackOf_root h ht
        refine ⟨root', ?_, hrep⟩
        rw [rbEraseColor, if_neg (by simp [hroot]), hroot, hrun]
      · have hlength := hlength hcolor
        rw [pathLength_down] at hlength
        have hp := at_down.mpr h
        have hblack : root.BlackAt (addr t) := h.blackAt_iff.mpr hcolor
        have hside : (if (cell d c (pathAddr path) (addr t) (addr s)).rbLeft = addr t then Side.left
            else Side.right) = d := by
          have hs : s ≠ nil := by
            rintro rfl
            obtain ⟨-, -, hs, -⟩ | ⟨-, ⟨cs, hs⟩, -⟩ := Path.Balanced.of_down hpath <;> cases hs
          have hne := (at_down_other.mp hp).sibling_ne hs
          cases d with
          | left => exact if_pos rfl
          | right => exact if_neg (Ne.symm hne)
        obtain ⟨root₁, next, hrun, hturned⟩ := eraseTurn_spec h ht hpath
        have hgo : rbEraseColor root (addr t) (pathAddr (down d c p s path)) (fuel + 1) =
            next.elim (setBlackOf root₁ root₁.rbNode)
              fun next => rbEraseColor root₁ next.1 next.2 fuel := by
          rw [rbEraseColor, if_pos ⟨hblack, h.ne_root⟩, pathAddr_down, hp.deref]
          simp only [Option.bind_eq_bind, Option.bind_some, hside, hrun]
          cases next <;> rfl
        rw [hgo, fill_down]
        cases hturned with
        | up place next nonnil fits lacking shorter toList =>
          subst next
          obtain ⟨root', hrun', hrep⟩ := ih fuel (by omega) place fits lacking (by omega) fun hc => by
            have := shorter hc
            omega
          exact ⟨root', hrun', toList ▸ hrep⟩
        | last next repaired =>
          subst next
          obtain ⟨t', m, hplace, hbal, hlist⟩ := repaired
          obtain ⟨root', hrun', hrep⟩ := setBlackOf_root hplace hbal
          exact ⟨root', hrun', hlist ▸ hrep⟩
    · have hred : ¬root.BlackAt (addr (join e red v x y)) := by
        rw [h.blackAt_iff, rootColor_join]
        simp
      have hbalanced : (path.fill (join e red v x y).setBlack).Balanced black n₀ := by
        rw [setBlack_join]
        exact hpath.fill ht
      obtain ⟨root', hrun, hrep⟩ := setBlackOf_spec h hbalanced
      refine ⟨root', ?_, hrep⟩
      rw [rbEraseColor, if_neg (fun hc => hred hc.1), hrun]

end Turns

end Almos.Rb
