import Almos.RbtreeHeap

/-!
# Insertion into a red-black tree

A rotation changes the places of two nodes and nothing else. The loop of `rb_insert_color` moves a
red node whose parent may be red up the tree.
-/
namespace Almos.Rb
open RBTree RBTree.RBNode RBTree.RBColor RedBlack

section Rotation
variable {d : Side} {c c' : RBColor} {v w : Ptr} {x y z : RBNode Ptr} {path : Path Ptr}
  {root root' : RbRoot}

structure Apart (v w : Ptr) (x y z : RBNode Ptr) (path : Path Ptr) : Prop where
  ne : v ≠ w
  first : v ∉ x.toList ∧ v ∉ y.toList ∧ v ∉ z.toList ∧ v ∉ pathNodes path
  second : w ∉ x.toList ∧ w ∉ y.toList ∧ w ∉ z.toList ∧ w ∉ pathNodes path
  outer : ∀ a ∈ x.toList, a ∉ y.toList ∧ a ∉ pathNodes path
  inner : ∀ a ∈ y.toList, a ∉ pathNodes path
  far : ∀ a ∈ z.toList, a ∉ y.toList ∧ a ∉ pathNodes path
  inner_nodup : y.toList.Nodup
  path_nodup : (pathNodes path).Nodup

lemma perm_pair : ((join d c v x (join d c' w y z)).toList ++ pathNodes path).Perm
    (v :: w :: (x.toList ++ (y.toList ++ (z.toList ++ pathNodes path)))) :=
  (perm_join _).trans ((((perm_join _).append_left _).trans List.perm_middle).cons v)

lemma perm_rotated : ((join d c' w (join d c v x y) z).toList ++ pathNodes path).Perm
    (v :: w :: (x.toList ++ (y.toList ++ (z.toList ++ pathNodes path)))) :=
  (perm_join _).trans (((perm_join _).cons w).trans (List.Perm.swap v w _))

lemma Apart.of_nodup
    (h : (v :: w :: (x.toList ++ (y.toList ++ (z.toList ++ pathNodes path)))).Nodup) :
    Apart v w x y z path := by
  have hxyz := h.of_cons.of_cons
  have hyz := hxyz.of_append_right
  have hz := hyz.of_append_right
  have hx := List.disjoint_of_nodup_append hxyz
  have hy := List.disjoint_of_nodup_append hyz
  simp only [List.nodup_cons, List.mem_cons, List.mem_append, not_or] at h
  obtain ⟨⟨hvw, hv⟩, hw, -⟩ := h
  refine ⟨hvw, hv, hw, fun a ha => ⟨fun hay => hx ha ?_, fun hap => hx ha ?_⟩,
    fun a ha hap => hy ha (List.mem_append_right _ hap),
    fun a ha => ⟨fun hay => hy hay (List.mem_append_left _ ha),
      fun hap => List.disjoint_of_nodup_append hz ha hap⟩,
    hyz.of_append_left, hz.of_append_right⟩
  · exact List.mem_append_left _ hay
  · exact List.mem_append_right _ (List.mem_append_right _ hap)

structure Rotated (root root' : RbRoot) (d : Side) (c c' : RBColor) (v w : Ptr) (x y z : RBNode Ptr)
    (path : Path Ptr) : Prop where
  around : PathRep root' path w
  upper : root'.mem w = cell d c' (pathAddr path) v (addr z)
  lower : root'.mem v = cell d c w (addr x) (addr y)
  moved : y ≠ nil → root'.mem (addr y) = (root.mem (addr y)).rbSetParent v
  same : ∀ a, a ≠ v → a ≠ w → a ∉ pathNodes path → (a ∈ y.toList → a ≠ addr y) → a ≠ 0#32 →
    root'.mem a = root.mem a

lemma ne_addr {t : RBNode Ptr} {a : Ptr} (h : a ∈ t.toList → a ≠ addr t) (ha : a ≠ 0#32) :
    a ≠ addr t := by
  by_cases ht : t = nil
  · rw [ht]
    exact ha
  · rintro rfl
    exact h (addr_mem ht) rfl

lemma rbRotate_run (h : At root path (join d c v x (join d c' w y z)))
    (hapart : Apart v w x y z path) :
    ∃ root', rbRotate d root v = some root' ∧ Rotated root root' d c c' v w x y z path := by
  have hw := at_down_other.mp h
  have hdv := h.deref
  have hdw := hw.deref
  have hva : Aligned v := by simpa using hw.aligned
  have hnodes : ∀ a ∈ pathNodes path, a ≠ 0#32 := fun a ha =>
    (h.nodes a (List.mem_append_right _ ha)).1
  obtain ⟨hv₀, hv⟩ := h.node
  obtain ⟨hw₀, hwcell⟩ := hw.node
  have haround := h.around
  rw [addr_join] at hdv hv haround
  rw [pathAddr_down] at hdw hwcell
  obtain ⟨-, hvy, -, hvpath⟩ := hapart.first
  obtain ⟨-, hwy, -, hwpath⟩ := hapart.second
  obtain ⟨r₁, hr₁, hroot₁, hself₁, hsame₁⟩ := setParentOf_spec
    { root with mem := Function.update root.mem v (cell d c (pathAddr path) (addr x) (addr y)) }
    (addr y) v
  have hw₁ : r₁.mem w = cell d c' v (addr y) (addr z) := by
    rw [hsame₁ w (ne_addr (fun h => absurd h hwy) hw₀), ← hwcell]
    exact Function.update_of_ne (Ne.symm hapart.ne) _ _
  have hrest₁ : ∀ a, a ≠ v → a ≠ addr y → r₁.mem a = root.mem a := fun a hav hay =>
    (hsame₁ a hay).trans (Function.update_of_ne hav _ _)
  have hpath₁ : PathRep
      { r₁ with mem := Function.update r₁.mem w (cell d c' (pathAddr path) v (addr z)) } path v := by
    refine haround.congr hroot₁ fun a ha => ?_
    have haw : a ≠ w := fun h => hwpath (h ▸ ha)
    refine (Function.update_of_ne haw _ _).trans ?_
    exact hrest₁ a (fun h => hvpath (h ▸ ha))
      (ne_addr (fun hay => absurd ha (hapart.inner a hay)) (hnodes a ha))
  obtain ⟨r₂, hr₂, hpath₂, -, hkeep₂⟩ :=
    hpath₁.relink hnodes hapart.path_nodup hv₀ hvpath d w
  have hsame₂ : ∀ a ∉ pathNodes path,
      r₂.mem a = Function.update r₁.mem w (cell d c' (pathAddr path) v (addr z)) a := fun a ha =>
    hkeep₂ a fun hap => absurd hap ha
  obtain ⟨r₃, hr₃, hroot₃, hself₃, hkeep⟩ := modify_spec r₂ hv₀ (RbNode.rbSetParent w)
  have hrun : rbRotate d root v = some r₃ := by
    rw [rbRotate, hdv]
    simp only [Option.bind_eq_bind, Option.bind_some, child_other_cell, rbParent_cell h.aligned,
      hdw, modify_eq hv₀, child_cell, hv, setChild_other_cell, hr₁, modify_eq hw₀, hw₁,
      setChild_cell, Function.update_self, rbSetParent_cell hva, Function.update_idem, hr₂]
    rw [← hr₃, modify_eq hv₀]
  -- the memory at the end, place by place
  have hend : ∀ a, a ≠ v → a ∉ pathNodes path →
      r₃.mem a = Function.update r₁.mem w (cell d c' (pathAddr path) v (addr z)) a :=
    fun a hav hap => (hkeep a hav).trans (hsame₂ a hap)
  refine ⟨r₃, hrun, ⟨?_, ?_, ?_, fun hnil => ?_, fun a hav haw hap hay ha => ?_⟩⟩
  · refine hpath₂.congr hroot₃ fun a ha => hkeep a ?_
    rintro rfl
    exact hvpath ha
  · rw [hend w (Ne.symm hapart.ne) hwpath, Function.update_self]
  · have hlower : r₂.mem v = cell d c (pathAddr path) (addr x) (addr y) := by
      rw [hsame₂ v hvpath]
      refine (Function.update_of_ne hapart.ne _ _).trans ?_
      rw [hsame₁ v (ne_addr (fun h => absurd h hvy) hv₀)]
      exact Function.update_self _ _ _
    rw [hself₃, hlower, rbSetParent_cell h.aligned]
  · have hmem := addr_mem hnil
    have hne : addr y ≠ v := fun h => hvy (h ▸ hmem)
    have hnew : addr y ≠ w := fun h => hwy (h ▸ hmem)
    have hnz : addr y ≠ 0#32 :=
      ((at_down.mp hw).nodes _ (List.mem_append_left _ hmem)).1
    rw [hend _ hne (hapart.inner _ hmem), Function.update_of_ne hnew]
    refine (hself₁ hnz).trans (congrArg _ (Function.update_of_ne hne _ _))
  · rw [hend a hav hap, Function.update_of_ne haw]
    exact hrest₁ a hav (ne_addr hay ha)

theorem At.rotate (h : At root path (join d c v x (join d c' w y z))) :
    ∃ root', rbRotate d root v = some root' ∧
      At root' path (join d c' w (join d c v x y) z) := by
  have hapart := Apart.of_nodup (perm_pair.nodup_iff.mp h.nodup)
  obtain ⟨root', hrun, hnew⟩ := rbRotate_run h hapart
  have hw := at_down_other.mp h
  have hwa : Aligned w := by simpa using (at_down.mp hw).aligned
  obtain ⟨-, hx, -⟩ := rep_join.mp h.tree
  obtain ⟨-, hy, hz⟩ := rep_join.mp hw.tree
  obtain ⟨hvx, hvy, hvz, -⟩ := hapart.first
  obtain ⟨hwx, hwy, hwz, -⟩ := hapart.second
  have hne : ∀ a, a ∈ x.toList ∨ a ∈ y.toList ∨ a ∈ z.toList → a ≠ 0#32 := fun a ha =>
    (h.nodes a (List.mem_append_left _ (mem_join.mpr (.inr (by
      rw [mem_join]
      tauto))))).1
  refine ⟨root', hrun, ⟨?_, ?_, ?_, ?_⟩⟩
  · rw [addr_join]
    exact hnew.around
  · rw [rep_join, rep_join, addr_join]
    refine ⟨hnew.upper, ⟨hnew.lower, hx.congr fun a ha => ?_, hy.reparent hwa hapart.inner_nodup
      hnew.moved fun a ha hay => ?_⟩, hz.congr fun a ha => ?_⟩
    · exact hnew.same a (fun h => hvx (h ▸ ha)) (fun h => hwx (h ▸ ha)) (hapart.outer a ha).2
        (fun h => absurd h (hapart.outer a ha).1) (hne a (.inl ha))
    · exact hnew.same a (fun h => hvy (h ▸ ha)) (fun h => hwy (h ▸ ha)) (hapart.inner a ha)
        (fun _ => hay) (hne a (.inr (.inl ha)))
    · exact hnew.same a (fun h => hvz (h ▸ ha)) (fun h => hwz (h ▸ ha)) (hapart.far a ha).2
        (fun h => absurd h (hapart.far a ha).1) (hne a (.inr (.inr ha)))
  · intro p hp
    exact h.nodes p (perm_pair.mem_iff.mpr (perm_rotated.mem_iff.mp hp))
  · exact perm_rotated.nodup_iff.mpr (perm_pair.nodup_iff.mp h.nodup)

end Rotation

def rootColor : RBNode Ptr → RBColor
  | nil => black
  | .node c _ _ _ => c

def pathLength : Path Ptr → ℕ
  | .root => 0
  | .left _ path _ _ => pathLength path + 1
  | .right _ _ _ path => pathLength path + 1

section Loop
variable {d e : Side} {c : RBColor} {v p g : Ptr} {s t u x y : RBNode Ptr} {path : Path Ptr}
  {root : RbRoot} {n n₀ : ℕ}

@[simp] lemma rootColor_join : rootColor (join d c v x y) = c := by cases d <;> rfl

@[simp] lemma pathLength_down : pathLength (down d c v y path) = pathLength path + 1 := by
  cases d <;> rfl

lemma rootColor_of_balanced (h : t.Balanced c n) : rootColor t = c := by
  cases h <;> rfl

lemma bit_eq_one : bit c = 1#32 ↔ c = black := by
  cases c <;> simp [bit]

lemma At.blackAt_iff (h : At root path t) : root.BlackAt (addr t) ↔ rootColor t = black := by
  by_cases hnil : t = nil
  · subst hnil
    exact ⟨fun _ => rfl, fun _ => .inl rfl⟩
  · obtain ⟨c, v, x, y, rfl⟩ := exists_join .left hnil
    obtain ⟨hv, hcell⟩ := h.node
    rw [RbRoot.BlackAt, addr_join, hcell, rbColor_cell h.aligned, bit_eq_one, rootColor_join]
    exact or_iff_right hv

lemma At.blacken_top (h : At root .root t) (ht : t ≠ nil) :
    ∃ root', root.modify root.rbNode RbNode.rbSetBlack = some root' ∧
      At root' .root t.setBlack := by
  obtain ⟨c, v, x, y, rfl⟩ := exists_join .left ht
  have hroot : root.rbNode = v := h.around.trans addr_join
  rw [hroot, setBlack_join]
  exact h.recolor fun _ => rbSetBlack_cell

/-- What one turn of `rb_insert_color` leaves: a red node two steps higher, or a tree in order. -/
inductive Turned (root : RbRoot) (v : Ptr) (path : Path Ptr) (n : ℕ) (l : List Ptr) : Prop
  | higher {t : RBNode Ptr} (place : At root path t) (red : t.Balanced red n) (addr : addr t = v)
      (toList : t.toList = l)
  | done {d : Side} {w : Ptr} {s t : RBNode Ptr} (place : At root (down d black w s path) t)
      (balanced : (join d black w t s).Balanced black n) (nonnil : t ≠ nil) (addr : addr t = v)
      (toList : (join d black w t s).toList = l)

lemma insertTurn_red (h : At root (down d red p s (down e black g u path)) t)
    (ht : t.Balanced red n) (hs : s.Balanced black n) (hu : u.Balanced red n) (v : Ptr) :
    ∃ root', insertTurn e root v p g = some (root', g) ∧
      Turned root' g path (n + 1) (join e black g (join d red p t s) u).toList := by
  have hu₀ : u ≠ nil := by
    rintro rfl
    cases hu
  obtain ⟨cu, uv, ux, uy, rfl⟩ := exists_join .left hu₀
  obtain ⟨rfl, hux, huy⟩ := Balanced.of_red hu
  have hp := at_down.mpr h
  have hg := at_down.mpr hp
  have huncle := at_down_other.mp hg
  have hblack : ¬root.BlackAt uv := by
    have := huncle.blackAt_iff
    rw [addr_join, rootColor_join] at this
    rw [this]
    simp
  obtain ⟨r₁, hr₁, h₁⟩ := huncle.recolor fun _ => rbSetBlack_cell
  obtain ⟨r₂, hr₂, h₂⟩ := (at_down.mp (at_down_other.mpr h₁)).recolor
    fun _ => rbSetBlack_cell
  obtain ⟨r₃, hr₃, h₃⟩ := (at_down.mpr h₂).recolor rbSetRed_cell
  refine ⟨r₃, ?_, .higher h₃ ?_ addr_join ?_⟩
  · rw [insertTurn, hg.deref]
    simp only [Option.bind_eq_bind, Option.bind_some, child_other_cell, addr_join, if_pos hblack,
      hr₁, hr₂, hr₃]
  · exact Balanced.join_red (Balanced.join_black ht hs) (Balanced.join_black hux huy)
  · cases d <;> cases e <;> simp [join]

lemma At.sibling_ne (h : At root (down d c p s path) t) (ht : t ≠ nil) : addr s ≠ addr t := by
  have hmem := addr_mem ht
  have hne := (h.nodes _ (List.mem_append_left _ hmem)).1
  by_cases hs : s = nil
  · rw [hs]
    exact hne.symm
  · intro heq
    exact List.disjoint_of_nodup_append h.nodup hmem
      (mem_pathNodes_down.mpr (.inr (.inl (heq ▸ addr_mem hs))))

lemma insertTurn_last (h : At root (down e black g u path) (join e red p t s))
    (ht : t.Balanced red n) (hs : s.Balanced black n) (hu : u.Balanced black n) :
    ∃ r₁ r₂ r₃, root.modify p RbNode.rbSetBlack = some r₁ ∧ r₁.modify g RbNode.rbSetRed = some r₂ ∧
      rbRotate e.other r₂ g = some r₃ ∧
      At r₃ (down e black p (join e red g s u) path) t ∧
      (join e black p t (join e red g s u)).Balanced black (n + 1) ∧
      (join e black p t (join e red g s u)).toList = (join e black g (join e red p t s) u).toList := by
  obtain ⟨r₁, hr₁, h₁⟩ := h.recolor fun _ => rbSetBlack_cell
  obtain ⟨r₂, hr₂, h₂⟩ := (at_down.mpr h₁).recolor rbSetRed_cell
  rw [← join_other, ← join_other (d := e) (c := black)] at h₂
  obtain ⟨r₃, hr₃, h₃⟩ := h₂.rotate
  rw [join_other, join_other] at h₃
  refine ⟨r₁, r₂, r₃, hr₁, hr₂, hr₃, at_down.mp h₃, ?_, ?_⟩
  · exact Balanced.join_black ht (Balanced.join_red hs hu)
  · cases e <;> simp [join]

lemma insertTurn_black (h : At root (down d red p s (down e black g u path)) t)
    (ht : t.Balanced red n) (hs : s.Balanced black n) (hu : u.Balanced black n) :
    ∃ root' v, insertTurn e root (addr t) p g = some (root', v) ∧
      Turned root' v path (n + 1) (join e black g (join d red p t s) u).toList := by
  have ht₀ : t ≠ nil := by
    rintro rfl
    cases ht
  have hp := at_down.mpr h
  have hg := at_down.mpr hp
  have huncle : ¬¬root.BlackAt (addr u) := by
    rw [not_not, (at_down_other.mp hg).blackAt_iff]
    exact rootColor_of_balanced hu
  have hdg := hg.deref
  have hdp := hp.deref
  by_cases hde : d = e
  · subst hde
    obtain ⟨r₁, r₂, r₃, hr₁, hr₂, hr₃, hplace, hbalanced, hlist⟩ := insertTurn_last hp ht hs hu
    refine ⟨r₃, addr t, ?_, .done hplace hbalanced ht₀ rfl hlist⟩
    rw [insertTurn, hdg]
    simp only [Option.bind_eq_bind, Option.bind_some, child_other_cell, if_neg huncle, hdp,
      if_neg (h.sibling_ne ht₀), hr₁, hr₂, hr₃]
  · obtain rfl : d = e.other := by
      cases d <;> cases e <;> first | rfl | exact absurd rfl hde
    obtain ⟨ct, v, y, z, rfl⟩ := exists_join e ht₀
    obtain ⟨rfl, hy, hz⟩ := Balanced.of_red ht
    rw [join_other] at hp
    obtain ⟨r₀, hr₀, h₀⟩ := hp.rotate
    obtain ⟨r₁, r₂, r₃, hr₁, hr₂, hr₃, hplace, hbalanced, hlist⟩ :=
      insertTurn_last h₀ (Balanced.join_red hs hy) hz hu
    refine ⟨r₃, p, ?_, .done hplace hbalanced ?_ addr_join ?_⟩
    · rw [insertTurn, hdg]
      simp only [Option.bind_eq_bind, Option.bind_some, child_other_cell, if_neg huncle, hdp,
        child_cell, addr_join, if_true, hr₀, Option.map_some, hr₁, hr₂, hr₃]
    · cases e <;> simp [join]
    · rw [hlist, join_other]
      cases e <;> simp [join]

lemma insertTurn_spec {c : RBColor}
    (h : At root (down d red p s (down e black g u path)) t) (ht : t.Balanced red n)
    (hs : s.Balanced black n) (hu : u.Balanced c n) :
    ∃ root' v, insertTurn e root (addr t) p g = some (root', v) ∧
      Turned root' v path (n + 1) (join e black g (join d red p t s) u).toList := by
  cases c with
  | red =>
    obtain ⟨root', hrun, hturned⟩ := insertTurn_red h ht hs hu (addr t)
    exact ⟨root', g, hrun, hturned⟩
  | black => exact insertTurn_black h ht hs hu

lemma At.side_eq (h : At root (down e c g u path) t) (ht : t ≠ nil) :
    (if addr t = (cell e c (pathAddr path) (addr t) (addr u)).rbLeft then Side.left else Side.right) =
      e := by
  have hne := h.sibling_ne ht
  cases e with
  | left => exact if_pos rfl
  | right => exact if_neg (Ne.symm hne)

def Repaired (root : RbRoot) (l : List Ptr) : Prop :=
  ∃ t n, At root .root t ∧ t.Balanced black n ∧ t.toList = l

lemma deref_some (hv : v ≠ 0#32) : root.deref v = some (root.mem v) := if_neg hv

lemma At.parent (h : At root path t) (ht : t ≠ nil) :
    ∃ r, root.deref (addr t) = some r ∧ r.rbParent = pathAddr path := by
  obtain ⟨c, v, x, y, rfl⟩ := exists_join .left ht
  rw [addr_join]
  exact ⟨_, h.deref, rbParent_cell h.aligned⟩

lemma rbInsertColor_done (h : At root (down d black p s path) t) (ht : t ≠ nil)
    (hbalanced : (path.fill (join d black p t s)).Balanced black n₀) (fuel : ℕ) :
    ∃ root', rbInsertColor root (addr t) (fuel + 1) = some root' ∧
      Repaired root' (path.fill (join d black p t s)).toList := by
  have hp := at_down.mpr h
  have htop := hp.top
  obtain ⟨r, hr, hparent⟩ := h.parent ht
  have hblack : root.BlackAt p := by
    have := hp.blackAt_iff
    rw [addr_join, rootColor_join] at this
    exact this.mpr rfl
  have hnil : path.fill (join d black p t s) ≠ nil := by
    intro heq
    have := toList_fill path (join d black p t s)
    rw [heq] at this
    cases d <;> simp [join] at this
  obtain ⟨root', hrun, hroot'⟩ := htop.blacken_top hnil
  refine ⟨root', ?_, _, n₀, hroot', ?_, setBlack_toList⟩
  · rw [rbInsertColor, hr]
    simp only [Option.bind_eq_bind, Option.bind_some, hparent, pathAddr_down, if_pos hblack, hrun]
  · obtain ⟨c, v, x, y, hjoin⟩ := exists_join .left hnil
    rw [hjoin] at hbalanced ⊢
    obtain ⟨rfl, -⟩ := Balanced.of_black hbalanced
    rwa [setBlack_join]

theorem rbInsertColor_spec {fuel : ℕ} (h : At root path t) (ht : t.Balanced red n)
    (hpath : path.Balanced black n₀ black n) (hfuel : pathLength path + 2 ≤ fuel) :
    ∃ root', rbInsertColor root (addr t) fuel = some root' ∧
      Repaired root' (path.fill t).toList := by
  induction fuel using Nat.strong_induction_on generalizing root path t n with
  | _ fuel ih =>
    obtain ⟨fuel, rfl⟩ : ∃ k, fuel = k + 1 := ⟨fuel - 1, by omega⟩
    have ht₀ : t ≠ nil := by
      rintro rfl
      cases ht
    obtain ⟨r, hr, hparent⟩ := h.parent ht₀
    obtain rfl | ⟨d, c, p, s, path₁, rfl⟩ := path_cases path
    · -- the new node is the root
      obtain ⟨root', hrun, hroot'⟩ := h.blacken_top ht₀
      obtain ⟨c, v, x, y, rfl⟩ := exists_join .left ht₀
      obtain ⟨rfl, hx, hy⟩ := Balanced.of_red ht
      rw [setBlack_join] at hroot'
      refine ⟨root', ?_, _, n + 1, hroot', Balanced.join_black hx hy, ?_⟩
      · rw [rbInsertColor, hr]
        simp only [Option.bind_eq_bind, Option.bind_some, hparent]
        rw [if_pos (show root.BlackAt (pathAddr .root) from .inl rfl), hrun]
      · exact toList_join_color _ _
    · rw [pathLength_down] at hfuel
      obtain ⟨rfl, -, hs, hpath₁⟩ | ⟨rfl, ⟨c₁, hs⟩, hpath₁⟩ := Path.Balanced.of_down hpath
      · -- the parent is red, so there is a grandparent, and it is black
        obtain rfl | ⟨e, c, g, u, path₂, rfl⟩ := path_cases path₁
        · cases hpath₁
        obtain ⟨-, hc, -⟩ | ⟨rfl, ⟨cu, hu⟩, hpath₂⟩ := Path.Balanced.of_down hpath₁
        · cases hc
        rw [pathLength_down] at hfuel
        have hp := at_down.mpr h
        have hg := at_down.mpr hp
        have hred : ¬root.BlackAt p := by
          have := hp.blackAt_iff
          rw [addr_join, rootColor_join] at this
          rw [this]
          simp
        have hside := hp.side_eq (by cases d <;> simp [join])
        rw [addr_join] at hside
        have hga : Aligned g := by simpa using hp.aligned
        have hdp := hp.deref
        have hdg := hg.deref
        obtain ⟨root₁, v, hrun, hturned⟩ := insertTurn_spec h ht hs hu
        have hgo : rbInsertColor root (addr t) (fuel + 1) = rbInsertColor root₁ v fuel := by
          rw [rbInsertColor, hr]
          simp only [Option.bind_eq_bind, Option.bind_some, hparent, pathAddr_down, if_neg hred, hdp,
            rbParent_cell hga, hdg, addr_join, hside, hrun]
        rw [hgo, fill_down, fill_down]
        cases hturned with
        | @higher t' place red addr toList =>
          rw [← addr]
          obtain ⟨root', hrun', hrep⟩ := ih fuel (by omega) place red hpath₂ (by omega)
          refine ⟨root', hrun', ?_⟩
          rwa [toList_fill, ← toList, ← toList_fill]
        | @done d' w s' t' place balanced nonnil addr toList =>
          rw [← addr]
          obtain ⟨fuel, rfl⟩ : ∃ k, fuel = k + 1 := ⟨fuel - 1, by omega⟩
          obtain ⟨root', hrun', hrep⟩ := rbInsertColor_done place nonnil (hpath₂.fill balanced) fuel
          refine ⟨root', hrun', ?_⟩
          rwa [toList_fill, ← toList, ← toList_fill]
      · rw [fill_down]
        exact rbInsertColor_done h ht₀ (hpath₁.fill (Balanced.join_black ht hs)) fuel

end Loop

end Almos.Rb
