import Almos.RbtreeErase

/-!
# Nodes that leave the tree

A node without two children leaves its place to its child. A node with two children leaves it to the
next node in order, which leaves its own place first. `rb_replace_node` puts a new node there.
-/
namespace Almos.Rb
open RBTree RBTree.RBNode RBTree.RBColor RedBlack

section Places
variable {d e : Side} {c c' : RBColor} {u v p : Ptr} {s t x y : RBNode Ptr} {path : Path Ptr}
  {root root' : RbRoot} {n n₀ : ℕ}

lemma join_ne_nil : join d c v x y ≠ nil := by cases d <;> simp [join]

lemma At.unlink (h : At root path (join d c v t nil)) (haround : PathRep root' path (addr t))
    (hmoved : t ≠ nil → root'.mem (addr t) = (root.mem (addr t)).rbSetParent (pathAddr path))
    (hsame : ∀ a ∈ t.toList, a ≠ addr t → root'.mem a = root.mem a) : At root' path t := by
  have ht := at_down.mp h
  have hva : Aligned v := by simpa using ht.aligned
  have hperm := perm_join (d := d) (c := c) (v := v) (x := t) (y := nil) (pathNodes path)
  have hmem : ∀ {a}, a ∈ t.toList ++ pathNodes path →
      a ∈ (join d c v t nil).toList ++ pathNodes path := fun ha =>
    hperm.mem_iff.mpr (List.mem_cons_of_mem _ (by simpa using ha))
  have hnodup : (t.toList ++ pathNodes path).Nodup := by
    simpa using (hperm.nodup_iff.mp h.nodup).of_cons
  obtain ⟨-, htree, -⟩ := rep_join.mp h.tree
  exact ⟨haround, htree.reparent hva hnodup.of_append_left hmoved hsame,
    fun a ha => h.nodes a (hmem ha), hnodup⟩

lemma At.unlink_run (h : At root path (join d c v t nil)) (e : Side) :
    ∃ r₁ root', root.setParentOf (addr t) (pathAddr path) = some r₁ ∧
      r₁.relink e (pathAddr path) v (addr t) = some root' ∧ At root' path t ∧
      (path ≠ .root → root'.mem (pathAddr path) =
        (root.mem (pathAddr path)).setChild (pathSide path) (addr t)) ∧
      (t ≠ nil → root'.mem (addr t) = (root.mem (addr t)).rbSetParent (pathAddr path)) ∧
      ∀ a, (a ∈ pathNodes path → a ≠ pathAddr path) → a ≠ addr t → root'.mem a = root.mem a := by
  have hnodes : ∀ a ∈ pathNodes path, a ≠ 0#32 := fun a ha =>
    (h.nodes a (List.mem_append_right _ ha)).1
  have hdisjoint : ∀ a ∈ pathNodes path, a ∉ t.toList := fun a ha hat =>
    List.disjoint_of_nodup_append h.nodup (mem_join.mpr (.inr (.inl hat))) ha
  have hchild : ∀ a ∈ pathNodes path, a ≠ addr t := fun a ha =>
    ne_addr (fun hat => absurd hat (hdisjoint a ha)) (hnodes a ha)
  obtain ⟨hv, -⟩ := h.node
  obtain ⟨-, -, hvpath⟩ := h.notMem
  have hpathnodup := h.nodup.of_append_right
  have haround := h.around
  rw [addr_join] at haround
  obtain ⟨r₁, hr₁, hroot₁, hself₁, hsame₁⟩ := setParentOf_spec root (addr t) (pathAddr path)
  have haround₁ : PathRep r₁ path v := haround.congr hroot₁ fun a ha => hsame₁ a (hchild a ha)
  obtain ⟨r₂, hr₂, haround₂, hhead₂, hsame₂⟩ :=
    haround₁.relink hnodes hpathnodup hv hvpath e (addr t)
  have htnode : t ≠ nil → addr t ≠ 0#32 := fun ht =>
    ((at_down.mp h).nodes _ (List.mem_append_left _ (addr_mem ht))).1
  have hkeep : ∀ a ∈ t.toList, r₂.mem a = r₁.mem a := fun a ha =>
    hsame₂ a fun hap => absurd ha (hdisjoint a hap)
  have hmoved : t ≠ nil → r₂.mem (addr t) = (root.mem (addr t)).rbSetParent (pathAddr path) :=
    fun ht => (hkeep _ (addr_mem ht)).trans (hself₁ (htnode ht))
  refine ⟨r₁, r₂, hr₁, hr₂, h.unlink haround₂ hmoved fun a ha hne => ?_, fun hpath => ?_, hmoved,
    fun a hap ha => (hsame₂ a hap).trans (hsame₁ a ha)⟩
  · exact (hkeep a ha).trans (hsame₁ a hne)
  · rw [hhead₂ hpath, hsame₁ _ (hchild _ (pathAddr_mem hpath))]

lemma At.replaced (h : At root path (join d c v x y)) (hu : u ≠ 0#32 ∧ Aligned u)
    (hnew : u ∉ (join d c v x y).toList ++ pathNodes path) (haround : PathRep root' path u)
    (hcell : root'.mem u = root.mem v)
    (hx : x ≠ nil → root'.mem (addr x) = (root.mem (addr x)).rbSetParent u)
    (hxsame : ∀ a ∈ x.toList, a ≠ addr x → root'.mem a = root.mem a)
    (hy : y ≠ nil → root'.mem (addr y) = (root.mem (addr y)).rbSetParent u)
    (hysame : ∀ a ∈ y.toList, a ≠ addr y → root'.mem a = root.mem a) :
    At root' path (join d c u x y) := by
  have hva : Aligned v := by simpa using (at_down.mp h).aligned
  obtain ⟨hold, hxrep, hyrep⟩ := rep_join.mp h.tree
  have hperm := perm_join (d := d) (c := c) (v := v) (x := x) (y := y) (pathNodes path)
  have hperm' := perm_join (d := d) (c := c) (v := u) (x := x) (y := y) (pathNodes path)
  have hnodup := hperm.nodup_iff.mp h.nodup
  rw [hperm.mem_iff, List.mem_cons, not_or] at hnew
  refine ⟨by rwa [addr_join], rep_join.mpr ⟨hcell.trans hold, ?_, ?_⟩, fun a ha => ?_, ?_⟩
  · exact hxrep.reparent hva hnodup.of_cons.of_append_left hx hxsame
  · exact hyrep.reparent hva hnodup.of_cons.of_append_right.of_append_left hy hysame
  · obtain rfl | ha := List.mem_cons.mp (hperm'.mem_iff.mp ha)
    · exact hu
    · exact h.nodes a (hperm.mem_iff.mpr (List.mem_cons_of_mem _ ha))
  · exact hperm'.nodup_iff.mpr (List.nodup_cons.mpr ⟨hnew.2, hnodup.of_cons⟩)

lemma lacking_of_balanced {t : RBNode Ptr} (h : t.Balanced c n) : Lacking t n := by
  cases c with
  | black => exact .inl h
  | red =>
    have ht : t ≠ nil := by
      rintro rfl
      cases h
    obtain ⟨c, v, x, y, rfl⟩ := exists_join .left ht
    obtain ⟨rfl, hx, hy⟩ := Balanced.of_red h
    exact lacking_red hx hy

lemma erase_middle {l₁ l₂ : List Ptr} (h : v ∉ l₁) : (l₁ ++ v :: l₂).erase v = l₁ ++ l₂ := by
  rw [List.erase_append_right _ h, List.erase_cons_head]

lemma At.fill_nodup (h : At root path t) : (path.fill t).toList.Nodup :=
  toList_fill_perm.nodup_iff.mpr h.nodup

lemma At.toList_unlink (h : At root path (join d c v t nil)) :
    (path.fill t).toList = (path.fill (join d c v t nil)).toList.erase v := by
  obtain ⟨hvt, -, hvpath⟩ := h.notMem
  simp only [pathNodes, List.mem_append, not_or] at hvpath
  cases d with
  | left =>
    have hlist : (path.fill (join .left c v t nil)).toList =
        (path.listL ++ t.toList) ++ v :: path.listR := by simp [join]
    rw [hlist, erase_middle, toList_fill]
    simp [hvpath.1, hvt]
  | right =>
    have hlist : (path.fill (join .right c v t nil)).toList =
        path.listL ++ v :: (t.toList ++ path.listR) := by simp [join]
    rw [hlist, erase_middle hvpath.1, toList_fill, List.append_assoc]

lemma afterErase_spec {fuel : ℕ} (h : At root path t) (hpath : path.Balanced black n₀ c n)
    (hold : (join d c v t nil).Balanced c n) (hfuel : pathLength path + 1 ≤ fuel) :
    ∃ root', (if bit c = 1#32 then rbEraseColor root (addr t) (pathAddr path) fuel else some root) =
      some root' ∧ Repaired root' (path.fill t).toList := by
  cases c with
  | red =>
    obtain ⟨-, ht, -⟩ := Balanced.of_red hold
    refine ⟨root, if_neg (by decide), _, n₀, h.top, ?_, rfl⟩
    exact Path.Balanced.fill (Path.Balanced.black_of_red hpath) ht
  | black =>
    obtain ⟨-, m, c₁, c₂, rfl, ht, -⟩ := Balanced.of_black hold
    rw [if_pos (bit_eq_one.mpr rfl)]
    exact rbEraseColor_spec h hpath (lacking_of_balanced ht) (by omega) fun _ => hfuel

lemma eraseOne_spec {fuel : ℕ} (h : At root path (join d c v t nil))
    (hpath : path.Balanced black n₀ c n) (hold : (join d c v t nil).Balanced c n)
    (hfuel : pathLength path + 1 ≤ fuel) :
    ∃ root', eraseOne root v (addr t) fuel = some root' ∧
      Repaired root' ((path.fill (join d c v t nil)).toList.erase v) := by
  have hlist := h.toList_unlink
  obtain ⟨r₁, r₂, hr₁, hr₂, h₂, -⟩ := h.unlink_run .left
  obtain ⟨root', hrun, hrep⟩ := afterErase_spec h₂ hpath hold hfuel
  refine ⟨root', ?_, hlist ▸ hrep⟩
  rw [eraseOne, h.deref]
  simp only [Option.bind_eq_bind, Option.bind_some, rbParent_cell h.aligned, hr₁, hr₂,
    rbColor_cell h.aligned, hrun]

/-! ### Another node in the same place -/

lemma At.apart_children (h : At root path (join d c v x y)) :
    (∀ a ∈ x.toList, a ∉ y.toList ∧ a ∉ pathNodes path) ∧ ∀ a ∈ y.toList, a ∉ pathNodes path := by
  have hnodup := ((perm_join _).nodup_iff.mp h.nodup).of_cons
  have hx := List.disjoint_of_nodup_append hnodup
  exact ⟨fun a ha => ⟨fun hy => hx ha (List.mem_append_left _ hy),
    fun hp => hx ha (List.mem_append_right _ hp)⟩,
    fun a ha hp => List.disjoint_of_nodup_append hnodup.of_append_right ha hp⟩

lemma At.child_ne_zero (h : At root path (join d c v x y)) {a : Ptr}
    (ha : a ∈ x.toList ∨ a ∈ y.toList) : a ≠ 0#32 :=
  (h.nodes a (List.mem_append_left _ (mem_join.mpr (.inr ha)))).1

theorem rbReplaceNode_spec (h : At root path (join .left c v x y)) (hu : u ≠ 0#32 ∧ Aligned u)
    (hnew : u ∉ (join .left c v x y).toList ++ pathNodes path) :
    ∃ root', rbReplaceNode root v u = some root' ∧ At root' path (join .left c u x y) := by
  have hnodes : ∀ a ∈ pathNodes path, a ≠ 0#32 := fun a ha =>
    (h.nodes a (List.mem_append_right _ ha)).1
  obtain ⟨hv, hcell⟩ := h.node
  obtain ⟨hvx, hvy, hvpath⟩ := h.notMem
  obtain ⟨hxapart, hyapart⟩ := h.apart_children
  have hux : u ∉ x.toList ∧ u ∉ y.toList ∧ u ∉ pathNodes path ∧ u ≠ v := by
    rw [List.mem_append, mem_join] at hnew
    tauto
  obtain ⟨hux, huy, hupath, huv⟩ := hux
  have haround := h.around
  rw [addr_join] at haround
  obtain ⟨r₁, hr₁, haround₁, -, hsame₁⟩ :=
    haround.relink hnodes h.nodup.of_append_right hv hvpath .left u
  obtain ⟨r₂, hr₂, hroot₂, hself₂, hsame₂⟩ := setParentOf_spec r₁ (addr x) u
  obtain ⟨r₃, hr₃, hroot₃, hself₃, hsame₃⟩ := setParentOf_spec r₂ (addr y) u
  have hkeep₁ : ∀ a, a ∉ pathNodes path → r₁.mem a = root.mem a := fun a ha =>
    hsame₁ a fun hap => absurd hap ha
  have hv₃ : r₃.mem v = root.mem v := by
    rw [hsame₃ v (ne_addr (fun h => absurd h hvy) hv), hsame₂ v (ne_addr (fun h => absurd h hvx) hv),
      hkeep₁ v hvpath]
  obtain ⟨r₄, hr₄, hroot₄, hself₄, hkeep⟩ := modify_spec r₃ hu.1 fun _ => root.mem v
  have hpath₄ : PathRep r₄ path u := by
    refine haround₁.congr (hroot₄.trans (hroot₃.trans hroot₂)) fun a ha => ?_
    have hax : a ≠ addr x := ne_addr (fun hax => absurd ha (hxapart a hax).2) (hnodes a ha)
    have hay : a ≠ addr y := ne_addr (fun hay => absurd ha (hyapart a hay)) (hnodes a ha)
    rw [hkeep a (fun h => hupath (h ▸ ha)), hsame₃ a hay, hsame₂ a hax]
  refine ⟨r₄, ?_, h.replaced hu hnew hpath₄ hself₄ (fun hx => ?_) (fun a ha hne => ?_) (fun hy => ?_)
    fun a ha hne => ?_⟩
  · rw [rbReplaceNode, h.deref]
    simp only [Option.bind_eq_bind, Option.bind_some, rbParent_cell h.aligned, hr₁]
    simp only [cell, hr₂, hr₃, Option.bind_some, deref_some hv, hv₃, hr₄]
  · have hmem := addr_mem hx
    have hne := h.child_ne_zero (.inl hmem)
    rw [hkeep _ (fun h => hux (h ▸ hmem)),
      hsame₃ _ (ne_addr (fun h => absurd h (hxapart _ hmem).1) hne), hself₂ hne,
      hkeep₁ _ (hxapart _ hmem).2]
  · have hnz := h.child_ne_zero (.inl ha)
    rw [hkeep a (fun h => hux (h ▸ ha)), hsame₃ a (ne_addr (fun h => absurd h (hxapart a ha).1) hnz),
      hsame₂ a hne, hkeep₁ a (hxapart a ha).2]
  · have hmem := addr_mem hy
    have hne := h.child_ne_zero (.inr hmem)
    have hyx : addr y ∉ x.toList := fun hx => (hxapart _ hx).1 hmem
    rw [hkeep _ (fun h => huy (h ▸ hmem)), hself₃ hne,
      hsame₂ _ (ne_addr (fun h => absurd h hyx) hne), hkeep₁ _ (hyapart _ hmem)]
  · have hnz := h.child_ne_zero (.inr ha)
    have hax : a ∉ x.toList := fun hx => (hxapart a hx).1 ha
    rw [hkeep a (fun h => huy (h ▸ ha)), hsame₃ a hne,
      hsame₂ a (ne_addr (fun h => absurd h hax) hnz), hkeep₁ a (hyapart a ha)]

end Places

end Almos.Rb
