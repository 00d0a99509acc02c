import Almos.Rbtree

/-!
# Trees in memory

`At root path t`: the memory holds a tree, and at the end of a path in it the subtree `t`. Each
place has its own lemma for a node that is not in it, for a new parent of a subtree and for a new
node at the end of a path.
-/
namespace Almos.Rb
open RBTree RBTree.RBNode RBTree.RBColor RedBlack

/-! ### The word of the parent and the color -/

def Aligned (p : Ptr) : Prop := p &&& 3#32 = 0#32

def bit : RBColor → BitVec 32
  | red => 0#32
  | black => 1#32

def packed (p : Ptr) (c : RBColor) : BitVec 32 := p ||| bit c

section Words
variable {p q : Ptr} {c : RBColor}

lemma Aligned.and_of_disjoint {m : BitVec 32} (h : Aligned p) (hm : m &&& 3#32 = m) : p &&& m = 0#32 := by
  rw [← hm, BitVec.and_comm m, ← BitVec.and_assoc, h, BitVec.zero_and]

lemma Aligned.and_not {m : BitVec 32} (h : Aligned p) (hm : m &&& 3#32 = m) : p &&& ~~~m = p := by
  have hzero := h.and_of_disjoint hm
  ext i hi
  have hbit : (p &&& m)[i] = false := by simp [hzero]
  simp only [BitVec.getElem_and, BitVec.getElem_not] at hbit ⊢
  cases hp : p[i] <;> simp_all

lemma packed_and (hp : Aligned p) : packed p c &&& ~~~3#32 = p := by
  have hbit : bit c &&& ~~~3#32 = 0#32 := by cases c <;> decide
  rw [packed, BitVec.and_or_distrib_right, hp.and_not (by decide), hbit, BitVec.or_zero]

lemma packed_and_one (hp : Aligned p) : packed p c &&& 1#32 = bit c := by
  have hbit : bit c &&& 1#32 = bit c := by cases c <;> decide
  rw [packed, BitVec.and_or_distrib_right, hp.and_of_disjoint (by decide), hbit, BitVec.zero_or]

lemma packed_setParent (hp : Aligned p) : packed p c &&& 3#32 ||| q = packed q c := by
  have hbit : bit c &&& 3#32 = bit c := by cases c <;> decide
  rw [packed, BitVec.and_or_distrib_right, hp.and_of_disjoint (by decide), hbit, BitVec.zero_or, packed,
    BitVec.or_comm]

lemma packed_setColor (hp : Aligned p) (c' : RBColor) :
    packed p c &&& ~~~1#32 ||| bit c' = packed p c' := by
  have hbit : bit c &&& ~~~1#32 = 0#32 := by cases c <;> decide
  rw [packed, BitVec.and_or_distrib_right, hp.and_not (by decide), hbit, BitVec.or_zero, packed]

lemma packed_setBlack (p : Ptr) (c : RBColor) : packed p c ||| 1#32 = packed p black := by
  have hbit : bit c ||| 1#32 = bit black := by cases c <;> decide
  rw [packed, BitVec.or_assoc, hbit, packed]

end Words

/-- The node with `x` on side `d`. -/
def cell (d : Side) (c : RBColor) (parent x y : Ptr) : RbNode :=
  match d with
  | .left => ⟨packed parent c, y, x⟩
  | .right => ⟨packed parent c, x, y⟩

section Cells
variable {d : Side} {c c' : RBColor} {q q' x y z : Ptr}

lemma cell_other : cell d.other c q x y = cell d c q y x := by cases d <;> rfl

@[simp] lemma child_cell : (cell d c q x y).child d = x := by cases d <;> rfl

@[simp] lemma child_other_cell : (cell d c q x y).child d.other = y := by cases d <;> rfl

@[simp] lemma rbLeft_cell : (cell .left c q x y).rbLeft = x := rfl

@[simp] lemma rbRight_cell : (cell .left c q x y).rbRight = y := rfl

@[simp] lemma rbRight_cell_right : (cell .right c q x y).rbRight = x := rfl

@[simp] lemma setChild_cell : (cell d c q x y).setChild d z = cell d c q z y := by cases d <;> rfl

@[simp] lemma setChild_other_cell : (cell d c q x y).setChild d.other z = cell d c q x z := by
  cases d <;> rfl

lemma rbParent_cell (hq : Aligned q) : (cell d c q x y).rbParent = q := by
  cases d <;> exact packed_and hq

lemma rbColor_cell (hq : Aligned q) : (cell d c q x y).rbColor = bit c := by
  cases d <;> exact packed_and_one hq

lemma rbSetParent_cell (hq : Aligned q) : (cell d c q x y).rbSetParent q' = cell d c q' x y := by
  cases d <;> simp only [RbNode.rbSetParent, cell, packed_setParent hq]

lemma rbSetColor_cell (hq : Aligned q) :
    (cell d c q x y).rbSetColor (bit c') = cell d c' q x y := by
  cases d <;> simp only [RbNode.rbSetColor, cell, packed_setColor hq]

lemma rbSetBlack_cell : (cell d c q x y).rbSetBlack = cell d black q x y := by
  cases d <;> simp only [RbNode.rbSetBlack, cell, packed_setBlack]

lemma rbSetRed_cell (hq : Aligned q) : (cell d c q x y).rbSetRed = cell d red q x y := by
  have h := packed_setColor hq (c := c) red
  simp only [bit, BitVec.or_zero] at h
  cases d <;> simp only [RbNode.rbSetRed, cell, h]

end Cells

def addr : RBNode Ptr → Ptr
  | nil => 0#32
  | .node _ _ v _ => v

def pathAddr : Path Ptr → Ptr
  | .root => 0#32
  | .left _ _ v _ => v
  | .right _ _ v _ => v

def pathSide : Path Ptr → Side
  | .root => .left
  | .left _ _ _ _ => .left
  | .right _ _ _ _ => .right

def pathNodes (path : Path Ptr) : List Ptr := path.listL ++ path.listR

/-- The memory holds a tree below `parent`. -/
def Rep (mem : Ptr → RbNode) : Ptr → RBNode Ptr → Prop
  | _, nil => True
  | parent, .node c l v r =>
      mem v = cell .left c parent (addr l) (addr r) ∧ Rep mem v l ∧ Rep mem v r

/-- The memory holds what is around a subtree with the root `p`. -/
def PathRep (root : RbRoot) : Path Ptr → Ptr → Prop
  | .root, p => root.rbNode = p
  | .left c path v y, p =>
      root.mem v = cell .left c (pathAddr path) p (addr y) ∧ Rep root.mem v y ∧ PathRep root path v
  | .right c y v path, p =>
      root.mem v = cell .right c (pathAddr path) p (addr y) ∧ Rep root.mem v y ∧
        PathRep root path v

section Places
variable {d : Side} {c : RBColor} {v p q q' : Ptr} {x y t : RBNode Ptr} {path : Path Ptr}
  {mem mem' : Ptr → RbNode} {root root' : RbRoot}

@[simp] lemma addr_join : addr (join d c v x y) = v := by cases d <;> rfl

@[simp] lemma pathAddr_down : pathAddr (down d c v y path) = v := by cases d <;> rfl

@[simp] lemma pathSide_down : pathSide (down d c v y path) = d := by cases d <;> rfl

lemma rep_join : Rep mem q (join d c v x y) ↔
    mem v = cell d c q (addr x) (addr y) ∧ Rep mem v x ∧ Rep mem v y := by
  cases d with
  | left => rfl
  | right =>
    rw [← cell_other]
    exact and_congr_right fun _ => and_comm

lemma pathRep_down : PathRep root (down d c v y path) p ↔
    root.mem v = cell d c (pathAddr path) p (addr y) ∧ Rep root.mem v y ∧ PathRep root path v := by
  cases d <;> rfl

lemma toList_join_perm : (join d c v x y).toList.Perm (v :: (x.toList ++ y.toList)) := by
  cases d with
  | left => simp [join]
  | right =>
    simp only [join, toList_node]
    exact List.perm_middle.trans (List.perm_append_comm.cons v)

lemma perm_join (l : List Ptr) :
    ((join d c v x y).toList ++ l).Perm (v :: (x.toList ++ (y.toList ++ l))) := by
  refine (toList_join_perm.append_right l).trans ?_
  rw [List.cons_append, List.append_assoc]

lemma pathNodes_down_perm :
    (pathNodes (down d c v y path)).Perm (v :: (y.toList ++ pathNodes path)) := by
  cases d with
  | left =>
    simp only [pathNodes, down, Path.listL, Path.listR, List.cons_append]
    refine List.perm_middle.trans (List.Perm.cons v ?_)
    rw [← List.append_assoc, ← List.append_assoc]
    exact List.perm_append_comm.append_right _
  | right =>
    simp only [pathNodes, down, Path.listL, Path.listR, List.append_assoc, List.cons_append, List.nil_append]
    rw [← List.append_assoc]
    refine List.perm_middle.trans (List.Perm.cons v ?_)
    rw [← List.append_assoc]
    exact List.perm_append_comm.append_right _

lemma toList_fill_perm : (path.fill t).toList.Perm (t.toList ++ pathNodes path) := by
  rw [toList_fill, pathNodes, ← List.append_assoc]
  exact List.perm_append_comm.append_right _

lemma mem_join : p ∈ (join d c v x y).toList ↔ p = v ∨ p ∈ x.toList ∨ p ∈ y.toList := by
  rw [toList_join_perm.mem_iff]
  simp

lemma mem_pathNodes_down :
    p ∈ pathNodes (down d c v y path) ↔ p = v ∨ p ∈ y.toList ∨ p ∈ pathNodes path := by
  rw [pathNodes_down_perm.mem_iff]
  simp

lemma addr_mem (h : t ≠ nil) : addr t ∈ t.toList := by
  cases t with
  | nil => exact absurd rfl h
  | node c l v r => simp [addr]

lemma pathAddr_mem (h : path ≠ .root) : pathAddr path ∈ pathNodes path := by
  obtain rfl | ⟨d, c, v, y, path', rfl⟩ := path_cases path
  · exact absurd rfl h
  · rw [pathAddr_down, mem_pathNodes_down]
    exact .inl rfl

/-! ### Memory that changes elsewhere -/

lemma Rep.congr (h : Rep mem q t) (hsame : ∀ p ∈ t.toList, mem' p = mem p) : Rep mem' q t := by
  induction t generalizing q with
  | nil => trivial
  | node c l v r ihl ihr =>
    obtain ⟨hv, hl, hr⟩ := h
    simp only [toList_node, List.mem_append, List.mem_cons] at hsame
    refine ⟨(hsame v (by simp)).trans hv, ihl hl fun p hp => hsame p (.inl hp),
      ihr hr fun p hp => hsame p (.inr (.inr hp))⟩

lemma Rep.reparent (h : Rep mem q t) (hq : Aligned q) (hnodup : t.toList.Nodup)
    (haddr : t ≠ nil → mem' (addr t) = (mem (addr t)).rbSetParent q')
    (hsame : ∀ p ∈ t.toList, p ≠ addr t → mem' p = mem p) : Rep mem' q' t := by
  cases t with
  | nil => trivial
  | node c l v r =>
    obtain ⟨hv, hl, hr⟩ := h
    simp only [toList_node, List.nodup_middle, List.nodup_cons, List.mem_append, not_or] at hnodup
    obtain ⟨⟨hvl, hvr⟩, -⟩ := hnodup
    simp only [toList_node, List.mem_append, List.mem_cons, addr] at hsame
    refine ⟨?_, hl.congr fun p hp => hsame p (.inl hp) ?_,
      hr.congr fun p hp => hsame p (.inr (.inr hp)) ?_⟩
    · have hnew := haddr (by simp)
      simp only [addr] at hnew
      rw [hnew, hv, rbSetParent_cell hq]
    · rintro rfl
      exact hvl hp
    · rintro rfl
      exact hvr hp

lemma PathRep.congr (h : PathRep root path p) (hroot : root'.rbNode = root.rbNode)
    (hsame : ∀ a ∈ pathNodes path, root'.mem a = root.mem a) : PathRep root' path p := by
  induction path using path_induction generalizing p with
  | root => exact hroot.trans h
  | down d c v y path ih =>
    rw [pathRep_down] at h ⊢
    obtain ⟨hv, hy, hpath⟩ := h
    simp only [mem_pathNodes_down] at hsame
    exact ⟨(hsame v (.inl rfl)).trans hv, hy.congr fun a ha => hsame a (.inr (.inl ha)),
      ih hpath fun a ha => hsame a (.inr (.inr ha))⟩

lemma PathRep.relinked (h : PathRep root (down d c v y path) p)
    (hnodup : (pathNodes (down d c v y path)).Nodup) (hroot : root'.rbNode = root.rbNode)
    (hv : root'.mem v = (root.mem v).setChild d q)
    (hsame : ∀ a ∈ pathNodes (down d c v y path), a ≠ v → root'.mem a = root.mem a) :
    PathRep root' (down d c v y path) q := by
  rw [pathRep_down] at h ⊢
  obtain ⟨hcell, hy, hpath⟩ := h
  rw [pathNodes_down_perm.nodup_iff] at hnodup
  simp only [List.nodup_cons, List.mem_append, not_or] at hnodup
  obtain ⟨⟨hvy, hvpath⟩, -⟩ := hnodup
  simp only [mem_pathNodes_down] at hsame
  refine ⟨?_, hy.congr fun a ha => hsame a (.inr (.inl ha)) ?_,
    hpath.congr hroot fun a ha => hsame a (.inr (.inr ha)) ?_⟩
  · rw [hv, hcell, setChild_cell]
  · rintro rfl
    exact hvy ha
  · rintro rfl
    exact hvpath ha

end Places

/-- The memory holds a tree with the subtree `t` at the end of a path. -/
structure At (root : RbRoot) (path : Path Ptr) (t : RBNode Ptr) : Prop where
  around : PathRep root path (addr t)
  tree : Rep root.mem (pathAddr path) t
  nodes : ∀ p ∈ t.toList ++ pathNodes path, p ≠ 0#32 ∧ Aligned p
  nodup : (t.toList ++ pathNodes path).Nodup

section Focus
variable {d e : Side} {c c' : RBColor} {u v w p q : Ptr} {x y z t : RBNode Ptr} {path : Path Ptr}
  {root root' : RbRoot}

lemma aligned_zero : Aligned 0#32 := by
  unfold Aligned
  decide

lemma At.aligned (h : At root path t) : Aligned (pathAddr path) := by
  by_cases hroot : path = .root
  · subst hroot
    exact aligned_zero
  · exact (h.nodes _ (List.mem_append_right _ (pathAddr_mem hroot))).2

lemma at_down : At root path (join d c v x y) ↔ At root (down d c v y path) x := by
  have hperm : ((join d c v x y).toList ++ pathNodes path).Perm
      (x.toList ++ pathNodes (down d c v y path)) := by
    exact (perm_join _).trans (List.perm_middle.symm.trans (pathNodes_down_perm.symm.append_left _))
  constructor
  · rintro ⟨hpath, htree, hnodes, hnodup⟩
    rw [addr_join] at hpath
    obtain ⟨hv, hx, hy⟩ := rep_join.mp htree
    exact ⟨pathRep_down.mpr ⟨hv, hy, hpath⟩, by rwa [pathAddr_down],
      fun p hp => hnodes p (hperm.mem_iff.mpr hp), hperm.nodup_iff.mp hnodup⟩
  · rintro ⟨hpath, htree, hnodes, hnodup⟩
    rw [pathAddr_down] at htree
    obtain ⟨hv, hy, hpath⟩ := pathRep_down.mp hpath
    exact ⟨by rwa [addr_join], rep_join.mpr ⟨hv, htree, hy⟩,
      fun p hp => hnodes p (hperm.mem_iff.mp hp), hperm.nodup_iff.mpr hnodup⟩

lemma at_down_other : At root path (join d c v x y) ↔ At root (down d.other c v x path) y := by
  rw [← join_other, at_down]

lemma At.top (h : At root path t) : At root .root (path.fill t) := by
  induction path using path_induction generalizing t with
  | root => exact h
  | down d c v y path ih =>
    rw [fill_down]
    exact ih (at_down.mpr h)

lemma At.of_top (h : At root .root (path.fill t)) : At root path t := by
  induction path using path_induction generalizing t with
  | root => exact h
  | down d c v y path ih =>
    rw [fill_down] at h
    exact at_down.mp (ih h)

namespace At

lemma node (h : At root path (join d c v x y)) :
    v ≠ 0#32 ∧ root.mem v = cell d c (pathAddr path) (addr x) (addr y) :=
  ⟨(h.nodes v (List.mem_append_left _ (mem_join.mpr (.inl rfl)))).1, (rep_join.mp h.tree).1⟩

lemma deref (h : At root path (join d c v x y)) :
    root.deref v = some (cell d c (pathAddr path) (addr x) (addr y)) := by
  obtain ⟨hv, hcell⟩ := h.node
  rw [RbRoot.deref, if_neg hv, hcell]

lemma notMem (h : At root path (join d c v x y)) :
    v ∉ x.toList ∧ v ∉ y.toList ∧ v ∉ pathNodes path := by
  have hnodup := (toList_join_perm.append_right (pathNodes path)).nodup_iff.mp h.nodup
  simp only [List.cons_append, List.nodup_cons, List.mem_append, not_or] at hnodup
  exact ⟨hnodup.1.1.1, hnodup.1.1.2, hnodup.1.2⟩

lemma recolor (h : At root path (join d c v x y)) {f : RbNode → RbNode}
    (hf : ∀ {q a b}, Aligned q → f (cell d c q a b) = cell d c' q a b) :
    ∃ root', root.modify v f = some root' ∧ At root' path (join d c' v x y) := by
  obtain ⟨hv, hcell⟩ := h.node
  obtain ⟨hvx, hvy, hvpath⟩ := h.notMem
  obtain ⟨-, hx, hy⟩ := rep_join.mp h.tree
  have hother : ∀ {a}, a ≠ v → Function.update root.mem v (f (root.mem v)) a = root.mem a :=
    fun ha => Function.update_of_ne ha _ _
  have hlist : (join d c' v x y).toList = (join d c v x y).toList := toList_join_color c' c
  refine ⟨_, if_neg hv, ?_, ?_, by rw [hlist]; exact h.nodes, by rw [hlist]; exact h.nodup⟩
  · have hpath := h.around
    rw [addr_join] at hpath ⊢
    refine hpath.congr rfl fun a ha => hother ?_
    rintro rfl
    exact hvpath ha
  · refine rep_join.mpr ⟨?_, hx.congr fun a ha => hother ?_, hy.congr fun a ha => hother ?_⟩
    · rw [hcell]
      simp only [Function.update_self]
      exact hf h.aligned
    · rintro rfl
      exact hvx ha
    · rintro rfl
      exact hvy ha

end At

lemma modify_eq (hp : p ≠ 0#32) (f : RbNode → RbNode) : root.modify p f =
    some { root with mem := Function.update root.mem p (f (root.mem p)) } := if_neg hp

lemma modify_spec (root : RbRoot) (hp : p ≠ 0#32) (f : RbNode → RbNode) :
    ∃ root', root.modify p f = some root' ∧ root'.rbNode = root.rbNode ∧
      root'.mem p = f (root.mem p) ∧ ∀ a, a ≠ p → root'.mem a = root.mem a :=
  ⟨_, modify_eq hp f, rfl, Function.update_self .., fun _ ha => Function.update_of_ne ha _ _⟩

lemma setParentOf_spec (root : RbRoot) (p q : Ptr) : ∃ root', root.setParentOf p q = some root' ∧
    root'.rbNode = root.rbNode ∧ (p ≠ 0#32 → root'.mem p = (root.mem p).rbSetParent q) ∧
    ∀ a, a ≠ p → root'.mem a = root.mem a := by
  by_cases hp : p = 0#32
  · exact ⟨root, if_pos hp, rfl, fun hne => absurd hp hne, fun _ _ => rfl⟩
  · refine ⟨_, (if_neg hp).trans (if_neg hp), rfl, fun _ => Function.update_self _ _ _, fun a ha => ?_⟩
    exact Function.update_of_ne ha _ _

lemma relink_down (h : PathRep root (down e c u y path) v) (hu : u ≠ 0#32) (hv : v ≠ 0#32)
    (hvy : v ∉ y.toList) (d : Side) (w : Ptr) :
    root.relink d u v w = root.modify u (RbNode.setChild e w) := by
  obtain ⟨hcell, -⟩ := pathRep_down.mp h
  -- the sibling is another node
  have hsib : addr y ≠ v := by
    by_cases hy : y = nil
    · rw [hy]
      exact hv.symm
    · rintro rfl
      exact hvy (addr_mem hy)
  have hside : (if (root.mem u).child d = v then d else d.other) = e := by
    rw [hcell]
    by_cases hde : d = e
    · subst hde
      rw [child_cell, if_pos rfl]
    · obtain rfl : d = e.other := by cases d <;> cases e <;> first | rfl | exact absurd rfl hde
      rw [child_other_cell, if_neg hsib, Side.other_other]
  rw [RbRoot.relink, if_neg hu, RbRoot.deref, if_neg hu]
  simp only [Option.bind_eq_bind, Option.bind_some, hside]

/-- Another node at the end of a path: only the last node of the path changes. -/
lemma PathRep.relink (h : PathRep root path v) (hnodes : ∀ a ∈ pathNodes path, a ≠ 0#32)
    (hnodup : (pathNodes path).Nodup) (hv : v ≠ 0#32) (hvpath : v ∉ pathNodes path) (d : Side)
    (w : Ptr) : ∃ root', root.relink d (pathAddr path) v w = some root' ∧ PathRep root' path w ∧
      (path ≠ .root → root'.mem (pathAddr path) =
        (root.mem (pathAddr path)).setChild (pathSide path) w) ∧
      ∀ a, (a ∈ pathNodes path → a ≠ pathAddr path) → root'.mem a = root.mem a := by
  obtain rfl | ⟨e, c, u, y, path', rfl⟩ := path_cases path
  · exact ⟨_, if_pos rfl, rfl, fun h => absurd rfl h, fun _ _ => rfl⟩
  · have hmem : ∀ {a}, a = u ∨ a ∈ y.toList → a ∈ pathNodes (down e c u y path') := fun ha =>
      mem_pathNodes_down.mpr (ha.imp_right .inl)
    have hu₀ := hnodes u (hmem (.inl rfl))
    obtain ⟨r, hr, hroot, hu, hsame⟩ := modify_spec root hu₀ (RbNode.setChild e w)
    refine ⟨r, ?_, h.relinked hnodup hroot hu fun a _ ha => hsame a ha, fun _ => ?_, fun a ha => ?_⟩
    · rw [pathAddr_down, relink_down h hu₀ hv (fun hy => hvpath (hmem (.inr hy))) d w]
      exact hr
    · rw [pathAddr_down, pathSide_down, hu]
    · rw [pathAddr_down] at ha
      refine hsame a ?_
      rintro rfl
      exact ha (hmem (.inl rfl)) rfl

end Focus

end Almos.Rb
