import Almos.Machine
import Almos.RbtreeWalk

/-!
# Runs of a red-black tree

The users of a tree find the place of a new node themselves, so a run is a run of an ordered list:
nodes go in next to others, leave, or change places with new ones.
-/
namespace Almos.Rb
open RedBlack

def rounds (order : List Ptr) : ℕ := 2 * (order.length + 1).log2 + 2

def putBeside (side : Side) (parent node : Ptr) : List Ptr → List Ptr
  | [] => []
  | p :: l =>
      if p = parent then
        if side = .left then node :: p :: l else p :: node :: l
      else p :: putBeside side parent node l

def changePlace (victim new : Ptr) (order : List Ptr) : List Ptr :=
  order.map fun p => if p = victim then new else p

structure RbState where
  root : RbRoot
  order : List Ptr

inductive RbCall
  | attach (node parent : Ptr) (side : Side)
  | detach (node : Ptr)
  | replace (victim new : Ptr)

def rbMachine : Machine RbState RbCall where
  init s := s.root.rbNode = 0#32 ∧ s.order = []
  step s
    | .attach node parent side => do
        let root ← rbLinkNode s.root node parent side
        let root ← rbInsertColor root node (rounds s.order)
        some ⟨root, if parent = 0#32 then [node] else putBeside side parent node s.order⟩
    | .detach node => do
        let root ← rbErase s.root node (rounds s.order)
        some ⟨root, s.order.erase node⟩
    | .replace victim new => do
        let root ← rbReplaceNode s.root victim new
        some ⟨root, changePlace victim new s.order⟩

def Fresh (s : RbState) (node : Ptr) : Prop := node ≠ 0#32 ∧ Aligned node ∧ node ∉ s.order

/-- What the callers ensure: the place of a new node is free. -/
def Ready (s : RbState) : RbCall → Prop
  | .attach node parent side => Fresh s node ∧
      if parent = 0#32 then s.root.rbNode = 0#32
      else parent ∈ s.order ∧ (s.root.mem parent).child side = 0#32
  | .detach node => node ∈ s.order
  | .replace victim new => victim ∈ s.order ∧ Fresh s new

instance (p : Ptr) : Decidable (Aligned p) := inferInstanceAs (Decidable (_ = _))

instance (s : RbState) (p : Ptr) : Decidable (Fresh s p) := inferInstanceAs (Decidable (_ ∧ _))

instance (s : RbState) (call : RbCall) : Decidable (Ready s call) :=
  match call with
  | .attach node parent side =>
      if h : parent = 0#32 then
        decidable_of_iff (Fresh s node ∧ s.root.rbNode = 0#32) (by rw [Ready, if_pos h])
      else
        decidable_of_iff (Fresh s node ∧ parent ∈ s.order ∧ (s.root.mem parent).child side = 0#32)
          (by rw [Ready, if_neg h])
  | .detach node => inferInstanceAs (Decidable (node ∈ s.order))
  | .replace victim new => inferInstanceAs (Decidable (victim ∈ s.order ∧ Fresh s new))

open RBTree RBTree.RBNode RBTree.RBColor

/-- The memory holds a balanced tree of the nodes in order, and every call goes through. -/
structure RbSound (s : RbState) : Prop where
  tree : Repaired s.root s.order
  progress : ∀ call, Ready s call → (rbMachine.step s call).isSome

section Calls
variable {d side : Side} {c : RBColor} {v u parent : Ptr} {t x y : RBNode Ptr} {path : Path Ptr}
  {root : RbRoot} {order l₁ l₂ : List Ptr} {n n₀ : ℕ}

lemma putBeside_middle (h : parent ∉ l₁) (node : Ptr) :
    putBeside side parent node (l₁ ++ parent :: l₂) =
      l₁ ++ putBeside side parent node (parent :: l₂) := by
  induction l₁ with
  | nil => rfl
  | cons a l₁ ih =>
    rw [List.mem_cons, not_or] at h
    rw [List.cons_append, putBeside, if_neg (Ne.symm h.1), ih h.2, List.cons_append]

lemma depth_le (hbal : t.Balanced black n) : t.depth + 2 ≤ rounds t.toList := by
  have hdepth := hbal.depth_bound
  rw [rounds, ← size_eq]
  omega

lemma rbLinkNode_spec (h : At root path nil) (hv : v ≠ 0#32 ∧ Aligned v) (hnew : v ∉ pathNodes path) :
    ∃ root', rbLinkNode root v (pathAddr path) (pathSide path) = some root' ∧
      At root' path (.node red nil v nil) := by
  have hnodes : ∀ a ∈ pathNodes path, a ≠ 0#32 := fun a ha => (h.nodes a (by simpa using ha)).1
  have hnodup : (pathNodes path).Nodup := by simpa using h.nodup
  obtain ⟨r₁, hr₁, hroot₁, hself₁, hsame₁⟩ :=
    modify_spec root hv.1 fun _ => ⟨pathAddr path, 0#32, 0#32⟩
  have hv₁ : r₁.mem v = cell .left red (pathAddr path) 0#32 0#32 := by
    have hpacked : packed (pathAddr path) red = pathAddr path := BitVec.or_zero
    rw [hself₁, cell, hpacked]
  have haround₁ : PathRep r₁ path 0#32 :=
    PathRep.congr h.around hroot₁ fun a ha => hsame₁ a fun h => hnew (h ▸ ha)
  have hlist : ∀ a ∈ (RBNode.node red nil v nil).toList ++ pathNodes path, a ≠ 0#32 ∧ Aligned a := by
    intro a ha
    simp only [toList_node, toList_nil, List.nil_append, List.cons_append, List.mem_cons] at ha
    obtain rfl | ha := ha
    · exact hv
    · exact h.nodes a (by simpa using ha)
  have hnodup' : ((RBNode.node red nil v nil).toList ++ pathNodes path).Nodup := by
    simpa using ⟨hnew, hnodup⟩
  obtain rfl | ⟨d, c, p, s, path, rfl⟩ := path_cases path
  · refine ⟨{ r₁ with rbNode := v }, ?_, rfl, ⟨hv₁, trivial, trivial⟩, hlist, hnodup'⟩
    rw [rbLinkNode, hr₁]
    rfl
  · have hp : p ∈ pathNodes (down d c p s path) := mem_pathNodes_down.mpr (.inl rfl)
    have hpv : p ≠ v := fun h => hnew (h ▸ hp)
    rw [pathAddr_down] at hr₁ hv₁
    obtain ⟨r₂, hr₂, hroot₂, hp₂, hsame₂⟩ := modify_spec r₁ (hnodes p hp) (RbNode.setChild d v)
    refine ⟨r₂, ?_, ?_, ⟨?_, trivial, trivial⟩, hlist, hnodup'⟩
    · rw [rbLinkNode, pathAddr_down, pathSide_down, hr₁]
      exact (if_neg (hnodes p hp)).trans hr₂
    · exact haround₁.relinked hnodup hroot₂ hp₂ fun a _ ha => hsame₂ a ha
    · rw [hsame₂ v hpv.symm, pathAddr_down]
      exact hv₁

lemma exists_hole (h : Repaired root order) {s : RbState} (hs : s = ⟨root, order⟩) {node : Ptr}
    (hready : Ready s (.attach node parent side)) :
    ∃ path : Path Ptr, At root path nil ∧ pathAddr path = parent ∧
      (parent ≠ 0#32 → pathSide path = side) ∧ (path.fill nil).toList = order ∧
      (∃ n, (path.fill nil).Balanced black n) ∧
      path.listL ++ node :: path.listR =
        if parent = 0#32 then [node] else putBeside side parent node order := by
  subst hs
  obtain ⟨t, n, h, hbal, rfl⟩ := h
  obtain ⟨-, hplace⟩ := hready
  by_cases hparent : parent = 0#32
  · rw [if_pos hparent] at hplace
    have ht : t = nil := by
      by_contra hne
      exact (h.nodes _ (List.mem_append_left _ (addr_mem hne))).1 (h.around.symm.trans hplace)
    subst ht hparent
    exact ⟨.root, h, rfl, fun hne => absurd rfl hne, rfl, ⟨n, hbal⟩, rfl⟩
  · rw [if_neg hparent] at hplace
    obtain ⟨hmem, hchild⟩ := hplace
    obtain ⟨path, c, x, y, rfl⟩ : ∃ (path : Path Ptr) (c : RBColor) (x y : RBNode Ptr),
        path.fill (join side c parent x y) = t := by
      obtain ⟨path, c, x, y, hfill⟩ := exists_place .root hmem
      cases side with
      | left => exact ⟨path, c, y, x, hfill⟩
      | right => exact ⟨path, c, x, y, hfill⟩
    have hat := h.of_top
    have hx : x = nil := by
      by_contra hne
      rw [hat.node.2, child_cell] at hchild
      exact hat.child_ne_zero (.inl (addr_mem hne)) hchild
    subst hx
    refine ⟨down side c parent y path, at_down.mp hat, pathAddr_down, fun _ => pathSide_down,
      by rw [fill_down], ⟨n, by rwa [fill_down]⟩, ?_⟩
    obtain ⟨-, hparenty, hparentpath⟩ := hat.notMem
    rw [pathNodes, List.mem_append, not_or] at hparentpath
    rw [if_neg hparent, toList_fill]
    cases side with
    | left =>
      have hlist : path.listL ++ (join .left c parent nil y).toList ++ path.listR =
          path.listL ++ parent :: (y.toList ++ path.listR) := by simp [join]
      rw [hlist, putBeside_middle hparentpath.1]
      simp [down, putBeside]
    | right =>
      have hlist : path.listL ++ (join .right c parent nil y).toList ++ path.listR =
          (path.listL ++ y.toList) ++ parent :: path.listR := by simp [join]
      rw [hlist, putBeside_middle (by simp [hparentpath.1, hparenty])]
      simp [down, putBeside]

lemma place_spec {node : Ptr} (hat : At root path nil) (hbal : (path.fill nil).Balanced black n₀)
    (hfresh : Fresh ⟨root, (path.fill nil).toList⟩ node) (hparent : parent = pathAddr path)
    (hside : parent ≠ 0#32 → side = pathSide path) :
    ∃ r₁ r₂, rbLinkNode root node parent side = some r₁ ∧
      rbInsertColor r₁ node (rounds (path.fill nil).toList) = some r₂ ∧
      Repaired r₂ (path.listL ++ node :: path.listR) := by
  obtain ⟨hnode, halign, hnew⟩ := hfresh
  rw [toList_fill_perm.mem_iff] at hnew
  obtain ⟨c, n, hpath, hnil⟩ := Path.Balanced.of_fill hbal
  have hdepth := depth_le hbal
  have hlength := pathLength_add_depth path nil
  cases hnil
  obtain ⟨r₁, hr₁, h₁⟩ := rbLinkNode_spec hat ⟨hnode, halign⟩ (by simpa using hnew)
  have hlink : rbLinkNode root node parent side = some r₁ := by
    by_cases hzero : parent = 0#32
    · rw [← hparent, hzero] at hr₁
      rw [hzero]
      exact hr₁
    · rw [hparent, hside hzero]
      exact hr₁
  obtain ⟨r₂, hr₂, hrep⟩ := rbInsertColor_spec h₁ (.red .nil .nil) hpath
    (show pathLength path + 2 ≤ rounds (path.fill nil).toList by omega)
  refine ⟨r₁, r₂, hlink, hr₂, ?_⟩
  rw [toList_fill] at hrep
  simpa using hrep

lemma attach_step (h : Repaired root order) {node : Ptr}
    (hready : Ready ⟨root, order⟩ (.attach node parent side)) :
    ∃ s', rbMachine.step ⟨root, order⟩ (.attach node parent side) = some s' ∧
      Repaired s'.root s'.order := by
  obtain ⟨path, hat, haddr, hside, rfl, ⟨n₀, hbal⟩, horder⟩ := exists_hole h rfl hready
  obtain ⟨r₁, r₂, hlink, hcolor, hrep⟩ :=
    place_spec hat hbal hready.1 haddr.symm fun hne => (hside hne).symm
  rw [horder] at hrep
  refine ⟨⟨r₂, if parent = 0#32 then [node] else putBeside side parent node (path.fill nil).toList⟩,
    ?_, hrep⟩
  simp only [rbMachine, Option.bind_eq_bind, hlink, hcolor, Option.bind_some]

lemma detach_step (h : Repaired root order) {node : Ptr} (hnode : node ∈ order) :
    ∃ s', rbMachine.step ⟨root, order⟩ (.detach node) = some s' ∧ Repaired s'.root s'.order := by
  obtain ⟨t, n, hat, hbal, rfl⟩ := h
  have hdepth := depth_le hbal
  obtain ⟨root', hrun, hrep⟩ := rbErase_spec hat hbal hnode
    (show t.depth ≤ rounds t.toList by omega)
  refine ⟨⟨root', t.toList.erase node⟩, ?_, hrep⟩
  simp only [rbMachine, Option.bind_eq_bind, hrun, Option.bind_some]

lemma replace_step (h : Repaired root order) {victim new : Ptr}
    (hready : Ready ⟨root, order⟩ (.replace victim new)) :
    ∃ s', rbMachine.step ⟨root, order⟩ (.replace victim new) = some s' ∧
      Repaired s'.root s'.order := by
  obtain ⟨hvictim, hnew₀, halign, hnew⟩ := hready
  obtain ⟨t, n, hat, hbal, rfl⟩ := h
  obtain ⟨path, c, y, x, rfl⟩ := exists_place .root hvictim
  change At root .root (path.fill (join .left c victim x y)) at hat
  change (path.fill (join .left c victim x y)).Balanced black n at hbal
  change new ∉ (path.fill (join .left c victim x y)).toList at hnew
  have hplace := hat.of_top
  rw [toList_fill_perm.mem_iff] at hnew
  obtain ⟨root', hrun, hat'⟩ := rbReplaceNode_spec hplace ⟨hnew₀, halign⟩ hnew
  obtain ⟨c', m, hpath, hnode⟩ := Path.Balanced.of_fill hbal
  have hnode' : (join .left c new x y).Balanced c' m := by
    obtain ⟨rfl, ⟨rfl, hx, hy⟩ | ⟨rfl, k, c₁, c₂, rfl, hx, hy⟩⟩ := Balanced.of_join hnode
    · exact Balanced.join_red hx hy
    · exact Balanced.join_black hx hy
  obtain ⟨hvx, hvy, hvpath⟩ := hplace.notMem
  rw [pathNodes, List.mem_append, not_or] at hvpath
  have hmap : ∀ l : List Ptr, victim ∉ l → changePlace victim new l = l := by
    intro l hl
    refine (List.map_congr_left fun p hp => ?_).trans (List.map_id l)
    refine if_neg ?_
    rintro rfl
    exact hl hp
  have hjoin : ∀ w, (path.fill (join .left c w x y)).toList =
      (path.listL ++ x.toList) ++ w :: (y.toList ++ path.listR) := fun w => by
    rw [toList_fill]
    simp [join]
  refine ⟨⟨root', changePlace victim new (path.fill (join .right c victim y x)).toList⟩, ?_, _, n,
    hat'.top, hpath.fill hnode', ?_⟩
  · simp only [rbMachine, Option.bind_eq_bind, hrun, Option.bind_some]
  · change _ = changePlace victim new (path.fill (join .left c victim x y)).toList
    have happ : ∀ l₁ l₂, changePlace victim new (l₁ ++ victim :: l₂) =
        changePlace victim new l₁ ++ new :: changePlace victim new l₂ := fun l₁ l₂ => by
      simp [changePlace]
    rw [hjoin, hjoin, happ, hmap _ (by simp [hvpath.1, hvx]), hmap _ (by simp [hvpath.2, hvy])]

lemma call_step {s : RbState} (h : Repaired s.root s.order) {call : RbCall} (hready : Ready s call) :
    ∃ s', rbMachine.step s call = some s' ∧ Repaired s'.root s'.order := by
  cases call with
  | attach node parent side => exact attach_step h hready
  | detach node => exact detach_step h hready
  | replace victim new => exact replace_step h hready

lemma reach_repaired {s : RbState} (h : rbMachine.Reach Ready s) : Repaired s.root s.order := by
  refine h.invariant (I := fun s => Repaired s.root s.order) (fun s hs => ?_)
    fun s call t hs hready hstep => ?_
  · obtain ⟨hroot, horder⟩ := hs
    refine ⟨nil, 0, ⟨hroot, trivial, ?_, ?_⟩, .nil, horder.symm⟩
    · simp [pathNodes]
    · simp [pathNodes]
  · obtain ⟨s', hs', hrep⟩ := call_step hs hready
    obtain rfl := Option.some.inj (hs'.symm.trans hstep)
    exact hrep

/-- In every run the tree is balanced and in order, and each loop ends within twice the logarithm of
the number of nodes. -/
theorem rbtree_runs {s : RbState} (h : rbMachine.Reach Ready s) : RbSound s := by
  refine ⟨reach_repaired h, fun call hready => ?_⟩
  obtain ⟨s', hs', -⟩ := call_step (reach_repaired h) hready
  exact Option.isSome_iff_exists.mpr ⟨s', hs'⟩

end Calls

def noNodes : RbState := ⟨⟨fun _ => ⟨0#32, 0#32, 0#32⟩, 0#32⟩, []⟩

def someCalls : List RbCall :=
  [.attach 16#32 0#32 .left, .attach 8#32 16#32 .left, .attach 12#32 8#32 .right,
    .attach 24#32 16#32 .right, .attach 20#32 24#32 .left, .detach 12#32, .replace 16#32 4#32]

lemma someCalls_reach : ∃ s, rbMachine.Reach Ready s ∧ s.order = [8#32, 4#32, 20#32, 24#32] := by
  have hrun : ((rbMachine.restrict fun s call => decide (Ready s call)).run noNodes someCalls).map
      RbState.order = some [8#32, 4#32, 20#32, 24#32] := by decide +kernel
  obtain ⟨s, hs, horder⟩ := Option.map_eq_some_iff.mp hrun
  have hstart : (rbMachine.restrict fun s call => decide (Ready s call)).Reachable noNodes :=
    .init ⟨rfl, rfl⟩
  have hreach : rbMachine.Reach Ready s :=
    Machine.Reachable.of_restrict (fun _ _ => of_decide_eq_true) (hstart.run someCalls hs)
  exact ⟨s, hreach, horder⟩

theorem rbtree_runs_some : ∃ s, s.order = [8#32, 4#32, 20#32, 24#32] ∧ RbSound s := by
  obtain ⟨s, hreach, horder⟩ := someCalls_reach
  exact ⟨s, horder, rbtree_runs hreach⟩

def Browsed (s : RbState) (d : Side) : Prop :=
  ∃ first, rbEnd d s.root (rounds s.order) = some first ∧
    browseLoop d s.root (rounds s.order) (s.order.length + 1) first = some (fromSide d s.order)

/-- The walks of `browse_rb`, and each step of them. -/
structure Walked (s : RbState) : Prop where
  forwards : Browsed s .left
  backwards : Browsed s .right
  next : ∀ l₁ p l₂, s.order = l₁ ++ p :: l₂ →
    rbNext s.root p (rounds s.order) = some (headOrNull l₂)
  prev : ∀ l₁ p l₂, s.order = l₁ ++ p :: l₂ →
    rbPrev s.root p (rounds s.order) = some (headOrNull l₁.reverse)

lemma Repaired.browsed {s : RbState} (h : Repaired s.root s.order) (d : Side) : Browsed s d := by
  obtain ⟨t, n, hat, hbal, hlist⟩ := h
  have hdepth := depth_le hbal
  rw [hlist] at hdepth
  refine ⟨_, rbEnd_spec hat (by omega), ?_⟩
  rw [hlist]
  have hstart : fromSide d t.toList = [] ++ fromSide d s.order := by rw [hlist, List.nil_append]
  refine browseLoop_spec hat (by omega) hstart ?_
  rw [length_fromSide]
  exact Nat.lt_succ_self _

/-- In every run the walks go through the nodes in order, from either end. -/
theorem rbtree_walks {s : RbState} (h : rbMachine.Reach Ready s) : Walked s := by
  have htree := reach_repaired h
  obtain ⟨t, n, hat, hbal, hlist⟩ := id htree
  have hdepth := depth_le hbal
  rw [hlist] at hdepth
  refine ⟨htree.browsed .left, htree.browsed .right, fun l₁ p l₂ hsplit => ?_,
    fun l₁ p l₂ hsplit => ?_⟩
  · have hforwards : fromSide .left t.toList = l₁ ++ p :: l₂ := hlist.trans hsplit
    exact rbStep_spec hat hforwards (by omega)
  · have hbackwards : fromSide .right t.toList = l₂.reverse ++ p :: l₁.reverse := by
      rw [fromSide, hlist, hsplit]
      simp
    exact rbStep_spec hat hbackwards (by omega)

theorem rbtree_walks_some : ∃ s, s.order = [8#32, 4#32, 20#32, 24#32] ∧ Walked s := by
  obtain ⟨s, hreach, horder⟩ := someCalls_reach
  exact ⟨s, horder, rbtree_walks hreach⟩

end Almos.Rb
