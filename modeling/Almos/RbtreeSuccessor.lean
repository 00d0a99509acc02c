import Almos.RbtreeRemove

/-!
# Nodes with two children

The next node in order is the last one to the left below the right child. It leaves its place to its
child and takes the place of the node to erase.
-/
namespace Almos.Rb
open RBTree RBTree.RBNode RBTree.RBColor RedBlack

/-- The color, the node and the other subtree of each place passed, from the top. -/
abbrev Spine : Type := List (RBColor × Ptr × RBNode Ptr)

def downs (d : Side) : Spine → Path Ptr → Path Ptr
  | [], path => path
  | f :: l, path => downs d l (down d f.1 f.2.1 f.2.2 path)

def plug (d : Side) : Spine → RBNode Ptr → RBNode Ptr
  | [], t => t
  | f :: l, t => join d f.1 f.2.1 (plug d l t) f.2.2

section Spines
variable {d : Side} {c c₀ : RBColor} {v : Ptr} {s t x y : RBNode Ptr} {path path' : Path Ptr}
  {l : Spine} {root : RbRoot} {f : RBColor × Ptr × RBNode Ptr} {n n₀ : ℕ}

lemma at_downs : At root (downs d l path) t ↔ At root path (plug d l t) := by
  induction l generalizing path with
  | nil => rfl
  | cons f l ih => exact ih.trans at_down.symm

lemma fill_downs : (downs d l path).fill t = path.fill (plug d l t) := by
  induction l generalizing path with
  | nil => rfl
  | cons f l ih => exact ih.trans fill_down

lemma pathAddr_downs (path path' : Path Ptr) :
    pathAddr (downs d (f :: l) path) = pathAddr (downs d (f :: l) path') := by
  induction l generalizing f path path' with
  | nil => simp [downs]
  | cons g l ih => exact ih _ _

lemma pathSide_downs (path : Path Ptr) : pathSide (downs d (f :: l) path) = d := by
  induction l generalizing f path with
  | nil => simp [downs]
  | cons g l ih => exact ih _

lemma pathAddr_downs_mem (path : Path Ptr) (t : RBNode Ptr) :
    pathAddr (downs d (f :: l) path) ∈ (plug d (f :: l) t).toList := by
  induction l generalizing f path with
  | nil => exact mem_join.mpr (.inl (by simp [downs]))
  | cons g l ih => exact mem_join.mpr (.inr (.inl (ih _)))

lemma mem_downs (h : v ∈ pathNodes path) : v ∈ pathNodes (downs d l path) := by
  induction l generalizing path with
  | nil => exact h
  | cons f l ih => exact ih (mem_pathNodes_down.mpr (.inr (.inr h)))

lemma down_ne_root : down d c v y path ≠ .root := by
  cases d <;> simp [down]

lemma downs_ne_root (h : path ≠ .root) : downs d l path ≠ .root := by
  induction l generalizing path with
  | nil => exact h
  | cons f l ih => exact ih down_ne_root

lemma pathLength_downs : pathLength (downs d l path) = pathLength path + l.length := by
  induction l generalizing path with
  | nil => rfl
  | cons f l ih =>
    rw [downs, ih, pathLength_down, List.length_cons]
    omega

lemma balanced_down {w : Ptr} (h : ∀ c n, path.Balanced c₀ n₀ c n → path'.Balanced c₀ n₀ c n)
    {c' : RBColor} (hdown : (down d c v y path).Balanced c₀ n₀ c' n) :
    (down d c w y path').Balanced c₀ n₀ c' n := by
  obtain ⟨hc, rfl, hy, hpath⟩ | ⟨hc, ⟨c₁, hy⟩, hpath⟩ := Path.Balanced.of_down hdown
  · rw [hc]
    exact Path.Balanced.down_red hy (h _ _ hpath)
  · rw [hc]
    exact Path.Balanced.down_black hy (h _ _ hpath)

lemma balanced_downs (h : ∀ c n, path.Balanced c₀ n₀ c n → path'.Balanced c₀ n₀ c n) :
    ∀ c n, (downs d l path).Balanced c₀ n₀ c n → (downs d l path').Balanced c₀ n₀ c n := by
  induction l generalizing path path' with
  | nil => exact h
  | cons f l ih => exact ih fun c n => balanced_down h

lemma depth_join : (join d c v x y).depth = max x.depth y.depth + 1 := by
  cases d with
  | left => rfl
  | right => exact congrArg (· + 1) (Nat.max_comm _ _)

lemma furthest_spec {fuel : ℕ} (h : At root path t) (ht : t ≠ nil) (hfuel : t.depth ≤ fuel) :
    ∃ l c v s, furthest d root fuel (addr t) = some v ∧ t = plug d l (join d c v nil s) ∧
      l.length < fuel := by
  induction fuel generalizing path t with
  | zero =>
    obtain ⟨c, v, x, y, rfl⟩ := exists_join d ht
    rw [depth_join] at hfuel
    omega
  | succ fuel ih =>
    obtain ⟨c, v, x, y, rfl⟩ := exists_join d ht
    rw [depth_join] at hfuel
    have hx := at_down.mp h
    by_cases hnil : x = nil
    · subst hnil
      refine ⟨[], c, v, y, ?_, rfl, Nat.succ_pos fuel⟩
      rw [furthest, addr_join, h.deref]
      simp only [Option.bind_eq_bind, Option.bind_some, child_cell]
      exact if_pos rfl
    · obtain ⟨l, c', v', s, hrun, rfl, hlen⟩ := ih hx hnil (by omega)
      refine ⟨(c, v, y) :: l, c', v', s, ?_, rfl, Nat.succ_lt_succ hlen⟩
      have hne : addr (plug d l (join d c' v' nil s)) ≠ 0#32 :=
        (hx.nodes _ (List.mem_append_left _ (addr_mem hnil))).1
      rw [furthest, addr_join, h.deref]
      simp only [Option.bind_eq_bind, Option.bind_some, child_cell, if_neg hne, hrun]

end Spines

section Next
variable {c cn : RBColor} {old v q : Ptr} {l r s t : RBNode Ptr} {path : Path Ptr} {sp : Spine}
  {f : RBColor × Ptr × RBNode Ptr} {root root' : RbRoot} {n n₀ : ℕ}

structure TwoChildren (root : RbRoot) (path : Path Ptr) (c cn : RBColor) (old v : Ptr) (sp : Spine)
    (s l : RBNode Ptr) : Prop where
  place : At root path (join .right c old (plug .left sp (join .left cn v nil s)) l)
  left : l ≠ nil

namespace TwoChildren

lemma next (h : TwoChildren root path c cn old v sp s l) :
    At root (downs .left sp (down .right c old l path)) (join .right cn v s nil) :=
  at_downs.mpr (at_down.mp h.place)

lemma apart (h : TwoChildren root path c cn old v sp s l) :
    v ≠ old ∧ v ∉ l.toList ∧ v ∉ pathNodes path ∧ v ∉ (plug .left sp s).toList := by
  have hv := h.next.notMem
  obtain ⟨hvs, -, hvpath⟩ := hv
  have hperm : ((plug .left sp s).toList ++ pathNodes (down .right c old l path)).Perm
      (s.toList ++ pathNodes (downs .left sp (down .right c old l path))) := by
    have hfill : (downs .left sp (down .right c old l path)).fill s =
        (down .right c old l path).fill (plug .left sp s) := fill_downs
    exact toList_fill_perm.symm.trans (hfill ▸ toList_fill_perm)
  have hnot : v ∉ (plug .left sp s).toList ++ pathNodes (down .right c old l path) := by
    rw [hperm.mem_iff, List.mem_append, not_or]
    exact ⟨hvs, hvpath⟩
  rw [List.mem_append, mem_pathNodes_down] at hnot
  tauto

structure Moved (root root' : RbRoot) (path : Path Ptr) (c : RBColor) (old v : Ptr)
    (x l : RBNode Ptr) : Prop where
  around : PathRep root' path v
  node : root'.mem v = root.mem old
  child : x ≠ nil → root'.mem (addr x) = (root.mem (addr x)).rbSetParent v
  childSame : ∀ a ∈ x.toList, a ≠ addr x → root'.mem a = root.mem a
  left : root'.mem (addr l) = (root.mem (addr l)).rbSetParent v
  leftSame : ∀ a ∈ l.toList, a ≠ addr l → root'.mem a = root.mem a

lemma moved {ghost : RbRoot} (h : TwoChildren root path c cn old v sp s l)
    (hghost : At ghost (downs .left sp (down .right c old l path)) s)
    (hmoved : Moved ghost root' path c old v (plug .left sp s) l) :
    At root' (downs .left sp (down .right c v l path)) s := by
  obtain ⟨hvold, hvl, hvpath, hvx⟩ := h.apart
  have hv : v ≠ 0#32 ∧ Aligned v :=
    h.next.nodes v (List.mem_append_left _ (mem_join.mpr (.inl rfl)))
  have hplace := at_down.mpr (at_downs.mp hghost)
  refine at_downs.mpr (at_down.mp (hplace.replaced hv ?_ hmoved.around hmoved.node hmoved.child
    hmoved.childSame (fun _ => hmoved.left) hmoved.leftSame))
  rw [List.mem_append, mem_join]
  tauto

end TwoChildren

lemma takePlace_spec {x y : Ptr} (hold : old ≠ 0#32) (hv : v ≠ 0#32) (hx : x ≠ 0#32) (hxv : x ≠ v)
    (hcell : root.mem old = cell .right c q y x) :
    ∃ root', takePlace root old v = some root' ∧ root'.rbNode = root.rbNode ∧
      root'.mem v = cell .right c q (root.mem v).rbRight x ∧
      root'.mem x = (root.mem x).rbSetParent v ∧ ∀ a, a ≠ v → a ≠ x → root'.mem a = root.mem a := by
  obtain ⟨r₁, hr₁, hroot₁, hv₁, hsame₁⟩ :=
    modify_spec root hv fun n => ⟨(root.mem old).rbParentColor, n.rbRight, (root.mem old).rbLeft⟩
  obtain ⟨r₂, hr₂, hroot₂, hx₂, hsame₂⟩ := modify_spec r₁ hx (RbNode.rbSetParent v)
  rw [hcell] at hr₁ hv₁
  refine ⟨r₂, ?_, hroot₂.trans hroot₁, (hsame₂ v hxv.symm).trans hv₁, ?_, fun a hav hax =>
    (hsame₂ a hax).trans (hsame₁ a hav)⟩
  · rw [takePlace, RbRoot.deref, if_neg hold, hcell]
    simp only [Option.bind_eq_bind, Option.bind_some, hr₁]
    exact hr₂
  · rw [← hsame₁ x hxv, hx₂]

namespace TwoChildren

lemma relink (h : TwoChildren root path c cn old v sp s l) :
    ∃ root', root.relink .left (pathAddr path) old v = some root' ∧ PathRep root' path v ∧
      ∀ a, a ∉ pathNodes path → root'.mem a = root.mem a := by
  obtain ⟨hold, -⟩ := h.place.node
  obtain ⟨-, -, holdpath⟩ := h.place.notMem
  have haround := h.place.around
  rw [addr_join] at haround
  obtain ⟨root', hrun, haround', -, hsame⟩ := haround.relink
    (fun a ha => (h.place.nodes a (List.mem_append_right _ ha)).1) h.place.nodup.of_append_right hold
    holdpath .left v
  exact ⟨root', hrun, haround', fun a ha => hsame a fun hap => absurd hap ha⟩

lemma near (h : TwoChildren root path c cn old v [] s l) {fuel : ℕ}
    (hrun : furthest .left root fuel v = some v) :
    ∃ root', At root' (down .right c v l path) s ∧ eraseTwo root old fuel =
      if bit cn = 1#32 then rbEraseColor root' (addr s) v fuel else some root' := by
  obtain ⟨r₁, hr₁, haround₁, hsame₁⟩ := h.relink
  obtain ⟨hvold, hvl, hvpath, hvs⟩ := h.apart
  obtain ⟨hv, hvcell⟩ := h.next.node
  obtain ⟨hold, holdcell⟩ := h.place.node
  obtain ⟨holdx, holdl, holdpath⟩ := h.place.notMem
  obtain ⟨hxapart, hlapart⟩ := h.place.apart_children
  have hlmem := addr_mem h.left
  have hlv : addr l ≠ v := fun heq => hvl (heq ▸ hlmem)
  have hl₀ := h.place.child_ne_zero (.inr hlmem)
  have holdcell₁ : r₁.mem old = cell .right c (pathAddr path) v (addr l) := by
    rw [hsame₁ old holdpath, holdcell, plug, addr_join]
  have hvcell₁ : r₁.mem v = cell .right cn old (addr s) 0#32 := by
    rw [hsame₁ v hvpath, hvcell, downs, pathAddr_down]
    rfl
  obtain ⟨r₂, hr₂, hroot₂, hv₂, hl₂, hsame₂⟩ := takePlace_spec hold hv hl₀ hlv holdcell₁
  obtain ⟨g₁, ghost, -, -, hghost, hhead, hchild, hgsame⟩ := h.next.unlink_run .left
  have holda : Aligned old := by simpa [downs] using h.next.aligned
  have hva : Aligned v := by simpa using (at_down.mp h.next).aligned
  rw [downs, pathAddr_down] at hhead hchild hgsame
  rw [pathSide_down] at hhead
  -- nothing else changes
  have hgkeep : ∀ a, a ≠ old → a ≠ addr s → ghost.mem a = root.mem a := fun a ha has =>
    hgsame a (fun _ => ha) has
  have hkeep : ∀ a, a ∉ pathNodes path → a ≠ v → a ≠ addr l → r₂.mem a = root.mem a :=
    fun a hap hav hal => (hsame₂ a hav hal).trans (hsame₁ a hap)
  have hsin : ∀ a ∈ s.toList, a ∈ (plug .left [] (join .left cn v nil s)).toList := fun a ha =>
    mem_join.mpr (.inr (.inr ha))
  have hsne : ∀ a ∈ s.toList, a ∉ pathNodes path ∧ a ≠ v ∧ a ≠ addr l ∧ a ≠ old := by
    intro a ha
    obtain ⟨hal, hap⟩ := hxapart a (hsin a ha)
    exact ⟨hap, fun h => hvs (h ▸ ha), fun h => hal (h ▸ hlmem), fun h => holdx (h ▸ hsin a ha)⟩
  have hlne : ∀ a ∈ l.toList, a ≠ addr s ∧ a ≠ old := fun a ha =>
    ⟨ne_addr (fun has => absurd ha (hxapart a (hsin a has)).1) (h.place.child_ne_zero (.inr ha)),
      fun h => holdl (h ▸ ha)⟩
  refine ⟨r₂, h.moved hghost ⟨?_, ?_, fun hs => ?_, fun a ha hne => ?_, ?_, fun a ha hne => ?_⟩, ?_⟩
  · refine haround₁.congr hroot₂ fun a ha => hsame₂ a (fun h => hvpath (h ▸ ha)) fun h => ?_
    exact hlapart (addr l) hlmem (h ▸ ha)
  · rw [hv₂, hvcell₁, hhead (by simp [down]), holdcell, setChild_cell]
    rfl
  · obtain ⟨hap, hav, hal, -⟩ := hsne _ (addr_mem hs)
    have hparent : ((root.mem (addr s)).rbSetParent old).rbSetParent v = root.mem (addr s) := by
      obtain ⟨cs, sv, sx, sy, rfl⟩ := exists_join .left hs
      have hscell := (at_down.mp h.next).node.2
      rw [pathAddr_down] at hscell
      rw [addr_join, hscell, rbSetParent_cell hva, rbSetParent_cell holda]
    change r₂.mem (addr s) = (ghost.mem (addr s)).rbSetParent v
    rw [hkeep _ hap hav hal, hchild hs, hparent]
  · obtain ⟨hap, hav, hal, haold⟩ := hsne a ha
    rw [hkeep a hap hav hal, hgkeep a haold hne]
  · obtain ⟨has, haold⟩ := hlne _ hlmem
    rw [hl₂, hsame₁ _ (hlapart _ hlmem), hgkeep _ haold has]
  · obtain ⟨has, haold⟩ := hlne a ha
    rw [hkeep a (hlapart a ha) (fun h => hvl (h ▸ ha)) hne, hgkeep a haold has]
  · rw [eraseTwo, h.place.deref]
    have hdv : r₁.deref v = some (r₁.mem v) := deref_some hv
    simp only [Option.bind_eq_bind, Option.bind_some, rbRight_cell_right, plug, addr_join, hrun,
      rbParent_cell h.place.aligned, hr₁, hdv, hvcell₁, rbParent_cell holda, rbColor_cell holda,
      leavePlace, if_true, hr₂]

end TwoChildren

/-- `root'` is `root` after a child left to its parent: the links between `u` and `x`. -/
structure Linked (root root' : RbRoot) (u x : Ptr) : Prop where
  upper : root'.mem u = (root.mem u).setChild .left x
  lower : x ≠ 0#32 → root'.mem x = (root.mem x).rbSetParent u
  same : ∀ a, a ≠ u → a ≠ x → root'.mem a = root.mem a

lemma leavePlace_spec {u x y z : Ptr} (hcell : root.mem old = cell .right c q y z) (hold : old ≠ 0#32)
    (hv : v ≠ 0#32) (hu : u ≠ 0#32) (hy : y ≠ 0#32) (huold : u ≠ old) (hux : u ≠ x)
    (hxold : x ≠ old) (hvy : v ≠ y) :
    ∃ r₁ root', leavePlace root old v x u = some (root', u) ∧ Linked root r₁ u x ∧
      root'.rbNode = root.rbNode ∧ root'.mem v = (r₁.mem v).setChild .right y ∧
      root'.mem y = (r₁.mem y).rbSetParent v ∧ ∀ a, a ≠ v → a ≠ y → root'.mem a = r₁.mem a := by
  obtain ⟨r₀, hr₀, hroot₀, hself₀, hsame₀⟩ := setParentOf_spec root x u
  obtain ⟨r₁, hr₁, hroot₁, hu₁, hsame₁⟩ := modify_spec r₀ hu (RbNode.setChild .left x)
  obtain ⟨r₂, hr₂, hroot₂, hv₂, hsame₂⟩ := modify_spec r₁ hv (RbNode.setChild .right y)
  obtain ⟨r₃, hr₃, hroot₃, hy₃, hsame₃⟩ := modify_spec r₂ hy (RbNode.rbSetParent v)
  rw [hsame₀ u hux] at hu₁
  have hold₁ : r₁.mem old = cell .right c q y z := by
    rw [hsame₁ old huold.symm, hsame₀ old hxold.symm, hcell]
  refine ⟨r₁, r₃, ?_, ⟨hu₁, fun hx => ?_, fun a hau hax => ?_⟩, ?_, ?_, ?_, fun a hav hay => ?_⟩
  · rw [leavePlace, if_neg huold]
    simp only [Option.bind_eq_bind, Option.bind_some, hr₀, hr₁]
    rw [deref_some hold, hold₁]
    simp only [Option.bind_some, rbRight_cell_right, hr₂, hr₃]
  · rw [hsame₁ x hux.symm, hself₀ hx]
  · rw [hsame₁ a hau, hsame₀ a hax]
  · rw [hroot₃, hroot₂, hroot₁, hroot₀]
  · rw [hsame₃ v hvy, hv₂]
  · rw [← hsame₂ y hvy.symm, hy₃]
  · rw [hsame₃ a hay, hsame₂ a hav]

lemma TwoChildren.far (h : TwoChildren root path c cn old v (f :: sp) s l) {fuel : ℕ}
    (hrun : furthest .left root fuel f.2.1 = some v) :
    ∃ root', At root' (downs .left (f :: sp) (down .right c v l path)) s ∧
      eraseTwo root old fuel = if bit cn = 1#32 then rbEraseColor root' (addr s)
        (pathAddr (downs .left (f :: sp) (down .right c old l path))) fuel else some root' := by
  obtain ⟨u, hu⟩ : ∃ u, u = pathAddr (downs .left (f :: sp) (down .right c old l path)) := ⟨_, rfl⟩
  have htop : ∀ t, addr (plug .left (f :: sp) t) = f.2.1 := fun _ => addr_join
  obtain ⟨r₁, hr₁, haround₁, hsame₁⟩ := h.relink
  obtain ⟨hvold, hvl, hvpath, hvx⟩ := h.apart
  obtain ⟨hv, hvcell⟩ := h.next.node
  obtain ⟨hold, holdcell⟩ := h.place.node
  obtain ⟨holdx, holdl, holdpath⟩ := h.place.notMem
  obtain ⟨-, hlapart⟩ := h.place.apart_children
  obtain ⟨g₁, ghost, -, -, hghost, hhead, hchild, hgsame⟩ := h.next.unlink_run .left
  have hplace := at_down.mpr (at_downs.mp hghost)
  obtain ⟨hgold, -, -⟩ := hplace.notMem
  obtain ⟨hxapart, -⟩ := hplace.apart_children
  have hua : Aligned u := hu ▸ h.next.aligned
  have humem : ∀ t, u ∈ (plug .left (f :: sp) t).toList := fun t => hu ▸ pathAddr_downs_mem _ t
  have hfmem : f.2.1 ∈ (plug .left (f :: sp) s).toList := by
    have := addr_mem (t := plug .left (f :: sp) s) join_ne_nil
    rwa [htop] at this
  have hlmem := addr_mem h.left
  have hl₀ := h.place.child_ne_zero (.inr hlmem)
  have hu₀ : u ≠ 0#32 := hplace.child_ne_zero (.inl (humem s))
  have huold : u ≠ old := fun heq => hgold (heq ▸ humem s)
  have huv : u ≠ v := fun heq => hvx (heq ▸ humem s)
  have hapart : ∀ {a}, a ∈ pathNodes (downs .left (f :: sp) (down .right c old l path)) →
      a ∉ s.toList := fun ha has => List.disjoint_of_nodup_append hghost.nodup has ha
  have hroot : downs .left (f :: sp) (down .right c old l path) ≠ .root := downs_ne_root down_ne_root
  have hsold : addr s ≠ old := Ne.symm (ne_addr (fun hs =>
    absurd hs (hapart (mem_downs (mem_pathNodes_down.mpr (.inl rfl))))) hold)
  have hus : u ≠ addr s := ne_addr (fun hs => absurd hs (hapart (hu ▸ pathAddr_mem hroot))) hu₀
  have hfv : f.2.1 ≠ v := fun heq => hvx (heq ▸ hfmem)
  have hfl : f.2.1 ∉ l.toList := (hxapart _ hfmem).1
  have hlv : addr l ≠ v := fun heq => hvl (heq ▸ hlmem)
  have holdcell₁ : r₁.mem old = cell .right c (pathAddr path) f.2.1 (addr l) := by
    rw [hsame₁ old holdpath, holdcell, htop]
  have hvcell₁ : r₁.mem v = cell .right cn u (addr s) 0#32 := by
    rw [hsame₁ v hvpath, hvcell, hu]
    rfl
  obtain ⟨r₂, r₃, hr₃, hlinked, hroot₃, hv₃, hf₃, hsame₃⟩ := leavePlace_spec holdcell₁ hold hv hu₀
    (hplace.child_ne_zero (.inl hfmem)) huold hus hsold hfv.symm
  have hghostsame : ∀ a, a ∉ pathNodes path → a ≠ 0#32 → r₂.mem a = ghost.mem a := by
    intro a hap ha
    by_cases hau : a = u
    · have hhead' := hhead hroot
      rw [pathSide_downs, ← hu] at hhead'
      rw [hau, hlinked.upper, hhead', hsame₁ u (hau ▸ hap)]
    by_cases has : a = addr s
    · have hs : s ≠ nil := by
        rintro rfl
        exact ha has
      rw [has, hlinked.lower (has ▸ ha), hchild hs, hsame₁ _ (has ▸ hap), hu]
    · rw [hlinked.same a hau has, hsame₁ a hap, hgsame a (fun _ => hu ▸ hau) has]
  have hof : old ≠ f.2.1 := fun heq => hgold (heq ▸ hfmem)
  have holdcell₃ : r₃.mem old = cell .right c (pathAddr path) f.2.1 (addr l) := by
    rw [hsame₃ old hvold.symm hof, hlinked.same old huold.symm hsold.symm, holdcell₁]
  obtain ⟨r₄, hr₄, hroot₄, hv₄, hl₄, hsame₄⟩ := takePlace_spec hold hv hl₀ hlv holdcell₃
  have hlne : ∀ a ∈ l.toList, a ≠ v ∧ a ≠ f.2.1 ∧ r₂.mem a = ghost.mem a := fun a ha =>
    ⟨fun h => hvl (h ▸ ha), fun h => hfl (h ▸ ha),
      hghostsame a (hlapart a ha) (hplace.child_ne_zero (.inr ha))⟩
  refine ⟨r₄, h.moved hghost ⟨?_, ?_, fun _ => ?_, fun a ha hne => ?_, ?_, fun a ha hne => ?_⟩, ?_⟩
  · refine haround₁.congr (hroot₄.trans hroot₃) fun a ha => ?_
    have hav : a ≠ v := fun h => hvpath (h ▸ ha)
    have hal : a ≠ addr l := fun h => hlapart _ hlmem (h ▸ ha)
    have haf : a ≠ f.2.1 := fun h => (hxapart _ hfmem).2 (h ▸ ha)
    have hau : a ≠ u := fun h => (hxapart _ (humem s)).2 (h ▸ ha)
    have has : a ≠ addr s := by
      refine ne_addr (fun hs => ?_) (h.place.nodes a (List.mem_append_right _ ha)).1
      exact absurd hs (hapart (mem_downs (mem_pathNodes_down.mpr (.inr (.inr ha)))))
    rw [hsame₄ a hav hal, hsame₃ a hav haf, hlinked.same a hau has]
  · have hright : ((r₂.mem v).setChild .right f.2.1).rbRight = f.2.1 := rfl
    rw [hv₄, hv₃, hright, ← hghostsame old holdpath hold, hlinked.same old huold.symm hsold.symm,
      holdcell₁]
  · rw [htop, hsame₄ _ hfv (fun h => hfl (h ▸ hlmem)), hf₃,
      hghostsame _ (hxapart _ hfmem).2 (hplace.child_ne_zero (.inl hfmem))]
  · rw [htop] at hne
    have hav : a ≠ v := fun h => hvx (h ▸ ha)
    rw [hsame₄ a hav (fun h => (hxapart a ha).1 (h ▸ hlmem)), hsame₃ a hav hne,
      hghostsame a (hxapart a ha).2 (hplace.child_ne_zero (.inl ha))]
  · obtain ⟨hav, haf, hag⟩ := hlne _ hlmem
    rw [hl₄, hsame₃ _ hav haf, hag]
  · obtain ⟨hav, haf, hag⟩ := hlne a ha
    rw [hsame₄ a hav hne, hsame₃ a hav haf, hag]
  · have hdv : r₁.deref v = some (r₁.mem v) := deref_some hv
    rw [eraseTwo, h.place.deref, htop, ← hu]
    simp only [Option.bind_eq_bind, Option.bind_some, rbRight_cell_right, hrun,
      rbParent_cell h.place.aligned, hr₁, hdv, hvcell₁, rbParent_cell hua, rbColor_cell hua, hr₃, hr₄]

end Next

section Erase
variable {d : Side} {c c₀ cn : RBColor} {old v : Ptr} {l s t x y : RBNode Ptr} {path : Path Ptr}
  {sp : Spine} {root : RbRoot} {n n₀ : ℕ}

lemma pathLength_add_depth (path : Path Ptr) (t : RBNode Ptr) :
    pathLength path + t.depth ≤ (path.fill t).depth := by
  induction path using path_induction generalizing t with
  | root => exact (Nat.zero_add _).le
  | down d c v y path ih =>
    have := ih (join d c v t y)
    rw [depth_join] at this
    rw [pathLength_down, fill_down]
    omega

lemma exists_place (path : Path Ptr) {t : RBNode Ptr} (h : v ∈ t.toList) :
    ∃ (path' : Path Ptr) (c : RBColor) (x y : RBNode Ptr),
      path'.fill (join .right c v x y) = path.fill t := by
  induction t generalizing path with
  | nil => exact absurd h (by simp)
  | node c l w r ihl ihr =>
    simp only [toList_node, List.mem_append, List.mem_cons] at h
    obtain h | rfl | h := h
    · exact ihl (.left c path w r) h
    · exact ⟨path, c, r, l, rfl⟩
    · exact ihr (.right c l w path) h

namespace TwoChildren

lemma toList_erase (h : TwoChildren root path c cn old v sp s l) :
    ((downs .left sp (down .right c v l path)).fill s).toList =
      (path.fill (join .right c old (plug .left sp (join .left cn v nil s)) l)).toList.erase old := by
  have hspine : ∀ sp : Spine, (plug .left sp (join .left cn v nil s)).toList =
      v :: (plug .left sp s).toList := by
    intro sp
    induction sp with
    | nil => rfl
    | cons f sp ih =>
      have hjoin : ∀ x : RBNode Ptr, (join .left f.1 f.2.1 x f.2.2).toList =
          x.toList ++ f.2.1 :: f.2.2.toList := fun _ => toList_node
      rw [plug, hjoin, ih, plug, hjoin, List.cons_append]
  have hjoin : ∀ w x, (join .right c w x l).toList = l.toList ++ w :: x.toList := fun _ _ =>
    toList_node
  obtain ⟨-, holdl, holdpath⟩ := h.place.notMem
  rw [pathNodes, List.mem_append, not_or] at holdpath
  have hlist : (path.fill (join .right c old (plug .left sp (join .left cn v nil s)) l)).toList =
      (path.listL ++ l.toList) ++ old :: (v :: (plug .left sp s).toList ++ path.listR) := by
    rw [toList_fill, hjoin, hspine]
    simp
  rw [hlist, erase_middle (by simp [holdl, holdpath.1]), fill_downs, fill_down, toList_fill, hjoin]
  simp

lemma erase_spec (h : TwoChildren root path c cn old v sp s l)
    (hbal : (path.fill (join .right c old (plug .left sp (join .left cn v nil s)) l)).Balanced
      black n₀) {fuel : ℕ}
    (hrun : furthest .left root fuel (addr (plug .left sp (join .left cn v nil s))) = some v)
    (hfuel : (path.fill (join .right c old (plug .left sp (join .left cn v nil s)) l)).depth ≤ fuel) :
    ∃ root', eraseTwo root old fuel = some root' ∧ Repaired root'
      ((path.fill (join .right c old (plug .left sp (join .left cn v nil s)) l)).toList.erase old) := by
  have hfill : ∀ w t, path.fill (join .right c w (plug .left sp t) l) =
      (downs .left sp (down .right c w l path)).fill t := fun w t => by
    rw [fill_downs, fill_down]
  rw [← h.toList_erase]
  rw [hfill] at hbal hfuel
  obtain ⟨c', n, hpath, hnext⟩ := Path.Balanced.of_fill hbal
  obtain ⟨rfl, -⟩ := Balanced.of_join hnext
  rw [← join_other] at hnext
  have hpath' : (downs .left sp (down .right c v l path)).Balanced black n₀ c' n :=
    balanced_downs (fun _ _ => balanced_down fun _ _ h => h) _ _ hpath
  have hlength := pathLength_add_depth (downs .left sp (down .right c old l path))
    (join .left c' v nil s)
  rw [depth_join, pathLength_downs, pathLength_down] at hlength
  have hlength' : pathLength (downs .left sp (down .right c v l path)) + 1 ≤ fuel := by
    rw [pathLength_downs, pathLength_down]
    omega
  cases sp with
  | nil =>
    obtain ⟨root₁, hplace, hgo⟩ := h.near (by simpa [plug] using hrun)
    obtain ⟨root', hrun', hrep⟩ := afterErase_spec hplace hpath' hnext hlength'
    change (if bit c' = 1#32 then rbEraseColor root₁ (addr s) v fuel else some root₁) = _ at hrun'
    exact ⟨root', hgo.trans hrun', hrep⟩
  | cons f sp =>
    obtain ⟨root₁, hplace, hgo⟩ := h.far (by rwa [plug, addr_join] at hrun)
    obtain ⟨root', hrun', hrep⟩ := afterErase_spec hplace hpath' hnext hlength'
    rw [pathAddr_downs _ (down .right c old l path)] at hrun'
    exact ⟨root', hgo.trans hrun', hrep⟩

end TwoChildren

theorem rbErase_spec {fuel : ℕ} (h : At root .root t) (hbal : t.Balanced black n₀)
    (hold : old ∈ t.toList) (hfuel : t.depth ≤ fuel) :
    ∃ root', rbErase root old fuel = some root' ∧ Repaired root' (t.toList.erase old) := by
  obtain ⟨path, c, r, l, rfl⟩ := exists_place .root hold
  change At root .root (path.fill (join .right c old r l)) at h
  have hplace := h.of_top
  have hdold := hplace.deref
  have hlength := pathLength_add_depth path (join .right c old r l)
  rw [depth_join] at hlength
  have hshort : pathLength path + 1 ≤ fuel := by omega
  obtain ⟨c', n, hpath, hnode⟩ := Path.Balanced.of_fill hbal
  obtain ⟨rfl, -⟩ := Balanced.of_join hnode
  have hleft : (cell .right c' (pathAddr path) (addr r) (addr l)).rbLeft = addr l := rfl
  have hright : (cell .right c' (pathAddr path) (addr r) (addr l)).rbRight = addr r := rfl
  by_cases hl : l = nil
  · subst hl
    obtain ⟨root', hrun, hrep⟩ := eraseOne_spec hplace hpath hnode hshort
    refine ⟨root', ?_, hrep⟩
    rw [rbErase, hdold]
    simp only [Option.bind_eq_bind, Option.bind_some, hleft, hright]
    exact (if_pos rfl).trans hrun
  have hl₀ : addr l ≠ 0#32 := hplace.child_ne_zero (.inr (addr_mem hl))
  by_cases hr : r = nil
  · subst hr
    rw [← join_other] at hplace hnode ⊢
    obtain ⟨root', hrun, hrep⟩ := eraseOne_spec hplace hpath hnode hshort
    refine ⟨root', ?_, hrep⟩
    rw [rbErase, hdold]
    simp only [Option.bind_eq_bind, Option.bind_some, hleft, hright, if_neg hl₀]
    exact (if_pos rfl).trans hrun
  have hr₀ : addr r ≠ 0#32 := hplace.child_ne_zero (.inl (addr_mem hr))
  obtain ⟨sp, cn, v, s, hrun, rfl, -⟩ := furthest_spec (d := .left) (at_down.mp hplace)
    hr (show r.depth ≤ fuel by omega)
  have htwo : TwoChildren root path c' cn old v sp s l := ⟨hplace, hl⟩
  obtain ⟨root', hrun', hrep⟩ := htwo.erase_spec hbal hrun hfuel
  refine ⟨root', ?_, hrep⟩
  rw [rbErase, hdold]
  simp only [Option.bind_eq_bind, Option.bind_some, hleft, hright, if_neg hl₀, if_neg hr₀, hrun']

end Erase

end Almos.Rb
