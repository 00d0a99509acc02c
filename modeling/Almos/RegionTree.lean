import Almos.RbtreeRuns
import Almos.VmRegionOrder

/-!
# The regions of an address space in their tree

The loops that look for a region follow the nodes in memory. They agree with the search in a tree of
the other modules, and the place that `vm_region_find_prepare` gives is where the order goes on.
-/
namespace Almos.Rb
open RedBlack
open SearchTree (inorder leaf)

/-- What `vm_region_find_prepare` returns: the region, the one before it and the link. -/
structure Prepared where
  vma : Ptr
  pprev : Ptr
  rbParent : Ptr
  side : Side

section Loops
variable (root : RbRoot) (region : Ptr → VmRegion) (vaddr : ℕ)

/-- `region` is the region of a node, `rb_entry`. -/
def findPrepareLoop : ℕ → Ptr → Prepared → Option Prepared
  | 0, _, _ => none
  | fuel + 1, link, found =>
      if link = 0#32 then some found
      else do
        let n ← root.deref link
        if vaddr < (region link).vmEnd then
          if (region link).vmBegin ≤ vaddr then some { found with vma := link, rbParent := link }
          else
            findPrepareLoop fuel n.rbLeft
              { found with vma := link, rbParent := link, side := .left }
        else
          findPrepareLoop fuel n.rbRight { found with pprev := link, rbParent := link, side := .right }

def vmRegionFindPrepare (fuel : ℕ) : Option Prepared :=
  findPrepareLoop root region vaddr fuel root.rbNode ⟨0#32, 0#32, 0#32, .left⟩

def findLoop : ℕ → Ptr → Ptr → Option Ptr
  | 0, _, _ => none
  | fuel + 1, p, reg =>
      if p = 0#32 then some reg
      else do
        let n ← root.deref p
        if vaddr < (region p).vmEnd then
          if (region p).vmBegin ≤ vaddr then some p else findLoop fuel n.rbLeft p
        else findLoop fuel n.rbRight reg

def vmRegionFind (fuel : ℕ) : Option Ptr := findLoop root region vaddr fuel root.rbNode 0#32

end Loops

/-- The regions of a `vmm_s`: their tree, what is at each node, and the list. -/
structure RegionState where
  regionsTree : RbRoot
  region : Ptr → VmRegion
  regionsRoot : List Ptr
  lastMmap : ℕ

/-- `__vma_link_rb` -/
def vmaLinkRb (root : RbRoot) (node : Ptr) (found : Prepared) (fuel : ℕ) : Option RbRoot := do
  let root ← rbLinkNode root node found.rbParent found.side
  rbInsertColor root node fuel

/-- The loop of `vm_region_solve`: the start and what was found for it. -/
def solveLoop (root : RbRoot) (region : Ptr → VmRegion) (size limit treeFuel : ℕ) :
    ℕ → ℕ → Option (Except Errno (ℕ × Prepared))
  | 0, _ => none
  | fuel + 1, start =>
      if start ≤ limit then do
        let found ← vmRegionFindPrepare root region start treeFuel
        if found.vma = 0#32 ∨ Word.wadd start size < (region found.vma).vmBegin then
          some (.ok (start, found))
        else solveLoop root region size limit treeFuel fuel (region found.vma).vmEnd
      else some (.error .enomem)

section Attach
variable (s : RegionState) (node : Ptr)

/-- `vm_region_solve`; the region of `node` has its length as its end. -/
def vmRegionSolve : Option (Except Errno RegionState) := do
  let size := (s.region node).vmEnd
  let limit := Word.wsub Vm.usrLimit size
  match ← solveLoop s.regionsTree s.region size limit (rounds s.regionsRoot)
      (s.regionsRoot.length + 1) s.lastMmap with
  | .error err => some (.error err)
  | .ok (start, found) =>
      let region := Function.update s.region node { s.region node with
        vmBegin := start
        vmStart := start
        vmLimit := Word.wadd (s.region node).vmLimit start
        vmEnd := Word.wadd start size }
      let root ← vmaLinkRb s.regionsTree node found (rounds s.regionsRoot)
      let list :=
        if found.vma = 0#32 then s.regionsRoot ++ [node]
        else
          putBeside (if start < (region found.vma).vmBegin then .left else .right) found.vma node
            s.regionsRoot
      some (.ok { s with regionsTree := root, region := region, regionsRoot := list })

/-- `vm_region_attach_rbtree` -/
def vmRegionAttachRbtree : Option (Except Errno RegionState) := do
  let reg := s.region node
  if reg.vmFlags.fixed then
    let found ← vmRegionFindPrepare s.regionsTree s.region reg.vmBegin (rounds s.regionsRoot)
    if found.vma ≠ 0#32 ∧ (s.region found.vma).vmBegin ≤ reg.vmBegin then some (.error .eexist)
    else
      let list :=
        if found.vma = 0#32 then s.regionsRoot ++ [node]
        else putBeside .left found.vma node s.regionsRoot
      let root ← vmaLinkRb s.regionsTree node found (rounds s.regionsRoot)
      some (.ok { s with regionsTree := root, regionsRoot := list })
  else vmRegionSolve s node

/-- `vm_region_attach`; a region that is refused stays outside. -/
def vmRegionAttach : Option RegionState := do
  match ← vmRegionAttachRbtree s node with
  | .error _ => some s
  | .ok s => some { s with lastMmap := (s.region node).vmBegin }

/-- `vm_region_detach`, as far as the tree, the list and `last_mmap` go. -/
def vmRegionDetach : Option RegionState := do
  let root ← rbErase s.regionsTree node (rounds s.regionsRoot)
  some { s with
    regionsTree := root
    regionsRoot := s.regionsRoot.erase node
    lastMmap :=
      if (s.region node).vmEnd < s.lastMmap then (s.region node).vmBegin else s.lastMmap }

end Attach

inductive RegionCall
  | attach (node : Ptr) (reg : VmRegion)
  | detach (node : Ptr)

/-- Regions come and go; a region is initialised before it is attached. -/
def regionTreeMachine : Machine RegionState RegionCall where
  init s := s.regionsTree.rbNode = 0#32 ∧ s.regionsRoot = []
  step s
    | .attach node reg => vmRegionAttach { s with region := Function.update s.region node reg } node
    | .detach node => vmRegionDetach s node

/-- Where a region may be put: one at a fixed address ends before the next one starts, and the length
of any other one fits into the user part of the address space. -/
def Fits (s : RegionState) (reg : VmRegion) : Prop :=
  if reg.vmFlags.fixed then reg.vmBegin < reg.vmEnd ∧ ∀ p ∈ s.regionsRoot,
    reg.vmBegin < (s.region p).vmBegin → reg.vmEnd ≤ (s.region p).vmBegin
  else 0 < reg.vmEnd ∧ reg.vmEnd ≤ Vm.usrLimit

def RegionReady (s : RegionState) : RegionCall → Prop
  | .attach node reg => Fresh ⟨s.regionsTree, s.regionsRoot⟩ node ∧ Fits s reg
  | .detach node => node ∈ s.regionsRoot

structure Regions (region : Ptr → VmRegion) (order : List Ptr) : Prop where
  valid : ∀ p ∈ order, (region p).vmBegin < (region p).vmEnd
  sorted : order.Pairwise fun p q => (region p).vmEnd ≤ (region q).vmBegin

def upper (region : Ptr → VmRegion) (vaddr : ℕ) (order : List Ptr) : List Ptr :=
  order.filter fun p => vaddr < (region p).vmEnd

open RBTree RBTree.RBNode RBTree.RBColor

section Search
variable {region : Ptr → VmRegion} {order : List Ptr} {vaddr : ℕ} {path : Path Ptr} {t : RBNode Ptr}
  {root : RbRoot} {fuel : ℕ}

/-- The walk from the root passed the lower regions on the left and the upper ones on the right. -/
structure Passed (region : Ptr → VmRegion) (vaddr : ℕ) (path : Path Ptr) : Prop where
  left : ∀ p ∈ path.listL, (region p).vmEnd ≤ vaddr
  right : ∀ p ∈ path.listR, vaddr < (region p).vmBegin

structure FoundAt (region : Ptr → VmRegion) (vaddr : ℕ) (found : Prepared) (path : Path Ptr) :
    Prop where
  vma : found.vma = headOrNull path.listR
  parent : found.rbParent = pathAddr path
  side : found.rbParent ≠ 0#32 → found.side = pathSide path
  passed : Passed region vaddr path

lemma Passed.upper_eq (h : Passed region vaddr path)
    (hreg : Regions region (path.listL ++ path.listR)) :
    upper region vaddr (path.listL ++ path.listR) = path.listR := by
  have habove : ∀ p ∈ path.listR, vaddr < (region p).vmEnd := fun p hp =>
    (h.right p hp).trans (hreg.valid p (List.mem_append_right _ hp))
  rw [upper, List.filter_append, List.filter_eq_nil_iff.mpr fun p hp => by simpa using h.left p hp,
    List.filter_eq_self.mpr fun p hp => by simpa using habove p hp, List.nil_append]

/-- The first region found that ends above the address: it holds the address, or the walk went on to
the hole before it. -/
structure Searched (root : RbRoot) (region : Ptr → VmRegion) (vaddr : ℕ) (t : RBNode Ptr)
    (found : Prepared) : Prop where
  first : found.vma = headOrNull (upper region vaddr t.toList)
  place : (found.vma ≠ 0#32 ∧ (region found.vma).vmBegin ≤ vaddr) ∨
    ∃ path : Path Ptr, At root path nil ∧ path.fill nil = t ∧ FoundAt region vaddr found path

lemma findPrepareLoop_spec {found : Prepared} (h : At root path t)
    (hreg : Regions region (path.fill t).toList) (hfound : FoundAt region vaddr found path)
    (hfuel : t.depth + 1 ≤ fuel) :
    ∃ found', findPrepareLoop root region vaddr fuel (addr t) found = some found' ∧
      Searched root region vaddr (path.fill t) found' := by
  induction fuel generalizing path t found with
  | zero => omega
  | succ fuel ih =>
    by_cases ht : t = nil
    · subst ht
      rw [toList_fill, toList_nil, List.append_nil] at hreg
      have hupper := hfound.passed.upper_eq hreg
      refine ⟨found, if_pos rfl, ?_, .inr ⟨path, h, rfl, hfound⟩⟩
      rw [toList_fill, toList_nil, List.append_nil, hupper]
      exact hfound.vma
    obtain ⟨c, v, l, r, rfl⟩ := exists_join .left ht
    obtain ⟨hv, -⟩ := h.node
    rw [depth_join] at hfuel
    have horder : (path.fill (join .left c v l r)).toList =
        (path.listL ++ l.toList) ++ v :: (r.toList ++ path.listR) := by
      rw [toList_fill]
      simp [join]
    have hsorted := hreg.sorted
    rw [horder, List.pairwise_append, List.pairwise_cons] at hsorted
    obtain ⟨-, ⟨hbehind, -⟩, hbefore⟩ := hsorted
    have hvalid := hreg.valid v (by simp [horder])
    rw [addr_join, findPrepareLoop, if_neg hv, h.deref]
    simp only [Option.bind_eq_bind, Option.bind_some, rbLeft_cell, rbRight_cell]
    by_cases habove : vaddr < (region v).vmEnd
    · rw [if_pos habove]
      by_cases hin : (region v).vmBegin ≤ vaddr
      · rw [if_pos hin]
        refine ⟨_, rfl, ?_, .inl ⟨hv, hin⟩⟩
        have hlow : ∀ p ∈ path.listL ++ l.toList, (region p).vmEnd ≤ vaddr := fun p hp =>
          (hbefore p hp v (List.mem_cons_self ..)).trans hin
        rw [horder, upper, List.filter_append,
          List.filter_eq_nil_iff.mpr fun p hp => by simpa using hlow p hp, List.nil_append,
          List.filter_cons_of_pos (by simpa using habove)]
        rfl
      · rw [if_neg hin]
        rw [← fill_down] at hreg ⊢
        refine ih (at_down.mp h) hreg ⟨rfl, rfl, fun _ => rfl, ?_⟩ (by omega)
        refine ⟨hfound.passed.left, fun p hp => ?_⟩
        obtain rfl | hp := List.mem_cons.mp (show p ∈ v :: (r.toList ++ path.listR) from hp)
        · omega
        · exact habove.trans_le (hbehind p hp)
    · rw [if_neg habove]
      rw [← join_other, ← fill_down] at hreg ⊢
      refine ih (at_down_other.mp h) hreg ⟨hfound.vma, rfl, fun _ => rfl, ?_⟩ (by omega)
      refine ⟨fun p hp => ?_, hfound.passed.right⟩
      have hp' : p ∈ path.listL ++ (l.toList ++ [v]) := hp
      rw [← List.append_assoc, List.mem_append, List.mem_singleton] at hp'
      obtain hp' | rfl := hp'
      · have := hbefore p hp' v (List.mem_cons_self ..)
        omega
      · omega

lemma findLoop_eq (fuel : ℕ) (p : Ptr) (found : Prepared) :
    findLoop root region vaddr fuel p found.vma =
      (findPrepareLoop root region vaddr fuel p found).map Prepared.vma := by
  induction fuel generalizing p found with
  | zero => rfl
  | succ fuel ih =>
    rw [findLoop, findPrepareLoop]
    by_cases hp : p = 0#32
    · rw [if_pos hp, if_pos hp]
      rfl
    rw [if_neg hp, if_neg hp, deref_some hp]
    simp only [Option.bind_eq_bind, Option.bind_some]
    by_cases habove : vaddr < (region p).vmEnd
    · rw [if_pos habove, if_pos habove]
      by_cases hin : (region p).vmBegin ≤ vaddr
      · rw [if_pos hin, if_pos hin]
        rfl
      · rw [if_neg hin, if_neg hin, ← ih]
    · rw [if_neg habove, if_neg habove, ← ih]

lemma findPrepare_spec {n : ℕ} (h : At root .root t) (hbal : t.Balanced black n)
    (hreg : Regions region t.toList) (vaddr : ℕ) :
    ∃ found, vmRegionFindPrepare root region vaddr (rounds t.toList) = some found ∧
      Searched root region vaddr t found := by
  have hdepth := depth_le hbal
  have hroot : root.rbNode = addr t := h.around
  rw [vmRegionFindPrepare, hroot]
  refine findPrepareLoop_spec h hreg ⟨rfl, rfl, fun hne => absurd rfl hne, ?_⟩ (by omega)
  exact ⟨fun p hp => absurd hp (by simp), fun p hp => absurd hp (by simp)⟩

/-! ### The tree of the other modules -/

def shape : RBNode Ptr → BinaryTree ℕ
  | .nil => .nil
  | .node _ l v r => .node v.toNat (shape l) (shape r)

def regionMem (region : Ptr → VmRegion) : RegionMem := fun p => region (BitVec.ofNat 32 p)

def orNull (p : Ptr) : Option ℕ := if p = 0#32 then none else some p.toNat

lemma findLoop_refines (region : Ptr → VmRegion) (vaddr : ℕ) (h : At root path t) (reg : Ptr)
    (hfuel : t.depth + 1 ≤ fuel) :
    ∃ p, findLoop root region vaddr fuel (addr t) reg = some p ∧
      orNull p = Vm.vmRegionFind.go (regionMem region) vaddr (shape t) (orNull reg) := by
  induction fuel generalizing path t reg with
  | zero => omega
  | succ fuel ih =>
    by_cases ht : t = nil
    · subst ht
      exact ⟨reg, if_pos rfl, rfl⟩
    obtain ⟨c, v, l, r, rfl⟩ := exists_join .left ht
    obtain ⟨hv, -⟩ := h.node
    rw [depth_join] at hfuel
    have hshape : shape (join .left c v l r) = .node v.toNat (shape l) (shape r) := rfl
    have hmem : regionMem region v.toNat = region v := by
      rw [regionMem, BitVec.ofNat_toNat, BitVec.setWidth_eq]
    have hnull : orNull v = some v.toNat := if_neg hv
    rw [addr_join, findLoop, if_neg hv, h.deref, hshape, Vm.vmRegionFind.go, hmem]
    simp only [Option.bind_eq_bind, Option.bind_some, rbLeft_cell, rbRight_cell]
    by_cases habove : vaddr < (region v).vmEnd
    · rw [if_pos habove, if_pos habove]
      by_cases hin : (region v).vmBegin ≤ vaddr
      · rw [if_pos hin, if_pos hin]
        exact ⟨v, rfl, hnull⟩
      · rw [if_neg hin, if_neg hin, ← hnull]
        exact ih (at_down.mp h) v (by omega)
    · rw [if_neg habove, if_neg habove]
      exact ih (at_down_other.mp h) reg (by omega)

end Search

/-- The tree in memory is balanced, has the order of the list, and `vm_region_find` searches it as
the tree of the other modules. -/
structure Holds (s : RegionState) (t : RBNode Ptr) : Prop where
  root : At s.regionsTree .root t
  balanced : ∃ n, t.Balanced black n
  list : t.toList = s.regionsRoot
  refines : ∀ vmm : Vmm, vmm.regionsTree = shape t → ∀ vaddr,
    (vmRegionFind s.regionsTree s.region vaddr (rounds s.regionsRoot)).map orNull =
      some (Vm.vmRegionFind (regionMem s.region) vmm vaddr)

/-- Tree, list and addresses have one order, a search finds the first region that ends above the
address, and every call goes through. -/
structure RegionSound (s : RegionState) : Prop where
  tree : ∃ t, Holds s t
  regions : Regions s.region s.regionsRoot
  find : ∀ vaddr, vmRegionFind s.regionsTree s.region vaddr (rounds s.regionsRoot) =
    some (headOrNull (upper s.region vaddr s.regionsRoot))
  progress : ∀ call, RegionReady s call → (regionTreeMachine.step s call).isSome

section Runs
variable {s t : RegionState} {region : Ptr → VmRegion} {order l₁ l₂ : List Ptr} {node : Ptr}
  {reg : VmRegion} {root : RbRoot} {vaddr : ℕ} {found : Prepared}

lemma Regions.congr {region' : Ptr → VmRegion} (h : Regions region order)
    (hsame : ∀ p ∈ order, region' p = region p) : Regions region' order := by
  refine ⟨fun p hp => ?_, ?_⟩
  · rw [hsame p hp]
    exact h.valid p hp
  · refine h.sorted.imp_of_mem fun {p q} hp hq hpq => ?_
    rwa [hsame p hp, hsame q hq]

lemma Regions.insert (h : Regions region (l₁ ++ l₂))
    (hvalid : (region node).vmBegin < (region node).vmEnd)
    (hl₁ : ∀ p ∈ l₁, (region p).vmEnd ≤ (region node).vmBegin)
    (hl₂ : ∀ p ∈ l₂, (region node).vmEnd ≤ (region p).vmBegin) :
    Regions region (l₁ ++ node :: l₂) := by
  refine ⟨fun p hp => ?_, ?_⟩
  · obtain rfl | hp := List.mem_cons.mp (List.perm_middle.mem_iff.mp hp)
    · exact hvalid
    · exact h.valid p hp
  · have hsorted := h.sorted
    rw [List.pairwise_append] at hsorted ⊢
    obtain ⟨h₁, h₂, h₁₂⟩ := hsorted
    refine ⟨h₁, List.pairwise_cons.mpr ⟨hl₂, h₂⟩, fun p hp q hq => ?_⟩
    obtain rfl | hq := List.mem_cons.mp hq
    · exact hl₁ p hp
    · exact h₁₂ p hp q hq

lemma Regions.erase (h : Regions region order) (node : Ptr) : Regions region (order.erase node) :=
  ⟨fun p hp => h.valid p (List.mem_of_mem_erase hp), h.sorted.sublist List.erase_sublist⟩

lemma vmaLinkRb_spec {path : Path Ptr} {n : ℕ} (hat : At root path nil)
    (hbal : (path.fill nil).Balanced black n) (hfresh : Fresh ⟨root, (path.fill nil).toList⟩ node)
    (hfound : FoundAt region vaddr found path) :
    ∃ root', vmaLinkRb root node found (rounds (path.fill nil).toList) = some root' ∧
      Repaired root' (path.listL ++ node :: path.listR) := by
  obtain ⟨r₁, r₂, hlink, hcolor, hrep⟩ := place_spec hat hbal hfresh hfound.parent hfound.side
  refine ⟨r₂, ?_, hrep⟩
  simp only [vmaLinkRb, hlink, Option.bind_eq_bind, Option.bind_some, hcolor]

/-- A new region in the place that was found for it, when it ends before the regions above. -/
lemma link_spec {path : Path Ptr} {n : ℕ} (hat : At root path nil)
    (hbal : (path.fill nil).Balanced black n) (hreg : Regions region (path.fill nil).toList)
    (hfresh : Fresh ⟨root, (path.fill nil).toList⟩ node)
    (hfound : FoundAt region (region node).vmBegin found path)
    (hvalid : (region node).vmBegin < (region node).vmEnd)
    (hroom : ∀ p ∈ path.listR, (region node).vmEnd ≤ (region p).vmBegin) :
    ∃ root', vmaLinkRb root node found (rounds (path.fill nil).toList) = some root' ∧
      Repaired root' (path.listL ++ node :: path.listR) ∧
      Regions region (path.listL ++ node :: path.listR) := by
  obtain ⟨root', hlink, hrep⟩ := vmaLinkRb_spec hat hbal hfresh hfound
  refine ⟨root', hlink, hrep, ?_⟩
  rw [toList_fill, toList_nil, List.append_nil] at hreg
  exact hreg.insert hvalid hfound.passed.left hroom

lemma inorder_shape (t : RBNode Ptr) : inorder (shape t) = t.toList.map BitVec.toNat := by
  induction t with
  | nil => rfl
  | node _ l v r ihl ihr => simp [shape, inorder, ihl, ihr]

/-- Operations that make one tree of any tree with its nodes in order -/
lemma exists_ops (after : BinaryTree ℕ) : ∃ rb : RbOps,
    (∀ p t, inorder t = inorder after → rb.insertColor p t = after) ∧
      ∀ p t, (inorder t).erase p = inorder after → rb.erase p t = after := by
  refine ⟨⟨fun _ t => if inorder t = inorder after then after else t,
    fun p t => if (inorder t).erase p = inorder after then after else Vm.plainOps.erase p t,
    fun p t => ?_, fun p t => ?_⟩, fun p t h => if_pos h, fun p t h => if_pos h⟩
  · split_ifs with h
    · exact h.symm
    · rfl
  · split_ifs with h
    · exact h.symm
    · exact Vm.plainOps.inorder_erase p t

/-- `__vma_link_rb` rebalances in memory as one of the operations on trees that keep the order. -/
theorem vmaLinkRb_refines {path : Path Ptr} {n : ℕ} (hat : At root path nil)
    (hbal : (path.fill nil).Balanced black n) (hfresh : Fresh ⟨root, (path.fill nil).toList⟩ node)
    (hfound : FoundAt region vaddr found path) :
    ∃ (rb : RbOps) (root' : RbRoot) (after : RBNode Ptr),
      vmaLinkRb root node found (rounds (path.fill nil).toList) = some root' ∧
        At root' .root after ∧ ∀ vmm rbLink,
          inorder (rbLink (leaf node.toNat)) =
              (path.listL ++ node :: path.listR).map BitVec.toNat →
            (Vm.vmaLinkRb rb vmm node.toNat rbLink).regionsTree = shape after := by
  obtain ⟨root', hlink, after, m, hafter, -, horder⟩ := vmaLinkRb_spec hat hbal hfresh hfound
  obtain ⟨rb, hinsert, -⟩ := exists_ops (shape after)
  refine ⟨rb, root', after, hlink, hafter, fun vmm rbLink hrbLink => hinsert _ _ ?_⟩
  rw [hrbLink, inorder_shape, horder]

theorem rbErase_refines {t : RBNode Ptr} {n : ℕ} (hat : At root .root t) (hbal : t.Balanced black n)
    (hnode : node ∈ t.toList) : ∃ (rb : RbOps) (root' : RbRoot) (after : RBNode Ptr),
      rbErase root node (rounds t.toList) = some root' ∧ At root' .root after ∧
        rb.erase node.toNat (shape t) = shape after := by
  have hdepth := depth_le hbal
  obtain ⟨root', hrun, after, m, hafter, -, horder⟩ :=
    rbErase_spec hat hbal hnode (show t.depth ≤ rounds t.toList by omega)
  obtain ⟨rb, -, herase⟩ := exists_ops (shape after)
  refine ⟨rb, root', after, hrun, hafter, herase _ _ ?_⟩
  rw [inorder_shape, inorder_shape, horder, List.map_erase BitVec.toNat_injective]

lemma list_spec {path : Path Ptr} (hnodup : (path.listL ++ path.listR).Nodup)
    (hnull : 0#32 ∉ path.listR) (hvma : found.vma = headOrNull path.listR) :
    (if found.vma = 0#32 then (path.listL ++ path.listR) ++ [node]
      else putBeside .left found.vma node (path.listL ++ path.listR)) =
      path.listL ++ node :: path.listR := by
  rw [hvma]
  cases hlist : path.listR with
  | nil =>
    have hhead : headOrNull ([] : List Ptr) = 0#32 := rfl
    rw [if_pos hhead, List.append_nil]
  | cons p l =>
    rw [hlist] at hnull hnodup
    have hp : p ≠ 0#32 := fun h => hnull (by simp [h])
    have hnot : p ∉ path.listL := fun h =>
      List.disjoint_of_nodup_append hnodup h (List.mem_cons_self ..)
    have hhead : headOrNull (p :: l) = p := rfl
    rw [hhead, if_neg hp, putBeside_middle hnot, putBeside, if_pos rfl, if_pos rfl]

lemma mem_of_headOrNull {p : Ptr} {l : List Ptr} (h : p = headOrNull l) (hp : p ≠ 0#32) : p ∈ l := by
  cases l with
  | nil => exact absurd h hp
  | cons q l =>
    obtain rfl : p = q := h
    exact List.mem_cons_self ..

lemma upper_length_lt (hfirst : found.vma = headOrNull (upper region vaddr order))
    (hvma : found.vma ≠ 0#32) :
    (upper region (region found.vma).vmEnd order).length < (upper region vaddr order).length := by
  have hmem := mem_of_headOrNull hfirst hvma
  have hend : vaddr < (region found.vma).vmEnd := by simpa using List.of_mem_filter hmem
  have hagain : upper region (region found.vma).vmEnd order =
      (upper region vaddr order).filter fun p => (region found.vma).vmEnd < (region p).vmEnd := by
    rw [upper, upper, List.filter_filter]
    refine List.filter_congr fun p _ => ?_
    by_cases habove : (region found.vma).vmEnd < (region p).vmEnd
    · simp [habove, hend.trans habove]
    · simp [habove]
  rw [hagain, List.length_filter_lt_length_iff_exists]
  exact ⟨found.vma, hmem, by simp⟩

lemma solveLoop_spec {t : RBNode Ptr} {n fuel start : ℕ} (size limit : ℕ) (h : At root .root t)
    (hbal : t.Balanced black n) (hreg : Regions region t.toList)
    (hfuel : (upper region start t.toList).length + 1 ≤ fuel) :
    (∃ err, solveLoop root region size limit (rounds t.toList) fuel start = some (.error err)) ∨
    ∃ start' found, solveLoop root region size limit (rounds t.toList) fuel start =
        some (.ok (start', found)) ∧ start' ≤ limit ∧ Searched root region start' t found ∧
      (found.vma = 0#32 ∨ Word.wadd start' size < (region found.vma).vmBegin) := by
  induction fuel generalizing start with
  | zero => omega
  | succ fuel ih =>
    rw [solveLoop]
    by_cases hstart : start ≤ limit
    · obtain ⟨found, hfound, hsearched⟩ := findPrepare_spec h hbal hreg start
      rw [if_pos hstart, hfound]
      simp only [Option.bind_eq_bind, Option.bind_some]
      by_cases hroom : found.vma = 0#32 ∨ Word.wadd start size < (region found.vma).vmBegin
      · rw [if_pos hroom]
        exact .inr ⟨start, found, rfl, hstart, hsearched, hroom⟩
      · rw [if_neg hroom]
        rw [not_or] at hroom
        have hless := upper_length_lt hsearched.first hroom.1
        exact ih (by omega)
    · rw [if_neg hstart]
      exact .inl ⟨_, rfl⟩

/-- Balanced, in the order of the list, and the list in the order of the addresses. -/
def InOrder (s : RegionState) : Prop :=
  Repaired s.regionsTree s.regionsRoot ∧ Regions s.region s.regionsRoot

lemma FoundAt.congr {region' : Ptr → VmRegion} {path : Path Ptr}
    (h : FoundAt region vaddr found path)
    (hsame : ∀ p ∈ path.listL ++ path.listR, region' p = region p) :
    FoundAt region' vaddr found path := by
  refine ⟨h.vma, h.parent, h.side, fun p hp => ?_, fun p hp => ?_⟩
  · rw [hsame p (List.mem_append_left _ hp)]
    exact h.passed.left p hp
  · rw [hsame p (List.mem_append_right _ hp)]
    exact h.passed.right p hp

lemma linked_spec {t : RBNode Ptr} {n : ℕ} (hat : At root .root t) (hbal : t.Balanced black n)
    (hreg : Regions region t.toList) (hfresh : Fresh ⟨root, t.toList⟩ node)
    (hsearched : Searched root region vaddr t found)
    (hplace : found.vma = 0#32 ∨ vaddr < (region found.vma).vmBegin)
    {region' : Ptr → VmRegion} (hsame : ∀ p ∈ t.toList, region' p = region p)
    (hbegin : (region' node).vmBegin = vaddr) (hvalid : vaddr < (region' node).vmEnd)
    (hroom : ∀ p ∈ t.toList, vaddr < (region p).vmBegin → (region' node).vmEnd ≤ (region p).vmBegin) :
    ∃ root', vmaLinkRb root node found (rounds t.toList) = some root' ∧
      InOrder ⟨root', region', if found.vma = 0#32 then t.toList ++ [node]
        else putBeside .left found.vma node t.toList, vaddr⟩ := by
  obtain hin | ⟨path, hhole, rfl, hfound⟩ := hsearched.place
  · obtain hnull | hbefore := hplace
    · exact absurd hnull hin.1
    · exact absurd hin.2 (Nat.not_le.mpr hbefore)
  have hlist : (path.fill nil).toList = path.listL ++ path.listR := by
    rw [toList_fill, toList_nil, List.append_nil]
  have hreg' := hreg.congr hsame
  rw [hlist] at hsame hroom
  have hfound' := hfound.congr hsame
  rw [← hbegin] at hfound'
  obtain ⟨root', hlink, htree, hregions⟩ := link_spec hhole hbal hreg' hfresh hfound'
    (hbegin.trans_lt hvalid) fun p hp => by
      rw [hsame p (List.mem_append_right _ hp)]
      exact hroom p (List.mem_append_right _ hp) (hfound.passed.right p hp)
  refine ⟨root', hlink, ?_⟩
  have hnodup : (path.listL ++ path.listR).Nodup := by simpa [pathNodes] using hhole.nodup
  have hnull : 0#32 ∉ path.listR := fun hp =>
    (hhole.nodes 0#32 (by simp [pathNodes, hp])).1 rfl
  rw [hlist, list_spec hnodup hnull hfound.vma]
  exact ⟨htree, hregions⟩

lemma above_first {p : Ptr} (hreg : Regions region order) (hnull : ∀ p ∈ order, p ≠ 0#32)
    (hfirst : found.vma = headOrNull (upper region vaddr order)) (hp : p ∈ order)
    (habove : vaddr < (region p).vmBegin) :
    found.vma ≠ 0#32 ∧ (region found.vma).vmBegin ≤ (region p).vmBegin := by
  have hmem : p ∈ upper region vaddr order :=
    List.mem_filter.mpr ⟨hp, by simpa using habove.trans (hreg.valid p hp)⟩
  have hsorted := hreg.sorted.sublist (List.filter_sublist (p := fun p => vaddr < (region p).vmEnd))
  change (upper region vaddr order).Pairwise _ at hsorted
  cases hupper : upper region vaddr order with
  | nil =>
    rw [hupper] at hmem
    cases hmem
  | cons q l =>
    have hq : q ∈ order := List.mem_of_mem_filter (hupper ▸ List.mem_cons_self ..)
    rw [hupper] at hmem hsorted hfirst
    rw [show found.vma = q from hfirst]
    refine ⟨hnull q hq, ?_⟩
    obtain rfl | hp := List.mem_cons.mp hmem
    · exact le_rfl
    · have hbefore := (List.pairwise_cons.mp hsorted).1 p hp
      have := hreg.valid q hq
      omega

/-- What `vm_region_attach_rbtree` does: the region is refused, or it is in its place. -/
def Attached (result : Option (Except Errno RegionState)) : Prop :=
  (∃ err, result = some (.error err)) ∨ ∃ t, result = some (.ok t) ∧ InOrder t

lemma fixed_spec (h : InOrder s) (hfresh : Fresh ⟨s.regionsTree, s.regionsRoot⟩ node)
    (hfixed : (s.region node).vmFlags.fixed)
    (hvalid : (s.region node).vmBegin < (s.region node).vmEnd)
    (hroom : ∀ p ∈ s.regionsRoot, (s.region node).vmBegin < (s.region p).vmBegin →
      (s.region node).vmEnd ≤ (s.region p).vmBegin) : Attached (vmRegionAttachRbtree s node) := by
  obtain ⟨root, region, order, lastMmap⟩ := s
  obtain ⟨⟨t, n, hat, hbal, rfl⟩, hreg⟩ := h
  dsimp only at hfixed hvalid hroom hreg hat
  obtain ⟨found, hfound, hsearched⟩ := findPrepare_spec hat hbal hreg (region node).vmBegin
  simp only [vmRegionAttachRbtree, Option.bind_eq_bind, hfixed, if_true, hfound, Option.bind_some]
  by_cases hin : found.vma ≠ 0#32 ∧ (region found.vma).vmBegin ≤ (region node).vmBegin
  · rw [if_pos hin]
    exact .inl ⟨_, rfl⟩
  · rw [if_neg hin]
    have hplace : found.vma = 0#32 ∨ (region node).vmBegin < (region found.vma).vmBegin := by
      by_cases hvma : found.vma = 0#32
      · exact .inl hvma
      · exact .inr (Nat.lt_of_not_le fun hle => hin ⟨hvma, hle⟩)
    obtain ⟨root', hlink, horder⟩ := linked_spec hat hbal hreg hfresh hsearched hplace
      (fun _ _ => rfl) rfl hvalid hroom
    rw [hlink]
    exact .inr ⟨_, rfl, horder⟩

lemma solve_spec (h : InOrder s) (hfresh : Fresh ⟨s.regionsTree, s.regionsRoot⟩ node)
    (hsize : 0 < (s.region node).vmEnd) (hlimit : (s.region node).vmEnd ≤ Vm.usrLimit) :
    Attached (vmRegionSolve s node) := by
  obtain ⟨root, region, order, lastMmap⟩ := s
  obtain ⟨⟨t, n, hat, hbal, rfl⟩, hreg⟩ := h
  dsimp only at hsize hlimit hreg hat
  obtain ⟨size, hsize₀⟩ : ∃ size, size = (region node).vmEnd := ⟨_, rfl⟩
  rw [← hsize₀] at hsize hlimit
  have hfuel : (upper region lastMmap t.toList).length + 1 ≤ t.toList.length + 1 :=
    Nat.succ_le_succ (List.length_filter_le _ _)
  simp only [vmRegionSolve, Option.bind_eq_bind, ← hsize₀]
  obtain ⟨err, hrun⟩ | ⟨start, found, hrun, hstart, hsearched, hbefore⟩ :=
    solveLoop_spec size (Word.wsub Vm.usrLimit size) hat hbal hreg hfuel
  · rw [hrun]
    exact .inl ⟨err, rfl⟩
  have husr : Vm.usrLimit < 2 ^ 32 := by decide
  have hlimit' : Word.wsub Vm.usrLimit size = Vm.usrLimit - size := Word.wsub_of_le hlimit husr
  have hend : Word.wadd start size = start + size := Word.wadd_of_lt (by omega)
  rw [hend] at hbefore
  obtain ⟨region', hregion'⟩ : ∃ region', region' = Function.update region node
      { region node with
        vmBegin := start, vmStart := start, vmLimit := Word.wadd (region node).vmLimit start,
        vmEnd := start + size } := ⟨_, rfl⟩
  have hself : (region' node).vmBegin = start ∧ (region' node).vmEnd = start + size := by
    rw [hregion', Function.update_self]
    exact ⟨rfl, rfl⟩
  have hother : ∀ p ∈ t.toList, region' p = region p := fun p hp => by
    rw [hregion']
    refine Function.update_of_ne ?_ _ _
    rintro rfl
    exact hfresh.2.2 hp
  have hnull : ∀ p ∈ t.toList, p ≠ 0#32 := fun p hp => (hat.nodes p (by simp [hp])).1
  obtain ⟨root', hlink, horder⟩ := linked_spec hat hbal hreg hfresh hsearched
    (hbefore.imp_right fun h => by omega) hother hself.1 (by omega) fun p hp hp' => by
      obtain ⟨hvma, hle⟩ := above_first hreg hnull hsearched.first hp hp'
      have := hbefore.resolve_left hvma
      omega
  rw [hrun]
  simp only [Option.bind_some, hend, ← hregion', hlink]
  refine .inr ⟨_, rfl, ?_⟩
  by_cases hvma : found.vma = 0#32
  · rw [if_pos hvma] at horder ⊢
    exact horder
  · have hmem : found.vma ∈ t.toList :=
      List.mem_of_mem_filter (mem_of_headOrNull hsearched.first hvma)
    have hbegin : start < (region' found.vma).vmBegin := by
      rw [hother _ hmem]
      have := hbefore.resolve_left hvma
      omega
    rw [if_neg hvma] at horder
    rw [if_neg hvma, if_pos hbegin]
    exact horder

lemma attach_call (h : InOrder s) (hready : RegionReady s (.attach node reg)) :
    ∃ t, regionTreeMachine.step s (.attach node reg) = some t ∧ InOrder t := by
  obtain ⟨hfresh, hfits⟩ := hready
  obtain ⟨s₁, hs₁⟩ : ∃ s₁, s₁ = { s with region := Function.update s.region node reg } := ⟨_, rfl⟩
  have hself : s₁.region node = reg := by rw [hs₁]; exact Function.update_self ..
  have hother : ∀ p ∈ s.regionsRoot, s₁.region p = s.region p := fun p hp => by
    rw [hs₁]
    refine Function.update_of_ne ?_ _ _
    rintro rfl
    exact hfresh.2.2 hp
  have h₁ : InOrder s₁ := by
    rw [hs₁] at hother ⊢
    exact ⟨h.1, h.2.congr hother⟩
  have hfresh₁ : Fresh ⟨s₁.regionsTree, s₁.regionsRoot⟩ node := by
    rw [hs₁]
    exact hfresh
  have hattached : Attached (vmRegionAttachRbtree s₁ node) := by
    rw [Fits] at hfits
    by_cases hfixed : reg.vmFlags.fixed = true
    · rw [if_pos hfixed] at hfits
      refine fixed_spec h₁ hfresh₁ (by rw [hself]; exact hfixed) (by rw [hself]; exact hfits.1) ?_
      rw [hself]
      intro p hp
      have hp' : p ∈ s.regionsRoot := by
        rw [hs₁] at hp
        exact hp
      rw [hother p hp']
      exact hfits.2 p hp'
    · rw [if_neg hfixed] at hfits
      have hsolve := solve_spec h₁ hfresh₁ (by rw [hself]; exact hfits.1) (by rw [hself]; exact hfits.2)
      rw [vmRegionAttachRbtree, hself, if_neg hfixed]
      exact hsolve
  have hstep : regionTreeMachine.step s (.attach node reg) = vmRegionAttach s₁ node := by
    rw [hs₁]
    rfl
  rw [hstep, vmRegionAttach]
  obtain ⟨err, hrun⟩ | ⟨t, hrun, ht⟩ := hattached
  · rw [hrun]
    exact ⟨s₁, rfl, h₁⟩
  · rw [hrun]
    exact ⟨_, rfl, ht⟩

lemma detach_call (h : InOrder s) (hnode : node ∈ s.regionsRoot) :
    ∃ t, regionTreeMachine.step s (.detach node) = some t ∧ InOrder t := by
  obtain ⟨⟨t, n, hat, hbal, hlist⟩, hreg⟩ := h
  have hdepth := depth_le hbal
  rw [← hlist] at hnode
  obtain ⟨root', hrun, hrep⟩ := rbErase_spec hat hbal hnode
    (show t.depth ≤ rounds t.toList by omega)
  rw [hlist] at hrun hrep
  refine ⟨{ s with
    regionsTree := root'
    regionsRoot := s.regionsRoot.erase node
    lastMmap := if (s.region node).vmEnd < s.lastMmap then (s.region node).vmBegin else s.lastMmap },
    ?_, hrep, hreg.erase node⟩
  simp only [regionTreeMachine, vmRegionDetach, Option.bind_eq_bind, hrun, Option.bind_some]

lemma region_call {call : RegionCall} (h : InOrder s) (hready : RegionReady s call) :
    ∃ t, regionTreeMachine.step s call = some t ∧ InOrder t := by
  cases call with
  | attach node reg => exact attach_call h hready
  | detach node => exact detach_call h hready

lemma reach_inOrder (h : regionTreeMachine.Reach RegionReady s) : InOrder s := by
  refine h.invariant (I := InOrder) (fun s hs => ?_) fun s call t hs hready hstep => ?_
  · obtain ⟨hroot, horder⟩ := hs
    refine ⟨⟨nil, 0, ⟨hroot, trivial, ?_, ?_⟩, .nil, horder.symm⟩, ?_, ?_⟩
    · simp [pathNodes]
    · simp [pathNodes]
    · simp [horder]
    · simp [horder]
  · obtain ⟨s', hs', hin⟩ := region_call hs hready
    obtain rfl := Option.some.inj (hs'.symm.trans hstep)
    exact hin

lemma InOrder.find (h : InOrder s) (vaddr : ℕ) :
    vmRegionFind s.regionsTree s.region vaddr (rounds s.regionsRoot) =
      some (headOrNull (upper s.region vaddr s.regionsRoot)) := by
  obtain ⟨⟨t, n, hat, hbal, hlist⟩, hreg⟩ := h
  rw [← hlist] at hreg ⊢
  obtain ⟨found, hfound, hsearched⟩ := findPrepare_spec hat hbal hreg vaddr
  rw [← hsearched.first, vmRegionFind, findLoop_eq _ _ ⟨0#32, 0#32, 0#32, .left⟩]
  exact congrArg (Option.map Prepared.vma) hfound

lemma InOrder.holds (h : InOrder s) : ∃ t, Holds s t := by
  obtain ⟨⟨t, n, hat, hbal, hlist⟩, -⟩ := h
  refine ⟨t, hat, ⟨n, hbal⟩, hlist, fun vmm hvmm vaddr => ?_⟩
  have hdepth := depth_le hbal
  have hroot : s.regionsTree.rbNode = addr t := hat.around
  obtain ⟨p, hp, hfind⟩ := findLoop_refines s.region vaddr hat 0#32
    (show t.depth + 1 ≤ rounds t.toList by omega)
  rw [vmRegionFind, ← hlist, hroot, hp, Vm.vmRegionFind, hvmm]
  exact congrArg some hfind

/-- In every run of attached and detached regions the tree, the list and the addresses keep one
order, and the search of `vm_region_find` is the one of the tree without colors. -/
theorem region_tree_runs (h : regionTreeMachine.Reach RegionReady s) : RegionSound s := by
  have hin := reach_inOrder h
  refine ⟨hin.holds, hin.2, hin.find, fun call hready => ?_⟩
  obtain ⟨t, ht, -⟩ := region_call hin hready
  exact Option.isSome_iff_exists.mpr ⟨t, ht⟩

end Runs

instance (s : RegionState) (reg : VmRegion) : Decidable (Fits s reg) :=
  have : Decidable (∀ p ∈ s.regionsRoot, reg.vmBegin < (s.region p).vmBegin →
    reg.vmEnd ≤ (s.region p).vmBegin) := List.decidableBAll _ _
  inferInstanceAs (Decidable (if reg.vmFlags.fixed then reg.vmBegin < reg.vmEnd ∧
    ∀ p ∈ s.regionsRoot, reg.vmBegin < (s.region p).vmBegin → reg.vmEnd ≤ (s.region p).vmBegin
  else 0 < reg.vmEnd ∧ reg.vmEnd ≤ Vm.usrLimit))

instance (s : RegionState) (call : RegionCall) : Decidable (RegionReady s call) :=
  match call with
  | .attach p reg =>
      inferInstanceAs (Decidable (Fresh ⟨s.regionsTree, s.regionsRoot⟩ p ∧ Fits s reg))
  | .detach p => inferInstanceAs (Decidable (p ∈ s.regionsRoot))

def noRegions : RegionState :=
  ⟨⟨fun _ => ⟨0#32, 0#32, 0#32⟩, 0#32⟩, fun _ => ⟨0, 0, 0, 0, ⟨false, false, false, false, false⟩⟩,
    [], 0⟩

def fixedAt (vmBegin vmEnd : ℕ) : VmRegion :=
  ⟨vmBegin, vmEnd, vmBegin, vmEnd, ⟨true, false, false, false, false⟩⟩

def ofSize (size : ℕ) : VmRegion := ⟨0, size, 0, size, ⟨false, false, false, false, false⟩⟩

def someRegions : List RegionCall :=
  [.attach 16#32 (fixedAt 0x30000 0x40000), .attach 8#32 (fixedAt 0x10000 0x20000),
    .attach 12#32 (fixedAt 0x18000 0x30000), .attach 24#32 (ofSize 0x8000),
    .detach 16#32, .attach 20#32 (ofSize 0x20000)]

theorem region_tree_runs_some : ∃ s, s.regionsRoot = [8#32, 24#32, 20#32] ∧ RegionSound s := by
  have hrun : ((regionTreeMachine.restrict fun s call => decide (RegionReady s call)).run noRegions
      someRegions).map RegionState.regionsRoot = some [8#32, 24#32, 20#32] := by decide +kernel
  obtain ⟨s, hs, horder⟩ := Option.map_eq_some_iff.mp hrun
  have hstart : (regionTreeMachine.restrict fun s call => decide (RegionReady s call)).Reachable
      noRegions := .init ⟨rfl, rfl⟩
  have hreach : regionTreeMachine.Reach RegionReady s :=
    Machine.Reachable.of_restrict (fun _ _ => of_decide_eq_true) (hstart.run someRegions hs)
  exact ⟨s, horder, region_tree_runs hreach⟩

end Almos.Rb
