import Almos.VmRegionOrder

/-!
# Finding a region, finding room

Three searches return the first region that ends above an address: the walk down the tree, the
one that remembers its link, and the scan of the list. The placement of a floating region rests
on the second.
-/
namespace Almos.Vm
open SearchTree Word

/-- `vm_region_find_list`: the region found, and what becomes of `last_region`. -/
def vmRegionFindList (mem : RegionMem) (vaddr : ℕ) : List ℕ → Option ℕ → Option ℕ × Option ℕ
  | [], lastRegion => (none, lastRegion)
  | region :: rest, lastRegion =>
      if vaddr < (mem region).vmEnd then (some region, some region)
      else vmRegionFindList mem vaddr rest lastRegion

variable {mem mem' : RegionMem} {vmm : Vmm} {region : ℕ}

def Lowest (mem : RegionMem) (root : List ℕ) (vaddr : ℕ) : Option ℕ → Prop
  | none => ∀ p ∈ root, (mem p).vmEnd ≤ vaddr
  | some reg => reg ∈ root ∧ vaddr < (mem reg).vmEnd ∧
      ∀ p ∈ root, vaddr < (mem p).vmEnd → p = reg ∨ (mem reg).vmEnd ≤ (mem p).vmBegin

/-- A region that begins at `vaddr` comes after those below it and before those above it. -/
def LinksAt (mem : RegionMem) (root : List ℕ) (vaddr : ℕ)
    (rbLink : BinaryTree ℕ → BinaryTree ℕ) : Prop :=
  ∀ region, ∃ lower upper, root = lower ++ upper ∧
    inorder (rbLink (leaf region)) = lower ++ region :: upper ∧
    (∀ p ∈ lower, (mem p).vmEnd ≤ vaddr) ∧ ∀ p ∈ upper, vaddr < (mem p).vmBegin

lemma vmRegionFindList_append {vaddr : ℕ} {lower upper : List ℕ} (lastRegion : Option ℕ)
    (hlower : ∀ p ∈ lower, (mem p).vmEnd ≤ vaddr) (hupper : ∀ p ∈ upper, vaddr < (mem p).vmEnd) :
    (vmRegionFindList mem vaddr (lower ++ upper) lastRegion).1 = upper.head? := by
  induction lower with
  | nil =>
    cases upper with
    | nil => rfl
    | cons reg rest => simp [vmRegionFindList, hupper reg]
  | cons p lower ih =>
    have hnot : ¬vaddr < (mem p).vmEnd := Nat.not_lt.mpr (hlower p (by simp))
    rw [List.cons_append, vmRegionFindList, if_neg hnot]
    exact ih fun q hq => hlower q (by simp [hq])

lemma Place.lowest {vaddr : ℕ} {lower upper : List ℕ} (hplace : Place mem vmm vaddr lower upper)
    (h : Ordered mem vmm) : Lowest mem vmm.regionsRoot vaddr upper.head? := by
  rw [hplace.split]
  cases upper with
  | nil =>
    intro p hp
    exact hplace.notAbove p (by simpa using hp)
  | cons reg rest =>
    refine ⟨by simp, hplace.above reg (by simp), fun p hp habove => ?_⟩
    have hbefore := h.before
    rw [hplace.split] at hbefore
    obtain ⟨hfirst, -⟩ := List.pairwise_cons.mp (List.pairwise_append.mp hbefore).2.1
    obtain hmem | rfl | hmem : p ∈ lower ∨ p = reg ∨ p ∈ rest := by simpa using hp
    · have := hplace.notAbove p hmem
      omega
    · exact .inl rfl
    · exact .inr (hfirst p hmem)

lemma Place.linksAt {vaddr : ℕ} {lower upper : List ℕ} (hplace : Place mem vmm vaddr lower upper)
    (hfree : ¬∃ p ∈ vmm.regionsRoot, InRegion (mem p) vaddr) :
    LinksAt mem vmm.regionsRoot vaddr (vmRegionFindPrepare mem vmm vaddr).2 := by
  have hupper : ∀ p ∈ upper, vaddr < (mem p).vmBegin := by
    intro p hp
    by_contra hle
    exact hfree ⟨p, by simp [hplace.split, hp], Nat.not_lt.mp hle, hplace.above p hp⟩
  exact fun region => ⟨lower, upper, hplace.split, hplace.link hupper region, hplace.notAbove, hupper⟩

/-- Where the tree and the list hold the same disjoint regions in the order of their addresses, both
searches find the lowest region that ends above an address. So does the search for a link, and a
region that begins at an address of no region keeps the order there. -/
theorem vm_region_find_eq_list (h : Ordered mem vmm) (lastRegion : Option ℕ) (vaddr : ℕ) :
    vmRegionFind mem vmm vaddr =
        (vmRegionFindList mem vaddr vmm.regionsRoot lastRegion).1 ∧
      Lowest mem vmm.regionsRoot vaddr (vmRegionFind mem vmm vaddr) ∧
      (vmRegionFindPrepare mem vmm vaddr).1 = vmRegionFind mem vmm vaddr ∧
      ((¬∃ p ∈ vmm.regionsRoot, InRegion (mem p) vaddr) →
        LinksAt mem vmm.regionsRoot vaddr (vmRegionFindPrepare mem vmm vaddr).2) := by
  obtain ⟨lower, upper, hplace⟩ := h.place vaddr
  have hfind : vmRegionFind mem vmm vaddr = upper.head? := by
    rw [vmRegionFind_eq]
    exact hplace.first
  refine ⟨?_, ?_, (vmRegionFind_eq vaddr).symm, hplace.linksAt⟩
  · rw [hfind, hplace.split]
    exact (vmRegionFindList_append lastRegion hplace.notAbove hplace.above).symm
  · rw [hfind]
    exact hplace.lowest h

def gapMem : RegionMem := fun p =>
  if p = 1 then ⟨0, 0x10000, 0, 0x10000, ⟨false, false, false, false, true⟩⟩
  else if p = 2 then ⟨0x20000, 0x30000, 0x20000, 0x30000, ⟨false, false, false, false, true⟩⟩
  else ⟨0, 0x20000, 0, 0x18000, ⟨false, false, false, false, true⟩⟩

def gapVmm : Vmm := { vmmInit with
  regionsRoot := [1, 2]
  regionsTree := .node 2 (leaf 1) .nil }

lemma ordered_gap : Ordered gapMem gapVmm :=
  ⟨by decide, by decide, by decide, rfl, by decide⟩

theorem vm_region_find_eq_list_gap :
    vmRegionFind gapMem gapVmm 0x10000 =
        (vmRegionFindList gapMem 0x10000 gapVmm.regionsRoot none).1 ∧
      Lowest gapMem gapVmm.regionsRoot 0x10000 (vmRegionFind gapMem gapVmm 0x10000) ∧
      (vmRegionFindPrepare gapMem gapVmm 0x10000).1 = vmRegionFind gapMem gapVmm 0x10000 ∧
      ((¬∃ p ∈ gapVmm.regionsRoot, InRegion (gapMem p) 0x10000) →
        LinksAt gapMem gapVmm.regionsRoot 0x10000
          (vmRegionFindPrepare gapMem gapVmm 0x10000).2) :=
  vm_region_find_eq_list ordered_gap none 0x10000

/-- A region that no end of which can wrap around fits wherever the search may end. -/
lemma floatOk_of_le {r : VmRegion} (hpos : 0 < r.vmEnd) (hle : r.vmEnd ≤ usrLimit) :
    FloatOk mem vmm r := by
  intro start _ hstart
  have hsub : wsub usrLimit r.vmEnd = usrLimit - r.vmEnd :=
    wsub_of_le hle (by decide : usrLimit < 2 ^ 32)
  rw [hsub] at hstart
  unfold usrLimit at *
  omega

/-- The region was placed in an interval of its size, from `last_mmap` on and below the limit of user
space, apart from the regions there were; it is in the list and in the tree, which stay ordered. -/
structure PlacedFree (mem : RegionMem) (vmm : Vmm) (region : ℕ) (mem' : RegionMem) (vmm' : Vmm) :
    Prop where
  begins : vmm.lastMmap ≤ (mem' region).vmBegin
  size : (mem' region).vmEnd = (mem' region).vmBegin + (mem region).vmEnd
  ends : (mem' region).vmEnd ≤ usrLimit
  apart : ∀ p ∈ vmm.regionsRoot,
    (mem p).vmEnd ≤ (mem' region).vmBegin ∨ (mem' region).vmEnd ≤ (mem p).vmBegin
  ordered : Ordered mem' vmm'
  root : ∀ p, p ∈ vmm'.regionsRoot ↔ p = region ∨ p ∈ vmm.regionsRoot
  tree : ∀ p, p ∈ inorder vmm'.regionsTree ↔ p = region ∨ p ∈ vmm.regionsRoot
  same : ∀ p, p ≠ region → mem' p = mem p

lemma Ordered.apart (h : Ordered mem vmm) {p q : ℕ} (hp : p ∈ vmm.regionsRoot)
    (hq : q ∈ vmm.regionsRoot) (hne : p ≠ q) :
    (mem p).vmEnd ≤ (mem q).vmBegin ∨ (mem q).vmEnd ≤ (mem p).vmBegin := by
  have hpairs : vmm.regionsRoot.Pairwise fun p q =>
      (mem p).vmEnd ≤ (mem q).vmBegin ∨ (mem q).vmEnd ≤ (mem p).vmBegin :=
    h.before.imp fun hle => .inl hle
  have hsymm : Std.Symm fun p q =>
      (mem p).vmEnd ≤ (mem q).vmBegin ∨ (mem q).vmEnd ≤ (mem p).vmBegin :=
    ⟨fun _ _ => Or.symm⟩
  exact hpairs.forall hp hq hne

/-- `vm_region_solve` returns, with `ENOMEM` or with the region placed. -/
theorem vm_region_solve_sound (h : Ordered mem vmm) (rb : RbOps)
    (hfresh : region ∉ vmm.regionsRoot) (hpos : 0 < (mem region).vmEnd)
    (hle : (mem region).vmEnd ≤ usrLimit) :
    vmRegionSolve rb mem vmm region = some (.error .enomem) ∨
      ∃ mem' vmm', vmRegionSolve rb mem vmm region = some (.ok (mem', vmm')) ∧
        PlacedFree mem vmm region mem' vmm' := by
  obtain herr | ⟨mem', vmm', hsolve, hdone, -, -, -, -, hend, -, hbegin, hlimit⟩ :=
    h.solve rb hfresh (floatOk_of_le hpos hle)
  · exact .inl herr
  · right
    have hordered : Ordered mem' vmm' :=
      ⟨hdone.ordered.before, hdone.ordered.valid, hdone.ordered.bound, hdone.ordered.tree,
        hdone.ordered.nodup⟩
    have hroot : ∀ p, p ∈ vmm'.regionsRoot ↔ p = region ∨ p ∈ vmm.regionsRoot := hdone.root
    refine ⟨mem', vmm', hsolve, hbegin, hend, ?_, fun p hp => ?_, hordered, hroot, fun p => ?_,
      hdone.same⟩
    · rw [wsub_of_le hle (by decide : usrLimit < 2 ^ 32)] at hlimit
      omega
    · have hne : p ≠ region := fun heq => hfresh (heq ▸ hp)
      have hapart := hordered.apart ((hroot p).mpr (.inr hp)) ((hroot region).mpr (.inl rfl)) hne
      rwa [hdone.same p hne] at hapart
    · rw [hordered.tree]
      exact hroot p

/-- The gap between the two regions is too small, and the region is placed behind them. -/
theorem vm_region_solve_sound_gap : ∃ mem' vmm',
    vmRegionSolve plainOps gapMem gapVmm 3 = some (.ok (mem', vmm')) ∧
      (mem' 3).vmBegin = 0x30000 ∧ PlacedFree gapMem gapVmm 3 mem' vmm' := by
  obtain ⟨mem', vmm', hsolve, hbegin⟩ : ∃ mem' vmm', vmRegionSolve plainOps gapMem gapVmm 3 =
      some (.ok (mem', vmm')) ∧ (mem' 3).vmBegin = 0x30000 := ⟨_, _, rfl, rfl⟩
  have hfresh : 3 ∉ gapVmm.regionsRoot := by decide
  obtain herr | ⟨mem'', vmm'', hplaced, hfree⟩ :=
    vm_region_solve_sound ordered_gap plainOps hfresh (by decide) (by decide)
  · rw [hsolve] at herr
    cases herr
  · rw [hsolve] at hplaced
    cases hplaced
    exact ⟨mem', vmm', hsolve, hbegin, hfree⟩

/-- A region of the size fits at `last_mmap` or at the end of a region above it. -/
def HasRoom (mem : RegionMem) (vmm : Vmm) (size : ℕ) : Prop :=
  ∃ start, (start = vmm.lastMmap ∨
      ∃ p ∈ vmm.regionsRoot, vmm.lastMmap < (mem p).vmEnd ∧ start = (mem p).vmEnd) ∧
    start ≤ wsub usrLimit size ∧
    ∀ p ∈ vmm.regionsRoot, start < (mem p).vmEnd → wadd start size < (mem p).vmBegin

lemma Ordered.solveLoop_enomem (h : Ordered mem vmm) (size limit : ℕ) : ∀ fuel start,
    Vm.solveLoop mem vmm size limit fuel start = some (.error .enomem) → ∀ place,
      (place = start ∨ ∃ p ∈ vmm.regionsRoot, start < (mem p).vmEnd ∧ place = (mem p).vmEnd) →
        place ≤ limit →
          ∃ p ∈ vmm.regionsRoot, place < (mem p).vmEnd ∧ (mem p).vmBegin ≤ wadd place size := by
  intro fuel
  induction fuel with
  | zero =>
    intro start hloop
    cases hloop
  | succ fuel ih =>
    intro start hloop place hplace hle
    obtain ⟨lower, upper, hsides⟩ := h.place start
    have hfirst := hsides.first
    have hstart : start ≤ limit := by
      obtain rfl | ⟨p, -, hlt, rfl⟩ := hplace
      · exact hle
      · omega
    cases upper with
    | nil =>
      rw [Vm.solveLoop, if_pos hstart] at hloop
      simp only [hfirst, List.head?_nil] at hloop
      cases hloop
    | cons reg rest =>
      have hreg : reg ∈ vmm.regionsRoot := by
        rw [hsides.split]
        simp
      have habove := hsides.above reg (by simp)
      rw [Vm.solveLoop, if_pos hstart] at hloop
      simp only [hfirst, List.head?_cons] at hloop
      split_ifs at hloop with hfit
      · cases hloop
      · obtain rfl | ⟨p, hp, hlt, rfl⟩ := hplace
        · exact ⟨reg, hreg, habove, Nat.not_lt.mp hfit⟩
        · -- `reg` is the lowest region that ends above `start`
          have hlowest := hsides.lowest h
          obtain rfl | hafter := hlowest.2.2 p hp hlt
          · exact ih _ hloop _ (.inl rfl) hle
          · have hvalid := h.valid p hp
            rcases hafter.trans hvalid |>.lt_or_eq with hless | heq
            · exact ih _ hloop _ (.inr ⟨p, hp, hless, rfl⟩) hle
            · exact ih _ hloop _ (.inl heq.symm) hle

lemma Ordered.attach_float_region (h : Ordered mem vmm) {rb : RbOps} {vmm' : Vmm}
    (hfloat : (mem region).vmFlags.fixed = false)
    (hatt : vmRegionAttach rb mem vmm region = some (.ok (mem', vmm'))) :
    ∃ start, start ≤ wsub usrLimit (mem region).vmEnd ∧ mem' region = { mem region with
      vmBegin := start
      vmStart := start
      vmLimit := wadd (mem region).vmLimit start
      vmEnd := wadd start (mem region).vmEnd } := by
  obtain herr | ⟨start, reg, hloop, -, -, hlimit, -, -⟩ :=
    h.solveLoop (mem region).vmEnd (wsub usrLimit (mem region).vmEnd) _ _ (h.fuel vmm.lastMmap)
  · simp [vmRegionAttach, vmRegionAttachRbtree, vmRegionSolve, hfloat, herr] at hatt
  · simp only [vmRegionAttach, vmRegionAttachRbtree, vmRegionSolve, hfloat, hloop,
      Bool.false_eq_true, if_false, Option.some.injEq, Except.ok.injEq, Prod.mk.injEq] at hatt
    refine ⟨start, hlimit, ?_⟩
    rw [← hatt.1, Function.update_self]

lemma Ordered.solve_cases (h : Ordered mem vmm) (rb : RbOps) (region : ℕ) :
    vmRegionSolve rb mem vmm region = some (.error .enomem) ∧ ¬HasRoom mem vmm (mem region).vmEnd ∨
      (∃ placed, vmRegionSolve rb mem vmm region = some (.ok placed)) ∧
        HasRoom mem vmm (mem region).vmEnd := by
  obtain herr | ⟨start, reg, hloop, hstart, hle, hlimit, hreg, hfit⟩ :=
    h.solveLoop (mem region).vmEnd (wsub usrLimit (mem region).vmEnd) _ _ (h.fuel vmm.lastMmap)
  · left
    refine ⟨by simp [vmRegionSolve, herr], ?_⟩
    rintro ⟨place, hplace, hlimit, hfree⟩
    obtain ⟨p, hp, hlt, hbegin⟩ := h.solveLoop_enomem _ _ _ _ herr place hplace hlimit
    exact absurd (hfree p hp hlt) (Nat.not_lt.mpr hbegin)
  · right
    have hsolve : ∃ placed, vmRegionSolve rb mem vmm region = some (.ok placed) := by
      simp only [vmRegionSolve, hloop]
      exact ⟨_, rfl⟩
    refine ⟨hsolve, start, ?_, hlimit, fun p hp hlt => ?_⟩
    · obtain rfl | ⟨p, hp, rfl⟩ := hstart
      · exact .inl rfl
      · rcases hle.lt_or_eq with hless | heq
        · exact .inr ⟨p, hp, hless, rfl⟩
        · exact .inl heq.symm
    · obtain ⟨lower, upper, hsides⟩ := h.place start
      have hfirst : reg = upper.head? := by rw [← hreg, hsides.first]
      have hlowest := hsides.lowest h
      rw [← hfirst] at hlowest
      cases reg with
      | none => exact absurd hlt (Nat.not_lt.mpr (hlowest p hp))
      | some reg =>
        have hbelow := hfit reg rfl
        obtain rfl | hafter := hlowest.2.2 p hp hlt
        · exact hbelow
        · have hvalid := h.valid reg hlowest.1
          omega

def Refused (mem : RegionMem) (vmm : Vmm) (r : VmRegion) : Prop :=
  if r.vmFlags.fixed then ∃ p ∈ vmm.regionsRoot, InRegion (mem p) r.vmBegin
  else ¬HasRoom mem vmm r.vmEnd

/-- `vm_region_attach` ends, with an error exactly where the region is refused. -/
lemma Ordered.attach_cases (h : Ordered mem vmm) (rb : RbOps) (region : ℕ) :
    (∃ err, vmRegionAttach rb mem vmm region = some (.error err)) ∧ Refused mem vmm (mem region) ∨
      (∃ placed, vmRegionAttach rb mem vmm region = some (.ok placed)) ∧
        ¬Refused mem vmm (mem region) := by
  cases hfixed : (mem region).vmFlags.fixed with
  | true =>
    have hrefused : Refused mem vmm (mem region) ↔
        ∃ p ∈ vmm.regionsRoot, InRegion (mem p) (mem region).vmBegin := by
      rw [Refused, if_pos hfixed]
    rw [hrefused]
    obtain ⟨herr, hin⟩ | ⟨lower, upper, hplace, hupper, hatt⟩ := h.attach_fixed_cases rb hfixed
    · exact .inl ⟨⟨_, herr⟩, hin⟩
    · exact .inr ⟨⟨_, hatt⟩, hplace.not_inRegion hupper⟩
  | false =>
    have hrefused : Refused mem vmm (mem region) ↔ ¬HasRoom mem vmm (mem region).vmEnd := by
      rw [Refused, if_neg (by simp [hfixed])]
    rw [hrefused]
    obtain ⟨herr, hnone⟩ | ⟨⟨placed, hsolve⟩, hroom⟩ := h.solve_cases rb region
    · exact .inl ⟨⟨.enomem, by simp [vmRegionAttach, vmRegionAttachRbtree, hfixed, herr]⟩, hnone⟩
    · have hatt : ∃ placed, vmRegionAttach rb mem vmm region = some (.ok placed) := by
        simp [vmRegionAttach, vmRegionAttachRbtree, hfixed, hsolve]
      exact .inr ⟨hatt, not_not.mpr hroom⟩

lemma Ordered.update (h : Ordered mem vmm) (hfresh : region ∉ vmm.regionsRoot) (r : VmRegion) :
    Ordered (Function.update mem region r) vmm :=
  h.congr fun _ hp => Function.update_of_ne (ne_of_mem_of_not_mem hp hfresh) ..

/-- The structure of a region that is not attached does not matter to the search for room. -/
lemma refused_update (hfresh : region ∉ vmm.regionsRoot) (r r' : VmRegion) :
    Refused (Function.update mem region r') vmm r ↔ Refused mem vmm r := by
  have hsame : ∀ p ∈ vmm.regionsRoot, Function.update mem region r' p = mem p :=
    fun p hp => Function.update_of_ne (ne_of_mem_of_not_mem hp hfresh) ..
  have hin : (∃ p ∈ vmm.regionsRoot, InRegion (Function.update mem region r' p) r.vmBegin) ↔
      ∃ p ∈ vmm.regionsRoot, InRegion (mem p) r.vmBegin :=
    exists_congr fun p => and_congr_right fun hp => by rw [hsame p hp]
  have hroom : HasRoom (Function.update mem region r') vmm r.vmEnd ↔ HasRoom mem vmm r.vmEnd := by
    refine exists_congr fun start => and_congr (or_congr_right ?_) (and_congr_right fun _ => ?_)
    · exact exists_congr fun p => and_congr_right fun hp => by rw [hsame p hp]
    · exact forall₂_congr fun p hp => by rw [hsame p hp]
  simp only [Refused, hin, hroom]

end Almos.Vm
