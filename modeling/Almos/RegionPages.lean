import Almos.FrameCount
import Almos.VmmLookup

/-!
# The pages of a region

The fault handler accepts an address up to `vm_limit` included; the loops of `vm_region_unmap`
and `vm_region_dup` visit the whole pages below it. The page of `vm_limit` is the only one on
which they may differ.
-/
namespace Almos.Vm
open Word Anon

/-- The region that `vmm_fault_handler` goes on with. -/
def faultRegion (mem : RegionMem) (vmm : Vmm) (vaddr : ℕ) : Option ℕ :=
  if kernelOffset ≤ vaddr then none
  else
    let region := match KeysDb.keysdbLookup vmm.regionsDb (vaddr / 2 ^ regionKeywidth) with
      | some (some region) => some region
      | _ => vmRegionFind mem vmm vaddr
    region.filter fun p => !decide ((mem p).vmLimit < vaddr ∨ vaddr < (mem p).vmStart)

/-- What `sys_mmap` tests of a mapping; a region is private when it is not shared. -/
def sysMmapAccepts (a : MmapArgs) : Bool :=
  !a.flags.heap && decide (a.length ≠ 0) &&
    (decide (a.addr = 0) || decide (a.addr % 2 ^ pageShift = 0 ∧ wadd a.length a.addr ≤ usrLimit))

def anonRegion (r : VmRegion) (vmProt : ℕ) (inst hugetlb : Bool) : AnonRegion :=
  ⟨r.vmStart, r.vmLimit, vmProt, r.vmFlags.isLazy, inst, hugetlb⟩

def Visited (r : VmRegion) (vpn : ℕ) : Prop :=
  ∃ i, i < wsub r.vmLimit r.vmStart / 2 ^ pageShift ∧ pageAt r.vmStart i = vpn

/-- The loop of `vm_region_dup` ends without error. -/
def dupSucceeds (dst src start : ℕ) : ℕ → ℕ → ℕ → Memory → Bool
  | 0, _, _, _ => true
  | todo + 1, i, sets, s =>
      if (s.pmm src (pageAt start i)).attr.present then
        match sets with
        | 0 => false
        | sets + 1 => dupSucceeds dst src start todo (i + 1) sets (dupPage s dst src (pageAt start i))
      else dupSucceeds dst src start todo (i + 1) sets s

/-- A page that a fault can fill is visited; so unmapping leaves none present, and a copy that
succeeds has each one that is present. -/
structure PagesVisited (mem : RegionMem) (vmm : Vmm) (p : ℕ) : Prop where
  visited : ∀ vaddr, faultRegion mem vmm vaddr = some p → Visited (mem p) (vaddr / 2 ^ pageShift)
  unmapped : ∀ (s : Memory) (task vmProt : ℕ) (inst hugetlb : Bool) (vaddr : ℕ),
    faultRegion mem vmm vaddr = some p →
    ((vmRegionUnmap s task (anonRegion (mem p) vmProt inst hugetlb)).pmm task
      (vaddr / 2 ^ pageShift)).attr.present = false
  copied : ∀ (s : Memory) (dst src vmProt sets : ℕ) (inst hugetlb : Bool) (vaddr : ℕ), dst ≠ src →
    dupSucceeds dst src (mem p).vmStart (pagesCount (anonRegion (mem p) vmProt inst hugetlb)) 0
      sets s = true →
    faultRegion mem vmm vaddr = some p → (s.pmm src (vaddr / 2 ^ pageShift)).attr.present = true →
    ((vmRegionDup s dst src (anonRegion (mem p) vmProt inst hugetlb) sets).pmm dst
      (vaddr / 2 ^ pageShift)).attr.present = true

variable {rb : RbOps} {mem : RegionMem} {vmm : Vmm} {s : Kernel} {task p vaddr : ℕ} {r : VmRegion}

/-! ### Unmapping and copying what is visited -/

section Loops
variable {m : Memory} {region : AnonRegion} {vpn : ℕ}

theorem unmapPage_present (hlazy : region.isLazy = false) (v : ℕ) :
    ((unmapPage m task region vpn).pmm task v).attr.present =
      if v = vpn then false else (m.pmm task v).attr.present := by
  by_cases hpresent : (m.pmm task vpn).attr.present = true
  · have hset : (unmapPage m task region vpn).pmm = (pmmSetPage m task vpn noPte).pmm := by
      simp only [unmapPage, hpresent, hlazy, if_true, if_false, Bool.false_eq_true]
      split_ifs
      · rfl
      · rfl
      · rfl
    rw [hset]
    rcases eq_or_ne v vpn with rfl | hv
    · rw [if_pos rfl, pmmSetPage_self]
      rfl
    · rw [if_neg hv, pmmSetPage_ne (fun heq => hv (Prod.mk.inj heq).2)]
  · have hsame : unmapPage m task region vpn = m := by simp [unmapPage, hpresent]
    rw [hsame]
    split_ifs with hv
    · rw [hv]
      exact Bool.eq_false_of_not_eq_true hpresent
    · rfl

theorem unmap_present (hlazy : region.isLazy = false) (start : ℕ) (l : List ℕ)
    (h : (∃ i ∈ l, pageAt start i = vpn) ∨ (m.pmm task vpn).attr.present = false) :
    ((l.foldl (fun s i => unmapPage s task region (pageAt start i)) m).pmm task
      vpn).attr.present = false := by
  induction l generalizing m with
  | nil => simpa using h
  | cons i l ih =>
    refine ih ?_
    rw [unmapPage_present hlazy]
    rcases h with ⟨j, hj, heq⟩ | habsent
    · cases List.mem_cons.1 hj with
      | inl hji => exact .inr (by rw [if_pos (by rw [← heq, hji])])
      | inr hmem => exact .inl ⟨j, hmem, heq⟩
    · exact .inr (by rw [habsent, ite_self])

theorem dupPage_present {dst src : ℕ} (hpresent : (m.pmm src vpn).attr.present = true)
    (hne : dst ≠ src) : ((dupPage m dst src vpn).pmm dst vpn).attr.present = true := by
  have hother : (dst, vpn) ≠ (src, vpn) := fun heq => hne (Prod.mk.inj heq).1
  simp only [dupPage, hpresent, if_true]
  split_ifs
  · refine (congrArg (fun e : Pte => e.attr.present) (pmmSetPage_ne hother)).trans ?_
    rw [pmmSetPage_self]
  · rw [pmmSetPage_self]

theorem dupLoop_ne {dst src start v : ℕ} (todo i sets : ℕ)
    (hv : ∀ j, i ≤ j → j < i + todo → v ≠ pageAt start j) :
    (Anon.dupLoop dst src start todo i sets m).pmm dst v = m.pmm dst v := by
  induction todo generalizing i sets m with
  | zero => rfl
  | succ todo ih =>
    have hrest : ∀ j, i + 1 ≤ j → j < i + 1 + todo → v ≠ pageAt start j :=
      fun j hj hlt => hv j (by omega) (by omega)
    unfold Anon.dupLoop
    split_ifs
    · cases sets with
      | zero => rfl
      | succ sets =>
        rw [ih _ _ hrest, dupPage_ne m dst (hv i le_rfl (by omega))]
    · exact ih _ _ hrest

theorem dupLoop_present {dst src start j : ℕ} (hne : dst ≠ src) (todo i sets : ℕ)
    (hlimit : i + todo ≤ vpnLimit) (hok : dupSucceeds dst src start todo i sets m = true)
    (hij : i ≤ j) (hj : j < i + todo)
    (hpresent : (m.pmm src (pageAt start j)).attr.present = true) :
    ((Anon.dupLoop dst src start todo i sets m).pmm dst (pageAt start j)).attr.present = true := by
  induction todo generalizing i sets m with
  | zero => omega
  | succ todo ih =>
    have hapart : ∀ k, k ≠ i → i ≤ k → k < i + (todo + 1) → pageAt start k ≠ pageAt start i :=
      fun k hk _ _ heq => hk (pageAt_inj (by omega) (by omega) heq)
    unfold dupSucceeds at hok
    unfold Anon.dupLoop
    split_ifs at hok ⊢ with hhere
    · cases sets with
      | zero => simp at hok
      | succ sets =>
        rcases eq_or_ne j i with rfl | hji
        · have hlater : ∀ k, j + 1 ≤ k → k < j + 1 + todo → pageAt start j ≠ pageAt start k :=
            fun k hk hlt => (hapart k (by omega) (by omega) (by omega)).symm
          rw [dupLoop_ne todo (j + 1) sets hlater]
          exact dupPage_present hpresent hne
        · have hkeep : (dupPage m dst src (pageAt start i)).pmm src (pageAt start j) =
              m.pmm src (pageAt start j) := dupPage_ne m src (hapart j hji hij hj)
          refine ih (i + 1) sets (by omega) hok (by omega) (by omega) ?_
          rw [hkeep]
          exact hpresent
    · have hji : j ≠ i := fun heq => hhere (heq ▸ hpresent)
      exact ih _ _ (by omega) hok (by omega) (by omega) hpresent

end Loops

/-! ### The addresses that a fault resolves -/

theorem SpaceOk.faultRegion_bounds (h : SpaceOk mem vmm) (hfault : faultRegion mem vmm vaddr = some p) :
    vaddr < kernelOffset ∧ (mem p).vmStart ≤ vaddr ∧ vaddr ≤ (mem p).vmLimit ∧
      vaddr < (mem p).vmEnd := by
  unfold faultRegion at hfault
  split_ifs at hfault with hkernel
  obtain ⟨hfound, hrange⟩ := Option.filter_eq_some_iff.1 hfault
  have hvaddr : vaddr < 2 ^ 32 := by
    unfold kernelOffset at hkernel
    omega
  have hfind : vmRegionFind mem vmm vaddr = some p := by
    split at hfound
    · rename_i region hkey
      rw [Option.some_inj] at hfound
      exact (h.lookup hvaddr (hfound ▸ hkey)).2
    · exact hfound
  simp only [Bool.not_eq_true', decide_eq_false_iff_not, not_or, not_lt] at hrange
  refine ⟨by omega, hrange.2, hrange.1, ?_⟩
  obtain ⟨lower, upper, hplace⟩ := h.ordered.place vaddr
  rw [vmRegionFind_eq, hplace.first] at hfind
  exact hplace.above p (List.mem_of_head? hfind)

theorem SpaceOk.faultRegion_of_inRegion (h : SpaceOk mem vmm) (hp : p ∈ vmm.regionsRoot)
    (hin : InRegion (mem p) vaddr) (hkernel : vaddr < kernelOffset)
    (hstart : (mem p).vmStart ≤ vaddr) (hlimit : vaddr ≤ (mem p).vmLimit) :
    faultRegion mem vmm vaddr = some p := by
  have hfind := h.ordered.find_of_inRegion hp hin
  have hvaddr : vaddr < 2 ^ 32 := by
    unfold kernelOffset at hkernel
    omega
  have hrange : ¬((mem p).vmLimit < vaddr ∨ vaddr < (mem p).vmStart) := by omega
  rw [faultRegion, if_neg (by omega)]
  refine Option.filter_eq_some_iff.2 ⟨?_, by simpa using hrange⟩
  split
  · rename_i region hkey
    rw [← hfind]
    exact (h.lookup hvaddr hkey).2.symm
  · exact hfind

/-- The address `vm_limit` is one that a fault resolves to the region. -/
def LimitFaults (r : VmRegion) : Prop :=
  r.vmStart ≤ r.vmLimit ∧ r.vmLimit < r.vmEnd ∧ r.vmLimit < kernelOffset

theorem SpaceOk.visited (h : SpaceOk mem vmm) (hp : p ∈ vmm.regionsRoot)
    (hstart : (mem p).vmStart % 2 ^ pageShift = 0) (hlimit : ¬LimitFaults (mem p))
    (hfault : faultRegion mem vmm vaddr = some p) :
    Visited (mem p) (vaddr / 2 ^ pageShift) := by
  obtain ⟨hkernel, hlow, hhigh, hend⟩ := h.faultRegion_bounds hfault
  obtain ⟨-, hbound, -, hendAligned, -, hword, -⟩ := h.good p hp
  -- a region that ends at or below its limit, or a limit above the user space: whole pages
  have hpage : (vaddr / 2 ^ pageShift + 1) * 2 ^ pageShift ≤ (mem p).vmLimit := by
    unfold LimitFaults kernelOffset at hlimit
    unfold kernelOffset at hkernel
    unfold regsize regionKeywidth at hendAligned
    unfold pageShift
    omega
  refine ⟨vaddr / 2 ^ pageShift - (mem p).vmStart / 2 ^ pageShift, ?_, ?_⟩
  · rw [wsub_of_le (by omega) hword]
    unfold pageShift at *
    omega
  · unfold pageAt pageShift at *
    omega

theorem SpaceOk.pagesVisited_iff (h : SpaceOk mem vmm) (hp : p ∈ vmm.regionsRoot)
    (hstart : (mem p).vmStart % 2 ^ pageShift = 0) :
    PagesVisited mem vmm p ↔ ¬LimitFaults (mem p) := by
  have hgood := h.good p hp
  constructor
  · rintro hvisited ⟨hlow, hend, hkernel⟩
    have hbegin := hgood.startInside
    have hfault := h.faultRegion_of_inRegion hp ⟨by omega, hend⟩ hkernel hlow le_rfl
    obtain ⟨i, hi, hpage⟩ := hvisited.visited _ hfault
    rw [wsub_of_le hlow hgood.limitWord] at hi
    have hword := hgood.limitWord
    unfold pageAt pageShift at *
    omega
  · intro hlimit
    refine ⟨fun vaddr => h.visited hp hstart hlimit, ?_, ?_⟩
    · intro m task vmProt inst hugetlb vaddr hfault
      obtain ⟨i, hi, hpage⟩ := h.visited hp hstart hlimit hfault
      refine unmap_present hgood.notLazy _ _ (.inl ⟨i, List.mem_range.2 hi, hpage⟩)
    · intro m dst src vmProt sets inst hugetlb vaddr hne hok hfault hpresent
      obtain ⟨i, hi, hpage⟩ := h.visited hp hstart hlimit hfault
      have hlt := pagesCount_lt (anonRegion (mem p) vmProt inst hugetlb)
      rw [← hpage] at hpresent ⊢
      refine dupLoop_present hne _ 0 sets (by omega) hok (by omega) ?_ hpresent
      rw [Nat.zero_add]
      exact hi

/-- In an address space whose lookups agree, the pages that faults fill in a region are the
pages that unmapping and copying visit exactly when no fault at `vm_limit` resolves to the
region. -/
theorem fault_pages_visited (rb : RbOps) (s : Kernel)
    (hs : (machine rb).Reach (fun s e => EventOk s e ∧ StaysDisjoint rb s e) s)
    (task : ℕ) (vmm : Vmm) (htask : s.vmms task = some vmm) (p : ℕ) (hp : p ∈ vmm.regionsRoot)
    (hstart : (s.mem p).vmStart % 2 ^ pageShift = 0) :
    PagesVisited s.mem vmm p ↔ ¬LimitFaults (s.mem p) :=
  ((kernelOk_reach hs).space task vmm htask).pagesVisited_iff hp hstart

def blockArgs : MmapArgs := { pageArgs false with length := 0x10000 }

def blockKernel : Kernel :=
  { mappedKernel false with mem := Function.update emptyKernel.mem 1 blockArgs.asked }

theorem blockKernel_step : (machine plainOps).step bootedKernel (.mmap 0 1 blockArgs 1) =
    some blockKernel := rfl

theorem fault_pages_visited_block : blockKernel.vmms 0 = some mappedVmm ∧
    PagesVisited blockKernel.mem mappedVmm 1 := by
  have hmap : MmapOk bootedKernel.mem vmmInit blockArgs :=
    ⟨rfl, rfl, fun _ => .inl (by decide), fun h => absurd h (by decide)⟩
  have hdisjoint : RegionsDisjoint blockKernel := by
    refine regionsDisjoint_of_single ?_ ?_
    · intro task htask
      simp [blockKernel, mappedKernel, bootedKernel, setVmm, emptyKernel, htask]
    · intro vmm hvmm
      obtain rfl : mappedVmm = vmm := by simpa [blockKernel, mappedKernel] using hvmm
      decide
  have hreach := reach_mapped hmap blockKernel_step hdisjoint
  refine ⟨rfl, (fault_pages_visited plainOps blockKernel hreach 0 mappedVmm rfl 1 (by decide)
    (by decide)).2 ?_⟩
  rintro ⟨-, hend, -⟩
  exact absurd hend (by decide)

/-- A mapping of one page: the fault handler fills the page after it, which is not visited. -/
theorem limit_page_not_visited : ¬∀ (s t : Kernel) (args : MmapArgs) (task region grants : ℕ)
    (vmm : Vmm), (machine plainOps).Reachable s → sysMmapAccepts args = true →
      args.flags.shared = false → args.flags.anon = true →
      (machine plainOps).step s (.mmap task region args grants) = some t →
      t.vmms task = some vmm → region ∈ vmm.regionsRoot →
      (t.mem region).vmStart % 2 ^ pageShift = 0 → PagesVisited t.mem vmm region := by
  intro hall
  have hbooted : (machine plainOps).Reachable bootedKernel :=
    .step (.init (emptyKernel_init plainOps)) trivial (bootedKernel_step plainOps)
  have hvisited := (hall bootedKernel (mappedKernel false) (pageArgs false) 0 1 1 mappedVmm hbooted
    (by decide) rfl rfl (mappedKernel_step false) rfl (by decide) (by decide)).visited
  have hfault : faultRegion (mappedKernel false).mem mappedVmm 0x11000 = some 1 := rfl
  obtain ⟨i, hi, hpage⟩ := hvisited _ hfault
  have hone : i < 1 := hi
  obtain rfl : i = 0 := by omega
  exact absurd hpage (by decide)

end Almos.Vm
