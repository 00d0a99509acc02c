import Almos.VmRegion

/-!
# The order of the regions

Regions lie one after the other, in the list and in the tree alike. Attaching keeps this
as long as a fixed region ends before the next one begins and no end wraps around.
-/
namespace Almos.Vm
open SearchTree Word Bits KeysDb

def InRegion (r : VmRegion) (a : ℕ) : Prop := r.vmBegin ≤ a ∧ a < r.vmEnd

structure Ordered (mem : RegionMem) (vmm : Vmm) : Prop where
  before : vmm.regionsRoot.Pairwise fun p q => (mem p).vmEnd ≤ (mem q).vmBegin
  valid : ∀ p ∈ vmm.regionsRoot, (mem p).vmBegin ≤ (mem p).vmEnd
  bound : ∀ p ∈ vmm.regionsRoot, (mem p).vmEnd < 2 ^ 32
  tree : inorder vmm.regionsTree = vmm.regionsRoot
  nodup : vmm.regionsRoot.Nodup

variable {rb : RbOps} {mem mem' : RegionMem} {vmm vmm' : Vmm} {region : ℕ}

theorem Ordered.sorted (h : Ordered mem vmm) (addr : ℕ) :
    Sorted (fun p => decide (addr < (mem p).vmEnd)) (fun p => decide ((mem p).vmBegin ≤ addr))
      (inorder vmm.regionsTree) := by
  rw [h.tree]
  refine h.before.imp_of_mem ?_
  intro p q _ hq hpq hp
  have hvalid := h.valid q hq
  simp only [decide_eq_true_eq] at hp ⊢
  omega

structure Place (mem : RegionMem) (vmm : Vmm) (addr : ℕ) (lower upper : List ℕ) : Prop where
  split : vmm.regionsRoot = lower ++ upper
  notAbove : ∀ p ∈ lower, (mem p).vmEnd ≤ addr
  above : ∀ p ∈ upper, addr < (mem p).vmEnd
  first : (vmRegionFindPrepare mem vmm addr).1 = upper.head?
  link : (∀ p ∈ upper, addr < (mem p).vmBegin) → ∀ x,
    inorder ((vmRegionFindPrepare mem vmm addr).2 (leaf x)) = lower ++ x :: upper

theorem Ordered.place (h : Ordered mem vmm) (addr : ℕ) :
    ∃ lower upper, Place mem vmm addr lower upper := by
  obtain ⟨lower, upper, hfound⟩ := descend_spec _ (h.sorted addr)
  refine ⟨lower, upper, ?_, ?_, ?_, hfound.first, ?_⟩
  · rw [← h.tree]
    exact hfound.split
  · intro p hp
    simpa using hfound.notAbove p hp
  · intro p hp
    simpa using hfound.isAbove p hp
  · intro hnone x
    refine hfound.link ?_ x
    intro p hp
    simpa using hnone p hp

theorem vmRegionFind_eq (vaddr : ℕ) :
    vmRegionFind mem vmm vaddr = (vmRegionFindPrepare mem vmm vaddr).1 := by
  have hgo : ∀ (t : BinaryTree ℕ) (reg : Option ℕ), vmRegionFind.go mem vaddr t reg =
      (descend (fun p => decide (vaddr < (mem p).vmEnd))
        (fun p => decide ((mem p).vmBegin ≤ vaddr)) t).1.or reg := by
    intro t
    induction t with
    | nil =>
      intro reg
      simp [vmRegionFind.go, descend]
    | node p l r ihl ihr =>
      intro reg
      by_cases habove : vaddr < (mem p).vmEnd
      · by_cases hstop : (mem p).vmBegin ≤ vaddr
        · simp [vmRegionFind.go, descend, habove, hstop]
        · simp [vmRegionFind.go, descend, habove, hstop, ihl]
      · simp [vmRegionFind.go, descend, habove, ihr]
  simpa [vmRegionFind, vmRegionFindPrepare] using hgo vmm.regionsTree none

theorem listAddPred_append {reg x : ℕ} {lower rest : List ℕ} (h : reg ∉ lower) :
    listAddPred reg x (lower ++ reg :: rest) = lower ++ x :: reg :: rest := by
  induction lower with
  | nil => simp [listAddPred]
  | cons p ps ih =>
    have hne : p ≠ reg := fun heq => h (by simp [heq])
    have hnot : reg ∉ ps := fun hmem => h (by simp [hmem])
    simp [listAddPred, hne, ih hnot]

theorem Ordered.insert (h : Ordered mem vmm) {lower upper : List ℕ}
    (hsplit : vmm.regionsRoot = lower ++ upper) (hfresh : region ∉ vmm.regionsRoot)
    (hsame : ∀ p ∈ vmm.regionsRoot, mem' p = mem p)
    (hvalid : (mem' region).vmBegin ≤ (mem' region).vmEnd) (hbound : (mem' region).vmEnd < 2 ^ 32)
    (hlower : ∀ p ∈ lower, (mem p).vmEnd ≤ (mem' region).vmBegin)
    (hupper : ∀ p ∈ upper, (mem' region).vmEnd ≤ (mem p).vmBegin)
    (hroot : vmm'.regionsRoot = lower ++ region :: upper)
    (htree : inorder vmm'.regionsTree = lower ++ region :: upper) : Ordered mem' vmm' := by
  have hmem : ∀ p, p ∈ vmm'.regionsRoot → p = region ∨ p ∈ vmm.regionsRoot := by
    intro p hp
    rw [hroot] at hp
    rw [hsplit]
    obtain h₁ | h₁ | h₁ : p ∈ lower ∨ p = region ∨ p ∈ upper := by simpa using hp
    · simp [h₁]
    · simp [h₁]
    · simp [h₁]
  have hlow : ∀ p ∈ lower, mem' p = mem p := fun p hp => hsame p (by simp [hsplit, hp])
  have hupp : ∀ p ∈ upper, mem' p = mem p := fun p hp => hsame p (by simp [hsplit, hp])
  have hbefore := h.before
  rw [hsplit] at hbefore
  obtain ⟨hb₁, hb₂, hb₁₂⟩ := List.pairwise_append.mp hbefore
  refine ⟨?_, ?_, ?_, by rw [htree, hroot], ?_⟩
  · rw [hroot]
    refine List.pairwise_append.mpr ⟨?_, List.pairwise_cons.mpr ⟨?_, ?_⟩, ?_⟩
    · refine hb₁.imp_of_mem ?_
      intro p q hp hq hpq
      rwa [hlow p hp, hlow q hq]
    · intro q hq
      rw [hupp q hq]
      exact hupper q hq
    · refine hb₂.imp_of_mem ?_
      intro p q hp hq hpq
      rwa [hupp p hp, hupp q hq]
    · intro p hp q hq
      rw [hlow p hp]
      cases List.mem_cons.mp hq with
      | inl heq =>
        rw [heq]
        exact hlower p hp
      | inr hmem =>
        rw [hupp q hmem]
        exact hb₁₂ p hp q hmem
  · intro p hp
    cases hmem p hp with
    | inl heq =>
      rw [heq]
      exact hvalid
    | inr hold =>
      rw [hsame p hold]
      exact h.valid p hold
  · intro p hp
    cases hmem p hp with
    | inl heq =>
      rw [heq]
      exact hbound
    | inr hold =>
      rw [hsame p hold]
      exact h.bound p hold
  · have hnodup := h.nodup
    rw [hsplit] at hnodup hfresh
    rw [hroot]
    exact (List.perm_middle.nodup_iff).mpr (List.nodup_cons.mpr ⟨hfresh, hnodup⟩)

theorem Ordered.begin_above (h : Ordered mem vmm) {addr reg : ℕ} {lower rest : List ℕ}
    (hplace : Place mem vmm addr lower (reg :: rest)) :
    ∀ p ∈ reg :: rest, (mem reg).vmBegin ≤ (mem p).vmBegin := by
  have hbefore := h.before
  rw [hplace.split] at hbefore
  obtain ⟨hfirst, -⟩ := List.pairwise_cons.mp (List.pairwise_append.mp hbefore).2.1
  have hvalid := h.valid reg (by rw [hplace.split]; simp)
  intro p hp
  cases List.mem_cons.mp hp with
  | inl heq => rw [heq]
  | inr hmem => exact hvalid.trans (hfirst p hmem)

structure Attached (mem : RegionMem) (vmm : Vmm) (region : ℕ) (mem' : RegionMem) (vmm' : Vmm) :
    Prop where
  ordered : Ordered mem' vmm'
  lastMmap : vmm'.lastMmap = (mem' region).vmBegin
  db : vmm'.regionsDb = vmm.regionsDb
  same : ∀ p, p ≠ region → mem' p = mem p
  root : ∀ p, p ∈ vmm'.regionsRoot ↔ p = region ∨ p ∈ vmm.regionsRoot

theorem Ordered.link (h : Ordered mem vmm) (rb : RbOps) {lower upper : List ℕ}
    (hplace : Place mem vmm (mem' region).vmBegin lower upper) (hfresh : region ∉ vmm.regionsRoot)
    (hsame : ∀ p, p ≠ region → mem' p = mem p)
    (hvalid : (mem' region).vmBegin ≤ (mem' region).vmEnd) (hbound : (mem' region).vmEnd < 2 ^ 32)
    (hupper : ∀ p ∈ upper, (mem' region).vmBegin < (mem p).vmBegin ∧
      (mem' region).vmEnd ≤ (mem p).vmBegin) :
    Attached mem vmm region mem' { vmm with
      regionsRoot := lower ++ region :: upper
      regionsTree := rb.insertColor region
        ((vmRegionFindPrepare mem vmm (mem' region).vmBegin).2 (leaf region))
      lastMmap := (mem' region).vmBegin } := by
  have hold : ∀ p ∈ vmm.regionsRoot, mem' p = mem p :=
    fun p hp => hsame p fun heq => hfresh (heq ▸ hp)
  refine ⟨?_, rfl, rfl, hsame, ?_⟩
  · refine h.insert hplace.split hfresh hold hvalid hbound hplace.notAbove ?_ rfl ?_
    · exact fun p hp => (hupper p hp).2
    · rw [rb.inorder_insertColor]
      exact hplace.link (fun p hp => (hupper p hp).1) region
  · intro p
    rw [hplace.split]
    simp [or_left_comm]

/-- A fixed region is refused when its start lies in a region, and linked at its start if not. -/
theorem Ordered.attach_fixed_cases (h : Ordered mem vmm) (rb : RbOps)
    (hfixed : (mem region).vmFlags.fixed = true) :
    vmRegionAttach rb mem vmm region = some (.error .eexist) ∧
        (∃ p ∈ vmm.regionsRoot, InRegion (mem p) (mem region).vmBegin) ∨
      ∃ lower upper, Place mem vmm (mem region).vmBegin lower upper ∧
        (∀ p ∈ upper, (mem region).vmBegin < (mem p).vmBegin) ∧
        vmRegionAttach rb mem vmm region = some (.ok (mem, { vmm with
          regionsRoot := lower ++ region :: upper
          regionsTree := rb.insertColor region
            ((vmRegionFindPrepare mem vmm (mem region).vmBegin).2 (leaf region))
          lastMmap := (mem region).vmBegin })) := by
  obtain ⟨lower, upper, hplace⟩ := h.place (mem region).vmBegin
  have hfirst := hplace.first
  cases upper with
  | nil =>
    right
    have hroot : vmm.regionsRoot = lower := by simpa using hplace.split
    refine ⟨lower, [], hplace, by simp, ?_⟩
    simp only [vmRegionAttach, vmRegionAttachRbtree, hfixed, hfirst, if_true, List.head?_nil,
      vmaLinkRb, hroot]
  | cons reg rest =>
    have hreg : reg ∈ vmm.regionsRoot := by
      rw [hplace.split]
      simp
    have habove := hplace.above reg (by simp)
    have hnot : reg ∉ lower := by
      intro hmem
      have := hplace.notAbove reg hmem
      omega
    by_cases hin : (mem reg).vmBegin ≤ (mem region).vmBegin
    · left
      refine ⟨?_, reg, hreg, hin, habove⟩
      simp [vmRegionAttach, vmRegionAttachRbtree, hfixed, hfirst, hin]
    · right
      refine ⟨lower, reg :: rest, hplace, ?_, ?_⟩
      · intro p hp
        have := h.begin_above hplace p hp
        omega
      · simp only [vmRegionAttach, vmRegionAttachRbtree, hfixed, hfirst, if_true, List.head?_cons,
          if_neg hin, vmaLinkRb, hplace.split, listAddPred_append hnot]

/-- No region contains an address that lies between those below and those above it. -/
theorem Place.not_inRegion {addr : ℕ} {lower upper : List ℕ}
    (hplace : Place mem vmm addr lower upper) (hupper : ∀ p ∈ upper, addr < (mem p).vmBegin) :
    ¬∃ p ∈ vmm.regionsRoot, InRegion (mem p) addr := by
  rintro ⟨p, hp, hlow, hhigh⟩
  rw [hplace.split] at hp
  cases List.mem_append.mp hp with
  | inl hmem =>
    have := hplace.notAbove p hmem
    omega
  | inr hmem =>
    have := hupper p hmem
    omega

def FixedOk (mem : RegionMem) (root : List ℕ) (region : VmRegion) : Prop :=
  (∃ p ∈ root, InRegion (mem p) region.vmBegin) ∨ region.vmBegin ≤ region.vmEnd ∧
    ∀ p ∈ root, region.vmBegin < (mem p).vmBegin → region.vmEnd ≤ (mem p).vmBegin

theorem Ordered.attach_fixed (h : Ordered mem vmm) (rb : RbOps) (hfresh : region ∉ vmm.regionsRoot)
    (hfixed : (mem region).vmFlags.fixed = true) (hbound : (mem region).vmEnd < 2 ^ 32)
    (hok : FixedOk mem vmm.regionsRoot (mem region)) :
    vmRegionAttach rb mem vmm region = some (.error .eexist) ∨
      ∃ vmm', vmRegionAttach rb mem vmm region = some (.ok (mem, vmm')) ∧
        Attached mem vmm region mem vmm' := by
  obtain ⟨herr, -⟩ | ⟨lower, upper, hplace, hupper, hatt⟩ := h.attach_fixed_cases rb hfixed
  · exact .inl herr
  · right
    obtain hin | ⟨hvalid, hnext⟩ := hok
    · exact absurd hin (hplace.not_inRegion hupper)
    · refine ⟨_, hatt, h.link rb hplace hfresh (fun _ _ => rfl) hvalid hbound ?_⟩
      intro p hp
      have hroot : p ∈ vmm.regionsRoot := by
        rw [hplace.split]
        simp [hp]
      exact ⟨hupper p hp, hnext p hroot (hupper p hp)⟩

/-- The search of a place ends, at the start it began with or at the end of a region. -/
theorem Ordered.solveLoop (h : Ordered mem vmm) (size limit : ℕ) :
    ∀ fuel start, vmm.regionsRoot.countP (fun p => decide (start < (mem p).vmEnd)) < fuel →
      solveLoop mem vmm size limit fuel start = some (.error .enomem) ∨
        ∃ start' reg, solveLoop mem vmm size limit fuel start =
            some (.ok (start', reg, (vmRegionFindPrepare mem vmm start').2)) ∧
          (start' = start ∨ ∃ p ∈ vmm.regionsRoot, start' = (mem p).vmEnd) ∧ start ≤ start' ∧
          start' ≤ limit ∧ (vmRegionFindPrepare mem vmm start').1 = reg ∧
          ∀ p, reg = some p → wadd start' size < (mem p).vmBegin := by
  intro fuel
  induction fuel with
  | zero =>
    intro start hfuel
    omega
  | succ fuel ih =>
    intro start hfuel
    by_cases hlimit : start ≤ limit
    · obtain ⟨lower, upper, hplace⟩ := h.place start
      have hfirst := hplace.first
      cases upper with
      | nil =>
        right
        refine ⟨start, none, ?_, .inl rfl, le_rfl, hlimit, hfirst, by simp⟩
        simp only [Vm.solveLoop, if_pos hlimit, hfirst, List.head?_nil]
      | cons reg rest =>
        have hreg : reg ∈ vmm.regionsRoot := by
          rw [hplace.split]
          simp
        have habove := hplace.above reg (by simp)
        by_cases hfit : wadd start size < (mem reg).vmBegin
        · right
          refine ⟨start, some reg, ?_, .inl rfl, le_rfl, hlimit, hfirst, ?_⟩
          · simp only [Vm.solveLoop, if_pos hlimit, hfirst, List.head?_cons, if_pos hfit]
          · intro p hp
            obtain rfl : reg = p := by simpa using hp
            exact hfit
        · have hstep : Vm.solveLoop mem vmm size limit (fuel + 1) start =
              Vm.solveLoop mem vmm size limit fuel (mem reg).vmEnd := by
            simp only [Vm.solveLoop, if_pos hlimit, hfirst, List.head?_cons, if_neg hfit]
          -- fewer regions end above the end of `reg`
          have hfewer : vmm.regionsRoot.countP (fun p => decide ((mem reg).vmEnd < (mem p).vmEnd)) <
              fuel := by
            have hlower : lower.countP (fun p => decide ((mem reg).vmEnd < (mem p).vmEnd)) = 0 := by
              refine List.countP_eq_zero.mpr ?_
              intro p hp
              have := hplace.notAbove p hp
              simp only [decide_eq_true_eq]
              omega
            have hupper : (reg :: rest).countP (fun p => decide (start < (mem p).vmEnd)) =
                rest.length + 1 := by
              refine List.countP_eq_length.mpr ?_
              intro p hp
              simpa using hplace.above p hp
            have hrest : rest.countP (fun p => decide ((mem reg).vmEnd < (mem p).vmEnd)) ≤
                rest.length := List.countP_le_length
            rw [hplace.split, List.countP_append] at hfuel ⊢
            rw [hlower, List.countP_cons_of_neg (by simp)]
            omega
          rw [hstep]
          obtain herr | ⟨start', reg', hloop, hstart, hle, hrest⟩ := ih _ hfewer
          · exact .inl herr
          · refine .inr ⟨start', reg', hloop, .inr ?_, habove.le.trans hle, hrest⟩
            obtain heq | hp := hstart
            · exact ⟨reg, hreg, heq⟩
            · exact hp
    · left
      simp only [Vm.solveLoop, if_neg hlimit]

theorem Ordered.fuel (h : Ordered mem vmm) (start : ℕ) :
    vmm.regionsRoot.countP (fun p => decide (start < (mem p).vmEnd)) <
      vmm.regionsTree.numNodes + 1 := by
  have hnodes : vmm.regionsTree.numNodes = vmm.regionsRoot.length := by
    rw [← h.tree, length_inorder]
  rw [hnodes]
  exact Nat.lt_succ_of_le List.countP_le_length

/-- No start that may be tried makes the end of the region wrap around. -/
def FloatOk (mem : RegionMem) (vmm : Vmm) (region : VmRegion) : Prop :=
  ∀ start, start = vmm.lastMmap ∨ (∃ p ∈ vmm.regionsRoot, start = (mem p).vmEnd) →
    start ≤ wsub usrLimit region.vmEnd → start + region.vmEnd < 2 ^ 32

/-- The search ends, and a region is linked at the start found, not below `last_mmap`. -/
theorem Ordered.solve (h : Ordered mem vmm) (rb : RbOps) (hfresh : region ∉ vmm.regionsRoot)
    (hok : FloatOk mem vmm (mem region)) :
    vmRegionSolve rb mem vmm region = some (.error .enomem) ∨
      ∃ mem' vmm', vmRegionSolve rb mem vmm region = some (.ok (mem', vmm')) ∧
        Attached mem vmm region mem' { vmm' with lastMmap := (mem' region).vmBegin } ∧
        vmm'.lastMmap = vmm.lastMmap ∧ (mem' region).vmFlags = (mem region).vmFlags ∧
        (mem' region).vmStart = (mem' region).vmBegin ∧
        (mem' region).vmLimit = wadd (mem region).vmLimit (mem' region).vmBegin ∧
        (mem' region).vmEnd = (mem' region).vmBegin + (mem region).vmEnd ∧
        ((mem' region).vmBegin = vmm.lastMmap ∨
          ∃ p ∈ vmm.regionsRoot, (mem' region).vmBegin = (mem p).vmEnd) ∧
        vmm.lastMmap ≤ (mem' region).vmBegin ∧
        (mem' region).vmBegin ≤ wsub usrLimit (mem region).vmEnd := by
  obtain herr | ⟨start, reg, hloop, hstart, hle, hlimit, hreg, hfit⟩ :=
    h.solveLoop (mem region).vmEnd (wsub usrLimit (mem region).vmEnd) _ _ (h.fuel vmm.lastMmap)
  · left
    simp [vmRegionSolve, herr]
  · right
    have hend := hok start hstart hlimit
    have hadd : wadd start (mem region).vmEnd = start + (mem region).vmEnd := wadd_of_lt hend
    obtain ⟨mem', hmem'⟩ : ∃ mem', mem' = Function.update mem region { mem region with
        vmBegin := start
        vmStart := start
        vmLimit := wadd (mem region).vmLimit start
        vmEnd := start + (mem region).vmEnd } := ⟨_, rfl⟩
    have hself : (mem' region).vmBegin = start ∧ (mem' region).vmStart = start ∧
        (mem' region).vmLimit = wadd (mem region).vmLimit start ∧
        (mem' region).vmEnd = start + (mem region).vmEnd ∧
        (mem' region).vmFlags = (mem region).vmFlags := by simp [hmem']
    obtain ⟨hbegin', hstart', hlimit', hend', hflags'⟩ := hself
    have hsame : ∀ p, p ≠ region → mem' p = mem p := by
      intro p hp
      rw [hmem', Function.update_of_ne hp]
    obtain ⟨lower, upper, hplace⟩ := h.place start
    have hfirst : upper.head? = reg := by rw [← hplace.first, hreg]
    have hupper : ∀ p ∈ upper, (mem' region).vmBegin < (mem p).vmBegin ∧
        (mem' region).vmEnd ≤ (mem p).vmBegin := by
      cases upper with
      | nil => simp
      | cons r rest =>
        have hr := hfit r (by simpa using hfirst.symm)
        intro p hp
        have := h.begin_above hplace p hp
        rw [hbegin', hend']
        omega
    rw [← hbegin'] at hplace
    refine ⟨mem', { vmm with
      regionsRoot := lower ++ region :: upper
      regionsTree := rb.insertColor region
        ((vmRegionFindPrepare mem vmm (mem' region).vmBegin).2 (leaf region)) }, ?_,
      h.link rb hplace hfresh hsame (by omega) (by omega) hupper, rfl, hflags', by omega,
      by rw [hlimit', hbegin'], by omega, ?_, by omega, by omega⟩
    · simp only [vmRegionSolve, hloop, hadd, ← hmem']
      cases upper with
      | nil =>
        obtain rfl : none = reg := by simpa using hfirst
        simp [vmaLinkRb, hplace.split, hbegin']
      | cons r rest =>
        obtain rfl : some r = reg := by simpa using hfirst
        have hne : r ≠ region := by
          rintro rfl
          exact hfresh (by simp [hplace.split])
        have hlt : start < (mem' r).vmBegin := by
          rw [hsame r hne, ← hbegin']
          exact (hupper r (by simp)).1
        have hnot : r ∉ lower := by
          intro hmem
          have := hplace.notAbove r hmem
          have := hplace.above r (by simp)
          omega
        simp only [hbegin', if_pos hlt, vmaLinkRb, hplace.split, listAddPred_append hnot]
    · rw [hbegin']
      exact hstart

theorem Ordered.attach_float (h : Ordered mem vmm) (rb : RbOps) (hfresh : region ∉ vmm.regionsRoot)
    (hfloat : (mem region).vmFlags.fixed = false) (hok : FloatOk mem vmm (mem region)) :
    vmRegionAttach rb mem vmm region = some (.error .enomem) ∨
      ∃ mem' vmm', vmRegionAttach rb mem vmm region = some (.ok (mem', vmm')) ∧
        Attached mem vmm region mem' vmm' ∧ (mem' region).vmFlags = (mem region).vmFlags ∧
        (mem' region).vmStart = (mem' region).vmBegin ∧ (mem' region).vmLimit < 2 ^ 32 ∧
        (mem' region).vmEnd = (mem' region).vmBegin + (mem region).vmEnd ∧
        ((mem' region).vmBegin = vmm.lastMmap ∨
          ∃ p ∈ vmm.regionsRoot, (mem' region).vmBegin = (mem p).vmEnd) := by
  obtain herr | ⟨mem', vmm', hsolve, hdone, -, hflags, hstart, hlimit, hend, hplace, -, -⟩ :=
    h.solve rb hfresh hok
  · left
    simp [vmRegionAttach, vmRegionAttachRbtree, hfloat, herr]
  · right
    refine ⟨mem', _, ?_, hdone, hflags, hstart, ?_, hend, hplace⟩
    · simp [vmRegionAttach, vmRegionAttachRbtree, hfloat, hsolve]
    · rw [hlimit]
      exact wadd_lt _ _

/-- The condition on attaching: a fixed region is refused or ends before the next one begins;
the end of any other region does not wrap around. -/
def AttachOk (mem : RegionMem) (vmm : Vmm) (region : VmRegion) : Prop :=
  (region.vmFlags.fixed = true → FixedOk mem vmm.regionsRoot region) ∧
    (region.vmFlags.fixed = false → FloatOk mem vmm region)

def Placed (mem : RegionMem) (vmm : Vmm) (region : VmRegion) (placed : VmRegion) : Prop :=
  placed = region ∨ placed.vmEnd = placed.vmBegin + region.vmEnd ∧
    (placed.vmBegin = vmm.lastMmap ∨ ∃ p ∈ vmm.regionsRoot, placed.vmBegin = (mem p).vmEnd)

theorem Ordered.attach (h : Ordered mem vmm) (rb : RbOps) (hfresh : region ∉ vmm.regionsRoot)
    (hbound : (mem region).vmEnd < 2 ^ 32) (hok : AttachOk mem vmm (mem region)) :
    (∃ err, vmRegionAttach rb mem vmm region = some (.error err)) ∨
      ∃ mem' vmm', vmRegionAttach rb mem vmm region = some (.ok (mem', vmm')) ∧
        Attached mem vmm region mem' vmm' ∧ (mem' region).vmFlags = (mem region).vmFlags ∧
        Placed mem vmm (mem region) (mem' region) := by
  cases hfixed : (mem region).vmFlags.fixed with
  | true =>
    obtain herr | ⟨vmm', hatt, hdone⟩ := h.attach_fixed rb hfresh hfixed hbound (hok.1 hfixed)
    · exact .inl ⟨_, herr⟩
    · exact .inr ⟨mem, vmm', hatt, hdone, rfl, .inl rfl⟩
  | false =>
    obtain herr | ⟨mem', vmm', hatt, hdone, hflags, -, -, hplace⟩ :=
      h.attach_float rb hfresh hfixed (hok.2 hfixed)
    · exact .inl ⟨_, herr⟩
    · exact .inr ⟨mem', vmm', hatt, hdone, hflags, .inr hplace⟩

theorem keys_bound {r : VmRegion} (hvalid : r.vmBegin ≤ r.vmEnd) (hbound : r.vmEnd < 2 ^ 32) :
    r.vmBegin / 2 ^ regionKeywidth + wsub r.vmEnd r.vmBegin / 2 ^ regionKeywidth ≤ keysLimit := by
  rw [wsub_of_le hvalid hbound]
  unfold regionKeywidth keysLimit recordsNr keysPerRecLog2
  omega

structure Detached (mem : RegionMem) (vmm : Vmm) (region : ℕ) (vmm' : Vmm) : Prop where
  ordered : Ordered mem vmm'
  root : vmm'.regionsRoot = vmm.regionsRoot.erase region
  lastMmap : vmm'.lastMmap = vmm.lastMmap ∨ vmm'.lastMmap = (mem region).vmBegin
  db : ∀ k, vmm'.regionsDb.get k =
    if (mem region).vmFlags.isLazy = false ∧ (mem region).vmBegin / 2 ^ regionKeywidth ≤ k ∧
      k < (mem region).vmBegin / 2 ^ regionKeywidth +
        wsub (mem region).vmEnd (mem region).vmBegin / 2 ^ regionKeywidth
    then none else vmm.regionsDb.get k

theorem Ordered.detach (h : Ordered mem vmm) (rb : RbOps) (hin : region ∈ vmm.regionsRoot) :
    ∃ vmm', vmRegionDetach rb mem vmm region = some vmm' ∧ Detached mem vmm region vmm' := by
  have hsub : (vmm.regionsRoot.erase region).Sublist vmm.regionsRoot := List.erase_sublist
  have hordered : ∀ lastMmap db, Ordered mem
      ⟨vmm.regionsRoot.erase region, rb.erase region vmm.regionsTree, lastMmap, db⟩ := by
    intro lastMmap db
    refine ⟨h.before.sublist hsub, ?_, ?_, ?_, h.nodup.sublist hsub⟩
    · exact fun p hp => h.valid p (hsub.subset hp)
    · exact fun p hp => h.bound p (hsub.subset hp)
    · rw [rb.inorder_erase, h.tree]
  have hlast : ∀ P : Prop, [Decidable P] → (if P then (mem region).vmBegin else vmm.lastMmap) =
      vmm.lastMmap ∨ (if P then (mem region).vmBegin else vmm.lastMmap) = (mem region).vmBegin := by
    intro P _
    by_cases hP : P
    · simp [hP]
    · simp [hP]
  cases hlazy : (mem region).vmFlags.isLazy with
  | true =>
    refine ⟨⟨vmm.regionsRoot.erase region, rb.erase region vmm.regionsTree,
      if (mem region).vmEnd < vmm.lastMmap then (mem region).vmBegin else vmm.lastMmap,
      vmm.regionsDb⟩, ?_, hordered _ _, rfl, hlast _, ?_⟩
    · simp only [vmRegionDetach, hlazy, if_true]
    · simp [hlazy]
  | false =>
    obtain ⟨db, hunbind, hget⟩ := unbind_spec vmm.regionsDb
      (keys_bound (h.valid region hin) (h.bound region hin))
    refine ⟨⟨vmm.regionsRoot.erase region, rb.erase region vmm.regionsTree,
      if (mem region).vmEnd < vmm.lastMmap then (mem region).vmBegin else vmm.lastMmap, db⟩, ?_,
      hordered _ _, rfl, hlast _, ?_⟩
    · simp only [vmRegionDetach, hlazy, hunbind, Bool.false_eq_true, if_false]
    · simpa [hlazy] using hget

variable {s t : Space}

def RegionOk (s : Space) : RegionEvent → Prop
  | .attach _ vmaStart vmaEnd flags => AttachOk s.mem s.vmm (vmRegionInit vmaStart vmaEnd flags)
  | .detach _ => True

/-- Regions are attached once and detached when attached. -/
def RegionLegal (s : Space) : RegionEvent → Prop
  | .attach region vmaStart vmaEnd _ =>
      region ∉ s.vmm.regionsRoot ∧ vmaStart < 2 ^ 32 ∧ vmaEnd < 2 ^ 32
  | .detach region => region ∈ s.vmm.regionsRoot

theorem Ordered.congr (h : Ordered mem vmm) (hsame : ∀ p ∈ vmm.regionsRoot, mem' p = mem p) :
    Ordered mem' vmm := by
  refine ⟨?_, ?_, ?_, h.tree, h.nodup⟩
  · refine h.before.imp_of_mem ?_
    intro p q hp hq hpq
    rwa [hsame p hp, hsame q hq]
  · intro p hp
    rw [hsame p hp]
    exact h.valid p hp
  · intro p hp
    rw [hsame p hp]
    exact h.bound p hp

theorem AttachOk.congr {r : VmRegion} (h : AttachOk mem vmm r)
    (hsame : ∀ p ∈ vmm.regionsRoot, mem' p = mem p) : AttachOk mem' vmm r := by
  refine ⟨?_, ?_⟩
  · intro hfixed
    obtain ⟨p, hp, hin⟩ | ⟨hvalid, hnext⟩ := h.1 hfixed
    · refine .inl ⟨p, hp, ?_⟩
      rwa [hsame p hp]
    · refine .inr ⟨hvalid, ?_⟩
      intro p hp
      rw [hsame p hp]
      exact hnext p hp
  · intro hfloat start hstart
    refine h.2 hfloat start ?_
    obtain heq | ⟨p, hp, heq⟩ := hstart
    · exact .inl heq
    · refine .inr ⟨p, hp, ?_⟩
      rwa [hsame p hp] at heq

theorem vmRegionInit_bound (vmaStart vmaEnd : ℕ) (flags : RegionFlags) :
    (vmRegionInit vmaStart vmaEnd flags).vmEnd < 2 ^ 32 := by
  unfold vmRegionInit roundUp
  simp only
  split_ifs
  · exact Nat.mod_lt _ (by decide)
  · exact Nat.mod_lt _ (by decide)

theorem Ordered.attach_init (h : Ordered mem vmm) (rb : RbOps) (hfresh : region ∉ vmm.regionsRoot)
    {r : VmRegion} (hbound : r.vmEnd < 2 ^ 32) (hok : AttachOk mem vmm r) :
    Ordered (Function.update mem region r) vmm ∧
      ((∃ err, vmRegionAttach rb (Function.update mem region r) vmm region = some (.error err)) ∨
        ∃ mem' vmm',
          vmRegionAttach rb (Function.update mem region r) vmm region = some (.ok (mem', vmm')) ∧
          Attached mem vmm region mem' vmm' ∧ (mem' region).vmFlags = r.vmFlags ∧
          Placed mem vmm r (mem' region)) := by
  obtain ⟨mem₁, hmem₁⟩ : ∃ mem₁, mem₁ = Function.update mem region r := ⟨_, rfl⟩
  have hself : mem₁ region = r := by simp [hmem₁]
  have hother : ∀ p, p ≠ region → mem₁ p = mem p := by
    intro p hp
    rw [hmem₁, Function.update_of_ne hp]
  have hsame : ∀ p ∈ vmm.regionsRoot, mem₁ p = mem p :=
    fun p hp => hother p fun heq => hfresh (heq ▸ hp)
  rw [← hmem₁]
  refine ⟨h.congr hsame, ?_⟩
  obtain herr | ⟨mem', vmm', hatt, hdone, hflags, hplace⟩ := (h.congr hsame).attach rb hfresh
    (by rw [hself]; exact hbound) (by rw [hself]; exact hok.congr hsame)
  · exact .inl herr
  · right
    refine ⟨mem', vmm', hatt, ⟨hdone.ordered, hdone.lastMmap, hdone.db, ?_, hdone.root⟩, ?_, ?_⟩
    · intro p hp
      rw [hdone.same p hp, hother p hp]
    · rw [hflags, hself]
    · rw [hself] at hplace
      obtain heq | ⟨hend, hbegin⟩ := hplace
      · exact .inl heq
      · refine .inr ⟨hend, ?_⟩
        obtain heq | ⟨p, hp, heq⟩ := hbegin
        · exact .inl heq
        · exact .inr ⟨p, hp, by rwa [hsame p hp] at heq⟩

theorem Ordered.regionStep (h : Ordered s.mem s.vmm) (rb : RbOps) {e : RegionEvent}
    (hlegal : RegionLegal s e) (hok : RegionOk s e) :
    ∃ t, regionStep rb s e = some t ∧ Ordered t.mem t.vmm := by
  cases e with
  | attach region vmaStart vmaEnd flags =>
    have hpos : region ∉ s.vmm.regionsRoot ∧ vmaStart < 2 ^ 32 ∧ vmaEnd < 2 ^ 32 := hlegal
    obtain ⟨hord, ⟨err, herr⟩ | ⟨mem', vmm', hatt, hdone, -⟩⟩ :=
      h.attach_init rb hpos.1 (vmRegionInit_bound vmaStart vmaEnd flags) hok
    · refine ⟨⟨Function.update s.mem region (vmRegionInit vmaStart vmaEnd flags), s.vmm⟩, ?_, hord⟩
      simp only [Vm.regionStep, if_pos hpos, herr]
    · refine ⟨⟨mem', vmm'⟩, ?_, hdone.ordered⟩
      simp only [Vm.regionStep, if_pos hpos, hatt]
  | detach region =>
    have hin : region ∈ s.vmm.regionsRoot := hlegal
    obtain ⟨vmm', hdet, hdone⟩ := h.detach rb hin
    refine ⟨⟨s.mem, vmm'⟩, ?_, hdone.ordered⟩
    simp only [Vm.regionStep, if_pos hin, hdet]

theorem regionLegal_of_step {e : RegionEvent} (hstep : Vm.regionStep rb s e = some t) :
    RegionLegal s e := by
  cases e with
  | attach region vmaStart vmaEnd flags =>
    by_contra hn
    change ¬(region ∉ s.vmm.regionsRoot ∧ vmaStart < 2 ^ 32 ∧ vmaEnd < 2 ^ 32) at hn
    simp only [Vm.regionStep, if_neg hn, reduceCtorEq] at hstep
  | detach region =>
    by_contra hn
    change region ∉ s.vmm.regionsRoot at hn
    simp only [Vm.regionStep, if_neg hn, reduceCtorEq] at hstep

theorem ordered_init : Ordered mem vmmInit :=
  ⟨by simp [vmmInit], by simp [vmmInit], by simp [vmmInit], rfl, by simp [vmmInit]⟩

theorem ordered_reach (h : (regionMachine rb).Reach RegionOk s) : Ordered s.mem s.vmm := by
  refine Machine.Reach.invariant (I := fun s => Ordered s.mem s.vmm) ?_ ?_ h
  · intro s hs
    have hvmm : s.vmm = vmmInit := hs
    rw [hvmm]
    exact ordered_init
  · intro s e t hord hok hstep
    obtain ⟨t', ht', hord'⟩ := hord.regionStep rb (regionLegal_of_step hstep) hok
    obtain rfl : t' = t := by simpa [ht'] using (show Vm.regionStep rb s e = some t from hstep)
    exact hord'

/-- No two regions share an address, the list is in address order, and the tree agrees with it. -/
def RegionsOk (s : Space) : Prop :=
  (s.vmm.regionsRoot.Pairwise fun p q => ∀ a, ¬(InRegion (s.mem p) a ∧ InRegion (s.mem q) a)) ∧
    (s.vmm.regionsRoot.Pairwise fun p q => (s.mem p).vmBegin ≤ (s.mem q).vmBegin ∧
      (s.mem p).vmEnd ≤ (s.mem q).vmBegin) ∧
    inorder s.vmm.regionsTree = s.vmm.regionsRoot

theorem Ordered.regionsOk (h : Ordered s.mem s.vmm) : RegionsOk s := by
  refine ⟨?_, ?_, h.tree⟩
  · refine h.before.imp ?_
    intro p q hpq a ⟨hp, hq⟩
    unfold InRegion at hp hq
    omega
  · refine h.before.imp_of_mem ?_
    intro p q hp _ hpq
    exact ⟨(h.valid p hp).trans hpq, hpq⟩

/-- In every run whose attached regions meet the condition, every call returns, regions do not
overlap and the list is the in-order traversal of the tree. -/
theorem regions_disjoint (rb : RbOps) (s : Space) (hs : (regionMachine rb).Reach RegionOk s) :
    RegionsOk s ∧ ∀ e, RegionLegal s e → RegionOk s e → ∃ t, (regionMachine rb).step s e = some t := by
  have hord := ordered_reach hs
  refine ⟨hord.regionsOk, ?_⟩
  intro e hlegal hok
  obtain ⟨t, ht, -⟩ := hord.regionStep rb hlegal hok
  exact ⟨t, ht⟩

def chainTree : List ℕ → BinaryTree ℕ
  | [] => .nil
  | p :: ps => .node p .nil (chainTree ps)

theorem inorder_chainTree (l : List ℕ) : inorder (chainTree l) = l := by
  induction l with
  | nil => rfl
  | cons p ps ih => simp [chainTree, inorder, ih]

def plainOps : RbOps where
  insertColor _ t := t
  erase p t := chainTree ((inorder t).erase p)
  inorder_insertColor _ _ := rfl
  inorder_erase _ _ := inorder_chainTree _

def freshSpace : Space := ⟨fun _ => ⟨0, 0, 0, 0, ⟨false, false, false, false, false⟩⟩, vmmInit⟩

theorem freshSpace_init : (regionMachine plainOps).init freshSpace := rfl

def fixedFlags : RegionFlags := ⟨true, false, false, false, true⟩

def floatFlags : RegionFlags := ⟨false, false, false, false, true⟩

instance (r : VmRegion) (a : ℕ) : Decidable (InRegion r a) := inferInstanceAs (Decidable (_ ∧ _))

instance (mem : RegionMem) (root : List ℕ) (region : VmRegion) :
    Decidable (FixedOk mem root region) := inferInstanceAs (Decidable (_ ∨ _))

instance (mem : RegionMem) (vmm : Vmm) (region : VmRegion) : Decidable (FloatOk mem vmm region) :=
  decidable_of_iff (∀ start ∈ vmm.lastMmap :: vmm.regionsRoot.map fun p => (mem p).vmEnd,
    start ≤ wsub usrLimit region.vmEnd → start + region.vmEnd < 2 ^ 32)
    (by simp [FloatOk, eq_comm])

instance (s : Space) : ∀ e, Decidable (RegionOk s e)
  | .attach _ _ _ _ => inferInstanceAs (Decidable (_ ∧ _))
  | .detach _ => isTrue trivial

/-- The second region is placed behind the first, the third before it, and the first is detached. -/
theorem regions_disjoint_three_regions : ∃ s, (regionMachine plainOps).Reach RegionOk s ∧
    s.vmm.regionsRoot = [3, 2] ∧ (s.mem 3).vmBegin = 0x10000 ∧ (s.mem 2).vmBegin = 0x30000 ∧
    RegionsOk s := by
  have hrun : (((regionMachine plainOps).restrict fun s e => decide (RegionOk s e)).run freshSpace
      [.attach 1 0x20000 0x30000 fixedFlags, .attach 2 0 0x10000 floatFlags,
        .attach 3 0x10000 0x20000 fixedFlags, .detach 1]).map
      (fun s => (s.vmm.regionsRoot, (s.mem 3).vmBegin, (s.mem 2).vmBegin)) =
      some ([3, 2], 0x10000, 0x30000) := by decide +kernel
  obtain ⟨s, hs, heq⟩ := Option.map_eq_some_iff.mp hrun
  simp only [Prod.mk.injEq] at heq
  have hreach : (regionMachine plainOps).Reach RegionOk s :=
    Machine.Reachable.of_restrict (fun _ _ => of_decide_eq_true)
      (Machine.Reachable.run (.init freshSpace_init) _ hs)
  exact ⟨s, hreach, heq.1, heq.2.1, heq.2.2, (regions_disjoint plainOps s hreach).1⟩

/-- The second region begins before the first and ends inside it. -/
theorem regions_overlap : ¬∀ s, (regionMachine plainOps).Reachable s → RegionsOk s := by
  intro h
  obtain ⟨s, hs, hroot, hfirst, hsecond⟩ : ∃ s, (regionMachine plainOps).run freshSpace
      [.attach 1 0x20000 0x30000 fixedFlags, .attach 2 0x10000 0x30000 fixedFlags] = some s ∧
      s.vmm.regionsRoot = [2, 1] ∧ ((s.mem 1).vmBegin = 0x20000 ∧ (s.mem 1).vmEnd = 0x30000) ∧
      (s.mem 2).vmBegin = 0x10000 ∧ (s.mem 2).vmEnd = 0x30000 :=
    ⟨_, rfl, rfl, ⟨rfl, rfl⟩, rfl, rfl⟩
  obtain ⟨hdisjoint, -⟩ := h s (Machine.Reachable.run (.init freshSpace_init) _ hs)
  rw [hroot] at hdisjoint
  obtain ⟨hpair, -⟩ := List.pairwise_cons.mp hdisjoint
  refine hpair 1 (by simp) 0x20000 ?_
  unfold InRegion
  omega

end Almos.Vm
