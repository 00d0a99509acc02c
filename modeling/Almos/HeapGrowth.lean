import Almos.Machine
import Almos.VmRegion

/-!
# Growth of the heap

`vmm_sbrk` moves the limit of the region that `heap_region` points to. `vmm_dup` starts from a
byte copy of the parent's `vmm_s`: the child has its own regions, but `heap_current` and
`heap_region` of the parent.
-/
namespace Almos
open Word

/-- The fields of `vmm_s` that heap growth reads, and the attached regions. -/
structure HeapVmm where
  regionsRoot : List ℕ
  heapCurrent : ℕ
  heapRegion : ℕ

structure HeapState where
  mem : RegionMem
  vmms : ℕ → Option HeapVmm
  /-- The region structures that `kmem` handed out. -/
  inUse : List ℕ

namespace HeapGrowth
open Vm

/-- `CONFIG_TASK_HEAP_MIN_SIZE` -/
def taskHeapMinSize : ℕ := 0x00010000

def pageSize : ℕ := 0x1000

/-- `vmm_sbrk` -/
def vmmSbrk (s : HeapState) (vmm : HeapVmm) (current size : ℕ) : HeapState × Except Errno ℕ :=
  if current < vmm.heapCurrent then (s, .error .eagain)
  else if taskHeapMaxSize < wadd vmm.heapCurrent size then (s, .error .enomem)
  else
    let heap := s.mem vmm.heapRegion
    let heap := { heap with vmLimit := wadd heap.vmLimit size }
    ({ s with mem := Function.update s.mem vmm.heapRegion heap }, .ok 0)

/-- `sys_sbrk`, the size being a number of pages. -/
def sysSbrk (s : HeapState) (vmm : HeapVmm) (current size : ℕ) : HeapState × Except Errno ℕ :=
  if size = 0 then (s, .ok taskHeapMinSize)
  else vmmSbrk s vmm current (size * pageSize % 2 ^ 32)

/-- `vm_region_dup` of the regions, into the structures that `kmem_alloc` returned. -/
def copyRegions (mem : RegionMem) : List ℕ → List ℕ → RegionMem
  | src :: srcs, dst :: dsts => copyRegions (Function.update mem dst (mem src)) srcs dsts
  | _, _ => mem

/-- `vmm_dup`: when an allocation or a copy fails, the child is destroyed with its regions. -/
def vmmDup (s : HeapState) (dst : ℕ) (vmm : HeapVmm) (allocs : List ℕ) (ok : Bool) : HeapState :=
  let s := { s with mem := copyRegions s.mem vmm.regionsRoot allocs }
  if ok ∧ allocs.length = vmm.regionsRoot.length then
    { s with
      vmms := Function.update s.vmms dst (some { vmm with regionsRoot := allocs })
      inUse := allocs ++ s.inUse }
  else s

inductive Event
  | fork (dst src : ℕ) (allocs : List ℕ) (ok : Bool)
  | vmmSbrk (task current size : ℕ)
  | sysSbrk (task current size : ℕ)

def step (s : HeapState) : Event → Option HeapState
  | .fork dst src allocs ok =>
      match s.vmms src, s.vmms dst with
      | some vmm, none =>
          if allocs.Nodup ∧ (∀ p ∈ allocs, p ∉ s.inUse) then some (vmmDup s dst vmm allocs ok)
          else none
      | _, _ => none
  | .vmmSbrk task current size =>
      match s.vmms task with
      | some vmm => if size < 2 ^ 32 then some (vmmSbrk s vmm current size).1 else none
      | none => none
  | .sysSbrk task current size =>
      match s.vmms task with
      | some vmm => some (sysSbrk s vmm current size).1
      | none => none

/-- The heap that `do_exec` maps above the data of a program. -/
def execHeap (heapStart : ℕ) : VmRegion :=
  vmRegionInit heapStart (heapStart + taskHeapMinSize) ⟨true, true, false, false, true⟩

/-- Tasks after `do_exec`, with a first heap that fits. -/
structure Executed (s : HeapState) : Prop where
  used : ∀ task vmm, s.vmms task = some vmm → ∀ p ∈ vmm.regionsRoot, p ∈ s.inUse
  apart : ∀ task vmm task' vmm', s.vmms task = some vmm → s.vmms task' = some vmm' →
    task ≠ task' → ∀ p ∈ vmm.regionsRoot, p ∉ vmm'.regionsRoot
  heap : ∀ task vmm, s.vmms task = some vmm → vmm.heapRegion ∈ vmm.regionsRoot ∧
    (∀ p ∈ vmm.regionsRoot, (s.mem p).vmFlags.heap = true → p = vmm.heapRegion) ∧
    ∃ heapStart, heapStart + taskHeapMinSize ≤ taskHeapMaxSize ∧
      s.mem vmm.heapRegion = execHeap heapStart ∧ vmm.heapCurrent = heapStart + taskHeapMinSize

def machine : Machine HeapState Event where
  init := Executed
  step := step

/-- Where the limit of a heap region must be. -/
structure HeapBounds (r : VmRegion) : Prop where
  start_le : r.vmStart ≤ r.vmLimit
  le_end : r.vmLimit ≤ r.vmEnd
  le_max : r.vmLimit ≤ taskHeapMaxSize

structure HeapsOk (s : HeapState) : Prop where
  used : ∀ task vmm, s.vmms task = some vmm → ∀ p ∈ vmm.regionsRoot, p ∈ s.inUse
  apart : ∀ task vmm task' vmm', s.vmms task = some vmm → s.vmms task' = some vmm' →
    task ≠ task' → ∀ p ∈ vmm.regionsRoot, p ∉ vmm'.regionsRoot
  bounds : ∀ task vmm, s.vmms task = some vmm → ∀ p ∈ vmm.regionsRoot,
    (s.mem p).vmFlags.heap = true → HeapBounds (s.mem p) ∧ (s.mem p).vmEnd = taskHeapMaxSize
  /-- `heap_region` is the heap of some task, not always of the task itself. -/
  owned : ∀ task vmm, s.vmms task = some vmm → ∃ owner vmm', s.vmms owner = some vmm' ∧
    vmm.heapRegion ∈ vmm'.regionsRoot ∧ (s.mem vmm.heapRegion).vmFlags.heap = true

variable {s t : HeapState} {vmm : HeapVmm} {task current size : ℕ}

theorem HeapsOk.init (h : Executed s) : HeapsOk s := by
  refine ⟨h.used, h.apart, ?_, ?_⟩
  · intro task vmm htask p hp hheap
    obtain ⟨-, honly, heapStart, hfits, hmem, -⟩ := h.heap task vmm htask
    obtain rfl := honly p hp hheap
    have hend : (s.mem vmm.heapRegion).vmEnd = taskHeapMaxSize := by
      rw [hmem]
      rfl
    have hstart : (s.mem vmm.heapRegion).vmStart = heapStart := by rw [hmem]; rfl
    have hlimit : (s.mem vmm.heapRegion).vmLimit = heapStart + taskHeapMinSize := by rw [hmem]; rfl
    exact ⟨⟨by omega, by omega, by omega⟩, hend⟩
  · intro task vmm htask
    obtain ⟨hin, -, heapStart, -, hmem, -⟩ := h.heap task vmm htask
    exact ⟨task, vmm, htask, hin, by rw [hmem]; rfl⟩

/-- The condition on a call: it adds nothing, or it is refused, or the caller has the heap region
attached and its new limit is between its start and the maximum. -/
def GrowOk (s : HeapState) (vmm : HeapVmm) (current size : ℕ) : Prop :=
  vmm.heapCurrent ≤ current → wadd vmm.heapCurrent size ≤ taskHeapMaxSize → size = 0 ∨
    vmm.heapRegion ∈ vmm.regionsRoot ∧
      (s.mem vmm.heapRegion).vmStart ≤ wadd (s.mem vmm.heapRegion).vmLimit size ∧
      wadd (s.mem vmm.heapRegion).vmLimit size ≤ taskHeapMaxSize

theorem HeapsOk.setLimit (h : HeapsOk s) {heap limit : ℕ} (hlow : (s.mem heap).vmStart ≤ limit)
    (hhigh : limit ≤ taskHeapMaxSize) :
    HeapsOk { s with mem := Function.update s.mem heap { s.mem heap with vmLimit := limit } } := by
  have hflags : ∀ p, (Function.update s.mem heap { s.mem heap with vmLimit := limit } p).vmFlags =
      (s.mem p).vmFlags := by
    intro p
    rcases eq_or_ne p heap with rfl | hp
    · rw [Function.update_self]
    · rw [Function.update_of_ne hp]
  refine ⟨h.used, h.apart, ?_, ?_⟩
  · intro task vmm htask p hp hheap
    obtain ⟨hbounds, hend⟩ := h.bounds task vmm htask p hp (by rwa [← hflags])
    dsimp only
    rcases eq_or_ne p heap with rfl | hne
    · rw [Function.update_self]
      exact ⟨⟨hlow, by rw [hend]; exact hhigh, hhigh⟩, hend⟩
    · rw [Function.update_of_ne hne]
      exact ⟨hbounds, hend⟩
  · intro task vmm htask
    obtain ⟨owner, vmm', howner, hin, hheap⟩ := h.owned task vmm htask
    exact ⟨owner, vmm', howner, hin, by rwa [hflags]⟩

/-- A call under this condition changes at most the limit of the caller's own heap. -/
theorem HeapsOk.sbrk (h : HeapsOk s) (htask : s.vmms task = some vmm)
    (hok : GrowOk s vmm current size) :
    HeapsOk (vmmSbrk s vmm current size).1 ∧ ∀ other vmm', other ≠ task →
      s.vmms other = some vmm' → ∀ p ∈ vmm'.regionsRoot,
        (vmmSbrk s vmm current size).1.mem p = s.mem p := by
  unfold vmmSbrk
  split_ifs with hcurrent hmax
  · exact ⟨h, fun _ _ _ _ _ _ => rfl⟩
  · exact ⟨h, fun _ _ _ _ _ _ => rfl⟩
  · rcases hok (by omega) (by omega) with rfl | ⟨hown, hlow, hhigh⟩
    · -- nothing is added
      obtain ⟨owner, vmm', howner, hin, hheap⟩ := h.owned task vmm htask
      have hle := (h.bounds owner vmm' howner _ hin hheap).1.le_max
      have hsame : wadd (s.mem vmm.heapRegion).vmLimit 0 = (s.mem vmm.heapRegion).vmLimit :=
        wadd_of_lt (by unfold taskHeapMaxSize at hle; omega)
      simpa only [hsame, Function.update_eq_self, implies_true, and_true] using h
    · refine ⟨h.setLimit hlow hhigh, ?_⟩
      intro other vmm' hother hvmm' p hp
      have hne : p ≠ vmm.heapRegion := by
        rintro rfl
        exact h.apart other vmm' task vmm hvmm' htask hother _ hp hown
      exact Function.update_of_ne hne _ _

theorem HeapsOk.sysSbrk (h : HeapsOk s) (htask : s.vmms task = some vmm)
    (hok : size ≠ 0 → GrowOk s vmm current (size * pageSize % 2 ^ 32)) :
    HeapsOk (sysSbrk s vmm current size).1 ∧ ∀ other vmm', other ≠ task →
      s.vmms other = some vmm' → ∀ p ∈ vmm'.regionsRoot,
        (HeapGrowth.sysSbrk s vmm current size).1.mem p = s.mem p := by
  unfold HeapGrowth.sysSbrk
  split_ifs with hsize
  · exact ⟨h, fun _ _ _ _ _ _ => rfl⟩
  · exact h.sbrk htask (hok hsize)

theorem copyRegions_of_notMem {mem : RegionMem} {p : ℕ} (srcs dsts : List ℕ) (hp : p ∉ dsts) :
    copyRegions mem srcs dsts p = mem p := by
  induction srcs generalizing mem dsts with
  | nil => rfl
  | cons src srcs ih =>
    cases dsts with
    | nil => rfl
    | cons dst dsts =>
      rw [List.mem_cons, not_or] at hp
      rw [copyRegions, ih dsts hp.2, Function.update_of_ne hp.1]

theorem copyRegions_of_mem (mem : RegionMem) {p : ℕ} (srcs dsts : List ℕ) (hnodup : dsts.Nodup)
    (hlen : dsts.length = srcs.length) (hapart : ∀ q ∈ srcs, q ∉ dsts) (hp : p ∈ dsts) :
    ∃ q ∈ srcs, copyRegions mem srcs dsts p = mem q := by
  induction srcs generalizing mem dsts with
  | nil =>
    rw [List.length_eq_zero_iff.1 hlen] at hp
    simp at hp
  | cons src srcs ih =>
    cases dsts with
    | nil => simp at hp
    | cons dst dsts =>
      obtain ⟨hdst, hrest⟩ := List.nodup_cons.1 hnodup
      rw [copyRegions]
      cases List.mem_cons.1 hp with
      | inl heq =>
        subst heq
        refine ⟨src, by simp, ?_⟩
        rw [copyRegions_of_notMem srcs dsts hdst, Function.update_self]
      | inr hmem =>
        have hsrcs : ∀ q ∈ srcs, q ≠ dst ∧ q ∉ dsts := by
          intro q hq
          have hout := hapart q (by simp [hq])
          rwa [List.mem_cons, not_or] at hout
        obtain ⟨q, hq, heq⟩ := ih (Function.update mem dst (mem src)) dsts hrest
          (by simpa using hlen) (fun q hq => (hsrcs q hq).2) hmem
        refine ⟨q, by simp [hq], ?_⟩
        rw [heq, Function.update_of_ne (hsrcs q hq).1]

theorem HeapsOk.congr (h : HeapsOk s) {mem : RegionMem} (hsame : ∀ p ∈ s.inUse, mem p = s.mem p) :
    HeapsOk { s with mem := mem } := by
  refine ⟨h.used, h.apart, ?_, ?_⟩
  · intro task vmm htask p hp hheap
    have hmem := hsame p (h.used task vmm htask p hp)
    dsimp only at hheap ⊢
    rw [hmem] at hheap ⊢
    exact h.bounds task vmm htask p hp hheap
  · intro task vmm htask
    obtain ⟨owner, vmm', howner, hin, hheap⟩ := h.owned task vmm htask
    have hmem := hsame _ (h.used owner vmm' howner _ hin)
    exact ⟨owner, vmm', howner, hin, by dsimp only; rwa [hmem]⟩

theorem HeapsOk.fork {dst src : ℕ} {allocs : List ℕ} (h : HeapsOk s)
    (hsrc : s.vmms src = some vmm) (hdst : s.vmms dst = none) (hnodup : allocs.Nodup)
    (hfresh : ∀ p ∈ allocs, p ∉ s.inUse) (ok : Bool) : HeapsOk (vmmDup s dst vmm allocs ok) := by
  obtain ⟨mem, hmem⟩ : ∃ mem, mem = copyRegions s.mem vmm.regionsRoot allocs := ⟨_, rfl⟩
  have hold : ∀ p ∈ s.inUse, mem p = s.mem p := by
    intro p hp
    rw [hmem, copyRegions_of_notMem]
    exact fun hin => hfresh p hin hp
  have hbefore := h.congr hold
  unfold vmmDup
  rw [← hmem]
  dsimp only
  split_ifs with hdone
  · have hcases : ∀ task v, Function.update s.vmms dst (some { vmm with regionsRoot := allocs }) task =
        some v → task = dst ∧ v = { vmm with regionsRoot := allocs } ∨
          task ≠ dst ∧ s.vmms task = some v := by
      intro task v htask
      rcases eq_or_ne task dst with rfl | hne
      · rw [Function.update_self, Option.some_inj] at htask
        exact .inl ⟨rfl, htask.symm⟩
      · rw [Function.update_of_ne hne] at htask
        exact .inr ⟨hne, htask⟩
    refine ⟨?_, ?_, ?_, ?_⟩
    · intro task v htask p hp
      rcases hcases task v htask with ⟨-, rfl⟩ | ⟨-, hv⟩
      · exact List.mem_append_left _ hp
      · exact List.mem_append_right _ (h.used task v hv p hp)
    · intro task v task' v' htask htask' hne p hp hp'
      rcases hcases task v htask with ⟨rfl, rfl⟩ | ⟨-, hv⟩
      · rcases hcases task' v' htask' with ⟨rfl, -⟩ | ⟨-, hv'⟩
        · exact hne rfl
        · exact hfresh p hp (h.used task' v' hv' p hp')
      · rcases hcases task' v' htask' with ⟨rfl, rfl⟩ | ⟨-, hv'⟩
        · exact hfresh p hp' (h.used task v hv p hp)
        · exact h.apart task v task' v' hv hv' hne p hp hp'
    · intro task v htask p hp hheap
      rcases hcases task v htask with ⟨-, rfl⟩ | ⟨-, hv⟩
      · -- a region of the child has the fields of one of the parent
        obtain ⟨q, hq, hcopy⟩ := copyRegions_of_mem s.mem vmm.regionsRoot allocs hnodup hdone.2
          (fun q hq hin => hfresh q hin (h.used src vmm hsrc q hq)) hp
        rw [← hmem] at hcopy
        dsimp only at hheap ⊢
        rw [hcopy] at hheap ⊢
        exact h.bounds src vmm hsrc q hq hheap
      · exact hbefore.bounds task v hv p hp hheap
    · intro task v htask
      have howned : ∃ owner v', s.vmms owner = some v' ∧ v.heapRegion ∈ v'.regionsRoot ∧
          (mem v.heapRegion).vmFlags.heap = true := by
        rcases hcases task v htask with ⟨-, rfl⟩ | ⟨-, hv⟩
        · exact hbefore.owned src vmm hsrc
        · exact hbefore.owned task v hv
      obtain ⟨owner, v', howner, hin, hheap⟩ := howned
      have hne : owner ≠ dst := by
        rintro rfl
        simp [hdst] at howner
      exact ⟨owner, v', (Function.update_of_ne hne _ _).trans howner, hin, hheap⟩
  · exact hbefore

def Event.caller : Event → Option ℕ
  | .fork _ _ _ _ => none
  | .vmmSbrk task _ _ => some task
  | .sysSbrk task _ _ => some task

def EventOk (s : HeapState) : Event → Prop
  | .fork _ _ _ _ => True
  | .vmmSbrk task current size => ∀ vmm, s.vmms task = some vmm → GrowOk s vmm current size
  | .sysSbrk task current size => ∀ vmm, s.vmms task = some vmm → size ≠ 0 →
      GrowOk s vmm current (size * pageSize % 2 ^ 32)

def LeavesOthers (s t : HeapState) (caller : Option ℕ) : Prop :=
  ∀ task other vmm, caller = some task → other ≠ task → s.vmms other = some vmm →
    ∀ p ∈ vmm.regionsRoot, t.mem p = s.mem p

theorem HeapsOk.step {e : Event} (h : HeapsOk s) (hok : EventOk s e)
    (hstep : machine.step s e = some t) : HeapsOk t ∧ LeavesOthers s t e.caller := by
  change HeapGrowth.step s e = some t at hstep
  cases e with
  | fork dst src allocs ok =>
    simp only [HeapGrowth.step] at hstep
    split at hstep
    · rename_i vmm hsrc hdst
      split_ifs at hstep with hcall
      obtain rfl := Option.some_inj.1 hstep
      exact ⟨h.fork hsrc hdst hcall.1 hcall.2 ok, fun _ _ _ hcaller => by simp [Event.caller] at hcaller⟩
    · simp at hstep
  | vmmSbrk task current size =>
    simp only [HeapGrowth.step] at hstep
    split at hstep
    · rename_i vmm htask
      split_ifs at hstep with hsize
      obtain rfl := Option.some_inj.1 hstep
      obtain ⟨hnext, hothers⟩ := h.sbrk htask (hok vmm htask)
      refine ⟨hnext, ?_⟩
      rintro _ other vmm' ⟨⟩ hne hvmm'
      exact hothers other vmm' hne hvmm'
    · simp at hstep
  | sysSbrk task current size =>
    simp only [HeapGrowth.step] at hstep
    split at hstep
    · rename_i vmm htask
      obtain rfl := Option.some_inj.1 hstep
      obtain ⟨hnext, hothers⟩ := h.sysSbrk htask (hok vmm htask)
      refine ⟨hnext, ?_⟩
      rintro _ other vmm' ⟨⟩ hne hvmm'
      exact hothers other vmm' hne hvmm'
    · simp at hstep

/-- The heaps keep their bounds and a call leaves the regions of other tasks alone, in the runs
whose calls grow a heap of the caller up to the maximum only. -/
theorem heap_growth_confined (h : machine.Reach EventOk s) :
    (∀ task vmm, s.vmms task = some vmm → ∀ p ∈ vmm.regionsRoot,
      (s.mem p).vmFlags.heap = true → HeapBounds (s.mem p)) ∧
    ∀ e t, EventOk s e → machine.step s e = some t → LeavesOthers s t e.caller := by
  have hinv : HeapsOk s :=
    h.invariant (fun _ => HeapsOk.init) (fun _ _ _ hi hok hs => (hi.step hok hs).1)
  refine ⟨fun task vmm htask p hp hheap => (hinv.bounds task vmm htask p hp hheap).1, ?_⟩
  intro e t hok hstep
  exact (hinv.step hok hstep).2

def execVmm : HeapVmm := ⟨[1], 0x110000, 1⟩

def execState : HeapState :=
  ⟨fun _ => execHeap 0x100000, Function.update (fun _ => none) 0 (some execVmm), [1]⟩

theorem execState_init : machine.init execState := by
  have honly : ∀ task vmm, execState.vmms task = some vmm → task = 0 ∧ vmm = execVmm := by
    intro task vmm htask
    rcases eq_or_ne task 0 with rfl | hne
    · exact ⟨rfl, (Option.some_inj.1 htask).symm⟩
    · simp [execState, hne] at htask
  refine ⟨?_, ?_, ?_⟩
  · intro task vmm htask p hp
    rw [(honly task vmm htask).2] at hp
    exact hp
  · intro task vmm task' vmm' htask htask' hne
    exact absurd ((honly task vmm htask).1.trans (honly task' vmm' htask').1.symm) hne
  · intro task vmm htask
    rw [(honly task vmm htask).2]
    exact ⟨by decide, fun p hp _ => by simpa [execVmm] using hp, 0x100000, by decide, rfl, rfl⟩

def forkedState : HeapState := vmmDup execState 1 execVmm [2] true

theorem forkedState_step : machine.step execState (.fork 1 0 [2] true) = some forkedState := rfl

theorem heap_growth_confined_parent :
    (machine.step forkedState (.sysSbrk 0 0x110000 16)).isSome ∧
      ∀ t, machine.step forkedState (.sysSbrk 0 0x110000 16) = some t →
        LeavesOthers forkedState t (some 0) := by
  have hreach : machine.Reach EventOk forkedState :=
    .step (.init execState_init) (by trivial) forkedState_step
  refine ⟨rfl, fun t hstep => (heap_growth_confined hreach).2 (.sysSbrk 0 0x110000 16) t ?_ hstep⟩
  intro vmm hvmm _ _ _
  obtain rfl : execVmm = vmm := Option.some_inj.1 hvmm
  exact .inr ⟨by decide, by decide, by decide⟩

/-- The task after one growth of `0x2E000` pages. -/
def grownState : HeapState := (sysSbrk execState execVmm 0x110000 0x2E000).1

/-- A growth by the child moves the limit of the parent's heap; and a second growth passes the
maximum, since `heap_current` stays. -/
theorem heap_growth_escapes :
    (¬∀ s, machine.Reachable s → ∀ e t, machine.step s e = some t → LeavesOthers s t e.caller) ∧
    ¬∀ s, machine.Reachable s → ∀ task vmm, s.vmms task = some vmm → ∀ p ∈ vmm.regionsRoot,
      (s.mem p).vmFlags.heap = true → HeapBounds (s.mem p) := by
  constructor
  · intro hall
    have hreach : machine.Reachable forkedState :=
      .step (.init execState_init) trivial forkedState_step
    have hsame := hall _ hreach (.sysSbrk 1 0x110000 16) _ rfl 1 0 execVmm rfl (by decide) rfl 1
      (by decide)
    exact absurd (congrArg VmRegion.vmLimit hsame) (by decide)
  · intro hall
    have hgrown : machine.step execState (.sysSbrk 0 0x110000 0x2E000) = some grownState := rfl
    have hreach : machine.Reachable (sysSbrk grownState execVmm 0x110000 0x2E000).1 :=
      .step (e := .sysSbrk 0 0x110000 0x2E000) (.step (.init execState_init) trivial hgrown) trivial rfl
    have hbounds := hall _ hreach 0 execVmm rfl 1 (by decide) rfl
    exact absurd hbounds.le_max (by decide)

end HeapGrowth
end Almos
