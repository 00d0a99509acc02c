import Almos.Bits
import Almos.Machine
import Almos.VmPlacement
import Almos.VmmLookup
import Almos.Word

/-!
# Orders of threads

`sys_thread_create` in the steps between which other calls can run, and `thread_destroy`. What the
steps do under `th_lock` is one step each. The place of a stack is what `vmm_mmap` finds; the core
of a thread, the registration with its scheduler and the page tables are left out.
-/
namespace Almos

def Distinct {α ι : Type*} (own : α → Option ι) : Prop :=
  ∀ a b i, own a = some i → own b = some i → a = b

namespace Distinct
variable {α ι : Type*} [DecidableEq α] {own : α → Option ι} {a b : α} {i j : ι}

lemma take (h : Distinct own) (hfree : ∀ x, own x ≠ some i) :
    Distinct (Function.update own a (some i)) := by
  intro x y k hx hy
  rw [Function.update_apply] at hx hy
  split_ifs at hx hy with hxa hya hya
  · rw [hxa, hya]
  · rw [hx] at hfree
    exact absurd hy (hfree y)
  · rw [hy] at hfree
    exact absurd hx (hfree x)
  · exact h x y k hx hy

lemma drop (h : Distinct own) : Distinct (Function.update own a none) := by
  intro x y k hx hy
  rw [Function.update_apply] at hx hy
  split_ifs at hx hy
  exact h x y k hx hy

omit [DecidableEq α] in
lemma not_taken (h : Distinct own) (ha : own a = some i) (hne : b ≠ a) : own b ≠ some i :=
  fun hb => hne (h b a i hb ha)

lemma move (h : Distinct own) (ha : own a = some i) :
    Distinct (Function.update (Function.update own a none) b (some i)) := by
  refine h.drop.take fun x hx => ?_
  rw [Function.update_apply] at hx
  split_ifs at hx with hxa
  exact h.not_taken ha hxa hx

end Distinct

section Taken
variable {α ι : Type*} [DecidableEq α] {own : α → Option ι} {a b : α} {i j : ι}

lemma taken_take (ha : own a = none) :
    (∃ x, Function.update own a (some i) x = some j) ↔ j = i ∨ ∃ x, own x = some j := by
  constructor
  · rintro ⟨x, hx⟩
    rw [Function.update_apply] at hx
    split_ifs at hx
    · exact .inl (Option.some.inj hx).symm
    · exact .inr ⟨x, hx⟩
  · rintro (rfl | ⟨x, hx⟩)
    · exact ⟨a, Function.update_self ..⟩
    · refine ⟨x, ?_⟩
      rw [Function.update_of_ne]
      · exact hx
      · rintro rfl
        rw [ha] at hx
        cases hx

lemma taken_drop (h : Distinct own) (ha : own a = some i) :
    (∃ x, Function.update own a none x = some j) ↔ (∃ x, own x = some j) ∧ j ≠ i := by
  constructor
  · rintro ⟨x, hx⟩
    rw [Function.update_apply] at hx
    split_ifs at hx with hxa
    refine ⟨⟨x, hx⟩, ?_⟩
    rintro rfl
    exact h.not_taken ha hxa hx
  · rintro ⟨⟨x, hx⟩, hne⟩
    refine ⟨x, ?_⟩
    rw [Function.update_of_ne]
    · exact hx
    · rintro rfl
      rw [ha] at hx
      exact hne (Option.some.inj hx).symm

lemma taken_move (h : Distinct own) (ha : own a = some i) (hb : own b = none) :
    (∃ x, Function.update (Function.update own a none) b (some i) x = some j) ↔
      ∃ x, own x = some j := by
  have hb' : Function.update own a none b = none := by
    rw [Function.update_apply, hb, ite_self]
  rw [taken_take hb', taken_drop h ha]
  constructor
  · rintro (rfl | ⟨hx, -⟩)
    · exact ⟨a, ha⟩
    · exact hx
  · intro hx
    by_cases hij : j = i
    · exact .inl hij
    · exact .inr ⟨hx, hij⟩

end Taken

namespace ThreadOrders
open Bits Word

/-- `CONFIG_PTHREAD_THREADS_MAX` -/
def threadsMax : ℕ := 2048

/-- `CONFIG_KERNEL_OFFSET` -/
def kernelOffset : ℕ := 0x80000000

/-- `MAX_CPU_NR` -/
def maxCpuNr : ℤ := 1024

/-- `CONFIG_PTHREAD_STACK_SIZE` -/
def pthreadStackSize : ℕ := 512 * 1024

/-- `CONFIG_PTHREAD_STACK_MIN` -/
def pthreadStackMin : ℕ := 4096

/-- `SIG_DEFAULT_STACK_SIZE` -/
def sigStackSize : ℕ := 2048

/-- `CONFIG_VM_REGION_KEYWIDTH` -/
def regionKeywidth : ℕ := 16

inductive CreateErrno
  | kernel (err : Errno)
  | eperm
  | efault
deriving DecidableEq

/-- The fields of `pthread_attr_t` that are read here. -/
structure Attr where
  stackAddr : ℕ
  stackSize : ℕ
  cpuGid : ℤ
deriving DecidableEq

structure CreateArgs where
  tid : ℕ
  threadAttr : ℕ
  attr : Option Attr
  newKey : Bool

structure Region where
  vmStart : ℕ
  vmLimit : ℕ
deriving DecidableEq

/-- Where a call stands, with the order, the thread and the stack it has. -/
inductive Phase
  | checked (attr : Attr)
  | reserved (attr : Attr) (order : ℕ)
  | stacked (attr : Attr) (order : ℕ) (stack : Option Region)
  | givenBack (attr : Attr) (stack : Option Region)
  | built (order thread : ℕ) (stack : Option Region)
  | registered (order thread : ℕ) (stack : Option Region)

namespace Phase

def order : Phase → Option ℕ
  | reserved _ order | stacked _ order _ | built order _ _ | registered order _ _ => some order
  | _ => none

def thread : Phase → Option ℕ
  | built _ thread _ | registered _ thread _ => some thread
  | _ => none

def stack : Phase → Option Region
  | stacked _ _ stack | givenBack _ stack | built _ _ stack | registered _ _ stack => stack
  | _ => none

end Phase

/-- A task. `order` is the field `info.order` of its threads, `pages` are the threads that `kmem`
handed out, `live` those that were started and not destroyed, `calls` the calls by their threads.
`kept` are the regions at the start and the stacks of the threads that were started, and `returned`
is what a call returns that ends with the last step. -/
structure Task where
  threadsNr : ℕ
  threadsLimit : ℕ
  threadsCount : ℕ
  bitmap : Bitmap
  nextOrder : ℕ
  maxOrder : ℕ
  thTbl : ℕ → Option ℕ
  order : ℕ → ℕ
  regions : Finset Region
  regionsDb : ℕ → Option Region
  destroyed : Bool
  pages : Finset ℕ
  live : Finset ℕ
  calls : ℕ → Option Phase
  kept : Finset Region
  returned : Option (Option CreateErrno)

namespace Task

def setPhase (s : Task) (c : ℕ) (p : Phase) : Task :=
  { s with calls := Function.update s.calls c (some p), returned := none }

def ret (s : Task) (c : ℕ) (err : Option CreateErrno) : Task :=
  { s with calls := Function.update s.calls c none, returned := some err }

end Task

/-- `vmm_mmap` of a stack at a place; the database gets the first `bound` of its keys. -/
def vmmMmap (s : Task) (r : Region) (bound : ℕ) : Task :=
  { s with
    regions := insert r s.regions
    regionsDb := fun k =>
      if r.vmStart / 2 ^ regionKeywidth ≤ k ∧ k < r.vmStart / 2 ^ regionKeywidth + bound then some r
      else s.regionsDb k }

/-- The region that `vmm_munmap` detaches; of a part of a region nothing is detached. -/
def munmapped (s : Task) (vaddr length : ℕ) : Option Region :=
  match s.regionsDb (vaddr / 2 ^ regionKeywidth) with
  | none => none
  | some r =>
      if r.vmLimit < vaddr ∨ vaddr < r.vmStart then none
      else if r.vmStart = vaddr ∧ r.vmLimit = wadd vaddr length then some r
      else none

def vmmMunmap (s : Task) (vaddr length : ℕ) : Task :=
  match munmapped s vaddr length with
  | none => s
  | some r => { s with
      regions := s.regions.erase r
      regionsDb := fun k => if s.regionsDb k = some r then none else s.regionsDb k }

def Attr.bad (attr : Attr) : Bool :=
  (attr.stackSize ≠ 0 && attr.stackSize &&& 0xFFF ≠ 0) ||
    (attr.stackAddr ≠ 0 && attr.stackSize < 0x1000) || (attr.cpuGid > 0 && attr.cpuGid ≥ maxCpuNr)

/-- `sys_thread_create` up to the test of the limit. -/
def enter (s : Task) (c : ℕ) (args : CreateArgs) : Task :=
  if args.tid = 0 ∨ args.threadAttr = 0 then s.ret c (some (.kernel .einval))
  else if kernelOffset ≤ args.threadAttr ∨ kernelOffset ≤ wadd args.tid 8 then
    s.ret c (some .eperm)
  else
    match args.attr with
    | none => s.ret c (some .efault)
    | some attr =>
        if args.newKey = false then s.ret c (some .efault)
        else if attr.bad then s.ret c (some (.kernel .einval))
        else
          let attr := if attr.stackSize = 0 then { attr with stackSize := pthreadStackSize } else attr
          if s.threadsNr = s.threadsLimit then s.ret c (some (.kernel .eagain))
          else s.setPhase c (.checked attr)

def reserve (s : Task) (c : ℕ) (attr : Attr) : Task :=
  match bitmapFfs2 s.bitmap s.nextOrder (threadsMax / 8) with
  | some order =>
      { s with
        bitmap := bitmapClear s.bitmap order
        nextOrder := order + 1
        threadsNr := s.threadsNr + 1 }.setPhase c (.reserved attr order)
  | none => s.ret c (some (.kernel .eagain))

def Attr.mapSize (attr : Attr) : ℕ :=
  if attr.stackSize < pthreadStackMin then pthreadStackMin else attr.stackSize

def MayMap (s : Task) (r : Region) : Prop :=
  0 < r.vmStart ∧ r.vmLimit ≤ kernelOffset ∧
    ∀ q ∈ s.regions, r.vmLimit ≤ q.vmStart ∨ q.vmLimit ≤ r.vmStart

instance (s : Task) (r : Region) : Decidable (MayMap s r) := by
  unfold MayMap
  infer_instance

/-- The stack of `do_thread_create`. The label after a mapping that fails gives nothing back. -/
def mapStack (s : Task) (c : ℕ) (attr : Attr) (order : ℕ) (place : Option ℕ) (bound : ℕ) :
    Option Task :=
  if attr.stackAddr ≠ 0 then some (s.setPhase c (.stacked attr order none))
  else
    match place with
    | none => some (s.ret c (some (.kernel .enomem)))
    | some addr =>
        let r : Region := ⟨addr, addr + attr.mapSize⟩
        if MayMap s r then
          some ((vmmMmap s r bound).setPhase c (.stacked
            { attr with stackAddr := addr, stackSize := attr.mapSize - sigStackSize } order (some r)))
        else none

/-- `thread_create`; where it fails, the order is given back. -/
def create (s : Task) (c : ℕ) (attr : Attr) (order : ℕ) (stack : Option Region)
    (thread : Option ℕ) : Option Task :=
  match thread with
  | some t =>
      if t ∈ s.pages then none
      else some ({ s with pages := insert t s.pages }.setPhase c (.built order t stack))
  | none =>
      some ({ s with
        threadsNr := s.threadsNr - 1
        bitmap := bitmapSet s.bitmap order
        nextOrder := if order < s.nextOrder then order else s.nextOrder }.setPhase c
          (.givenBack attr stack))

/-- The last step of a failed `thread_create`, whose only error is `EAGAIN`. -/
def unmapStack (s : Task) (c : ℕ) (attr : Attr) : Task :=
  (vmmMunmap s attr.stackAddr (attr.stackSize + sigStackSize)).ret c (some (.kernel .eagain))

def register (s : Task) (c order t : ℕ) (stack : Option Region) : Task :=
  { s with
    order := Function.update s.order t order
    threadsCount := s.threadsCount + 1
    maxOrder := if s.maxOrder < order then order else s.maxOrder
    thTbl := Function.update s.thTbl order (some t) }.setPhase c (.registered order t stack)

/-- `thread_destroy`; with the last thread the task goes. -/
def threadDestroy (s : Task) (t : ℕ) : Task :=
  { s with
    thTbl := Function.update s.thTbl (s.order t) none
    threadsNr := s.threadsNr - 1
    bitmap := bitmapSet s.bitmap (s.order t)
    nextOrder := if s.order t < s.nextOrder then s.order t else s.nextOrder
    destroyed := s.destroyed || decide (s.threadsNr = 1)
    pages := s.pages.erase t
    live := s.live.erase t }

def copyTid (s : Task) (c t : ℕ) (stack : Option Region) (ok : Bool) : Task :=
  if ok = true then
    { s with live := insert t s.live, kept := s.kept ∪ stack.toFinset }.ret c none
  else (threadDestroy s t).ret c (some .efault)

/-- The steps of the calls by their threads, with what the environment decides. -/
inductive Event
  | enter (c : ℕ) (args : CreateArgs)
  | reserve (c : ℕ)
  | mapStack (c : ℕ) (place : Option ℕ) (bound : ℕ)
  | create (c : ℕ) (thread : Option ℕ)
  | unmapStack (c : ℕ)
  | register (c : ℕ)
  | copyTid (c : ℕ) (ok : Bool)
  | destroy (t : ℕ)

def step (s : Task) : Event → Option Task
  | .enter c args =>
      if c ∈ s.live then
        match s.calls c with
        | none => some (enter s c args)
        | some _ => none
      else none
  | .reserve c =>
      match s.calls c with
      | some (.checked attr) => some (reserve s c attr)
      | _ => none
  | .mapStack c place bound =>
      match s.calls c with
      | some (.reserved attr order) => mapStack s c attr order place bound
      | _ => none
  | .create c thread =>
      match s.calls c with
      | some (.stacked attr order stack) => create s c attr order stack thread
      | _ => none
  | .unmapStack c =>
      match s.calls c with
      | some (.givenBack attr _) => some (unmapStack s c attr)
      | _ => none
  | .register c =>
      match s.calls c with
      | some (.built order t stack) => some (register s c order t stack)
      | _ => none
  | .copyTid c ok =>
      match s.calls c with
      | some (.registered _ t stack) => some (copyTid s c t stack ok)
      | _ => none
  | .destroy t =>
      if t ∈ s.live then
        match s.calls t with
        | none => some { threadDestroy s t with returned := none }
        | some _ => none
      else none

structure Bookkeeping (s : Task) : Prop where
  threadsNr : s.threadsNr = s.live.card
  bitmap : ∀ i < threadsMax, bitmapState s.bitmap i = false ↔ ∃ t ∈ s.live, s.order t = i
  thTbl : ∀ i t, s.thTbl i = some t ↔ t ∈ s.live ∧ s.order t = i
  nextOrder : ∀ i < threadsMax, bitmapState s.bitmap i = true → s.nextOrder ≤ i
  regions : s.regions = s.kept

def Quiet (s : Task) : Prop := ∀ c, s.calls c = none

def OrdersDistinct (s : Task) : Prop :=
  ∀ t ∈ s.live, ∀ u ∈ s.live, s.order t = s.order u → t = u

def Exhausted (s : Task) : Prop :=
  s.threadsNr = s.threadsLimit ∨ ∀ i < threadsMax, bitmapState s.bitmap i = false

structure Start (s : Task) : Prop where
  books : Bookkeeping s
  quiet : Quiet s
  distinct : OrdersDistinct s
  orders : ∀ t ∈ s.live, s.order t < threadsMax
  pages : s.live ⊆ s.pages
  nextLe : s.nextOrder ≤ threadsMax

def machine : Machine Task Event where
  init := Start
  step := step

/-- Stacks can be mapped, a failed `thread_create` gets back the stack mapped for it and no other, and
the order can be copied to user space unless the stack was supplied. -/
def Spared (s : Task) : Event → Prop
  | .mapStack c place _ => ∀ attr order, s.calls c = some (.reserved attr order) →
      attr.stackAddr = 0 → place ≠ none
  | .unmapStack c => ∀ attr stack, s.calls c = some (.givenBack attr stack) →
      munmapped s attr.stackAddr (attr.stackSize + sigStackSize) = stack
  | .copyTid c ok => ∀ order t stack, s.calls c = some (.registered order t stack) →
      ok = false → stack = none
  | _ => True

/-- In a state `EAGAIN` is returned only if the limit is reached or no order is free. -/
def EagainExhausted (s : Task) : Prop :=
  ∀ e t, machine.step s e = some t → t.returned = some (some (.kernel .eagain)) → Exhausted s

/-- And no `thread_create` fails. -/
def Guard (s : Task) (e : Event) : Prop :=
  Spared s e ∧ ∀ c, e ≠ .create c none

inductive Moved (s : Task) : Event → Task → Prop
  | refused {c : ℕ} {args : CreateArgs} {err : CreateErrno} (idle : s.calls c = none)
      (limit : err = .kernel .eagain → s.threadsNr = s.threadsLimit) :
      Moved s (.enter c args) (s.ret c (some err))
  | entered {c : ℕ} {args : CreateArgs} (attr : Attr) (idle : s.calls c = none) :
      Moved s (.enter c args) (s.setPhase c (.checked attr))
  | ordered {c : ℕ} {attr : Attr} {order : ℕ} (phase : s.calls c = some (.checked attr))
      (found : bitmapFfs2 s.bitmap s.nextOrder (threadsMax / 8) = some order) :
      Moved s (.reserve c) ({ s with
        bitmap := bitmapClear s.bitmap order
        nextOrder := order + 1
        threadsNr := s.threadsNr + 1 }.setPhase c (.reserved attr order))
  | noOrder {c : ℕ} {attr : Attr} (phase : s.calls c = some (.checked attr))
      (missing : bitmapFfs2 s.bitmap s.nextOrder (threadsMax / 8) = none) :
      Moved s (.reserve c) (s.ret c (some (.kernel .eagain)))
  | supplied {c : ℕ} {place : Option ℕ} {bound : ℕ} {attr : Attr} {order : ℕ}
      (phase : s.calls c = some (.reserved attr order)) :
      Moved s (.mapStack c place bound) (s.setPhase c (.stacked attr order none))
  | noStack {c bound : ℕ} {attr : Attr} {order : ℕ}
      (phase : s.calls c = some (.reserved attr order)) (addr : attr.stackAddr = 0) :
      Moved s (.mapStack c none bound) (s.ret c (some (.kernel .enomem)))
  | mapped {c bound : ℕ} {place : Option ℕ} {attr : Attr} (attr' : Attr) {order : ℕ} (r : Region)
      (phase : s.calls c = some (.reserved attr order)) (fresh : r ∉ s.regions) :
      Moved s (.mapStack c place bound)
        ((vmmMmap s r bound).setPhase c (.stacked attr' order (some r)))
  | built {c t : ℕ} {attr : Attr} {order : ℕ} {stack : Option Region}
      (phase : s.calls c = some (.stacked attr order stack)) (fresh : t ∉ s.pages) :
      Moved s (.create c (some t)) ({ s with pages := insert t s.pages }.setPhase c
        (.built order t stack))
  | givenBack {c : ℕ} {attr : Attr} {order : ℕ} {stack : Option Region}
      (phase : s.calls c = some (.stacked attr order stack)) :
      Moved s (.create c none) ({ s with
        threadsNr := s.threadsNr - 1
        bitmap := bitmapSet s.bitmap order
        nextOrder := if order < s.nextOrder then order else s.nextOrder }.setPhase c
          (.givenBack attr stack))
  | unmapped {c : ℕ} {attr : Attr} {stack : Option Region}
      (phase : s.calls c = some (.givenBack attr stack)) :
      Moved s (.unmapStack c) (unmapStack s c attr)
  | registered {c order t : ℕ} {stack : Option Region}
      (phase : s.calls c = some (.built order t stack)) :
      Moved s (.register c) (register s c order t stack)
  | started {c order t : ℕ} {stack : Option Region}
      (phase : s.calls c = some (.registered order t stack)) :
      Moved s (.copyTid c true) ({ s with
        live := insert t s.live, kept := s.kept ∪ stack.toFinset }.ret c none)
  | withdrawn {c order t : ℕ} {stack : Option Region}
      (phase : s.calls c = some (.registered order t stack)) :
      Moved s (.copyTid c false) ((threadDestroy s t).ret c (some .efault))
  | destroyed {t : ℕ} (live : t ∈ s.live) (idle : s.calls t = none) :
      Moved s (.destroy t) { threadDestroy s t with returned := none }

variable {s t : Task} {e : Event}

lemma enter_moved (c : ℕ) (args : CreateArgs) (hidle : s.calls c = none) :
    Moved s (.enter c args) (enter s c args) := by
  unfold enter
  cases args.attr with
  | none =>
    simp only
    split_ifs <;> exact .refused hidle (by simp)
  | some attr =>
    simp only
    split_ifs with _ _ _ _ hlimit
    · exact .refused hidle (by simp)
    · exact .refused hidle (by simp)
    · exact .refused hidle (by simp)
    · exact .refused hidle (by simp)
    · exact .refused hidle fun _ => hlimit
    · exact .entered _ hidle
    · exact .entered _ hidle

lemma mapSize_pos (attr : Attr) : 0 < attr.mapSize := by
  unfold Attr.mapSize
  split_ifs with h
  · decide
  · exact Nat.lt_of_lt_of_le (by decide) (Nat.le_of_not_lt h)

lemma MayMap.fresh {r : Region} (h : MayMap s r) (hpos : r.vmStart < r.vmLimit) : r ∉ s.regions := by
  intro hr
  have hapart := h.2.2 r hr
  omega

lemma mapStack_moved {c : ℕ} {attr : Attr} {order : ℕ} {place : Option ℕ} {bound : ℕ}
    (hphase : s.calls c = some (.reserved attr order))
    (h : mapStack s c attr order place bound = some t) : Moved s (.mapStack c place bound) t := by
  unfold mapStack at h
  split_ifs at h with haddr
  · cases h
    exact .supplied hphase
  · cases place with
    | none =>
      cases h
      exact .noStack hphase (by simpa using haddr)
    | some addr =>
      simp only at h
      split_ifs at h with hmay
      cases h
      have hpos := mapSize_pos attr
      exact .mapped _ _ hphase (hmay.fresh (by simpa using hpos))

lemma create_moved {c : ℕ} {attr : Attr} {order : ℕ} {stack : Option Region} {thread : Option ℕ}
    (hphase : s.calls c = some (.stacked attr order stack))
    (h : create s c attr order stack thread = some t) : Moved s (.create c thread) t := by
  cases thread with
  | none =>
    cases h
    exact .givenBack hphase
  | some u =>
    simp only [create] at h
    split_ifs at h with hpage
    cases h
    exact .built hphase hpage

lemma moved_of_step (h : step s e = some t) : Moved s e t := by
  cases e with
  | enter c args =>
    simp only [step] at h
    split_ifs at h
    cases hidle : s.calls c with
    | none =>
      simp only [hidle] at h
      cases h
      exact enter_moved c args hidle
    | some p => simp [hidle] at h
  | reserve c =>
    simp only [step] at h
    split at h
    · rename_i attr hphase
      cases h
      unfold reserve
      cases hfound : bitmapFfs2 s.bitmap s.nextOrder (threadsMax / 8) with
      | none => exact .noOrder hphase hfound
      | some order => exact .ordered hphase hfound
    · cases h
  | mapStack c place bound =>
    simp only [step] at h
    split at h
    · rename_i hphase
      exact mapStack_moved hphase h
    · cases h
  | create c thread =>
    simp only [step] at h
    split at h
    · rename_i hphase
      exact create_moved hphase h
    · cases h
  | unmapStack c =>
    simp only [step] at h
    split at h
    · rename_i hphase
      cases h
      exact .unmapped hphase
    · cases h
  | register c =>
    simp only [step] at h
    split at h
    · rename_i hphase
      cases h
      exact .registered hphase
    · cases h
  | copyTid c ok =>
    simp only [step] at h
    split at h
    · rename_i hphase
      cases h
      cases ok with
      | true => exact .started hphase
      | false => exact .withdrawn hphase
    · cases h
  | destroy u =>
    simp only [step] at h
    split_ifs at h with hlive
    cases hidle : s.calls u with
    | none =>
      simp only [hidle] at h
      cases h
      exact .destroyed hlive hidle
    | some p => simp [hidle] at h

inductive Owner
  | thread (t : ℕ)
  | call (c : ℕ)
deriving DecidableEq

def holds (s : Task) : Owner → Option ℕ
  | .thread t => if t ∈ s.live then some (s.order t) else none
  | .call c => (s.calls c).bind Phase.order

structure Orders (s : Task) : Prop where
  distinct : Distinct (holds s)
  lt : ∀ o i, holds s o = some i → i < threadsMax
  taken : ∀ i < threadsMax, bitmapState s.bitmap i = false ↔ ∃ o, holds s o = some i
  count : s.threadsNr = clearBits s.bitmap threadsMax
  next : ∀ i < s.nextOrder, bitmapState s.bitmap i = false
  nextLe : s.nextOrder ≤ threadsMax

lemma holds_setPhase (s : Task) (c : ℕ) (p : Phase) :
    holds (s.setPhase c p) = Function.update (holds s) (.call c) p.order := by
  funext o
  cases o with
  | thread t => exact (Function.update_of_ne (by simp) ..).symm
  | call d =>
    by_cases hd : d = c
    · subst hd
      simp [holds, Task.setPhase]
    · simp [holds, Task.setPhase, hd]

lemma holds_ret (s : Task) (c : ℕ) (err : Option CreateErrno) :
    holds (s.ret c err) = Function.update (holds s) (.call c) none := by
  funext o
  cases o with
  | thread t => exact (Function.update_of_ne (by simp) ..).symm
  | call d =>
    by_cases hd : d = c
    · subst hd
      simp [holds, Task.ret]
    · simp [holds, Task.ret, hd]

lemma holds_call {c : ℕ} {p : Phase} (h : s.calls c = some p) : holds s (.call c) = p.order := by
  simp [holds, h]

lemma holds_idle {c : ℕ} (h : s.calls c = none) : holds s (.call c) = none := by
  simp [holds, h]

lemma holds_setPhase_same {u : Task} {c : ℕ} {p : Phase} (hu : holds u = holds s)
    (h : holds s (.call c) = p.order) : holds (u.setPhase c p) = holds s := by
  rw [holds_setPhase, hu, ← h, Function.update_eq_self]

lemma holds_ret_same {u : Task} {c : ℕ} (err : Option CreateErrno) (hu : holds u = holds s)
    (h : holds s (.call c) = none) : holds (u.ret c err) = holds s := by
  rw [holds_ret, hu, ← h, Function.update_eq_self]

lemma holds_dead {u : ℕ} (h : u ∉ s.live) : holds s (.thread u) = none := if_neg h

lemma holds_live {u : ℕ} (h : u ∈ s.live) : holds s (.thread u) = some (s.order u) := if_pos h

lemma holds_start (s : Task) (u : ℕ) (kept : Finset Region) :
    holds { s with live := insert u s.live, kept := kept } =
      Function.update (holds s) (.thread u) (some (s.order u)) := by
  funext o
  cases o with
  | call d => exact (Function.update_of_ne (by simp) ..).symm
  | thread w =>
    by_cases hw : w = u
    · subst hw
      simp [holds]
    · simp [holds, hw]

lemma holds_threadDestroy (s : Task) (u : ℕ) :
    holds (threadDestroy s u) = Function.update (holds s) (.thread u) none := by
  funext o
  cases o with
  | call d => exact (Function.update_of_ne (by simp) ..).symm
  | thread w =>
    by_cases hw : w = u
    · subst hw
      simp [holds, threadDestroy]
    · simp [holds, threadDestroy, hw]

lemma holds_setOrder {u : ℕ} (h : u ∉ s.live) (order : ℕ) :
    holds { s with order := Function.update s.order u order } = holds s := by
  funext o
  cases o with
  | call d => rfl
  | thread w =>
    by_cases hw : w ∈ s.live
    · have hne : w ≠ u := fun heq => h (heq ▸ hw)
      simp [holds, hw, hne]
    · simp [holds, hw]

namespace Orders

lemma congr (h : Orders s) (hholds : holds t = holds s) (hbitmap : t.bitmap = s.bitmap)
    (hnr : t.threadsNr = s.threadsNr) (hnext : t.nextOrder = s.nextOrder) : Orders t where
  distinct := hholds ▸ h.distinct
  lt := hholds ▸ h.lt
  taken := by rw [hholds, hbitmap]; exact h.taken
  count := by rw [hnr, hbitmap]; exact h.count
  next := by rw [hnext, hbitmap]; exact h.next
  nextLe := hnext ▸ h.nextLe

lemma take (h : Orders s) {o : Owner} {i : ℕ} (hnone : holds s o = none) (hi : i < threadsMax)
    (hfree : bitmapState s.bitmap i = true)
    (hleast : ∀ j < i, bitmapState s.bitmap j = false)
    (hholds : holds t = Function.update (holds s) o (some i))
    (hbitmap : t.bitmap = bitmapClear s.bitmap i) (hnr : t.threadsNr = s.threadsNr + 1)
    (hnext : t.nextOrder = i + 1) : Orders t where
  distinct := by
    rw [hholds]
    refine h.distinct.take fun x hx => ?_
    have hclear := (h.taken i hi).mpr ⟨x, hx⟩
    rw [hfree] at hclear
    cases hclear
  lt o' j hj := by
    rw [hholds, Function.update_apply] at hj
    split_ifs at hj
    · obtain rfl := Option.some.inj hj
      exact hi
    · exact h.lt o' j hj
  taken j hj := by
    rw [hholds, taken_take hnone, hbitmap, bitmapState_bitmapClear, ← h.taken j hj]
    by_cases hji : j = i
    · simp [hji]
    · simp [hji]
  count := by rw [hnr, hbitmap, clearBits_bitmapClear hi hfree, h.count]
  next j hj := by
    rw [hnext] at hj
    rw [hbitmap, bitmapState_bitmapClear]
    obtain hlt | rfl := Nat.lt_succ_iff_lt_or_eq.mp hj
    · simp [hleast j hlt]
    · simp
  nextLe := by omega

lemma drop (h : Orders s) {o : Owner} {i : ℕ} (hsome : holds s o = some i)
    (hholds : holds t = Function.update (holds s) o none)
    (hbitmap : t.bitmap = bitmapSet s.bitmap i) (hnr : t.threadsNr = s.threadsNr - 1)
    (hnext : t.nextOrder = if i < s.nextOrder then i else s.nextOrder) : Orders t where
  distinct := hholds ▸ h.distinct.drop
  lt o' j hj := by
    rw [hholds, Function.update_apply] at hj
    split_ifs at hj
    exact h.lt o' j hj
  taken j hj := by
    rw [hholds, taken_drop h.distinct hsome, hbitmap, bitmapState_bitmapSet, ← h.taken j hj]
    simp
  count := by
    have hi := h.lt o i hsome
    have hclear := clearBits_bitmapSet hi ((h.taken i hi).mpr ⟨o, hsome⟩)
    rw [hnr, hbitmap, h.count]
    omega
  next j hj := by
    have hcases : j < s.nextOrder ∧ j ≠ i := by
      rw [hnext] at hj
      split_ifs at hj <;> omega
    rw [hbitmap, bitmapState_bitmapSet, h.next j hcases.1]
    simp [hcases.2]
  nextLe := by
    have hle := h.nextLe
    rw [hnext]
    split_ifs <;> omega

lemma move (h : Orders s) {a b : Owner} {i : ℕ} (ha : holds s a = some i) (hb : holds s b = none)
    (hholds : holds t = Function.update (Function.update (holds s) a none) b (some i))
    (hbitmap : t.bitmap = s.bitmap) (hnr : t.threadsNr = s.threadsNr)
    (hnext : t.nextOrder = s.nextOrder) : Orders t where
  distinct := hholds ▸ h.distinct.move ha
  lt o' j hj := by
    rw [hholds, Function.update_apply, Function.update_apply] at hj
    split_ifs at hj
    · obtain rfl := Option.some.inj hj
      exact h.lt a _ ha
    · exact h.lt o' j hj
  taken j hj := by rw [hholds, taken_move h.distinct ha hb, hbitmap]; exact h.taken j hj
  count := by rw [hnr, hbitmap]; exact h.count
  next := by rw [hnext, hbitmap]; exact h.next
  nextLe := hnext ▸ h.nextLe

end Orders

def got {ι : Type*} (f : Phase → Option ι) (s : Task) (c : ℕ) : Option ι := (s.calls c).bind f

def Phase.entry : Phase → Option (ℕ × ℕ)
  | registered order thread _ => some (order, thread)
  | _ => none

def PlacedAt (s : Task) (i t : ℕ) : Prop :=
  t ∈ s.live ∧ s.order t = i ∨ ∃ c, got Phase.entry s c = some (i, t)

structure Named (s : Task) : Prop where
  tbl : ∀ i t, s.thTbl i = some t ↔ PlacedAt s i t
  ordered : ∀ c i t, got Phase.entry s c = some (i, t) → s.order t = i
  threads : Distinct (got Phase.thread s)
  fresh : ∀ c t, got Phase.thread s c = some t → t ∈ s.pages ∧ t ∉ s.live
  pages : s.live ⊆ s.pages

structure Stacks (s : Task) : Prop where
  regions : ∀ r, r ∈ s.regions ↔ r ∈ s.kept ∨ ∃ c, got Phase.stack s c = some r
  distinct : Distinct (got Phase.stack s)
  apart : ∀ c r, got Phase.stack s c = some r → r ∉ s.kept

section Got
variable {ι : Type*} {f : Phase → Option ι} {u : Task} {c : ℕ} {p : Phase}

lemma got_phase (h : s.calls c = some p) : got f s c = f p := by
  simp [got, h]

lemma got_idle (h : s.calls c = none) : got f s c = none := by
  simp [got, h]

lemma got_setPhase (h : u.calls = s.calls) :
    got f (u.setPhase c p) = Function.update (got f s) c (f p) := by
  funext d
  by_cases hd : d = c
  · subst hd
    simp [got, Task.setPhase]
  · simp [got, Task.setPhase, hd, h]

lemma got_ret (err : Option CreateErrno) (h : u.calls = s.calls) :
    got f (u.ret c err) = Function.update (got f s) c none := by
  funext d
  by_cases hd : d = c
  · subst hd
    simp [got, Task.ret]
  · simp [got, Task.ret, hd, h]

lemma got_setPhase_same (hu : u.calls = s.calls) (h : got f s c = f p) :
    got f (u.setPhase c p) = got f s := by
  rw [got_setPhase hu, ← h, Function.update_eq_self]

lemma got_ret_same (err : Option CreateErrno) (hu : u.calls = s.calls) (h : got f s c = none) :
    got f (u.ret c err) = got f s := by
  rw [got_ret err hu, ← h, Function.update_eq_self]

end Got

lemma vmmMunmap_eq (s : Task) (vaddr length : ℕ) : ∃ db, vmmMunmap s vaddr length =
    { s with
      regions := s.regions \ (munmapped s vaddr length).toFinset
      regionsDb := db } := by
  unfold vmmMunmap
  cases hr : munmapped s vaddr length with
  | none => exact ⟨s.regionsDb, by simp⟩
  | some r =>
    refine ⟨fun k => if s.regionsDb k = some r then none else s.regionsDb k, ?_⟩
    simp [Finset.sdiff_singleton_eq_erase]

lemma ffs2_some {bitmap : Bitmap} {next i : ℕ} (hle : next ≤ threadsMax)
    (hbelow : ∀ j < next, bitmapState bitmap j = false)
    (h : bitmapFfs2 bitmap next (threadsMax / 8) = some i) :
    i < threadsMax ∧ bitmapState bitmap i = true ∧ ∀ j < i, bitmapState bitmap j = false := by
  obtain hlt | rfl := Nat.lt_or_eq_of_le hle
  · have hspec := bitmapFfs2_spec bitmap (hlt : next < threadsMax / 8 * 8)
      (by decide : cpuWidth ∣ threadsMax / 8 * 8)
    rw [h] at hspec
    obtain ⟨hfrom, hi, hset, hclear⟩ := hspec
    refine ⟨hi, hset, fun j hj => ?_⟩
    rcases Nat.lt_or_ge j next with hjn | hjn
    · exact hbelow j hjn
    · exact hclear j hjn hj
  · exact absurd h (by simp [bitmapFfs2, threadsMax, cpuWidth, scanWords])

lemma ffs2_none {bitmap : Bitmap} {next : ℕ}
    (hbelow : ∀ j < next, bitmapState bitmap j = false)
    (h : bitmapFfs2 bitmap next (threadsMax / 8) = none) :
    ∀ j < threadsMax, bitmapState bitmap j = false := by
  intro j hj
  rcases Nat.lt_or_ge j next with hjn | hjn
  · exact hbelow j hjn
  · have hlt : next < threadsMax / 8 * 8 := Nat.lt_of_le_of_lt hjn hj
    have hspec := bitmapFfs2_spec bitmap hlt (by decide : cpuWidth ∣ threadsMax / 8 * 8)
    rw [h] at hspec
    exact hspec j hjn hj

lemma Orders.step (h : Orders s) (hn : Named s) (hspared : Spared s e) (hmoved : Moved s e t) :
    Orders t := by
  cases hmoved with
  | refused idle _ => exact h.congr (holds_ret_same _ rfl (holds_idle idle)) rfl rfl rfl
  | entered attr idle => exact h.congr (holds_setPhase_same rfl (holds_idle idle)) rfl rfl rfl
  | @ordered c attr order phase found =>
    obtain ⟨hlt, hfree, hleast⟩ := ffs2_some h.nextLe h.next found
    exact h.take (holds_call phase) hlt hfree hleast (holds_setPhase ..) rfl rfl rfl
  | noOrder phase missing => exact h.congr (holds_ret_same _ rfl (holds_call phase)) rfl rfl rfl
  | supplied phase =>
    exact h.congr (holds_setPhase_same rfl ((holds_call phase).trans rfl)) rfl rfl rfl
  | noStack phase addr => exact absurd rfl (hspared _ _ phase addr)
  | mapped attr' r phase fresh =>
    exact h.congr (holds_setPhase_same rfl ((holds_call phase).trans rfl)) rfl rfl rfl
  | built phase fresh =>
    exact h.congr (holds_setPhase_same rfl ((holds_call phase).trans rfl)) rfl rfl rfl
  | givenBack phase => exact h.drop (holds_call phase) (holds_setPhase ..) rfl rfl rfl
  | @unmapped c attr stack phase =>
    obtain ⟨db, hunmap⟩ := vmmMunmap_eq s attr.stackAddr (attr.stackSize + sigStackSize)
    unfold unmapStack
    rw [hunmap]
    exact h.congr (holds_ret_same _ rfl (holds_call phase)) rfl rfl rfl
  | registered phase =>
    have hlive := (hn.fresh _ _ (got_phase phase)).2
    exact h.congr (holds_setPhase_same (holds_setOrder hlive _) ((holds_call phase).trans rfl))
      rfl rfl rfl
  | @started c order u stack phase =>
    have hlive := (hn.fresh c u (got_phase phase)).2
    refine h.move (holds_call phase) (holds_dead hlive) ?_ rfl rfl rfl
    rw [holds_ret, holds_start, hn.ordered c order u (got_phase phase)]
    exact Function.update_comm (by simp) ..
  | @withdrawn c order u stack phase =>
    have hlive := (hn.fresh c u (got_phase phase)).2
    have horder := hn.ordered c order u (got_phase phase)
    refine h.drop (o := .call c) ((holds_call phase).trans (congrArg some horder.symm)) ?_ rfl rfl rfl
    rw [holds_ret, holds_threadDestroy, ← holds_dead hlive, Function.update_eq_self]
  | destroyed live idle => exact h.drop (holds_live live) (holds_threadDestroy ..) rfl rfl rfl

namespace Stacks

lemma congr (h : Stacks s) (hregions : t.regions = s.regions) (hkept : t.kept = s.kept)
    (hgot : got Phase.stack t = got Phase.stack s) : Stacks t where
  regions := by rw [hregions, hkept, hgot]; exact h.regions
  distinct := hgot ▸ h.distinct
  apart := by rw [hgot, hkept]; exact h.apart

lemma take (h : Stacks s) {c : ℕ} {r : Region} (hnone : got Phase.stack s c = none)
    (hfresh : r ∉ s.regions) (hregions : t.regions = insert r s.regions) (hkept : t.kept = s.kept)
    (hgot : got Phase.stack t = Function.update (got Phase.stack s) c (some r)) : Stacks t where
  regions q := by
    rw [hregions, hkept, hgot, taken_take hnone, Finset.mem_insert, h.regions q]
    tauto
  distinct := by
    rw [hgot]
    exact h.distinct.take fun d hd => hfresh ((h.regions r).mpr (.inr ⟨d, hd⟩))
  apart d q hq := by
    rw [hgot, Function.update_apply] at hq
    rw [hkept]
    split_ifs at hq
    · obtain rfl := Option.some.inj hq
      exact fun hmem => hfresh ((h.regions r).mpr (.inl hmem))
    · exact h.apart d q hq

lemma drop (h : Stacks s) {c : ℕ} {r : Region} (hsome : got Phase.stack s c = some r)
    (hregions : t.regions = s.regions \ {r}) (hkept : t.kept = s.kept)
    (hgot : got Phase.stack t = Function.update (got Phase.stack s) c none) : Stacks t where
  regions q := by
    have hapart := h.apart c r hsome
    have hne : q ∈ s.kept → q ≠ r := fun hq heq => hapart (heq ▸ hq)
    rw [hregions, hkept, hgot, taken_drop h.distinct hsome, Finset.mem_sdiff, Finset.mem_singleton,
      h.regions q]
    tauto
  distinct := hgot ▸ h.distinct.drop
  apart d q hq := by
    rw [hgot, Function.update_apply] at hq
    rw [hkept]
    split_ifs at hq
    exact h.apart d q hq

lemma keep (h : Stacks s) {c : ℕ} {r : Region} (hsome : got Phase.stack s c = some r)
    (hregions : t.regions = s.regions) (hkept : t.kept = s.kept ∪ {r})
    (hgot : got Phase.stack t = Function.update (got Phase.stack s) c none) : Stacks t where
  regions q := by
    have hin : q = r → q ∈ s.regions := fun hq => (h.regions q).mpr (.inr ⟨c, hq ▸ hsome⟩)
    rw [hregions, hkept, hgot, taken_drop h.distinct hsome, Finset.mem_union, Finset.mem_singleton]
    have hq := h.regions q
    tauto
  distinct := hgot ▸ h.distinct.drop
  apart d q hq := by
    rw [hgot, Function.update_apply] at hq
    split_ifs at hq with hd
    have hapart := h.apart d q hq
    have hne : q ≠ r := fun heq => h.distinct.not_taken hsome hd (heq ▸ hq)
    rw [hkept]
    simp [hapart, hne]

lemma step (h : Stacks s) (hspared : Spared s e) (hmoved : Moved s e t) : Stacks t := by
  cases hmoved with
  | refused idle _ => exact h.congr rfl rfl (got_ret_same _ rfl (got_idle idle))
  | entered attr idle => exact h.congr rfl rfl (got_setPhase_same rfl (got_idle idle))
  | ordered phase found =>
    exact h.congr rfl rfl (got_setPhase_same rfl ((got_phase phase).trans rfl))
  | noOrder phase missing => exact h.congr rfl rfl (got_ret_same _ rfl (got_phase phase))
  | supplied phase => exact h.congr rfl rfl (got_setPhase_same rfl ((got_phase phase).trans rfl))
  | noStack phase addr => exact h.congr rfl rfl (got_ret_same _ rfl (got_phase phase))
  | mapped attr' r phase fresh =>
    exact h.take (got_phase phase) fresh rfl rfl (got_setPhase rfl)
  | built phase fresh => exact h.congr rfl rfl (got_setPhase_same rfl ((got_phase phase).trans rfl))
  | givenBack phase => exact h.congr rfl rfl (got_setPhase_same rfl ((got_phase phase).trans rfl))
  | @unmapped c attr stack phase =>
    obtain ⟨db, hunmap⟩ := vmmMunmap_eq s attr.stackAddr (attr.stackSize + sigStackSize)
    rw [hspared attr stack phase] at hunmap
    unfold unmapStack
    rw [hunmap]
    cases stack with
    | none => exact h.congr (by simp [Task.ret]) rfl (got_ret_same _ rfl (got_phase phase))
    | some r => exact h.drop (got_phase phase) (by simp [Task.ret]) rfl (got_ret _ rfl)
  | registered phase => exact h.congr rfl rfl (got_setPhase_same rfl ((got_phase phase).trans rfl))
  | @started c order u stack phase =>
    cases stack with
    | none => exact h.congr rfl (by simp [Task.ret]) (got_ret_same _ rfl (got_phase phase))
    | some r => exact h.keep (got_phase phase) rfl (by simp [Task.ret]) (got_ret _ rfl)
  | @withdrawn c order u stack phase =>
    obtain rfl := hspared order u stack phase rfl
    exact h.congr rfl rfl (got_ret_same _ rfl (got_phase phase))
  | destroyed live idle => exact h.congr rfl rfl rfl

end Stacks

lemma entry_thread {c i u : ℕ} (h : got Phase.entry s c = some (i, u)) :
    got Phase.thread s c = some u ∧ holds s (.call c) = some i := by
  obtain ⟨p, hp, hentry⟩ := Option.bind_eq_some_iff.mp h
  cases p with
  | registered order thread stack =>
    obtain ⟨rfl, rfl⟩ := Prod.mk.inj (Option.some.inj hentry)
    exact ⟨got_phase hp, holds_call hp⟩
  | _ => cases hentry

namespace Named

lemma congr (h : Named s) (htbl : t.thTbl = s.thTbl) (horder : t.order = s.order)
    (hpages : t.pages = s.pages) (hlive : t.live = s.live)
    (hentry : got Phase.entry t = got Phase.entry s)
    (hthread : got Phase.thread t = got Phase.thread s) : Named t where
  tbl i u := by
    rw [htbl, h.tbl i u]
    unfold PlacedAt
    rw [hlive, horder, hentry]
  ordered c i u hc := by
    rw [hentry] at hc
    rw [horder]
    exact h.ordered c i u hc
  threads := hthread ▸ h.threads
  fresh c u hc := by
    rw [hthread] at hc
    rw [hpages, hlive]
    exact h.fresh c u hc
  pages := by
    rw [hlive, hpages]
    exact h.pages

lemma phase (h : Named s) {c : ℕ} {p q : Phase} {u : Task} (hp : s.calls c = some p)
    (hu : u.calls = s.calls) (htbl : u.thTbl = s.thTbl) (horder : u.order = s.order)
    (hpages : u.pages = s.pages) (hlive : u.live = s.live) (hentry : q.entry = p.entry)
    (hthread : q.thread = p.thread) : Named (u.setPhase c q) :=
  h.congr htbl horder hpages hlive
    (got_setPhase_same hu ((got_phase hp).trans hentry.symm))
    (got_setPhase_same hu ((got_phase hp).trans hthread.symm))

lemma ret (h : Named s) {c : ℕ} {u : Task} (err : Option CreateErrno)
    (hentry : got Phase.entry s c = none) (hthread : got Phase.thread s c = none)
    (hu : u.calls = s.calls) (htbl : u.thTbl = s.thTbl) (horder : u.order = s.order)
    (hpages : u.pages = s.pages) (hlive : u.live = s.live) : Named (u.ret c err) :=
  h.congr htbl horder hpages hlive (got_ret_same err hu hentry) (got_ret_same err hu hthread)

lemma built (h : Named s) {c u order : ℕ} {attr : Attr} {stack : Option Region}
    (hphase : s.calls c = some (.stacked attr order stack)) (hfresh : u ∉ s.pages) :
    Named ({ s with pages := insert u s.pages }.setPhase c (.built order u stack)) := by
  have hentry : got Phase.entry ({ s with pages := insert u s.pages }.setPhase c
      (.built order u stack)) = got Phase.entry s :=
    got_setPhase_same rfl ((got_phase hphase).trans rfl)
  have hthread : got Phase.thread ({ s with pages := insert u s.pages }.setPhase c
      (.built order u stack)) = Function.update (got Phase.thread s) c (some u) := got_setPhase rfl
  refine ⟨fun i w => ?_, fun d i w hd => ?_, ?_, fun d w hd => ?_, ?_⟩
  · refine (h.tbl i w).trans ?_
    unfold PlacedAt
    rw [hentry]
    rfl
  · rw [hentry] at hd
    exact h.ordered d i w hd
  · rw [hthread]
    exact h.threads.take fun d hd => hfresh (h.fresh d u hd).1
  · rw [hthread, Function.update_apply] at hd
    split_ifs at hd
    · obtain rfl := Option.some.inj hd
      exact ⟨Finset.mem_insert_self .., fun hlive => hfresh (h.pages hlive)⟩
    · exact ⟨Finset.mem_insert_of_mem (h.fresh d w hd).1, (h.fresh d w hd).2⟩
  · exact h.pages.trans (Finset.subset_insert ..)

lemma registered (h : Named s) (ho : Orders s) {c u order : ℕ} {stack : Option Region}
    (hphase : s.calls c = some (.built order u stack)) :
    Named (register s c order u stack) := by
  have hdead := (h.fresh c u (got_phase hphase)).2
  have hentry : got Phase.entry (register s c order u stack) =
      Function.update (got Phase.entry s) c (some (order, u)) := got_setPhase rfl
  have hthread : got Phase.thread (register s c order u stack) = got Phase.thread s :=
    got_setPhase_same rfl ((got_phase hphase).trans rfl)
  have hnone : got Phase.entry s c = none := got_phase hphase
  have hother : ∀ d i w, got Phase.entry s d = some (i, w) → d ≠ c ∧ w ≠ u ∧ i ≠ order := by
    intro d i w hd
    have hdc : d ≠ c := by
      rintro rfl
      rw [hnone] at hd
      cases hd
    obtain ⟨hw, hi⟩ := entry_thread hd
    refine ⟨hdc, fun heq => ?_, fun heq => ?_⟩
    · exact h.threads.not_taken (got_phase hphase) hdc (heq ▸ hw)
    · exact ho.distinct.not_taken (holds_call hphase) (by simpa using hdc) (heq ▸ hi)
  have hfree : ∀ w, w ∈ s.live → w ≠ u ∧ s.order w ≠ order := by
    intro w hw
    refine ⟨fun heq => hdead (heq ▸ hw), fun heq => ?_⟩
    exact ho.distinct.not_taken (holds_call hphase) (b := .thread w) (by simp)
      ((holds_live hw).trans (congrArg some heq))
  refine ⟨fun i w => ?_, fun d i w hd => ?_, hthread ▸ h.threads, fun d w hd => ?_, h.pages⟩
  · have hplaced : PlacedAt (register s c order u stack) i w ↔
        i = order ∧ w = u ∨ PlacedAt s i w := by
      unfold PlacedAt
      rw [hentry, taken_take hnone]
      have hlive : w ∈ s.live → Function.update s.order u order w = s.order w := fun hw =>
        Function.update_of_ne (hfree w hw).1 ..
      change w ∈ s.live ∧ Function.update s.order u order w = i ∨ _ ↔ _
      rw [and_congr_right fun hw => by rw [hlive hw], Prod.mk.injEq]
      tauto
    rw [hplaced]
    change Function.update s.thTbl order (some u) i = some w ↔ _
    rw [Function.update_apply]
    split_ifs with hi
    · subst hi
      constructor
      · intro heq
        exact .inl ⟨rfl, (Option.some.inj heq).symm⟩
      · rintro (⟨-, rfl⟩ | ⟨hw, horder⟩ | ⟨d, hd⟩)
        · rfl
        · exact absurd horder (hfree w hw).2
        · exact absurd rfl (hother d _ w hd).2.2
    · rw [h.tbl i w]
      exact ⟨.inr, fun hcases => hcases.resolve_left fun hne => hi hne.1⟩
  · rw [hentry, Function.update_apply] at hd
    change Function.update s.order u order w = i
    split_ifs at hd
    · obtain ⟨rfl, rfl⟩ := Prod.mk.inj (Option.some.inj hd)
      exact Function.update_self ..
    · rw [Function.update_of_ne (hother d i w hd).2.1]
      exact h.ordered d i w hd
  · rw [hthread] at hd
    exact h.fresh d w hd

lemma started (h : Named s) {c u order : ℕ} {stack : Option Region} {kept : Finset Region}
    (hphase : s.calls c = some (.registered order u stack)) :
    Named ({ s with live := insert u s.live, kept := kept }.ret c none) := by
  have hentry : got Phase.entry ({ s with live := insert u s.live, kept := kept }.ret c none) =
      Function.update (got Phase.entry s) c none := got_ret none rfl
  have hthread : got Phase.thread ({ s with live := insert u s.live, kept := kept }.ret c none) =
      Function.update (got Phase.thread s) c none := got_ret none rfl
  have hsome : got Phase.entry s c = some (order, u) := got_phase hphase
  have horder := h.ordered c order u hsome
  have hpage := (h.fresh c u (got_phase hphase)).1
  refine ⟨fun i w => ?_, fun d i w hd => ?_, hthread ▸ h.threads.drop, fun d w hd => ?_, ?_⟩
  · refine (h.tbl i w).trans ?_
    unfold PlacedAt
    rw [hentry]
    change _ ↔ w ∈ insert u s.live ∧ s.order w = i ∨ _
    constructor
    · rintro (⟨hw, hi⟩ | ⟨d, hd⟩)
      · exact .inl ⟨Finset.mem_insert_of_mem hw, hi⟩
      · by_cases hdc : d = c
        · subst hdc
          obtain ⟨rfl, rfl⟩ := Prod.mk.inj (Option.some.inj (hsome.symm.trans hd))
          exact .inl ⟨Finset.mem_insert_self .., horder⟩
        · exact .inr ⟨d, by rw [Function.update_of_ne hdc, hd]⟩
    · rintro (⟨hw, hi⟩ | ⟨d, hd⟩)
      · obtain rfl | hw := Finset.mem_insert.mp hw
        · exact .inr ⟨c, by rw [hsome, ← hi, horder]⟩
        · exact .inl ⟨hw, hi⟩
      · rw [Function.update_apply] at hd
        split_ifs at hd
        exact .inr ⟨d, hd⟩
  · rw [hentry, Function.update_apply] at hd
    split_ifs at hd
    exact h.ordered d i w hd
  · rw [hthread, Function.update_apply] at hd
    split_ifs at hd with hdc
    refine ⟨(h.fresh d w hd).1, fun hw => ?_⟩
    obtain rfl | hw := Finset.mem_insert.mp hw
    · exact h.threads.not_taken (got_phase hphase) hdc hd
    · exact (h.fresh d w hd).2 hw
  · exact Finset.insert_subset hpage h.pages

lemma destroy (h : Named s) {u : ℕ} (hplaced : PlacedAt s (s.order u) u)
    (htbl : t.thTbl = Function.update s.thTbl (s.order u) none) (horder : t.order = s.order)
    (hlive : t.live = s.live.erase u) (hpages : t.pages = s.pages.erase u)
    (hentry : ∀ d i w, got Phase.entry t d = some (i, w) ↔ got Phase.entry s d = some (i, w) ∧ w ≠ u)
    (hthread : ∀ d w, got Phase.thread t d = some w → got Phase.thread s d = some w ∧ w ≠ u) :
    Named t where
  tbl i w := by
    have hsame : PlacedAt s i w → (i = s.order u ↔ w = u) := by
      intro hw
      constructor
      · rintro rfl
        exact Option.some.inj (((h.tbl _ w).mpr hw).symm.trans ((h.tbl _ u).mpr hplaced))
      · rintro rfl
        obtain ⟨-, hi⟩ | ⟨c, hc⟩ := hw
        · exact hi.symm
        · exact (h.ordered c i w hc).symm
    have hleft : PlacedAt t i w ↔ PlacedAt s i w ∧ w ≠ u := by
      unfold PlacedAt
      rw [hlive, horder, Finset.mem_erase]
      simp only [hentry]
      constructor
      · rintro (⟨⟨hne, hw⟩, hi⟩ | ⟨d, hd, hne⟩)
        · exact ⟨.inl ⟨hw, hi⟩, hne⟩
        · exact ⟨.inr ⟨d, hd⟩, hne⟩
      · rintro ⟨⟨hw, hi⟩ | ⟨d, hd⟩, hne⟩
        · exact .inl ⟨⟨hne, hw⟩, hi⟩
        · exact .inr ⟨d, hd, hne⟩
    rw [hleft, htbl, Function.update_apply]
    split_ifs with hi
    · refine iff_of_false (by simp) fun hw => hw.2 ((hsame hw.1).mp hi)
    · rw [h.tbl i w]
      exact ⟨fun hw => ⟨hw, fun hwu => hi ((hsame hw).mpr hwu)⟩, fun hw => hw.1⟩
  ordered c i w hc := by
    rw [horder]
    exact h.ordered c i w ((hentry c i w).mp hc).1
  threads a b w ha hb := h.threads a b w (hthread a w ha).1 (hthread b w hb).1
  fresh c w hc := by
    obtain ⟨hw, hne⟩ := hthread c w hc
    obtain ⟨hpage, hdead⟩ := h.fresh c w hw
    rw [hpages, hlive]
    exact ⟨Finset.mem_erase.mpr ⟨hne, hpage⟩, fun hin => hdead (Finset.mem_of_mem_erase hin)⟩
  pages := by
    rw [hlive, hpages]
    exact Finset.erase_subset_erase _ h.pages

lemma withdrawn (h : Named s) {c u order : ℕ} {stack : Option Region}
    (err : Option CreateErrno) (hphase : s.calls c = some (.registered order u stack)) :
    Named ((threadDestroy s u).ret c err) := by
  have hsome : got Phase.entry s c = some (order, u) := got_phase hphase
  have horder := h.ordered c order u hsome
  have hentry : got Phase.entry ((threadDestroy s u).ret c err) =
      Function.update (got Phase.entry s) c none := got_ret err rfl
  have hthread : got Phase.thread ((threadDestroy s u).ret c err) =
      Function.update (got Phase.thread s) c none := got_ret err rfl
  have hplaced : PlacedAt s (s.order u) u := .inr ⟨c, by rw [hsome, horder]⟩
  refine h.destroy hplaced rfl rfl rfl rfl (fun d i w => ?_) fun d w hd => ?_
  · rw [hentry, Function.update_apply]
    split_ifs with hdc
    · rw [hdc, hsome]
      refine iff_of_false (by simp) ?_
      rintro ⟨heq, hne⟩
      exact hne (Prod.mk.inj (Option.some.inj heq)).2.symm
    · refine ⟨fun hd => ⟨hd, ?_⟩, fun hd => hd.1⟩
      rintro rfl
      exact h.threads.not_taken (got_phase hphase) hdc (entry_thread hd).1
  · rw [hthread, Function.update_apply] at hd
    split_ifs at hd with hdc
    exact ⟨hd, fun heq => h.threads.not_taken (got_phase hphase) hdc (heq ▸ hd)⟩

lemma destroyed (h : Named s) {u : ℕ} (hlive : u ∈ s.live) :
    Named { threadDestroy s u with returned := none } := by
  have hother : ∀ d w, got Phase.thread s d = some w → w ≠ u := by
    rintro d w hd rfl
    exact (h.fresh d w hd).2 hlive
  refine h.destroy (.inl ⟨hlive, rfl⟩) rfl rfl rfl rfl (fun d i w => ?_)
    fun d w hd => ⟨hd, hother d w hd⟩
  exact ⟨fun hd => ⟨hd, hother d w (entry_thread hd).1⟩, fun hd => hd.1⟩

lemma step (h : Named s) (ho : Orders s) (hmoved : Moved s e t) : Named t := by
  cases hmoved with
  | refused idle _ => exact h.ret _ (got_idle idle) (got_idle idle) rfl rfl rfl rfl rfl
  | entered attr idle =>
    exact h.congr rfl rfl rfl rfl (got_setPhase_same rfl (got_idle idle))
      (got_setPhase_same rfl (got_idle idle))
  | ordered phase found => exact h.phase phase rfl rfl rfl rfl rfl rfl rfl
  | noOrder phase missing => exact h.ret _ (got_phase phase) (got_phase phase) rfl rfl rfl rfl rfl
  | supplied phase => exact h.phase phase rfl rfl rfl rfl rfl rfl rfl
  | noStack phase addr => exact h.ret _ (got_phase phase) (got_phase phase) rfl rfl rfl rfl rfl
  | mapped attr' r phase fresh => exact h.phase phase rfl rfl rfl rfl rfl rfl rfl
  | built phase fresh => exact h.built phase fresh
  | givenBack phase => exact h.phase phase rfl rfl rfl rfl rfl rfl rfl
  | @unmapped c attr stack phase =>
    obtain ⟨db, hunmap⟩ := vmmMunmap_eq s attr.stackAddr (attr.stackSize + sigStackSize)
    unfold unmapStack
    rw [hunmap]
    exact h.ret _ (got_phase phase) (got_phase phase) rfl rfl rfl rfl rfl
  | registered phase => exact h.registered ho phase
  | started phase => exact h.started phase
  | withdrawn phase => exact h.withdrawn _ phase
  | destroyed live idle => exact h.destroyed live

end Named

structure Ok (s : Task) : Prop where
  orders : Orders s
  named : Named s
  mapped : Stacks s

lemma taken_quiet (hquiet : Quiet s) (i : ℕ) :
    (∃ o, holds s o = some i) ↔ ∃ u ∈ s.live, s.order u = i := by
  constructor
  · rintro ⟨o, ho⟩
    cases o with
    | thread u =>
      simp only [holds] at ho
      split_ifs at ho with hu
      exact ⟨u, hu, Option.some.inj ho⟩
    | call c =>
      rw [holds_idle (hquiet c)] at ho
      cases ho
  · rintro ⟨u, hu, rfl⟩
    exact ⟨.thread u, holds_live hu⟩

lemma placed_quiet (hquiet : Quiet s) (i u : ℕ) : PlacedAt s i u ↔ u ∈ s.live ∧ s.order u = i := by
  refine or_iff_left ?_
  rintro ⟨c, hc⟩
  rw [got_idle (hquiet c)] at hc
  cases hc

lemma mapped_quiet (hquiet : Quiet s) (r : Region) :
    (r ∈ s.kept ∨ ∃ c, got Phase.stack s c = some r) ↔ r ∈ s.kept := by
  refine or_iff_left ?_
  rintro ⟨c, hc⟩
  rw [got_idle (hquiet c)] at hc
  cases hc

lemma card_live (hdistinct : OrdersDistinct s) (hlt : ∀ u ∈ s.live, s.order u < threadsMax)
    (hbitmap : ∀ i < threadsMax, bitmapState s.bitmap i = false ↔ ∃ u ∈ s.live, s.order u = i) :
    s.live.card = clearBits s.bitmap threadsMax := by
  have himage : (Finset.range threadsMax).filter (fun i => bitmapState s.bitmap i = false) =
      s.live.image s.order := by
    ext i
    rw [Finset.mem_filter, Finset.mem_range, Finset.mem_image]
    constructor
    · rintro ⟨hi, hclear⟩
      exact (hbitmap i hi).mp hclear
    · rintro ⟨u, hu, rfl⟩
      exact ⟨hlt u hu, (hbitmap _ (hlt u hu)).mpr ⟨u, hu, rfl⟩⟩
  unfold clearBits
  rw [himage, Finset.card_image_of_injOn]
  exact fun u hu w hw heq => hdistinct u hu w hw heq

lemma Orders.live_distinct (h : Orders s) : OrdersDistinct s := by
  intro u hu w hw heq
  have hsame := h.distinct (.thread u) (.thread w) _ (holds_live hu)
    ((holds_live hw).trans (congrArg some heq.symm))
  exact Owner.thread.inj hsame

lemma Start.ok (h : Start s) : Ok s where
  orders :=
    { distinct := by
        intro a b i ha hb
        cases a with
        | call c =>
          rw [holds_idle (h.quiet c)] at ha
          cases ha
        | thread u =>
          cases b with
          | call c =>
            rw [holds_idle (h.quiet c)] at hb
            cases hb
          | thread w =>
            simp only [holds] at ha hb
            split_ifs at ha hb with hu hw
            have heq := (Option.some.inj ha).trans (Option.some.inj hb).symm
            rw [h.distinct u hu w hw heq]
      lt := by
        intro o i ho
        obtain ⟨u, hu, rfl⟩ := (taken_quiet h.quiet i).mp ⟨o, ho⟩
        exact h.orders u hu
      taken := fun i hi => (h.books.bitmap i hi).trans (taken_quiet h.quiet i).symm
      count := h.books.threadsNr.trans (card_live h.distinct h.orders h.books.bitmap)
      next := by
        intro i hi
        by_contra hset
        have hle := h.books.nextOrder i (Nat.lt_of_lt_of_le hi h.nextLe) (by simpa using hset)
        omega
      nextLe := h.nextLe }
  named :=
    { tbl := fun i u => (h.books.thTbl i u).trans (placed_quiet h.quiet i u).symm
      ordered := fun c i u hc => by
        rw [got_idle (h.quiet c)] at hc
        cases hc
      threads := fun a b u ha _ => by
        rw [got_idle (h.quiet a)] at ha
        cases ha
      fresh := fun c u hc => by
        rw [got_idle (h.quiet c)] at hc
        cases hc
      pages := h.pages }
  mapped :=
    { regions := fun r => by rw [h.books.regions, mapped_quiet h.quiet]
      distinct := fun a b u ha _ => by
        rw [got_idle (h.quiet a)] at ha
        cases ha
      apart := fun c r hc => by
        rw [got_idle (h.quiet c)] at hc
        cases hc }

lemma Ok.step (h : Ok s) (hspared : Spared s e) (hstep : step s e = some t) : Ok t :=
  have hmoved := moved_of_step hstep
  ⟨h.orders.step h.named hspared hmoved, h.named.step h.orders hmoved, h.mapped.step hspared hmoved⟩

lemma ok_of_reach (h : machine.Reach Spared s) : Ok s :=
  h.invariant (I := Ok) (fun _ => Start.ok) fun _ _ _ hok hspared hstep => hok.step hspared hstep

lemma Ok.books (h : Ok s) (hquiet : Quiet s) : Bookkeeping s where
  threadsNr := by
    refine h.orders.count.trans (card_live h.orders.live_distinct (fun u hu => ?_) fun i hi => ?_).symm
    · exact h.orders.lt (.thread u) _ (holds_live hu)
    · exact (h.orders.taken i hi).trans (taken_quiet hquiet i)
  bitmap i hi := (h.orders.taken i hi).trans (taken_quiet hquiet i)
  thTbl i u := (h.named.tbl i u).trans (placed_quiet hquiet i u)
  nextOrder i _ hset := by
    by_contra hlt
    rw [h.orders.next i (by omega)] at hset
    cases hset
  regions := by
    ext r
    rw [h.mapped.regions r, mapped_quiet hquiet]

/-- A call whose `thread_create` failed. -/
def Undoing (s : Task) : Prop := ∃ c attr stack, s.calls c = some (.givenBack attr stack)

lemma not_undoing_setPhase {u : Task} {c : ℕ} {p : Phase} (h : ¬Undoing s) (hu : u.calls = s.calls)
    (hp : ∀ attr stack, p ≠ .givenBack attr stack) : ¬Undoing (u.setPhase c p) := by
  rintro ⟨d, attr, stack, hd⟩
  simp only [Task.setPhase, Function.update_apply] at hd
  split_ifs at hd
  · exact hp attr stack (Option.some.inj hd)
  · exact h ⟨d, attr, stack, hu ▸ hd⟩

lemma not_undoing_ret {u : Task} {c : ℕ} {err : Option CreateErrno} (h : ¬Undoing s)
    (hu : u.calls = s.calls) : ¬Undoing (u.ret c err) := by
  rintro ⟨d, attr, stack, hd⟩
  simp only [Task.ret, Function.update_apply] at hd
  split_ifs at hd
  exact h ⟨d, attr, stack, hu ▸ hd⟩

lemma not_undoing_step (h : ¬Undoing s) (hcreate : ∀ c, e ≠ .create c none) (hmoved : Moved s e t) :
    ¬Undoing t := by
  cases hmoved with
  | refused idle _ => exact not_undoing_ret h rfl
  | entered attr idle => exact not_undoing_setPhase h rfl (by simp)
  | ordered phase found => exact not_undoing_setPhase h rfl (by simp)
  | noOrder phase missing => exact not_undoing_ret h rfl
  | supplied phase => exact not_undoing_setPhase h rfl (by simp)
  | noStack phase addr => exact not_undoing_ret h rfl
  | mapped attr' r phase fresh => exact not_undoing_setPhase h rfl (by simp)
  | built phase fresh => exact not_undoing_setPhase h rfl (by simp)
  | givenBack phase => exact absurd rfl (hcreate _)
  | unmapped phase => exact absurd ⟨_, _, _, phase⟩ h
  | registered phase => exact not_undoing_setPhase h rfl (by simp)
  | started phase => exact not_undoing_ret h rfl
  | withdrawn phase => exact not_undoing_ret h rfl
  | destroyed live idle => exact h

lemma exhausted_of_eagain (h : Orders s) (hundoing : ¬Undoing s) (hmoved : Moved s e t)
    (hret : t.returned = some (some (.kernel .eagain))) : Exhausted s := by
  cases hmoved with
  | refused idle limit => exact .inl (limit (Option.some.inj (Option.some.inj hret)))
  | noOrder phase missing => exact .inr (ffs2_none h.next missing)
  | unmapped phase => exact absurd ⟨_, _, _, phase⟩ hundoing
  | _ => cases hret

lemma spared_of_guard (h : machine.Reach Guard s) : machine.Reach Spared s := by
  induction h with
  | init start => exact .init start
  | step _ guard next ih => exact .step ih guard.1 next

/-- Where calls are spared, the live threads have orders of their own, and between operations the
books are those of the live threads. Where moreover no `thread_create` fails, `EAGAIN` tells that the
limit is reached or no order is free. -/
theorem thread_create_bookkeeping :
    (machine.Reach Spared s → OrdersDistinct s ∧ (Quiet s → Bookkeeping s)) ∧
      (machine.Reach Guard s →
        OrdersDistinct s ∧ (Quiet s → Bookkeeping s) ∧ EagainExhausted s) := by
  have hspared : machine.Reach Spared s → OrdersDistinct s ∧ (Quiet s → Bookkeeping s) := fun h =>
    ⟨(ok_of_reach h).orders.live_distinct, (ok_of_reach h).books⟩
  refine ⟨hspared, fun h => ?_⟩
  have hreach := spared_of_guard h
  refine ⟨(hspared hreach).1, (hspared hreach).2, fun e t hstep hret => ?_⟩
  have hundoing : ¬Undoing s := by
    refine h.invariant (I := fun s => ¬Undoing s) (fun s hstart => ?_) fun s e t hnone hg hnext => ?_
    · rintro ⟨c, attr, stack, hc⟩
      rw [hstart.quiet c] at hc
      cases hc
    · exact not_undoing_step hnone hg.2 (moved_of_step hnext)
  exact exhausted_of_eagain (ok_of_reach hreach).orders hundoing (moved_of_step hstep) hret

def oneThread : Task where
  threadsNr := 1
  threadsLimit := threadsMax
  threadsCount := 1
  bitmap := bitmapClear (fun _ => BitVec.allOnes 32) 0
  nextOrder := 1
  maxOrder := 0
  thTbl := Function.update (fun _ => none) 0 (some 7)
  order := fun _ => 0
  regions := ∅
  regionsDb := fun _ => none
  destroyed := false
  pages := {7}
  live := {7}
  calls := fun _ => none
  kept := ∅
  returned := none

lemma oneThread_bit (i : ℕ) : bitmapState oneThread.bitmap i = !decide (i = 0) := by
  have hones : bitmapState (fun _ => BitVec.allOnes 32) i = true := by
    unfold bitmapState
    rw [BitVec.getLsbD_allOnes]
    exact decide_eq_true (Nat.mod_lt _ (by decide))
  exact (bitmapState_bitmapClear _ 0 i).trans (by rw [hones, Bool.true_and])

lemma oneThread_start : Start oneThread := by
  refine ⟨⟨rfl, fun i _ => ?_, fun i u => ?_, fun i _ hset => ?_, rfl⟩, fun _ => rfl, ?_, ?_, ?_, ?_⟩
  · have hlive : (∃ t ∈ oneThread.live, oneThread.order t = i) ↔ i = 0 :=
      ⟨fun ⟨_, _, h⟩ => h.symm, fun h => ⟨7, Finset.mem_singleton_self 7, h.symm⟩⟩
    rw [oneThread_bit, hlive]
    simp
  · by_cases hi : i = 0
    · simp [oneThread, hi, eq_comm]
    · simp [oneThread, hi, Ne.symm hi]
  · rw [oneThread_bit] at hset
    have hne : i ≠ 0 := by simpa using hset
    exact Nat.one_le_iff_ne_zero.mpr hne
  · intro u hu w hw _
    rw [Finset.mem_singleton.mp hu, Finset.mem_singleton.mp hw]
  · intro u _
    exact (by decide : 0 < threadsMax)
  · exact Finset.Subset.refl _
  · exact (by decide : 1 ≤ threadsMax)

def oneCall : List Event :=
  [.enter 7 ⟨0x1000, 0x2000, some ⟨0, 0, -1⟩, true⟩, .reserve 7]

def allSucceed (_ : Task) : Event → Bool
  | .mapStack _ place _ => place.isSome
  | .create _ thread => thread.isSome
  | .unmapStack _ => false
  | .copyTid _ ok => ok
  | _ => true

lemma guard_of_allSucceed (s : Task) (e : Event) (h : allSucceed s e = true) : Guard s e := by
  cases e with
  | mapStack c place bound => exact ⟨fun _ _ _ _ hnone => by simp [allSucceed, hnone] at h, by simp⟩
  | create c thread =>
    refine ⟨trivial, ?_⟩
    rintro d ⟨⟩
    cases h
  | unmapStack c => cases h
  | copyTid c ok => exact ⟨fun _ _ _ _ hfalse => by simp [allSucceed, hfalse] at h, by simp⟩
  | _ => exact ⟨trivial, by simp⟩

/-- A second thread is created. -/
theorem thread_create_bookkeeping_second : ∃ s : Task,
    machine.run oneThread (oneCall ++ [.mapStack 7 (some 0x10000) 9, .create 7 (some 8), .register 7,
      .copyTid 7 true]) = some s ∧
        OrdersDistinct s ∧ (Quiet s → Bookkeeping s) ∧ EagainExhausted s := by
  have hrun : ∃ s, (machine.restrict allSucceed).run oneThread (oneCall ++
      [.mapStack 7 (some 0x10000) 9, .create 7 (some 8), .register 7, .copyTid 7 true]) = some s :=
    ⟨_, rfl⟩
  obtain ⟨s, hs⟩ := hrun
  have hreach : machine.Reach Guard s :=
    Machine.Reachable.of_restrict guard_of_allSucceed (.run (.init oneThread_start) _ hs)
  exact ⟨s, hs, thread_create_bookkeeping.2 hreach⟩

/-- The stack of a second thread cannot be mapped: its order is gone, and it is counted. -/
theorem failed_mapping_keeps_order : ∃ s : Task, machine.Reachable s ∧ Quiet s ∧
    s.returned = some (some (.kernel .enomem)) ∧ s.threadsNr = 2 ∧ s.live.card = 1 ∧
      ¬Bookkeeping s := by
  obtain ⟨s, hs⟩ : ∃ s, machine.run oneThread (oneCall ++ [.mapStack 7 none 0]) = some s := ⟨_, rfl⟩
  have hreach : machine.Reachable s := .run (.init oneThread_start) _ hs
  obtain rfl := Option.some.inj hs
  refine ⟨_, hreach, fun c => ?_, rfl, rfl, rfl, fun hbooks => ?_⟩
  · by_cases hc : c = 7
    · subst hc
      rfl
    · exact (Function.update_of_ne hc ..).trans
        ((Function.update_of_ne hc ..).trans (Function.update_of_ne hc ..))
  · cases hbooks.threadsNr

section Mapping
open Vm (MmapOk SpaceOk)
variable {mem mem' : RegionMem} {vmm vmm' : Vmm} {s s' : Kernel} {t : Task} {region : ℕ}

def regionOf (r : VmRegion) : Region := ⟨r.vmStart, r.vmLimit⟩

/-- The task has the regions of the address space and the keys bound to them. -/
structure Seen (mem : RegionMem) (vmm : Vmm) (t : Task) : Prop where
  regions : ∀ r, r ∈ t.regions ↔ ∃ p ∈ vmm.regionsRoot, regionOf (mem p) = r
  keys : ∀ k, (vmm.regionsDb.get k).map (fun p => regionOf (mem p)) = t.regionsDb k

lemma Seen.congr (h : Seen mem vmm t) (hspace : SpaceOk mem vmm)
    (hsame : ∀ p ∈ vmm.regionsRoot, mem' p = mem p) : Seen mem' vmm t := by
  refine ⟨fun r => ?_, fun k => ?_⟩
  · rw [h.regions r]
    refine exists_congr fun p => and_congr_right fun hp => ?_
    rw [hsame p hp]
  · rw [← h.keys k]
    refine Option.map_congr fun p hp => ?_
    rw [hsame p (hspace.keys k p hp).1]

lemma Seen.mapped (h : Seen mem vmm t) {bound : ℕ}
    (hroot : ∀ p, p ∈ vmm'.regionsRoot ↔ p = region ∨ p ∈ vmm.regionsRoot)
    (hkeys : ∀ k, vmm'.regionsDb.get k =
      if (mem region).vmStart / 2 ^ regionKeywidth ≤ k ∧
          k < (mem region).vmStart / 2 ^ regionKeywidth + bound then some region
      else vmm.regionsDb.get k) : Seen mem vmm' (vmmMmap t (regionOf (mem region)) bound) := by
  refine ⟨fun r => ?_, fun k => ?_⟩
  · simp [vmmMmap, hroot, h.regions, eq_comm]
  · have hmapped : (vmmMmap t (regionOf (mem region)) bound).regionsDb k =
        if (mem region).vmStart / 2 ^ regionKeywidth ≤ k ∧
            k < (mem region).vmStart / 2 ^ regionKeywidth + bound then some (regionOf (mem region))
        else t.regionsDb k := rfl
    rw [hkeys k, hmapped]
    split_ifs
    · rfl
    · exact h.keys k

/-- `vmm_mmap` of a region at a place of its own is, seen from the task, the mapping of a stack. -/
theorem Seen.vmmMmap {rb : RbOps} {task grants : ℕ} {a : Vm.MmapArgs} (h : Seen s.mem vmm t)
    (hspace : SpaceOk s.mem vmm) (hok : MmapOk s.mem vmm a) (hfloat : a.flags.fixed = false)
    (hfresh : region ∉ vmm.regionsRoot)
    (hrun : Vm.vmmMmap rb (Vm.kmemAlloc s region) task vmm region a grants = some s') :
    s'.vmms = s.vmms ∧ Seen s'.mem vmm t ∨ ∃ vmm' bound, s'.vmms task = some vmm' ∧
      Seen s'.mem vmm' (vmmMmap t (regionOf (s'.mem region)) bound) := by
  have hne : ∀ p ∈ vmm.regionsRoot, p ≠ region := fun p hp heq => hfresh (heq ▸ hp)
  have hold : ∀ p ∈ vmm.regionsRoot, Function.update s.mem region a.asked p = s.mem p :=
    fun p hp => Function.update_of_ne (hne p hp) _ _
  rw [Vm.vmmMmap_of_mapped hok.2.1] at hrun
  obtain ⟨err, hatt⟩ | ⟨mem', vmm', hatt, hdone, hgood⟩ :=
    hspace.attach_float rb hok hfloat hfresh hold (Function.update_self ..)
  · simp only [hatt, Option.some.injEq] at hrun
    subst hrun
    exact .inl ⟨rfl, h.congr hspace hold⟩
  · have hstart : (mem' region).vmStart = (mem' region).vmBegin := by
      obtain ⟨start, -, heq⟩ := (hspace.congr hold).ordered.attach_float_region
        (by rw [Function.update_self]; exact hfloat) hatt
      rw [heq]
    have hseen : Seen mem' vmm t :=
      h.congr hspace fun p hp => (hdone.same p (hne p hp)).trans (hold p hp)
    obtain ⟨db, err, hbind, hget⟩ := KeysDb.bind_spec vmm'.regionsDb region grants
      (Vm.keys_bound hgood.nonempty.le hgood.bound)
    simp only [hatt, Vm.vmmKeysdbUpdate, Vm.regionKeys, hbind, Option.some.injEq] at hrun
    subst hrun
    rw [hdone.db, ← hstart] at hget
    obtain hnew | hkeep := hget
    · exact .inr ⟨_, _, Function.update_self .., hseen.mapped hdone.root hnew⟩
    · exact .inr ⟨_, 0, Function.update_self .., hseen.mapped hdone.root fun k => by
        rw [hkeep k, if_neg (by omega)]⟩

end Mapping

end ThreadOrders
end Almos
