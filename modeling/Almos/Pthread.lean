import Mathlib
import Almos.Machine

/-!
# User-level mutexes and condition variables

Process-private mutexes and condition variables of libpthread. A thread is put in a queue by the link
of its own `__shared_s` and sleeps after it has released the spin lock; a wakeup is remembered until
its next sleep. A spin-locked section is one step, and what a thread does with a condition variable is
cut at its system calls.
-/
namespace Almos.Pthread

/-- Error codes, and `fault` where the root of an empty queue would be taken for a thread. -/
inductive PtError
  | einval
  | edeadlk
  | eperm
  | ebusy
  | fault
deriving DecidableEq

/-- `value` of a mutex; the two constants are no thread ids. -/
inductive MutexValue (ι : Type*)
  | free
  | destroyed
  | thread (tid : ι)
deriving DecidableEq

/-- `pthread_mutex_t` with private scope; `recursive` and `cntr` are in its `attr`. -/
structure Mutex (ι : Type*) where
  value : MutexValue ι
  waiting : ℕ
  queue : List ι
  recursive : Bool
  cntr : UInt32

/-- `pthread_cond_t` with private scope -/
structure Cond (ι : Type*) where
  count : ℕ
  queue : List ι

variable {ι κ χ : Type*}

/-- `list_add_last`; the root is initialized by the first thread that waits. -/
def addLast (waiting : ℕ) (queue : List ι) (this : ι) : List ι :=
  (if waiting = 0 then [] else queue) ++ [this]

section Mutex
variable [DecidableEq ι]

/-- `pthread_mutex_lock` up to its spin lock, unless it returns before. -/
def pthreadMutexLock (mutex : Mutex ι) (this : ι) : Option (Mutex ι × Option PtError) :=
  if mutex.value = .destroyed then some (mutex, some .einval)
  else if mutex.recursive = true ∧ mutex.value = .thread this then
    some ({ mutex with cntr := mutex.cntr + 1 }, none)
  else if mutex.value = .thread this then some (mutex, some .edeadlk)
  else none

/-- The section of `pthread_mutex_lock`, with whether the mutex was free; if not, the thread goes on
to sleep. -/
def pthreadMutexLockSection (mutex : Mutex ι) (this : ι) : Mutex ι × Bool :=
  if mutex.value = .free then ({ mutex with value := .thread this }, true)
  else
    ({ mutex with waiting := mutex.waiting + 1, queue := addLast mutex.waiting mutex.queue this },
      false)

/-- `pthread_mutex_trylock` up to its spin lock, unless it returns before. -/
def pthreadMutexTrylock (mutex : Mutex ι) (this : ι) : Option (Mutex ι × Option PtError) :=
  if mutex.recursive = true ∧ mutex.value = .thread this then
    some ({ mutex with cntr := mutex.cntr + 1 }, none)
  else if mutex.value = .thread this then some (mutex, some .edeadlk)
  else if mutex.value ≠ .free then some (mutex, some .ebusy)
  else none

def pthreadMutexTrylockSection (mutex : Mutex ι) (this : ι) : Mutex ι × Option PtError :=
  if mutex.value ≠ .free then (mutex, some .ebusy)
  else ({ mutex with value := .thread this }, none)

/-- What `pthread_mutex_unlock` does to the mutex. -/
inductive Unlock (ι : Type*)
  /-- one level of a recursive mutex -/
  | nested (mutex : Mutex ι)
  | freed (mutex : Mutex ι)
  /-- the next thread owns the mutex and is woken -/
  | handed (mutex : Mutex ι) (next : ι)
  | error (err : PtError)

/-- `pthread_mutex_unlock` -/
def pthreadMutexUnlock (mutex : Mutex ι) (this : ι) : Unlock ι :=
  if mutex.recursive = true ∧ mutex.value = .thread this ∧ 0 < mutex.cntr then
    .nested { mutex with cntr := mutex.cntr - 1 }
  else if mutex.value ≠ .thread this then .error .eperm
  else if mutex.waiting = 0 then .freed { mutex with value := .free }
  else
    match mutex.queue with
    | next :: rest =>
        .handed { mutex with
          value := .thread next, waiting := mutex.waiting - 1, queue := rest } next
    | [] => .error .fault

end Mutex

/-- `pthread_cond_wait` before it unlocks the mutex -/
def pthreadCondWait (cond : Cond ι) (this : ι) : Cond ι :=
  ⟨cond.count + 1, addLast cond.count cond.queue this⟩

/-- `pthread_cond_signal`, with the thread that it takes off the queue and then wakes -/
def pthreadCondSignal (cond : Cond ι) : Except PtError (Option (Cond ι × ι)) :=
  if cond.count = 0 then .ok none
  else
    match cond.queue with
    | next :: rest => .ok (some (⟨cond.count - 1, rest⟩, next))
    | [] => .error .fault

/-- The threads that `sys_thread_wakeup` wakes for a table; it refuses what does not fit its own. -/
def sysThreadWakeup (tbl : List ι) : List ι := if tbl.length ≤ 100 then tbl else []

/-- A running `pthread_cond_broadcast`: its `count`, its own `root`, the entries of `tbl` that are in
use, and the rest of the batch it has passed to `sys_thread_wakeup`. The last two fields are its
history: who waited when it began, and who has been woken. -/
structure Broadcast (ι : Type*) where
  count : ℕ
  root : List ι
  tbl : List ι
  batch : List ι
  targets : List ι
  woken : List ι

/-- `pthread_cond_broadcast` up to its loop -/
def pthreadCondBroadcast (cond : Cond ι) : Option (Cond ι × Broadcast ι) :=
  if cond.count = 0 then none
  else some (⟨0, []⟩, ⟨cond.count, cond.queue, [], [], cond.queue, []⟩)

inductive BroadcastStep (ι : Type*)
  | wakes (next : ι) (b : Broadcast ι)
  | goes (b : Broadcast ι)
  | returns

def Broadcast.step (b : Broadcast ι) : BroadcastStep ι :=
  match b.batch with
  | next :: rest => .wakes next { b with batch := rest, woken := b.woken ++ [next] }
  | [] =>
      match b.root with
      | next :: rest =>
          let tbl := b.tbl ++ [next]
          let b := { b with root := rest, count := b.count - 1 }
          if tbl.length = 100 then .goes { b with tbl := [], batch := sysThreadWakeup tbl }
          else .goes { b with tbl := tbl }
      | [] =>
          if b.count ≠ 0 then .goes b
          else
            match b.tbl with
            | _ :: _ => .goes { b with tbl := [], batch := sysThreadWakeup b.tbl }
            | [] => .returns

inductive Pc (ι κ χ : Type*)
  /-- outside of all calls -/
  | run
  /-- before the spin lock of `pthread_mutex_lock` -/
  | locking (m : κ)
  /-- in the queue of the mutex or already its owner, in `SYS_SLEEP` -/
  | lockSleeps (m : κ)
  /-- before the spin lock of `pthread_mutex_trylock` -/
  | trying (m : κ)
  /-- in the queue of the condition variable, before it unlocks the mutex -/
  | waitUnlock (c : χ)
  | waitSleeps (c : χ)
  /-- before it locks the mutex again -/
  | waitLock (c : χ)
  | signals (c : χ) (next : ι)
  | broadcasts (c : χ) (b : Broadcast ι)

/-- `wakeup` says whether a wakeup is remembered for a thread. The last three fields are the history:
the mutexes whose locking has returned 0 to a thread, and how often it was taken off a queue and
woken. -/
structure PtState (ι κ χ : Type*) where
  mutex : κ → Mutex ι
  cond : χ → Cond ι
  pc : ι → Pc ι κ χ
  wakeup : ι → Bool
  held : ι → κ → Bool
  taken : ι → ℕ
  woken : ι → ℕ

inductive PtEvent (ι κ χ : Type*)
  | lock (i : ι) (m : κ)
  | trylock (i : ι) (m : κ)
  | unlock (i : ι) (m : κ)
  | wait (i : ι) (c : χ)
  | signal (i : ι) (c : χ)
  | broadcast (i : ι) (c : χ)
  /-- the thread goes on with its call -/
  | step (i : ι)

variable [DecidableEq ι] [DecidableEq κ] [DecidableEq χ]

def PtState.move (s : PtState ι κ χ) (i : ι) (pc : Pc ι κ χ) (m : κ) (mutex : Mutex ι) :
    PtState ι κ χ :=
  { s with mutex := Function.update s.mutex m mutex, pc := Function.update s.pc i pc }

def PtState.setHeld (s : PtState ι κ χ) (i : ι) (m : κ) (b : Bool) : PtState ι κ χ :=
  { s with held := Function.update s.held i (Function.update (s.held i) m b) }

def PtState.take (s : PtState ι κ χ) (next : ι) : PtState ι κ χ :=
  { s with taken := Function.update s.taken next (s.taken next + 1) }

/-- `SYS_WAKEUP` -/
def PtState.wake (s : PtState ι κ χ) (next : ι) : PtState ι κ χ :=
  { s with
    wakeup := Function.update s.wakeup next true
    woken := Function.update s.woken next (s.woken next + 1) }

/-- `pthread_mutex_unlock`; the thread goes to a place. -/
def PtState.release (s : PtState ι κ χ) (i : ι) (m : κ) (pc : Pc ι κ χ) : PtState ι κ χ :=
  match pthreadMutexUnlock (s.mutex m) i with
  | .nested mutex => s.move i pc m mutex
  | .freed mutex => (s.move i pc m mutex).setHeld i m false
  | .handed mutex next => (((s.move i pc m mutex).setHeld i m false).take next).wake next
  | .error _ => s.move i pc m (s.mutex m)

def ptGoOn (mutexOf : χ → κ) (s : PtState ι κ χ) (i : ι) : Option (PtState ι κ χ) :=
  match s.pc i with
  | .run => none
  | .locking m =>
      match pthreadMutexLockSection (s.mutex m) i with
      | (mutex, true) => some ((s.move i .run m mutex).setHeld i m true)
      | (mutex, false) => some (s.move i (.lockSleeps m) m mutex)
  | .lockSleeps m =>
      if s.wakeup i = true then
        some { s.setHeld i m true with
          pc := Function.update s.pc i .run, wakeup := Function.update s.wakeup i false }
      else none
  | .trying m =>
      match pthreadMutexTrylockSection (s.mutex m) i with
      | (mutex, none) => some ((s.move i .run m mutex).setHeld i m true)
      | (mutex, some _) => some (s.move i .run m mutex)
  | .waitUnlock c => some (s.release i (mutexOf c) (.waitSleeps c))
  | .waitSleeps c =>
      if s.wakeup i = true then
        some { s with
          pc := Function.update s.pc i (.waitLock c), wakeup := Function.update s.wakeup i false }
      else none
  | .waitLock c =>
      match pthreadMutexLock (s.mutex (mutexOf c)) i with
      | some (mutex, _) => some (s.move i .run (mutexOf c) mutex)
      | none => some { s with pc := Function.update s.pc i (.locking (mutexOf c)) }
  | .signals _ next => some { s.wake next with pc := Function.update s.pc i .run }
  | .broadcasts c b =>
      match b.step with
      | .wakes next b => some { s.wake next with pc := Function.update s.pc i (.broadcasts c b) }
      | .goes b => some { s with pc := Function.update s.pc i (.broadcasts c b) }
      | .returns => some { s with pc := Function.update s.pc i .run }

/-- Each condition variable is used with one mutex. Owners unlock, and the mutex is held in calls on
its condition variables. -/
def ptStep (mutexOf : χ → κ) (s : PtState ι κ χ) : PtEvent ι κ χ → Option (PtState ι κ χ)
  | .lock i m =>
      match s.pc i with
      | .run =>
          match pthreadMutexLock (s.mutex m) i with
          | some (mutex, _) => some (s.move i .run m mutex)
          | none => some { s with pc := Function.update s.pc i (.locking m) }
      | _ => none
  | .trylock i m =>
      match s.pc i with
      | .run =>
          match pthreadMutexTrylock (s.mutex m) i with
          | some (mutex, _) => some (s.move i .run m mutex)
          | none => some { s with pc := Function.update s.pc i (.trying m) }
      | _ => none
  | .unlock i m =>
      match s.pc i, s.held i m with
      | .run, true => some (s.release i m .run)
      | _, _ => none
  | .wait i c =>
      match s.pc i, s.held i (mutexOf c) with
      | .run, true =>
          some { s with
            cond := Function.update s.cond c (pthreadCondWait (s.cond c) i)
            pc := Function.update s.pc i (.waitUnlock c) }
      | _, _ => none
  | .signal i c =>
      match s.pc i, s.held i (mutexOf c), pthreadCondSignal (s.cond c) with
      | .run, true, .ok (some (cond, next)) =>
          some { s.take next with
            cond := Function.update s.cond c cond
            pc := Function.update s.pc i (.signals c next) }
      | .run, true, .ok none => some s
      | _, _, _ => none
  | .broadcast i c =>
      match s.pc i, s.held i (mutexOf c), pthreadCondBroadcast (s.cond c) with
      | .run, true, some (cond, b) =>
          some { s with
            cond := Function.update s.cond c cond
            pc := Function.update s.pc i (.broadcasts c b)
            taken := fun j => s.taken j + if j ∈ b.targets then 1 else 0 }
      | .run, true, none => some s
      | _, _, _ => none
  | .step i => ptGoOn mutexOf s i

/-- Mutexes after `pthread_mutex_init`, condition variables after `pthread_cond_init`, and every
thread outside. -/
def ptMachine (mutexOf : χ → κ) : Machine (PtState ι κ χ) (PtEvent ι κ χ) where
  init s := (∀ m, ∃ recursive, s.mutex m = ⟨.free, 0, [], recursive, 0⟩) ∧ (∀ c, s.cond c = ⟨0, []⟩) ∧
    s.pc = (fun _ => .run) ∧ s.wakeup = (fun _ => false) ∧ s.held = (fun _ _ => false) ∧
    s.taken = (fun _ => 0) ∧ s.woken = fun _ => 0
  step := ptStep mutexOf

end Almos.Pthread
