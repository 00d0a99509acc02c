import Mathlib
import Almos.Machine

/-!
# The software barrier

`barrier_wait` without hardware barriers. The word that a private barrier counts down is the word of
the lock of a shared one. Record `k % 512` of page `k / 512` of the table is entry `k` here. Between
the registration of a thread and its sleep no interrupt is taken, so a wakeup is kept until then.
-/
namespace Almos.SoftBarrier

/-- `BARRIER_WQDB_NR` pages of records -/
def wqdbCapacity : ℕ := 4 * 512

/-- `struct barrier_s`; `word` is `waiting` and the value of `lock`, `shared` says that there is no
`owner`, and `wqdb` has the listeners. -/
structure Barrier (ι : Type*) where
  word : ℤ
  shared : Bool
  count : ℕ
  index : ℕ
  wqdb : ℕ → Option ι

/-- Where a thread is in `barrier_wait`, by what it does next, with `index` and `ticket`; the last
threads are those that `barrier_do_broadcast` has read from the table. -/
inductive Place (ι : Type*)
  | out
  | lock
  | take
  | store (index : ℕ) (ticket : ℤ)
  | count (index : ℕ)
  | clear (index : ℕ)
  | reset (index : ℕ)
  | unlock
  | scan (index ticket : ℕ)
  | found (index ticket : ℕ) (listner : ι)
  | send (index ticket : ℕ) (listner : ι)
  | leave (index : ℕ)
  | sleep (index : ℕ)

/-- `locks` is the `locks_count` of the threads and `woken` their pending wakeups. The other fields
are the history: the calls and returns of each thread, the count of locks at its last call, the
threads that got `PTHREAD_BARRIER_SERIAL_THREAD` in their `p`-th call, and the threads, with the
number of their call, that the broadcast of a `p`-th call woke. -/
structure State (ι : Type*) where
  barrier : Barrier ι
  place : ι → Place ι
  locks : ι → ℤ
  woken : ι → Bool
  entered : ι → ℕ
  returned : ι → ℕ
  entryLocks : ι → ℤ
  serial : ℕ → List ι
  wakes : ℕ → List (ι × ℕ)

variable {ι : Type*}

/-- `barrier_init`; the pages of the table are zeroed. -/
def barrierInit (mem : Barrier ι) (count : ℕ) (shared : Bool) : Option (Barrier ι) :=
  if count = 0 ∨ wqdbCapacity < count then none
  else if shared = true then some ⟨0, true, count, 0, fun _ => none⟩
  else some ⟨count, false, count, mem.index, fun _ => none⟩

variable [DecidableEq ι]

namespace State

def goto (s : State ι) (this : ι) (place : Place ι) : State ι :=
  { s with place := Function.update s.place this place }

def setListner (s : State ι) (index : ℕ) (listner : Option ι) : State ι :=
  { s with barrier := { s.barrier with wqdb := Function.update s.barrier.wqdb index listner } }

/-- `barrier_wait` up to its first access to the table or the lock -/
def enter (s : State ι) (this : ι) (place : Place ι) : State ι :=
  { s.goto this place with
    entered := Function.update s.entered this (s.entered this + 1)
    entryLocks := Function.update s.entryLocks this (s.locks this) }

def spinlockLock (s : State ι) (this : ι) : State ι :=
  { s with
    barrier := { s.barrier with word := -1 }
    locks := Function.update s.locks this (s.locks this + 1) }

/-- `__spinlock_unlock` -/
def spinlockUnlock (s : State ι) (this : ι) : State ι :=
  { s with
    barrier := { s.barrier with word := if s.barrier.word < 0 then 0 else s.barrier.word - 1 }
    locks := Function.update s.locks this (s.locks this - 1) }

/-- `sched_event_send` in the broadcast of `this` -/
def send (s : State ι) (this listner : ι) : State ι :=
  { s with
    woken := Function.update s.woken listner true
    wakes := Function.update s.wakes (s.entered this)
      ((listner, s.entered listner) :: s.wakes (s.entered this)) }

def returns (s : State ι) (this : ι) : State ι :=
  { s.goto this .out with
    returned := Function.update s.returned this (s.returned this + 1) }

/-- The return with `PTHREAD_BARRIER_SERIAL_THREAD` -/
def returnSerial (s : State ι) (this : ι) : State ι :=
  { s.returns this with
    serial := Function.update s.serial (s.entered this) (this :: s.serial (s.entered this)) }

end State

def afterTicket (index : ℕ) (ticket : ℤ) : Place ι :=
  if ticket = 1 then .clear index else .leave index

/-- One step of a thread; `order` is its place in the table of its task. -/
def step (order : ι → ℕ) (s : State ι) (this : ι) : Option (State ι) :=
  let barrier := s.barrier
  match s.place this with
  | .out =>
    some (s.enter this (if barrier.shared = true then .lock else .store (order this) 0))
  | .lock => if barrier.word = 0 then some ((s.spinlockLock this).goto this .take) else none
  | .take =>
    some ({ s with barrier := { barrier with index := barrier.index + 1 } }.goto this
      (.store barrier.index (barrier.count - barrier.index)))
  | .store index ticket =>
    some ((s.setListner index (some this)).goto this
      (if barrier.shared = true then afterTicket index ticket else .count index))
  | .count index =>
    some ({ s with barrier := { barrier with word := barrier.word - 1 } }.goto this
      (afterTicket index barrier.word))
  | .clear index => some ((s.setListner index none).goto this (.reset index))
  | .reset _ =>
    if barrier.shared = true then
      some ({ s with barrier := { barrier with index := 0 } }.goto this .unlock)
    else some ({ s with barrier := { barrier with word := barrier.count } }.goto this (.scan 0 0))
  | .unlock => some ((s.spinlockUnlock this).goto this (.scan 0 0))
  | .scan index ticket =>
    if index < wqdbCapacity ∧ ticket < barrier.count - 1 then
      some (s.goto this (match barrier.wqdb index with
        | some listner => .found index ticket listner
        | none => .scan (index + 1) ticket))
    else some (s.returnSerial this)
  | .found index ticket listner =>
    some ((s.setListner index none).goto this (.send index ticket listner))
  | .send index ticket listner =>
    some ((s.send this listner).goto this (.scan (index + 1) (ticket + 1)))
  | .leave index => some ((s.spinlockUnlock this).goto this (.sleep index))
  | .sleep _ =>
    if s.woken this = true then
      some ({ s with woken := Function.update s.woken this false }.returns this)
    else none

/-- A barrier for all the threads, before the first call. -/
def machine [Fintype ι] (order : ι → ℕ) (mem : Barrier ι) (shared : Bool) :
    Machine (State ι) ι where
  init s := barrierInit mem (Fintype.card ι) shared = some s.barrier ∧
    (∀ t, s.place t = .out ∧ s.woken t = false ∧ s.entered t = 0 ∧ s.returned t = 0 ∧
      s.entryLocks t = s.locks t) ∧ ∀ p, s.serial p = [] ∧ s.wakes p = []
  step := step order

end Almos.SoftBarrier
