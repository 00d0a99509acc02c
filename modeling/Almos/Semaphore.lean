import Mathlib
import Almos.Machine
import Almos.WaitQueue

/-!
# Semaphores and condition variables

A section under a spin lock is one step, and so is each check that is made before it. A thread in a
wait queue sleeps until it is taken off the queue.
-/
namespace Almos.Semaphore
open WaitQueue

/-- `SEM_VALUE_MAX` -/
def semValueMax : ℕ := 2048

/-- A sum as it is stored in a `sint_t`. -/
def sint (n : ℤ) : ℤ := n.bmod (2 ^ 32)

/-- `struct semaphore_s`; `owner` is `none` for any word that is no thread of the run. -/
structure Sem (ι : Type*) where
  value : ℕ
  count : ℤ
  owner : Option ι
  waitQueue : List ι

variable {ι : Type*}

/-- `sem_init`, in memory that holds `mem`. -/
def semInit (mem : Sem ι) (value : ℕ) : Option (Sem ι) :=
  if semValueMax < value then none else some { mem with value, count := value, waitQueue := [] }

/-- `sem_wait` and `sem_trywait` return `EDEADLK`. -/
def Deadlocks (sem : Sem ι) (this : ι) : Prop :=
  sem.value = 1 ∧ sem.count ≠ 1 ∧ sem.owner = some this

/-- `sem_post` returns `EINVAL`. -/
def Illegal (sem : Sem ι) (this : ι) : Prop :=
  sem.value = 1 ∧ (sem.count ≤ 0 ∧ sem.owner ≠ some this ∨ 0 < sem.count)

/-- `cv_wait` returns `EINVAL`. -/
def NotOwned (sem : Sem ι) (this : ι) : Prop := sem.owner ≠ some this ∨ 0 < sem.count

instance [DecidableEq ι] (sem : Sem ι) (this : ι) : Decidable (Deadlocks sem this) := by
  unfold Deadlocks
  infer_instance

instance [DecidableEq ι] (sem : Sem ι) (this : ι) : Decidable (Illegal sem this) := by
  unfold Illegal
  infer_instance

instance [DecidableEq ι] (sem : Sem ι) (this : ι) : Decidable (NotOwned sem this) := by
  unfold NotOwned
  infer_instance

/-- The section of `sem_wait`, with whether the thread goes on. -/
def semWait (sem : Sem ι) (this : ι) : Sem ι × Bool :=
  let count := sint (sem.count - 1)
  if 0 ≤ count then ({ sem with count }, true)
  else ({ sem with count, waitQueue := waitOn sem.waitQueue this .last }, false)

/-- The section of `sem_post`, with the thread that it wakes. -/
def semPost (sem : Sem ι) : Sem ι × Option ι :=
  let count := sint (sem.count + 1)
  match if count ≤ 0 then wakeupOne sem.waitQueue .first else none with
  | some (thread, rest) => (⟨sem.value, count, some thread, rest⟩, some thread)
  | none => ({ sem with count, owner := none }, none)

/-- The section of `sem_trywait`, with whether it succeeds. -/
def semTrywait (sem : Sem ι) (this : ι) : Sem ι × Bool :=
  if 0 < sem.count then ({ sem with count := sint (sem.count - 1), owner := some this }, true)
  else (sem, false)

inductive Place
  | idle
  /-- the section of `sem_wait` -/
  | wait
  | sleep
  /-- the store of `sem->owner` at the end of `sem_wait` -/
  | own
  | trywait
  | post
  /-- the section of `cv_wait` -/
  | cvWait
  | cvSleep
  /-- the check of the `sem_wait` that `cv_wait` ends with -/
  | cvWoken
deriving DecidableEq

inductive Call
  | semWait
  | semTrywait
  | semPost
  | cvWait
  | cvSignal
  | cvBroadcast
deriving DecidableEq

inductive Event (ι : Type*)
  | call (this : ι) (op : Call)
  | go (this : ι)

/-- A semaphore and a condition variable that uses it. The last three fields are the history: the
posts and the successful waits so far, counted at their sections, and who is between a wait and its
post. -/
structure State (ι : Type*) where
  sem : Sem ι
  cvQueue : List ι
  place : ι → Place
  posts : ℕ
  waits : ℕ
  holding : ι → Bool

variable [DecidableEq ι]

def State.goto (s : State ι) (this : ι) (place : Place) : State ι :=
  { s with place := Function.update s.place this place }

def State.wait (s : State ι) (this : ι) : State ι :=
  match semWait s.sem this with
  | (sem, true) => { s.goto this .own with
      sem, waits := s.waits + 1, holding := Function.update s.holding this true }
  | (sem, false) => { s.goto this .sleep with sem, waits := s.waits + 1 }

def State.trywait (s : State ι) (this : ι) : State ι :=
  match semTrywait s.sem this with
  | (sem, true) => { s.goto this .idle with
      sem, waits := s.waits + 1, holding := Function.update s.holding this true }
  | (_, false) => s.goto this .idle

/-- A post after which the thread goes on at `next`; the thread that it wakes has the semaphore. -/
def State.post (s : State ι) (this : ι) (next : Place) : State ι :=
  match semPost s.sem with
  | (sem, some thread) => { (s.goto thread .own).goto this next with
      sem, posts := s.posts + 1,
      holding := Function.update (Function.update s.holding this false) thread true }
  | (sem, none) => { s.goto this next with
      sem, posts := s.posts + 1, holding := Function.update s.holding this false }

/-- The section of `cv_wait`, with `sem_post` inside. -/
def State.cvWait (s : State ι) (this : ι) : State ι :=
  if Illegal s.sem this then s.goto this .idle
  else { s.post this .cvSleep with cvQueue := waitOn s.cvQueue this .last }

/-- `cv_signal` -/
def State.cvSignal (s : State ι) : State ι :=
  match wakeupOne s.cvQueue .first with
  | some (thread, rest) => { s.goto thread .cvWoken with cvQueue := rest }
  | none => s

/-- `cv_broadcast` -/
def State.cvBroadcast (s : State ι) : State ι :=
  { s with cvQueue := [], place := fun t => if t ∈ s.cvQueue then .cvWoken else s.place t }

/-- A call up to its first section; the two calls that make no check are one section. -/
def State.call (s : State ι) (this : ι) : Call → State ι
  | .semWait => if Deadlocks s.sem this then s else s.goto this .wait
  | .semTrywait => if Deadlocks s.sem this then s else s.goto this .trywait
  | .semPost => if Illegal s.sem this then s else s.goto this .post
  | .cvWait => if NotOwned s.sem this then s else s.goto this .cvWait
  | .cvSignal => s.cvSignal
  | .cvBroadcast => s.cvBroadcast

def step (s : State ι) : Event ι → Option (State ι)
  | .call this op => if s.place this = .idle then some (s.call this op) else none
  | .go this =>
    match s.place this with
    | .idle | .sleep | .cvSleep => none
    | .wait => some (s.wait this)
    | .own => some ({ s with sem := { s.sem with owner := some this } }.goto this .idle)
    | .trywait => some (s.trywait this)
    | .post => some (s.post this .idle)
    | .cvWait => some (s.cvWait this)
    | .cvWoken =>
      some (if Deadlocks s.sem this then s.goto this .idle else s.goto this .wait)

/-- A semaphore that `sem_init` has set up in memory that holds `mem`. -/
def machine (mem : Sem ι) (value : ℕ) : Machine (State ι) (Event ι) where
  init s := semInit mem value = some s.sem ∧ s.cvQueue = [] ∧ (∀ t, s.place t = .idle) ∧
    s.posts = 0 ∧ s.waits = 0 ∧ ∀ t, s.holding t = false
  step := step

def EventOk (s : State ι) : Event ι → Prop
  | .call _ _ => True
  | .go this =>
    match s.place this with
    | .wait => -2 ^ 31 < s.sem.count
    | .post | .cvWait => s.sem.count < 2 ^ 31 - 1
    | _ => True

end Almos.Semaphore
