import Mathlib
import Almos.Machine
import Almos.WaitQueue

/-!
# Join, exit and detach

One target thread and its siblings. The wait queue of the target holds the sibling that waits for its
exit, or the target itself when it waits to be joined. `wakeup_one` takes a thread off the queue and
wakes it, also before it has gone to sleep.
-/
namespace Almos.ThreadJoin
open WaitQueue

/-- `th_lock` and `lock` of the task, and `lock` of the target. -/
inductive Lock
  | th
  | task
  | target
deriving DecidableEq

inductive JoinError
  | einval
  | esrch
  | efault
deriving DecidableEq

inductive Place (α : Type*)
  | idle
  | joinLock
  | joinCheck
  | joinTarget
  | joinSection
  | joinFailed (err : JoinError)
  | joinSleeps
  | joinSleep
  | joinTaken (retval : α)
  | joinReturn (retval : α)
  | detachLock
  | detachCheck
  | detachTarget
  | detachSection
  | detachUnlock
deriving DecidableEq

/-- Where the target is, up to `sched_exit`. -/
inductive TargetPlace
  | running
  | lock
  | lockSection
  | sleep
  | exited
deriving DecidableEq

/-- `none` is the target among the threads. `found` says that the task still has the target in its
table, `mail` is the `exit_value` of a sibling, and `log` has what the joins have returned. The words
of the locks are as in `spinlock_t`; `held` counts what each thread has taken and not given back. -/
structure State (ι α : Type*) where
  lock : Lock → ℤ
  held : Option ι → Lock → ℤ
  found : Bool
  joinable : Bool
  join : Option ι
  waitQueue : List (Option ι)
  exitValue : α
  mail : ι → α
  target : TargetPlace
  place : ι → Place α
  log : List (ι × Except JoinError α)

inductive Call
  /-- with the error if the arguments, or the first copy to `thread_return`, are refused -/
  | join (refused : Option JoinError)
  | detach

inductive Event (ι : Type*)
  | call (this : ι) (op : Call)
  | go (this : Option ι)
  /-- a join returns; the copy to `thread_return` can fail -/
  | ret (this : ι) (copied : Bool)
  | exit
  /-- `pthread_destroy` -/
  | destroy

variable {ι α : Type*} [DecidableEq ι]

namespace State

/-- `spinlock_lock`, once the lock is free -/
def spinlockLock (s : State ι α) (this : Option ι) (l : Lock) : State ι α :=
  { s with
    lock := Function.update s.lock l (-1)
    held := Function.update s.held this (Function.update (s.held this) l (s.held this l + 1)) }

/-- `__spinlock_unlock` -/
def spinlockUnlock (s : State ι α) (this : Option ι) (l : Lock) : State ι α :=
  { s with
    lock := Function.update s.lock l (if s.lock l < 0 then 0 else s.lock l - 1)
    held := Function.update s.held this (Function.update (s.held this) l (s.held this l - 1)) }

def goto (s : State ι α) (this : ι) (place : Place α) : State ι α :=
  { s with place := Function.update s.place this place }

def locks (s : State ι α) (this : ι) (l : Lock) (place : Place α) : Option (State ι α) :=
  if s.lock l = 0 then some ((s.spinlockLock (some this) l).goto this place) else none

/-- `wakeup_one` on the queue of the target -/
def wakeupOne (s : State ι α) : State ι α :=
  match WaitQueue.wakeupOne s.waitQueue .any with
  | some (_, rest) => { s with waitQueue := rest }
  | none => s

/-- The checks of `sys_thread_join` under `th_lock`. -/
def joinCheck (s : State ι α) (this : ι) : State ι α :=
  if s.found = false then s.goto this (.joinFailed .esrch)
  else if s.joinable = false then s.goto this (.joinFailed .einval)
  else s.goto this .joinTarget

/-- The section of `sys_thread_join` under the lock of the target. -/
def joinSection (s : State ι α) (this : ι) : State ι α :=
  if s.join ≠ none then (s.spinlockUnlock (some this) .target).goto this (.joinFailed .einval)
  else if s.waitQueue = [] then
    ({ s with
      join := some this
      waitQueue := waitOn s.waitQueue (some this) .any }.spinlockUnlock (some this) .target).goto
        this .joinSleeps
  else (s.wakeupOne.spinlockUnlock (some this) .target).goto this (.joinTaken s.exitValue)

def joinReturn (s : State ι α) (this : ι) (result : Except JoinError α) : State ι α :=
  { s.goto this .idle with log := (this, result) :: s.log }

/-- The checks of `sys_thread_detach` under `th_lock`. -/
def detachCheck (s : State ι α) (this : ι) : State ι α :=
  if s.found = false ∨ s.joinable = false then s.goto this .detachUnlock
  else s.goto this .detachTarget

/-- The section of `sys_thread_detach` under the lock of the target. -/
def detachSection (s : State ι α) (this : ι) : State ι α :=
  let s := { s with joinable := false }
  let s := if s.join = none ∧ s.waitQueue ≠ [] then s.wakeupOne else s
  (s.spinlockUnlock (some this) .target).goto this .detachUnlock

/-- The section of `sys_thread_exit` under the lock of the target; it follows `join` when someone
waits. -/
def exitSection (s : State ι α) (exitVal : α) : Option (State ι α) :=
  if s.joinable = false then
    some { s.spinlockUnlock none .target with target := .exited }
  else if s.waitQueue = [] then
    some { s.spinlockUnlock none .target with
      exitValue := exitVal, waitQueue := waitOn s.waitQueue none .any, target := .sleep }
  else
    s.join.map fun joiner =>
      { s.wakeupOne.spinlockUnlock none .target with
        mail := Function.update s.mail joiner exitVal, target := .exited }

end State

def stepSibling (s : State ι α) (this : ι) : Option (State ι α) :=
  match s.place this with
  | .idle | .joinReturn _ => none
  | .joinLock => s.locks this .th .joinCheck
  | .joinCheck => some (s.joinCheck this)
  | .joinTarget => s.locks this .target .joinSection
  | .joinSection => some (s.joinSection this)
  | .joinFailed err => some ((s.spinlockUnlock (some this) .th).joinReturn this (.error err))
  | .joinSleeps => some ((s.spinlockUnlock (some this) .th).goto this .joinSleep)
  | .joinSleep =>
    if some this ∈ s.waitQueue then none else some (s.goto this (.joinReturn (s.mail this)))
  | .joinTaken retval =>
    some ((s.spinlockUnlock (some this) .th).goto this (.joinReturn retval))
  | .detachLock => s.locks this .th .detachCheck
  | .detachCheck => some (s.detachCheck this)
  | .detachTarget => s.locks this .target .detachSection
  | .detachSection => some (s.detachSection this)
  | .detachUnlock => some ((s.spinlockUnlock (some this) .task).goto this .idle)

/-- One step of the target in `sys_thread_exit`. -/
def stepTarget (s : State ι α) (exitVal : α) : Option (State ι α) :=
  match s.target with
  | .running | .exited => none
  | .lock =>
    if s.lock .target = 0 then
      some { s.spinlockLock none .target with target := .lockSection }
    else none
  | .lockSection => s.exitSection exitVal
  | .sleep => if none ∈ s.waitQueue then none else some { s with target := .exited }

def step (exitVal : α) (s : State ι α) : Event ι → Option (State ι α)
  | .call this op =>
    match s.place this, op with
    | .idle, .join (some err) => some (s.joinReturn this (.error err))
    | .idle, .join none => some (s.goto this .joinLock)
    | .idle, .detach => some (s.goto this .detachLock)
    | _, _ => none
  | .go (some this) => stepSibling s this
  | .go none => stepTarget s exitVal
  | .ret this copied =>
    match s.place this with
    | .joinReturn retval =>
      some (s.joinReturn this (if copied = true then .ok retval else .error .efault))
    | _ => none
  | .exit => if s.target = .running then some { s with target := .lock } else none
  | .destroy => if s.target = .exited then some { s with found := false } else none

def machine (exitVal : α) : Machine (State ι α) (Event ι) where
  init s := (∀ l, s.lock l = 0) ∧ (∀ t l, s.held t l = 0) ∧ s.found = true ∧ s.joinable = true ∧
    s.join = none ∧ s.waitQueue = [] ∧ s.target = .running ∧ (∀ t, s.place t = .idle) ∧ s.log = []
  step := step exitVal

/-- No sibling detaches the target, and none goes to wait for a target that an earlier join has
already let go. -/
def EventOk (s : State ι α) : Event ι → Prop
  | .call _ .detach => False
  | .go (some this) => s.place this = .joinSection → s.join = none → s.waitQueue = [] →
      s.target ≠ .sleep ∧ s.target ≠ .exited
  | _ => True

end Almos.ThreadJoin
