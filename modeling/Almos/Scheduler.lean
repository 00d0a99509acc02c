import Mathlib
import Almos.Machine
import Almos.WaitQueue

/-!
# The scheduler of one CPU

A thread that has to wait links itself in the wait queue of an object under the object's lock,
releases the lock and calls `sched_sleep`. Who wakes it, on whatever CPU, takes it from the queue and
writes a word to the port of the thread; `sched_event_notify` on the thread's own CPU reads the ports
in the timer interrupt, in `schedule` and in the idle thread, and only then is the thread linked in a
run queue. Threads do not exit or migrate, and are not woken by `sys_thread_wakeup`, which has a port
of its own.
-/
namespace Almos.Sched
open WaitQueue

/-- `S_CREATE`, `S_USR`, `S_KERNEL`, `S_READY` and `S_WAIT` -/
inductive ThreadState
  | create
  | usr
  | kernel
  | ready
  | wait
deriving DecidableEq

inductive ThreadType
  | pthread
  | kthread
  | idle
deriving DecidableEq

/-- The threads of a CPU and the objects they wait for. The lock of an object is an `mcs_lock`, which
disables interrupts, or a spinlock, which does not. -/
structure Cpu (ι θ : Type*) where
  type : ι → ThreadType
  ltid : ι → ℕ
  threadIdle : ι
  schedThreadsNr : ℕ
  loadBalancing : Bool
  mcsLock : θ → Bool
  ltid_inj : Function.Injective ltid
  ltid_lt : ∀ i, ltid i < schedThreadsNr
  type_idle : ∀ i, type i = .idle ↔ i = threadIdle

/-- `SCHED_OP_WAKEUP` and `SCHED_OP_ADD_CREATED`, which share a port, with their thread. -/
inductive PortEvent (ι : Type*)
  | wakeup (thread : ι)
  | addCreated (thread : ι)
deriving DecidableEq

def PortEvent.thread {ι : Type*} : PortEvent ι → ι
  | .wakeup thread | .addCreated thread => thread

/-- Where the running thread is in its kernel code; in user code it is at `run`. -/
inductive Phase (θ : Type*)
  | run
  /-- with the lock of an object -/
  | locked (object : θ)
  /-- after `wait_on` -/
  | linked (object : θ)
  /-- after the release of the lock -/
  | released
  /-- in `sched_sleep`, interrupts disabled -/
  | sleeping
  /-- in `schedule`, called by `sched_sleep` -/
  | asleep
  /-- in `schedule`, called by `sched_yield` -/
  | yielding
deriving DecidableEq

/-- `scan` is the next port while `sched_event_notify` runs. -/
structure SchedState (ι θ : Type*) where
  state : ι → ThreadState
  born : ι → Bool
  current : ι
  phase : Phase θ
  scan : Option ℕ
  ports : ℕ → Option (PortEvent ι)
  count : ℕ
  kthreads : List ι
  migrate : List ι
  runnable : List ι
  queues : θ → List ι

variable {ι θ : Type*} [DecidableEq ι] [DecidableEq θ] (cpu : Cpu ι θ)

def SchedState.setState (s : SchedState ι θ) (i : ι) (state : ThreadState) : SchedState ι θ :=
  { s with state := Function.update s.state i state }

def SchedState.addLast (s : SchedState ι θ) (thread : ι) : SchedState ι θ :=
  if cpu.type thread = .kthread then
    { s with count := s.count + 1, kthreads := s.kthreads ++ [thread] }
  else { s with count := s.count + 1, runnable := s.runnable ++ [thread] }

/-- `rr_wakeup` without its assertion. -/
def rrWakeup (s : SchedState ι θ) (thread : ι) : SchedState ι θ :=
  if s.state thread = .ready then s else (s.setState thread .ready).addLast cpu thread

/-- `rr_sleep` without its assertion. -/
def rrSleep (s : SchedState ι θ) : SchedState ι θ := s.setState s.current .wait

/-- One turn of the loop of `sched_event_notify`. -/
def visitPort (s : SchedState ι θ) (port : ℕ) : SchedState ι θ :=
  let s := { s with scan := if port + 1 < cpu.schedThreadsNr then some (port + 1) else none }
  match s.ports port with
  | some (.wakeup thread) =>
      rrWakeup cpu { s with ports := Function.update s.ports port none } thread
  | some (.addCreated thread) =>
      ({ s with ports := Function.update s.ports port none }.setState thread .create).addLast cpu
        thread
  | none => s

/-- `rr_elect` or `rr_elect_balancing` links a running thread that has not gone to sleep. -/
def requeue (s : SchedState ι θ) (forcedYield : Bool) : SchedState ι θ :=
  let this := s.current
  if cpu.type this ≠ .idle ∧ s.state this = .kernel then
    let s := { s.setState this .ready with count := s.count + 1 }
    if cpu.type this = .pthread then
      if cpu.loadBalancing ∧ forcedYield then { s with runnable := this :: s.runnable }
      else { s with runnable := s.runnable ++ [this] }
    else if cpu.loadBalancing then { s with kthreads := s.kthreads ++ [this] }
    else { s with kthreads := this :: s.kthreads }
  else s

/-- The first thread of the first run queue that is not empty is unlinked; there is one when the
count is not 0. -/
def takeFirst (s : SchedState ι θ) : Option (SchedState ι θ × ι) :=
  match s.kthreads, s.migrate, s.runnable with
  | first :: rest, _, _ => some ({ s with count := s.count - 1, kthreads := rest }, first)
  | [], first :: rest, _ => some ({ s with count := s.count - 1, migrate := rest }, first)
  | [], [], first :: rest => some ({ s with count := s.count - 1, runnable := rest }, first)
  | [], [], [] => none

/-- `schedule` after `sched_event_notify`: a thread is elected, else the idle thread, and runs. -/
def schedule (s : SchedState ι θ) (forcedYield : Bool) : Option (SchedState ι θ) :=
  let this := s.current
  let s := requeue cpu s forcedYield
  let elected := if 0 < s.count then takeFirst s else some (s, cpu.threadIdle)
  elected.map fun (s, elected) =>
    let state :=
      if elected ≠ this ∧ s.state elected = .create ∧ cpu.type elected = .pthread then .usr
      else .kernel
    { s.setState elected state with current := elected, phase := .run }

inductive SchedEvent (ι θ : Type*)
  | syscall
  | sysret
  | lock (object : θ)
  | unlock
  | waitOn (order : WaitOrder)
  | release
  | disableIrq
  | rrSleep
  | schedYield
  | schedIdle
  | clock
  | balance (victim : ι)
  | visit
  | elect (forcedYield : Bool)
  | wakeupOne (object : θ) (order : WaitOrder)
  | addCreated (thread : ι)

def irqEnabled (s : SchedState ι θ) : Prop :=
  match s.phase with
  | .run | .released => True
  | .locked object | .linked object => cpu.mcsLock object = false
  | .sleeping | .asleep | .yielding => False

instance (s : SchedState ι θ) : Decidable (irqEnabled cpu s) := by
  unfold irqEnabled
  cases s.phase <;> infer_instance

/-- A step of the running thread, while it is not in `sched_event_notify`. -/
def threadStep (s : SchedState ι θ) (ok : Prop) [Decidable ok] (next : SchedState ι θ) :
    Option (SchedState ι θ) :=
  if s.scan = none ∧ ok then some next else none

def schedStep (s : SchedState ι θ) : SchedEvent ι θ → Option (SchedState ι θ)
  | .syscall =>
      threadStep s (s.phase = .run ∧ s.state s.current = .usr) (s.setState s.current .kernel)
  | .sysret =>
      threadStep s (s.phase = .run ∧ s.state s.current = .kernel ∧ cpu.type s.current = .pthread)
        (s.setState s.current .usr)
  | .lock object =>
      threadStep s (s.phase = .run ∧ s.state s.current = .kernel ∧ cpu.type s.current ≠ .idle)
        { s with phase := .locked object }
  | .unlock =>
      match s.phase with
      | .locked _ => threadStep s True { s with phase := .run }
      | _ => none
  | .waitOn order =>
      match s.phase with
      | .locked object =>
          threadStep s True
            { s with
              phase := .linked object
              queues := Function.update s.queues object
                (WaitQueue.waitOn (s.queues object) s.current order) }
      | _ => none
  | .release =>
      match s.phase with
      | .linked _ => threadStep s True { s with phase := .released }
      | _ => none
  | .disableIrq => threadStep s (s.phase = .released) { s with phase := .sleeping }
  | .rrSleep =>
      threadStep s (s.phase = .sleeping) { rrSleep s with phase := .asleep, scan := some 0 }
  | .schedYield =>
      threadStep s (s.phase = .run ∧ s.state s.current = .kernel)
        { s with phase := .yielding, scan := some 0 }
  | .schedIdle =>
      threadStep s (s.phase = .run ∧ s.current = cpu.threadIdle) { s with scan := some 0 }
  -- do_interrupt and sched_clock; a thread interrupted in the kernel is not switched
  | .clock =>
      threadStep s (irqEnabled cpu s)
        { (if s.state s.current = .usr then s.setState s.current .kernel else s) with
          scan := some 0 }
  -- rr_clock_balancing moves a runnable thread
  | .balance victim =>
      threadStep s (irqEnabled cpu s ∧ cpu.loadBalancing = true ∧ victim ∈ s.runnable)
        { s with runnable := s.runnable.erase victim, migrate := s.migrate ++ [victim] }
  | .visit => s.scan.map (visitPort cpu s)
  | .elect forcedYield =>
      if s.scan = none ∧ (s.phase = .asleep ∨ s.phase = .yielding) then schedule cpu s forcedYield
      else none
  -- the lock of the object is not held by a thread that has just linked itself
  | .wakeupOne object order =>
      if s.phase = .linked object then none
      else
        (WaitQueue.wakeupOne (s.queues object) order).map fun (thread, rest) =>
          { s with
            queues := Function.update s.queues object rest
            ports := Function.update s.ports (cpu.ltid thread) (some (.wakeup thread)) }
  | .addCreated thread =>
      if s.born thread = false then
        some { s.setState thread .create with
          born := Function.update s.born thread true
          ports := Function.update s.ports (cpu.ltid thread) (some (.addCreated thread)) }
      else none

structure Booted (s : SchedState ι θ) : Prop where
  current : s.current = cpu.threadIdle
  phase : s.phase = .run
  scan : s.scan = none
  state : ∀ i, s.state i = if i = cpu.threadIdle then .kernel else .create
  born : ∀ i, s.born i = decide (i = cpu.threadIdle)
  ports : ∀ port, s.ports port = none
  count : s.count = 0
  kthreads : s.kthreads = []
  migrate : s.migrate = []
  runnable : s.runnable = []
  queues : ∀ object, s.queues object = []

def schedMachine : Machine (SchedState ι θ) (SchedEvent ι θ) where
  init := Booted cpu
  step := schedStep cpu

end Almos.Sched
