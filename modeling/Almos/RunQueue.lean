import Mathlib
import Almos.Machine
import Almos.Scheduler

/-!
# The run queues of one CPU

The policy table with load balancing. A thread is registered when it is created, which the number of
ports bounds, and added later. What a clock tick finds out about the load of the other clusters is
given; flags of a thread that no function here reads are left out.
-/
namespace Almos.Rr
open Sched (ThreadType)

/-- `S_CREATE`, `S_USR`, `S_KERNEL`, `S_READY`, `S_WAIT` and `S_DEAD` -/
inductive ThreadState
  | create
  | usr
  | kernel
  | ready
  | wait
  | dead
deriving DecidableEq

def rrQuantum : ℤ := 4

/-- `x ++` in a counter of `w` bits. -/
def inc (w x : ℕ) : ℕ := if x + 1 < 2 ^ w then x + 1 else 0

/-- `x --` in a counter of `w` bits. -/
def dec (w x : ℕ) : ℕ := if x = 0 then 2 ^ w - 1 else x - 1

structure Thread where
  type : ThreadType
  state : ThreadState
  quantum : ℤ
  boostedPrio : ℤ
  exported : Bool
  imported : Bool
  migrationEnabled : Bool
  forcedYield : Bool

/-- `rQueues_t` -/
structure RQueues (ι : Type*) where
  uRunnable : ℕ
  mRunnable : ℕ
  kthreads : List ι
  runnable : List ι
  migrate : List ι

/-- The counters of `scheduler_s`, of 16 bits. -/
structure SchedulerNr where
  totalNr : ℕ
  userNr : ℕ
  uRunnable : ℕ
  kRunnable : ℕ

/-- `count` is the one of `sched_s`. The threads in `registered` have a port, those in `created` have
not been added yet. -/
structure RrState (ι : Type*) where
  threads : ι → Thread
  current : ι
  count : ℕ
  rQueues : RQueues ι
  scheduler : SchedulerNr
  registered : List ι
  created : List ι

/-- `CONFIG_SCHED_THREADS_NR` and the idle thread, which has no port. -/
structure RrCpu (ι : Type*) where
  threadIdle : ι
  schedThreadsNr : ℕ
  schedThreadsNr_lt : schedThreadsNr < 2 ^ 16

variable {ι : Type*} [DecidableEq ι]

def RrState.setThread (s : RrState ι) (i : ι) (thread : Thread) : RrState ι :=
  { s with threads := Function.update s.threads i thread }

def RrState.setState (s : RrState ι) (i : ι) (state : ThreadState) : RrState ι :=
  s.setThread i { s.threads i with state }

def RrState.enqueue (s : RrState ι) (thread : ι) (first : Bool) : RrState ι :=
  let s := { s with count := inc 32 s.count }
  if (s.threads thread).type = .kthread then
    { s with
      scheduler.kRunnable := inc 16 s.scheduler.kRunnable
      rQueues.kthreads := s.rQueues.kthreads ++ [thread] }
  else
    { s with
      scheduler.uRunnable := inc 16 s.scheduler.uRunnable
      rQueues.uRunnable := inc 32 s.rQueues.uRunnable
      rQueues.runnable :=
        if first then thread :: s.rQueues.runnable else s.rQueues.runnable ++ [thread] }

/-- `rr_wakeup` -/
def rrWakeup (s : RrState ι) (thread : ι) : RrState ι :=
  if (s.threads thread).state = .ready then s
  else
    let s := (s.setState thread .ready).enqueue thread false
    if (s.threads thread).type = .kthread then
      s.setThread s.current { s.threads s.current with forcedYield := true }
    else s

/-! ### The same queues without their counters -/

/-- The states of the other model of the scheduler, whose threads do not exit. -/
def ofSched : Sched.ThreadState → ThreadState
  | .create => .create
  | .usr => .usr
  | .kernel => .kernel
  | .ready => .ready
  | .wait => .wait

/-- Both models have the same threads in the same queues. -/
structure SameQueues {θ : Type*} (cpu : Sched.Cpu ι θ) (s : RrState ι) (t : Sched.SchedState ι θ) :
    Prop where
  type : ∀ i, (s.threads i).type = cpu.type i
  state : ∀ i, (s.threads i).state = ofSched (t.state i)
  kthreads : s.rQueues.kthreads = t.kthreads
  runnable : s.rQueues.runnable = t.runnable
  count : s.count = t.count % 2 ^ 32

lemma SameQueues.setYield {θ : Type*} {cpu : Sched.Cpu ι θ} {s : RrState ι} {t : Sched.SchedState ι θ}
    (h : SameQueues cpu s t) (i : ι) :
    SameQueues cpu (s.setThread i { s.threads i with forcedYield := true }) t := by
  have hthread : ∀ j, ((s.setThread i { s.threads i with forcedYield := true }).threads j).type =
      (s.threads j).type ∧ ((s.setThread i { s.threads i with forcedYield := true }).threads j).state =
        (s.threads j).state := by
    intro j
    by_cases hj : j = i
    · subst hj
      simp [RrState.setThread]
    · simp [RrState.setThread, hj]
  exact ⟨fun j => (hthread j).1.trans (h.type j), fun j => (hthread j).2.trans (h.state j), h.kthreads,
    h.runnable, h.count⟩

theorem SameQueues.wakeup {θ : Type*} [DecidableEq θ] {cpu : Sched.Cpu ι θ} {s : RrState ι}
    {t : Sched.SchedState ι θ} (h : SameQueues cpu s t) (i : ι) :
    SameQueues cpu (rrWakeup s i) (Sched.rrWakeup cpu t i) := by
  have hready : (s.threads i).state = .ready ↔ t.state i = .ready := by
    rw [h.state]
    cases t.state i <;> simp [ofSched]
  have hinc : inc 32 s.count = (t.count + 1) % 2 ^ 32 := by
    rw [inc, h.count]
    split_ifs <;> omega
  by_cases hstate : t.state i = .ready
  · rw [rrWakeup, Sched.rrWakeup, if_pos (hready.mpr hstate), if_pos hstate]
    exact h
  · rw [rrWakeup, Sched.rrWakeup, if_neg (hready.not.mpr hstate), if_neg hstate]
    have hthread : ∀ j, ((s.setState i .ready).threads j).type = cpu.type j ∧
        ((s.setState i .ready).threads j).state = ofSched ((t.setState i .ready).state j) := by
      intro j
      by_cases hj : j = i
      · subst hj
        simp [RrState.setState, RrState.setThread, Sched.SchedState.setState, ofSched, h.type]
      · simp [RrState.setState, RrState.setThread, Sched.SchedState.setState, hj, h.type, h.state]
    have hlink : SameQueues cpu ((s.setState i .ready).enqueue i false)
        ((t.setState i .ready).addLast cpu i) := by
      simp only [RrState.enqueue, Sched.SchedState.addLast, (hthread i).1, Bool.false_eq_true, if_false]
      split_ifs
      · exact ⟨fun j => (hthread j).1, fun j => (hthread j).2, congrArg (· ++ [i]) h.kthreads,
          h.runnable, hinc⟩
      · exact ⟨fun j => (hthread j).1, fun j => (hthread j).2, h.kthreads,
          congrArg (· ++ [i]) h.runnable, hinc⟩
    simp only
    split_ifs
    · exact hlink.setYield _
    · exact hlink

/-- `rr_add_created` -/
def rrAddCreated (s : RrState ι) (thread : ι) : RrState ι :=
  let s := s.enqueue thread false
  let s := { s with scheduler.totalNr := inc 16 s.scheduler.totalNr }
  let th := s.threads thread
  if th.type = .kthread then s
  else
    let s := { s with scheduler.userNr := inc 16 s.scheduler.userNr }
    if th.imported then s.setThread thread { th with boostedPrio := 3 * rrQuantum, imported := false }
    else s.setThread thread { th with boostedPrio := rrQuantum }

/-- `rr_sleep` -/
def rrSleep (s : RrState ι) : RrState ι := s.setState s.current .wait

/-- `rr_exit` -/
def rrExit (s : RrState ι) : RrState ι :=
  let s := { s with scheduler.totalNr := dec 16 s.scheduler.totalNr }
  let s :=
    if (s.threads s.current).type = .pthread then
      { s with scheduler.userNr := dec 16 s.scheduler.userNr }
    else s
  s.setState s.current .dead

/-- `rr_remove` -/
def rrRemove (s : RrState ι) : RrState ι :=
  { s with
    scheduler.totalNr := dec 16 s.scheduler.totalNr
    scheduler.userNr := dec 16 s.scheduler.userNr }

/-- `rr_elect_balancing` links a running thread first. -/
def rrRequeue (s : RrState ι) : RrState ι :=
  let this := s.current
  let th := s.threads this
  if th.type ≠ .idle ∧ th.state = .kernel then
    let forced := th.type = .pthread ∧ th.forcedYield
    let th := { th with state := .ready, boostedPrio := th.boostedPrio + th.quantum }
    (s.enqueue this forced).setThread this
      (if forced then { th with boostedPrio := th.boostedPrio - th.quantum }
      else { th with quantum := rrQuantum })
  else s

def rrTake (s : RrState ι) : Option (RrState ι × Option ι) :=
  let take (s : RrState ι) (elected : ι) : Option (RrState ι × Option ι) :=
    let s := s.setThread elected { s.threads elected with forcedYield := false }
    some ({ s with count := dec 32 s.count }, some elected)
  if 0 < s.count then
    match s.rQueues.kthreads, s.rQueues.migrate, s.rQueues.runnable with
    | elected :: rest, _, _ =>
        take
          { s with
            rQueues.kthreads := rest
            scheduler.kRunnable := dec 16 s.scheduler.kRunnable } elected
    | [], elected :: rest, _ =>
        take
          { s with
            rQueues.migrate := rest
            scheduler.uRunnable := dec 16 s.scheduler.uRunnable
            rQueues.mRunnable := dec 32 s.rQueues.mRunnable } elected
    | [], [], elected :: rest =>
        take
          { s with
            rQueues.runnable := rest
            scheduler.uRunnable := dec 16 s.scheduler.uRunnable
            rQueues.uRunnable := dec 32 s.rQueues.uRunnable } elected
    | [], [], [] => none
  else some (s, none)

def rrElectBalancing (s : RrState ι) : Option (RrState ι × Option ι) := rrTake (rrRequeue s)

/-- `schedule`, from the election on. -/
def schedule (cpu : RrCpu ι) (s : RrState ι) : Option (RrState ι) :=
  (rrElectBalancing s).map fun (s, elected) =>
    let elected := elected.getD cpu.threadIdle
    let th := s.threads elected
    let state :=
      if elected ≠ s.current ∧ th.state = .create ∧ th.type = .pthread then .usr else .kernel
    { s.setState elected state with current := elected }

/-- The loop of `rr_sched_load_balance`: the victim and its priority. -/
def rrVictim (threads : ι → Thread) (victim : ι) (max : ℤ) : List ι → (ι → Thread) × ι × ℤ
  | [] => (threads, victim, max)
  | thread :: rest =>
      let th := threads thread
      if th.exported ∨ ¬th.migrationEnabled then rrVictim threads victim max rest
      else
        let threads :=
          Function.update threads thread { th with boostedPrio := th.boostedPrio >>> 1 }
        if max < th.boostedPrio then rrVictim threads thread th.boostedPrio rest
        else rrVictim threads victim max rest

/-- `rr_sched_load_balance` -/
def rrSchedLoadBalance (s : RrState ι) : RrState ι :=
  let this := s.current
  let th := s.threads this
  let max := if ¬th.exported ∧ th.migrationEnabled then th.boostedPrio else -1
  let s := s.setThread this { th with boostedPrio := th.boostedPrio >>> 1 }
  match rrVictim s.threads this max s.rQueues.runnable with
  | (threads, victim, max) =>
    let s := { s with threads }
    if 0 ≤ max ∧ (th.type = .pthread ∨ 0 < s.rQueues.uRunnable) ∧ victim ≠ this then
      { s with
        rQueues.runnable := s.rQueues.runnable.erase victim
        rQueues.migrate := s.rQueues.migrate ++ [victim]
        rQueues.mRunnable := inc 32 s.rQueues.mRunnable
        rQueues.uRunnable := dec 32 s.rQueues.uRunnable }
    else s

/-- `rr_clock_balancing`; `balance` says that the period is over and the load asks for it. -/
def rrClockBalancing (s : RrState ι) (balance : Bool) : RrState ι :=
  let th := s.threads s.current
  let s :=
    if 0 < th.quantum then s.setThread s.current { th with quantum := th.quantum - 1 } else s
  let s := if balance then rrSchedLoadBalance s else s
  let th := s.threads s.current
  if 0 < s.rQueues.mRunnable ∧ ¬th.exported then s.setThread s.current { th with quantum := 0 } else s

inductive RrEvent (ι : Type*)
  | register (thread : ι) (th : Thread)
  | addCreated (thread : ι)
  | add (thread : ι)
  | wakeup (thread : ι)
  | sleep
  | exit
  | remove
  | elect
  | clock (balance : Bool)
  | syscall
  | sysret
  | setFlags (thread : ι) (exported migrationEnabled : Bool)

variable (cpu : RrCpu ι)

def when (ok : Prop) [Decidable ok] (next : RrState ι) : Option (RrState ι) :=
  if ok then some next else none

def rrStep (s : RrState ι) : RrEvent ι → Option (RrState ι)
  -- a new thread takes a port; the running thread still has its structure
  | .register thread th =>
      when (thread ∉ s.registered ∧ thread ≠ s.current ∧ thread ≠ cpu.threadIdle ∧
          th.type ≠ .idle ∧ s.registered.length < cpu.schedThreadsNr)
        { s.setThread thread { th with state := .create } with
          registered := thread :: s.registered
          created := thread :: s.created }
  | .addCreated thread =>
      when (thread ∈ s.created)
        { rrAddCreated (s.setState thread .create) thread with created := s.created.erase thread }
  -- sched_add, for a thread that comes from another CPU
  | .add thread =>
      when (thread ∈ s.created)
        { rrAddCreated (s.setState thread .ready) thread with created := s.created.erase thread }
  | .wakeup thread =>
      when (thread ∈ s.registered ∧
          ((s.threads thread).state = .wait ∨ (s.threads thread).state = .ready))
        (rrWakeup s thread)
  | .sleep =>
      when ((s.threads s.current).state = .kernel ∧ (s.threads s.current).type ≠ .idle) (rrSleep s)
  -- sched_exit and sched_remove give the port back
  | .exit =>
      when ((s.threads s.current).state = .kernel ∧ (s.threads s.current).type ≠ .idle)
        (rrExit { s with registered := s.registered.erase s.current })
  | .remove =>
      when ((s.threads s.current).state = .kernel ∧ (s.threads s.current).type = .pthread)
        (((rrRemove { s with registered := s.registered.erase s.current }).setThread s.current
          { s.threads s.current with type := .kthread, state := .dead }))
  | .elect => if (s.threads s.current).state ≠ .usr then schedule cpu s else none
  | .clock balance => some (rrClockBalancing s balance)
  | .syscall => when ((s.threads s.current).state = .usr) (s.setState s.current .kernel)
  | .sysret =>
      when ((s.threads s.current).state = .kernel ∧ (s.threads s.current).type = .pthread)
        (s.setState s.current .usr)
  | .setFlags thread exported migrationEnabled =>
      some (s.setThread thread { s.threads thread with exported, migrationEnabled })

structure Booted (s : RrState ι) : Prop where
  current : s.current = cpu.threadIdle
  type : (s.threads cpu.threadIdle).type = .idle
  state : (s.threads cpu.threadIdle).state = .kernel
  count : s.count = 0
  rQueues : s.rQueues = ⟨0, 0, [], [], []⟩
  scheduler : s.scheduler.uRunnable = 0 ∧ s.scheduler.kRunnable = 0
  registered : s.registered = []
  created : s.created = []

def rrMachine : Machine (RrState ι) (RrEvent ι) where
  init := Booted cpu
  step := rrStep cpu

end Almos.Rr
