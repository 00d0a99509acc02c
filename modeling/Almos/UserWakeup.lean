import Mathlib
import Almos.Scheduler

/-!
# User-level wakeups and migration

A thread sleeps in `sys_thread_sleep`, its siblings wake it through the `SCHED_OP_UWAKEUP` port of its
slot, and it migrates. Each migration makes a new `thread_s` in a new slot; the old one goes on until
`sched_remove` has cleared its ports.
-/
namespace Almos.UserWakeup

/-- `running` stands for `S_USR` and `S_KERNEL`. -/
inductive ThState
  | running
  | ready
  | wait
  | dead
deriving DecidableEq

/-- Where `thread_migrate` was called: on the way from or to user code, or in `schedule` called by
`sched_sleep` in `sys_thread_sleep`, which goes on with its old pointer `this`. -/
inductive Caller
  | user
  | schedule (this : ℕ)
deriving DecidableEq

/-- The caller of `sched_sleep`. -/
inductive Sleeper
  | sysSleep (this : ℕ)
  | migrate (caller : Caller)
deriving DecidableEq

/-- A kernel entry is left only from user code or by `schedule`. -/
inductive Pc
  | user
  /-- in `sys_thread_sleep` -/
  | sysSleep
  /-- after `thread_set_cap_wakeup` -/
  | capSet
  /-- in `thread_migrate`, after `event_send` -/
  | migrating (caller : Caller)
  /-- in `sched_sleep`, interrupts disabled -/
  | sleeping (sleeper : Sleeper)
  /-- in `schedule`, after `rr_sleep` -/
  | asleep (sleeper : Sleeper)
  /-- elected again -/
  | woken (sleeper : Sleeper)
  /-- a copy that has not run yet -/
  | resumes (caller : Caller)
  | removed
deriving DecidableEq

/-- The request of a migration: what was copied of the flags, and the answer. -/
inductive Request
  | none
  | sent
  | copied (capWakeup canWakeup : Bool)
  | published
  | answered (failed : Bool)
deriving DecidableEq

/-- A `thread_s` with the two ports of its slot. `queued` says that it is in a run queue. -/
structure Th where
  state : ThState
  queued : Bool
  capWakeup : Bool
  canWakeup : Bool
  wakeup : Bool
  uwakeup : Bool
  pc : Pc
  request : Request
deriving DecidableEq

/-- The `thread_s` of a thread, numbered by its migrations; `current` is in `th_tbl`. A sibling has a
`target` between its look at `th_tbl` and `sched_event_send`. `owed` is history: a wakeup was sent after
the last return from `sys_thread_sleep`. -/
structure WkState (σ : Type*) where
  th : ℕ → Th
  current : ℕ
  target : σ → Option ℕ
  owed : Bool

/-- `rr_wakeup` without its assertion. -/
def rrWakeup (t : Th) : Th :=
  if t.state = .ready then t else { t with state := .ready, queued := true }

/-- One thread of the scheduler: whether it is ready, and linked. -/
structure SameThread {ι θ : Type*} (i : ι) (s : Sched.SchedState ι θ) (t : Th) : Prop where
  ready : t.state = .ready ↔ s.state i = .ready
  queued : t.queued = true ↔ i ∈ s.kthreads ∨ i ∈ s.runnable

theorem SameThread.wakeup {ι θ : Type*} [DecidableEq ι] [DecidableEq θ] {cpu : Sched.Cpu ι θ} {i : ι}
    {s : Sched.SchedState ι θ} {t : Th} (h : SameThread i s t) :
    SameThread i (Sched.rrWakeup cpu s i) (rrWakeup t) := by
  by_cases hready : s.state i = .ready
  · rw [rrWakeup, Sched.rrWakeup, if_pos (h.ready.mpr hready), if_pos hready]
    exact h
  · rw [rrWakeup, Sched.rrWakeup, if_neg (h.ready.not.mpr hready), if_neg hready, Sched.SchedState.addLast]
    split_ifs <;> exact ⟨by simp [Sched.SchedState.setState], by simp⟩

/-- `sched_event_notify` at the slot of the thread. -/
def schedEventNotify (t : Th) : Th :=
  if t.wakeup = true then rrWakeup { t with wakeup := false }
  else if t.uwakeup = true ∧ t.canWakeup = true then
    rrWakeup { t with canWakeup := false, uwakeup := false }
  else t

/-- `thread_set_wakeable` -/
def threadSetWakeable (t : Th) : Th := { t with canWakeup := true, capWakeup := false }

/-- `sched_sleep` up to `rr_sleep` -/
def schedSleep (t : Th) (sleeper : Sleeper) : Th :=
  { (if t.capWakeup = true then threadSetWakeable t else t) with pc := .sleeping sleeper }

/-- `sched_unregister`, as part of `sched_remove` -/
def schedRemove (t : Th) : Th :=
  { t with wakeup := false, uwakeup := false, state := .dead, pc := .removed }

/-- Where a caller of `thread_migrate` goes on. -/
def Caller.pc : Caller → Pc
  | .user => .user
  | .schedule this => .woken (.sysSleep this)

inductive WkEvent (σ : Type*)
  | syscall (n : ℕ)
  | setCap (n : ℕ)
  | schedSleep (n : ℕ)
  | rrSleep (n : ℕ)
  | elect (n : ℕ)
  | preempt (n : ℕ)
  | migrate (n : ℕ)
  | finish (n : ℕ)
  | ret (n : ℕ)
  | notify (n : ℕ)
  | copy (n : ℕ)
  | publish (n : ℕ)
  | fail (n : ℕ)
  | answer (n : ℕ)
  | lookup (j : σ)
  | send (j : σ)

/-- The steps of a `thread_s` that change nothing else. -/
def thStep {σ : Type*} (t : Th) : WkEvent σ → Option Th
  | .syscall _ =>
      if t.pc = .user ∧ t.state = .running then some { t with pc := .sysSleep } else none
  | .setCap _ =>
      if t.pc = .sysSleep then some { t with capWakeup := true, pc := .capSet } else none
  | .schedSleep n =>
      match t.pc with
      | .capSet => some (schedSleep t (.sysSleep n))
      | .migrating caller => some (schedSleep t (.migrate caller))
      | _ => none
  | .rrSleep _ =>
      match t.pc with
      | .sleeping sleeper => some { t with state := .wait, pc := .asleep sleeper }
      | _ => none
  | .elect _ =>
      if t.queued = true then
        match t.pc with
        | .asleep sleeper =>
            some { t with state := .running, queued := false, pc := .woken sleeper }
        | .resumes caller => some { t with state := .running, queued := false, pc := caller.pc }
        | .user => some { t with state := .running, queued := false }
        | _ => none
      else none
  -- do_interrupt, do_syscall and sched_yield
  | .preempt _ =>
      if t.pc = .user ∧ t.state = .running then some { t with state := .ready, queued := true }
      else none
  | .migrate _ =>
      match t.pc with
      | .user =>
          if t.state = .running then some { t with pc := .migrating .user, request := .sent } else none
      | .woken (.sysSleep this) => some { t with pc := .migrating (.schedule this), request := .sent }
      | _ => none
  -- thread_migrate after its sched_sleep, which has cleared the flag
  | .finish _ =>
      match t.pc, t.request with
      | .woken (.migrate caller), .answered true =>
          some { t with canWakeup := false, pc := caller.pc, request := .none }
      | .woken (.migrate _), .answered false => some (schedRemove { t with canWakeup := false })
      | _, _ => none
  -- interrupts are disabled in sched_sleep
  | .notify _ =>
      match t.pc with
      | .sleeping _ | .removed => none
      | _ => some (schedEventNotify t)
  | .copy _ =>
      if t.request = .sent then some { t with request := .copied t.capWakeup t.canWakeup } else none
  | .fail _ =>
      if t.request = .sent then some { t with request := .answered true, wakeup := true } else none
  | .answer _ =>
      if t.request = .published then some { t with request := .answered false, wakeup := true }
      else none
  | _ => none

/-- The caller of a running `thread_migrate`. -/
def Pc.caller : Pc → Option Caller
  | .migrating caller | .sleeping (.migrate caller) | .asleep (.migrate caller)
  | .woken (.migrate caller) => some caller
  | _ => none

variable {σ : Type*} [DecidableEq σ]

def WkState.set (s : WkState σ) (n : ℕ) (t : Th) : WkState σ := { s with th := Function.update s.th n t }

/-- The rest of `do_migrate`: the copy is registered in a new slot, put in `th_tbl` and added to a run
queue. -/
def publishCopy (s : WkState σ) (n : ℕ) (cap can : Bool) (caller : Caller) : WkState σ :=
  { (s.set n { s.th n with request := .published }).set (s.current + 1)
      ⟨.ready, true, cap, can, false, false, .resumes caller, .none⟩ with
    current := s.current + 1 }

def wkStep (s : WkState σ) (e : WkEvent σ) : Option (WkState σ) :=
  match e with
  | .syscall n | .setCap n | .schedSleep n | .rrSleep n | .elect n | .preempt n | .migrate n
  | .finish n | .notify n | .copy n | .fail n | .answer n => (thStep (s.th n) e).map (s.set n)
  -- thread_clear_wakeable, through the pointer that sched_sleep was called with
  | .ret n =>
      match (s.th n).pc with
      | .woken (.sysSleep this) =>
          let s := s.set this { s.th this with canWakeup := false }
          some { s.set n { s.th n with pc := .user } with owed := false }
      | _ => none
  | .publish n =>
      match (s.th n).request, (s.th n).pc.caller with
      | .copied cap can, some caller => some (publishCopy s n cap can caller)
      | _, _ => none
  | .lookup j => some { s with target := Function.update s.target j (some s.current) }
  | .send j =>
      match s.target j with
      | some n =>
          some { s.set n { s.th n with uwakeup := true } with
            target := Function.update s.target j none, owed := true }
      | none => none

/-- A thread in user code that has never slept or migrated. -/
def wkMachine (σ : Type*) [DecidableEq σ] : Machine (WkState σ) (WkEvent σ) where
  init s :=
    s.th = (fun n => if n = 0 then ⟨.running, false, false, false, false, false, .user, .none⟩
      else ⟨.dead, false, false, false, false, false, .removed, .none⟩) ∧
    s.current = 0 ∧ s.target = (fun _ => none) ∧ s.owed = false
  step := wkStep

/-- The sleep in `sys_thread_sleep` is over, and it is on its way to return. -/
def Pc.left : Pc → Bool
  | .woken (.sysSleep _) | .migrating (.schedule _) | .sleeping (.migrate (.schedule _))
  | .asleep (.migrate (.schedule _)) | .woken (.migrate (.schedule _)) | .resumes (.schedule _) => true
  | _ => false

def Th.Woken (t : Th) : Prop := t.pc.left = true ∨ ∃ this, t.pc = .asleep (.sysSleep this) ∧ t.queued = true

def Th.Runnable (t : Th) : Prop := t.queued = true ∨ t.state = .running ∨ t.state = .ready

/-- A wakeup that was accepted is still recorded, in the port of the current slot or by the sleep being
over, or the thread can run; and in its sleep the thread takes what is recorded in the port. -/
structure WakeupKept (s : WkState σ) : Prop where
  kept : s.owed = true → (s.th s.current).uwakeup = true ∨ (s.th s.current).Woken ∨
    (s.th s.current).Runnable
  taken : ∀ this, (s.th s.current).pc = .asleep (.sysSleep this) → (s.th s.current).queued = false →
    (s.th s.current).canWakeup = true

/-- No recorded wakeup is left behind in an old slot, unless the sleep is already over. -/
def WakeupGuard (s : WkState σ) : WkEvent σ → Prop
  | .publish n => (s.th n).uwakeup = true → s.owed = true → (s.th n).Woken
  | .send j => s.target j = some s.current ∨ (s.th s.current).Woken
  | _ => True

/-- Between `event_send` and the answer nothing but the answer wakes the thread. -/
def RequestOk (t : Th) : Prop :=
  (t.request = .sent ∨ t.request = .copied false false) ∧ t.wakeup = false ∧ t.queued = false ∧
      t.state ≠ .ready ∨
    t.request = .answered true ∧
      (t.wakeup = true ∧ t.queued = false ∧ t.state ≠ .ready ∨ t.wakeup = false ∧ t.queued = true)

def Th.Calm (t : Th) : Prop := t.wakeup = false ∧ t.request = .none ∧ t.queued = false

/-- The current `thread_s`: its flags, its port and its place in the run queues, by its place in the
code. -/
def CurrentOk (t : Th) : Prop :=
  match t.pc with
  | .user => t.canWakeup = false ∧ t.capWakeup = false ∧ t.wakeup = false ∧ t.request = .none ∧
      (t.queued = false ∧ t.state = .running ∨ t.queued = true ∧ t.state = .ready)
  | .sysSleep => t.canWakeup = false ∧ t.capWakeup = false ∧ t.Calm
  | .capSet => t.canWakeup = false ∧ t.capWakeup = true ∧ t.Calm
  | .sleeping (.sysSleep _) => t.canWakeup = true ∧ t.capWakeup = false ∧ t.Calm
  | .asleep (.sysSleep _) => t.capWakeup = false ∧ t.wakeup = false ∧ t.request = .none ∧
      (t.canWakeup = true ∧ t.queued = false ∧ t.state = .wait ∨ t.canWakeup = false ∧ t.queued = true)
  | .woken (.sysSleep _) =>
      t.canWakeup = false ∧ t.capWakeup = false ∧ t.Calm ∧ t.state = .running
  | .migrating _ | .sleeping (.migrate _) | .asleep (.migrate _) =>
      t.canWakeup = false ∧ t.capWakeup = false ∧ RequestOk t
  | .woken (.migrate _) => t.canWakeup = false ∧ t.capWakeup = false ∧ t.wakeup = false ∧
      t.queued = false ∧ t.state = .running ∧ t.request = .answered true
  | .resumes _ => t.canWakeup = false ∧ t.capWakeup = false ∧ t.wakeup = false ∧ t.request = .none ∧
      t.queued = true
  | .removed => False

/-- A `thread_s` that was left by a migration, or is not made yet. -/
def OldOk (t : Th) : Prop :=
  (t.pc = .removed ∨ t.pc.caller ≠ none) ∧ t.request ≠ .sent ∧ t.request ≠ .answered true ∧
    ∀ cap can, t.request ≠ .copied cap can

structure WkInv (s : WkState σ) : Prop where
  current : CurrentOk (s.th s.current)
  old : ∀ n, n ≠ s.current → OldOk (s.th n)
  kept : s.owed = true → (s.th s.current).uwakeup = true ∨ (s.th s.current).Woken

omit [DecidableEq σ] in
lemma WkInv.wakeupKept {s : WkState σ} (h : WkInv s) : WakeupKept s := by
  constructor
  · intro howed
    exact (h.kept howed).imp_right .inl
  · intro this hpc hqueued
    have hcurrent := h.current
    rw [CurrentOk, hpc] at hcurrent
    obtain ⟨-, -, -, hcan | hqueued'⟩ := hcurrent
    · exact hcan.1
    · rw [hqueued] at hqueued'
      cases hqueued'.2

lemma RequestOk.sleep {t : Th} (h : RequestOk t) (pc : Pc) :
    RequestOk { t with state := .wait, pc := pc } := by
  obtain ⟨hrequest, hwakeup, hqueued, -⟩ | ⟨hrequest, ⟨hwakeup, hqueued, -⟩ | hqueued⟩ := h
  · exact .inl ⟨hrequest, hwakeup, hqueued, nofun⟩
  · exact .inr ⟨hrequest, .inl ⟨hwakeup, hqueued, nofun⟩⟩
  · exact .inr ⟨hrequest, .inr hqueued⟩

lemma RequestOk.notify {t : Th} (h : RequestOk t) (hcan : t.canWakeup = false) :
    ∃ wakeup state queued, (t.queued = true → queued = true) ∧
      schedEventNotify t = { t with wakeup := wakeup, state := state, queued := queued } ∧
        RequestOk (schedEventNotify t) := by
  obtain ⟨hrequest, hwakeup, hqueued⟩ | ⟨hrequest, ⟨hwakeup, hqueued, hstate⟩ | ⟨hwakeup, hqueued⟩⟩ := h
  · have hsame : schedEventNotify t = t := by simp [schedEventNotify, hwakeup, hcan]
    rw [hsame]
    exact ⟨_, _, _, id, rfl, .inl ⟨hrequest, hwakeup, hqueued⟩⟩
  · have hwoken : schedEventNotify t = { t with wakeup := false, state := .ready, queued := true } := by
      simp [schedEventNotify, hwakeup, rrWakeup, hstate]
    rw [hwoken]
    exact ⟨_, _, _, fun _ => rfl, rfl, .inr ⟨hrequest, .inr ⟨rfl, rfl⟩⟩⟩
  · have hsame : schedEventNotify t = t := by simp [schedEventNotify, hwakeup, hcan]
    rw [hsame]
    exact ⟨_, _, _, id, rfl, .inr ⟨hrequest, .inr ⟨hwakeup, hqueued⟩⟩⟩

/-- In `thread_migrate`, before the thread is elected again. -/
def Pc.asks : Pc → Bool
  | .migrating _ | .sleeping (.migrate _) | .asleep (.migrate _) => true
  | _ => false

lemma currentOk_of_asks {t : Th} (h : t.pc.asks = true) :
    CurrentOk t ↔ t.canWakeup = false ∧ t.capWakeup = false ∧ RequestOk t := by
  unfold CurrentOk
  split <;> simp_all [Pc.asks]

lemma CurrentOk.asks {t : Th} (h : CurrentOk t)
    (hrequest : t.request = .sent ∨ ∃ cap can, t.request = .copied cap can) : t.pc.asks = true := by
  unfold CurrentOk at h
  split at h <;> simp_all [Pc.asks, Th.Calm]

lemma RequestOk.not_published {t : Th} (h : RequestOk t) : t.request ≠ .published := by
  intro hpublished
  rcases h with ⟨hsent | hcopied, -⟩ | ⟨hanswered, -⟩
  · rw [hpublished] at hsent
    cases hsent
  · rw [hpublished] at hcopied
    cases hcopied
  · rw [hpublished] at hanswered
    cases hanswered

lemma CurrentOk.not_published {t : Th} (h : CurrentOk t) : t.request ≠ .published := by
  by_cases hasks : t.pc.asks = true
  · exact ((currentOk_of_asks hasks).mp h).2.2.not_published
  · unfold CurrentOk at h
    split at h <;> simp_all [Pc.asks, Th.Calm]

lemma Th.Woken.of_pc {t t' : Th} (h : t.Woken) (hpc : t'.pc = t.pc)
    (hqueued : t.queued = true → t'.queued = true) : t'.Woken := by
  rcases h with hleft | ⟨this, hasleep, hq⟩
  · exact .inl (by rw [hpc, hleft])
  · exact .inr ⟨this, by rw [hpc, hasleep], hqueued hq⟩

lemma Th.Woken.left_resumes {t : Th} {caller : Caller} (h : t.Woken) (hasks : t.pc.asks = true)
    (hcaller : t.pc.caller = some caller) : (Pc.resumes caller).left = true := by
  have hleft : t.pc.left = true := by
    rcases h with hleft | ⟨this, hpc, -⟩
    · exact hleft
    · rw [hpc] at hasks
      cases hasks
  cases caller with
  | schedule this => rfl
  | user =>
    unfold Pc.caller at hcaller
    split at hcaller <;> simp_all [Pc.left]

lemma CurrentOk.ask_step {t t' : Th} (hasks : t.pc.asks = true) (hpc : t'.pc = t.pc)
    (hcan : t'.canWakeup = false) (hcap : t'.capWakeup = false) (hrequest : RequestOk t')
    (hqueued : t.queued = true → t'.queued = true) (huwakeup : t'.uwakeup = t.uwakeup) :
    CurrentOk t' ∧ (t.uwakeup = true ∨ t.Woken → t'.uwakeup = true ∨ t'.Woken) := by
  refine ⟨(currentOk_of_asks (by rw [hpc, hasks])).mpr ⟨hcan, hcap, hrequest⟩, fun h => ?_⟩
  rw [huwakeup]
  exact h.imp_right fun hwoken => hwoken.of_pc hpc hqueued

lemma schedEventNotify_none {t : Th} (hwakeup : t.wakeup = false) (hcan : t.canWakeup = false) :
    schedEventNotify t = t := by
  simp [schedEventNotify, hwakeup, hcan]

lemma CurrentOk.notify {t : Th} (h : CurrentOk t) (hpc : ∀ sleeper, t.pc ≠ .sleeping sleeper) :
    CurrentOk (schedEventNotify t) ∧
      (t.uwakeup = true ∨ t.Woken → (schedEventNotify t).uwakeup = true ∨ (schedEventNotify t).Woken) := by
  by_cases hasks : t.pc.asks = true
  · obtain ⟨hcan, hcap, hrequest⟩ := (currentOk_of_asks hasks).mp h
    obtain ⟨wakeup, state, queued, hqueued, hsame, hok⟩ := hrequest.notify hcan
    rw [hsame] at hok ⊢
    exact CurrentOk.ask_step hasks rfl hcan hcap hok hqueued rfl
  by_cases hport : t.wakeup = false ∧ t.canWakeup = false
  · rw [schedEventNotify_none hport.1 hport.2]
    exact ⟨h, id⟩
  obtain ⟨state, queued, cap, can, wakeup, uwakeup, pc, request⟩ := t
  cases pc with
  | asleep sleeper =>
    cases sleeper with
    | migrate caller => exact absurd rfl hasks
    | sysSleep this =>
      obtain ⟨rfl, rfl, rfl, ⟨rfl, rfl, rfl⟩ | ⟨rfl, rfl⟩⟩ := h
      · -- the wakeup that is recorded wakes it
        cases uwakeup with
        | false => exact ⟨⟨rfl, rfl, rfl, .inl ⟨rfl, rfl, rfl⟩⟩, id⟩
        | true => exact ⟨⟨rfl, rfl, rfl, .inr ⟨rfl, rfl⟩⟩, fun _ => .inr (.inr ⟨this, rfl, rfl⟩)⟩
      · exact absurd ⟨rfl, rfl⟩ hport
  | sleeping sleeper => exact absurd rfl (hpc sleeper)
  | migrating => exact absurd rfl hasks
  | woken sleeper =>
    cases sleeper with
    | sysSleep this => exact absurd ⟨h.2.2.1.1, h.1⟩ hport
    | migrate caller => exact absurd ⟨h.2.2.1, h.1⟩ hport
  | user | resumes => exact absurd ⟨h.2.2.1, h.1⟩ hport
  | sysSleep | capSet => exact absurd ⟨h.2.2.1, h.1⟩ hport
  | removed => cases h

omit [DecidableEq σ] in
lemma CurrentOk.step {t t' : Th} {e : WkEvent σ} (h : CurrentOk t) (hstep : thStep t e = some t') :
    CurrentOk t' ∧ (t.uwakeup = true ∨ t.Woken → t'.uwakeup = true ∨ t'.Woken) := by
  obtain ⟨state, queued, cap, can, wakeup, uwakeup, pc, request⟩ := t
  cases e with
  | syscall n =>
    simp only [thStep] at hstep
    split_ifs at hstep with hpc
    obtain ⟨rfl, rfl⟩ := hpc
    cases hstep
    simp_all [CurrentOk, Th.Calm, Th.Woken, Pc.left]
  | setCap n =>
    simp only [thStep] at hstep
    split_ifs at hstep with hpc
    obtain rfl := hpc
    cases hstep
    simp_all [CurrentOk, Th.Calm, Th.Woken, Pc.left]
  | schedSleep n =>
    simp only [thStep] at hstep
    split at hstep
    next =>
      cases hstep
      simp_all [CurrentOk, Th.Calm, Th.Woken, Pc.left, schedSleep, threadSetWakeable]
    next _ caller =>
      cases hstep
      cases caller <;> simp_all [CurrentOk, RequestOk, Th.Woken, Pc.left, schedSleep]
    next => cases hstep
  | rrSleep n =>
    simp only [thStep] at hstep
    split at hstep
    next _ sleeper =>
      cases hstep
      rcases sleeper with this | (_ | this)
      · simp_all [CurrentOk, Th.Calm, Th.Woken, Pc.left]
      · exact ⟨⟨h.1, h.2.1, h.2.2.sleep _⟩, by simp [Th.Woken, Pc.left]⟩
      · exact ⟨⟨h.1, h.2.1, h.2.2.sleep _⟩, by simp [Th.Woken, Pc.left]⟩
    next => cases hstep
  | elect n =>
    simp only [thStep] at hstep
    split_ifs at hstep with hqueued
    split at hstep
    next _ sleeper =>
      cases hstep
      rcases sleeper with this | (_ | this) <;>
        simp_all [CurrentOk, RequestOk, Th.Calm, Th.Woken, Pc.left]
    next _ caller =>
      cases hstep
      cases caller <;> simp_all [CurrentOk, Th.Calm, Th.Woken, Pc.left, Caller.pc]
    next =>
      cases hstep
      simp_all [CurrentOk, Th.Woken, Pc.left]
    next => cases hstep
  | preempt n =>
    simp only [thStep] at hstep
    split_ifs at hstep with hpc
    obtain ⟨rfl, rfl⟩ := hpc
    cases hstep
    simp_all [CurrentOk, Th.Woken, Pc.left]
  | migrate n =>
    simp only [thStep] at hstep
    split at hstep
    next =>
      split_ifs at hstep with hstate
      obtain rfl := hstate
      cases hstep
      simp_all [CurrentOk, RequestOk, Th.Woken, Pc.left]
    next _ this =>
      cases hstep
      simp_all [CurrentOk, RequestOk, Th.Calm, Th.Woken, Pc.left]
    next => cases hstep
  | finish n =>
    simp only [thStep] at hstep
    split at hstep
    next _ _ caller =>
      cases hstep
      cases caller <;> simp_all [CurrentOk, Th.Calm, Th.Woken, Pc.left, Caller.pc]
    next _ _ caller =>
      simp [CurrentOk] at h
    next => cases hstep
  | notify n =>
    simp only [thStep] at hstep
    split at hstep
    next => cases hstep
    next => cases hstep
    next hsleeping _ =>
      cases hstep
      exact h.notify hsleeping
  | copy n =>
    simp only [thStep] at hstep
    split_ifs at hstep with hrequest
    have hasks := h.asks (.inl hrequest)
    obtain ⟨hcan, hcap, hok⟩ := (currentOk_of_asks hasks).mp h
    dsimp only at hrequest hcan hcap
    subst hrequest hcan hcap
    cases hstep
    refine CurrentOk.ask_step hasks rfl rfl rfl ?_ id rfl
    obtain ⟨-, hrest⟩ | ⟨hanswered, -⟩ := hok
    · exact .inl ⟨.inr rfl, hrest⟩
    · cases hanswered
  | fail n =>
    simp only [thStep] at hstep
    split_ifs at hstep with hrequest
    have hasks := h.asks (.inl hrequest)
    obtain ⟨hcan, hcap, hok⟩ := (currentOk_of_asks hasks).mp h
    dsimp only at hrequest hcan hcap
    subst hrequest hcan hcap
    cases hstep
    refine CurrentOk.ask_step hasks rfl rfl rfl ?_ id rfl
    obtain ⟨-, -, hqueued, hstate⟩ | ⟨hanswered, -⟩ := hok
    · exact .inr ⟨rfl, .inl ⟨rfl, hqueued, hstate⟩⟩
    · cases hanswered
  | answer n =>
    simp only [thStep] at hstep
    split_ifs at hstep with hrequest
    exact absurd hrequest h.not_published
  | ret | publish | lookup | send => cases hstep

lemma schedEventNotify_pc (t : Th) : (schedEventNotify t).pc = t.pc ∧
    (schedEventNotify t).request = t.request := by
  unfold schedEventNotify rrWakeup
  split_ifs <;> exact ⟨rfl, rfl⟩

omit [DecidableEq σ] in
lemma OldOk.step {t t' : Th} {e : WkEvent σ} (h : OldOk t) (hstep : thStep t e = some t') :
    OldOk t' := by
  obtain ⟨state, queued, cap, can, wakeup, uwakeup, pc, request⟩ := t
  obtain ⟨hpc, hsent, hfailed, hcopied⟩ := h
  dsimp only at hpc hsent hfailed hcopied
  cases e with
  | notify n =>
    simp only [thStep] at hstep
    split at hstep
    next => cases hstep
    next => cases hstep
    next =>
      cases hstep
      obtain ⟨hpc', hrequest⟩ := schedEventNotify_pc
        ⟨state, queued, cap, can, wakeup, uwakeup, pc, request⟩
      rw [OldOk, hpc', hrequest]
      exact ⟨hpc, hsent, hfailed, hcopied⟩
  | copy n =>
    simp only [thStep] at hstep
    split_ifs at hstep with hrequest
    exact absurd hrequest hsent
  | fail n =>
    simp only [thStep] at hstep
    split_ifs at hstep with hrequest
    exact absurd hrequest hsent
  | answer n =>
    simp only [thStep] at hstep
    split_ifs at hstep with hrequest
    cases hstep
    exact ⟨hpc, nofun, nofun, nofun⟩
  | finish n =>
    simp only [thStep] at hstep
    split at hstep
    next => exact absurd rfl hfailed
    next =>
      cases hstep
      exact ⟨.inl rfl, nofun, nofun, nofun⟩
    next => cases hstep
  | syscall n =>
    simp only [thStep] at hstep
    split_ifs at hstep with hpc'
    obtain ⟨rfl, -⟩ := hpc'
    simp [Pc.caller] at hpc
  | preempt n =>
    simp only [thStep] at hstep
    split_ifs at hstep with hpc'
    obtain ⟨rfl, -⟩ := hpc'
    simp [Pc.caller] at hpc
  | setCap n =>
    simp only [thStep] at hstep
    split_ifs at hstep with hpc'
    subst hpc'
    simp [Pc.caller] at hpc
  | migrate n =>
    simp only [thStep] at hstep
    split at hstep
    next => simp [Pc.caller] at hpc
    next => simp [Pc.caller] at hpc
    next => cases hstep
  | schedSleep n =>
    simp only [thStep] at hstep
    split at hstep
    next => simp [Pc.caller] at hpc
    next _ caller =>
      cases hstep
      refine ⟨.inr (by simp [schedSleep, Pc.caller]), ?_⟩
      unfold schedSleep threadSetWakeable
      split_ifs <;> exact ⟨hsent, hfailed, hcopied⟩
    next => cases hstep
  | rrSleep n =>
    simp only [thStep] at hstep
    split at hstep
    next _ sleeper =>
      cases hstep
      refine ⟨.inr ?_, hsent, hfailed, hcopied⟩
      cases sleeper with
      | sysSleep this => simp [Pc.caller] at hpc
      | migrate caller => simp [Pc.caller]
    next => cases hstep
  | elect n =>
    simp only [thStep] at hstep
    split_ifs at hstep with hqueued
    split at hstep
    next _ sleeper =>
      cases hstep
      refine ⟨.inr ?_, hsent, hfailed, hcopied⟩
      cases sleeper with
      | sysSleep this => simp [Pc.caller] at hpc
      | migrate caller => simp [Pc.caller]
    next => simp [Pc.caller] at hpc
    next => simp [Pc.caller] at hpc
    next => cases hstep
  | ret | publish | lookup | send => cases hstep

variable {s s' : WkState σ}

omit [DecidableEq σ] in
lemma WkInv.thread {e : WkEvent σ} {n : ℕ} (h : WkInv s)
    (hstep : (thStep (s.th n) e).map (s.set n) = some s') : WkInv s' := by
  obtain ⟨t, ht, rfl⟩ := Option.map_eq_some_iff.mp hstep
  rcases eq_or_ne n s.current with rfl | hn
  · obtain ⟨hcurrent, hkept⟩ := h.current.step ht
    have hat : (s.set s.current t).th s.current = t := Function.update_self _ _ _
    refine ⟨by rw [show (s.set s.current t).current = s.current from rfl, hat]; exact hcurrent,
      fun k hk => ?_, fun howed => ?_⟩
    · rw [show (s.set s.current t).th k = s.th k from Function.update_of_ne hk _ _]
      exact h.old k hk
    · rw [show (s.set s.current t).current = s.current from rfl, hat]
      exact hkept (h.kept howed)
  · have hat : (s.set n t).th s.current = s.th s.current := Function.update_of_ne hn.symm _ _
    refine ⟨hat.symm ▸ h.current, fun k hk => ?_, fun howed => hat.symm ▸ h.kept howed⟩
    rcases eq_or_ne k n with rfl | hkn
    · rw [show (s.set k t).th k = t from Function.update_self _ _ _]
      exact (h.old k hn).step ht
    · rw [show (s.set n t).th k = s.th k from Function.update_of_ne hkn _ _]
      exact h.old k hk

omit [DecidableEq σ] in
lemma OldOk.congr {t t' : Th} (h : OldOk t) (hpc : t'.pc = t.pc) (hrequest : t'.request = t.request) :
    OldOk t' := by
  rw [OldOk, hpc, hrequest]
  exact h

lemma WkInv.ret {n : ℕ} (h : WkInv s) (hstep : wkStep s (.ret n) = some s') : WkInv s' := by
  simp only [wkStep] at hstep
  split at hstep
  next this hpc =>
    obtain rfl : n = s.current := by
      by_contra hn
      rcases (h.old n hn).1 with hremoved | hcaller
      · rw [hpc] at hremoved
        cases hremoved
      · rw [hpc] at hcaller
        exact hcaller rfl
    have hcurrent := h.current
    rw [CurrentOk, hpc] at hcurrent
    obtain ⟨hcan, hcap, ⟨hwakeup, hrequest, hqueued⟩, hstate⟩ := hcurrent
    obtain rfl := Option.some.inj hstep
    refine ⟨?_, fun k hk => ?_, nofun⟩
    · rcases eq_or_ne this s.current with rfl | hthis
      · simp [WkState.set, CurrentOk, hcap, hwakeup, hrequest, hqueued, hstate]
      · simp [WkState.set, Function.update_of_ne hthis.symm, CurrentOk, hcan, hcap, hwakeup, hrequest,
          hqueued, hstate]
    · change k ≠ s.current at hk
      rcases eq_or_ne k this with rfl | hkt
      · apply (h.old k hk).congr
        · simp [WkState.set, Function.update_of_ne hk]
        · simp [WkState.set, Function.update_of_ne hk]
      · simpa [WkState.set, Function.update_of_ne hk, Function.update_of_ne hkt] using h.old k hk
  next => cases hstep

lemma WkInv.publish {n : ℕ} (h : WkInv s) (hguard : WakeupGuard s (.publish n))
    (hstep : wkStep s (.publish n) = some s') : WkInv s' := by
  simp only [wkStep] at hstep
  split at hstep
  next cap can caller hrequest hcaller =>
    obtain rfl : n = s.current := by
      by_contra hn
      exact (h.old n hn).2.2.2 cap can hrequest
    have hasks := h.current.asks (.inr ⟨cap, can, hrequest⟩)
    obtain ⟨rfl, rfl⟩ : cap = false ∧ can = false := by
      rcases ((currentOk_of_asks hasks).mp h.current).2.2 with ⟨hsent | hcopied, -⟩ | ⟨hanswered, -⟩
      · rw [hrequest] at hsent
        cases hsent
      · rw [hrequest] at hcopied
        cases hcopied
        exact ⟨rfl, rfl⟩
      · rw [hrequest] at hanswered
        cases hanswered
    have hwoken : s.owed = true → (Pc.resumes caller).left = true := by
      intro howed
      have hwoken : (s.th s.current).Woken := by
        rcases h.kept howed with huwakeup | hwoken
        · exact hguard huwakeup howed
        · exact hwoken
      exact hwoken.left_resumes hasks hcaller
    obtain rfl := Option.some.inj hstep
    have hnew : (publishCopy s s.current false false caller).th (s.current + 1) =
        ⟨.ready, true, false, false, false, false, .resumes caller, .none⟩ := Function.update_self _ _ _
    refine ⟨?_, fun k hk => ?_, fun howed => ?_⟩
    · change CurrentOk ((publishCopy s s.current false false caller).th (s.current + 1))
      rw [hnew]
      exact ⟨rfl, rfl, rfl, rfl, rfl⟩
    · change k ≠ s.current + 1 at hk
      have hold : (publishCopy s s.current false false caller).th k =
          Function.update s.th s.current { s.th s.current with request := .published } k :=
        Function.update_of_ne hk _ _
      rw [hold]
      rcases eq_or_ne k s.current with rfl | hne
      · rw [Function.update_self]
        exact ⟨.inr (by simp [hcaller]), nofun, nofun, nofun⟩
      · rw [Function.update_of_ne hne]
        exact h.old k hne
    · change ((publishCopy s s.current false false caller).th (s.current + 1)).uwakeup = true ∨
        ((publishCopy s s.current false false caller).th (s.current + 1)).Woken
      rw [hnew]
      exact .inr (.inl (hwoken howed))
  next => cases hstep

lemma WkInv.send {j : σ} (h : WkInv s) (hguard : WakeupGuard s (.send j))
    (hstep : wkStep s (.send j) = some s') : WkInv s' := by
  simp only [wkStep] at hstep
  split at hstep
  next n htarget =>
    obtain rfl := Option.some.inj hstep
    have hcurrent : ∀ {t : Th} (uwakeup : Bool), CurrentOk t → CurrentOk { t with uwakeup := uwakeup } :=
      fun _ h => h
    rcases eq_or_ne n s.current with rfl | hn
    · have hat : Function.update s.th s.current { s.th s.current with uwakeup := true } s.current =
          { s.th s.current with uwakeup := true } := Function.update_self _ _ _
      refine ⟨?_, fun k hk => ?_, fun _ => .inl ?_⟩
      · change CurrentOk (Function.update s.th s.current _ s.current)
        rw [hat]
        exact hcurrent true h.current
      · change k ≠ s.current at hk
        change OldOk (Function.update s.th s.current _ k)
        rw [Function.update_of_ne hk]
        exact h.old k hk
      · change (Function.update s.th s.current _ s.current).uwakeup = true
        rw [hat]
    · have hat : Function.update s.th n { s.th n with uwakeup := true } s.current = s.th s.current :=
        Function.update_of_ne hn.symm _ _
      have hwoken : (s.th s.current).Woken :=
        hguard.resolve_left fun heq => hn (Option.some.inj (htarget.symm.trans heq))
      refine ⟨?_, fun k hk => ?_, fun _ => .inr ?_⟩
      · change CurrentOk (Function.update s.th n _ s.current)
        rw [hat]
        exact h.current
      · change OldOk (Function.update s.th n _ k)
        rcases eq_or_ne k n with rfl | hkn
        · rw [Function.update_self]
          exact (h.old k hk).congr rfl rfl
        · rw [Function.update_of_ne hkn]
          exact h.old k hk
      · change (Function.update s.th n _ s.current).Woken
        rw [hat]
        exact hwoken
  next => cases hstep

lemma WkInv.step {e : WkEvent σ} (h : WkInv s) (hguard : WakeupGuard s e)
    (hstep : wkStep s e = some s') : WkInv s' := by
  cases e with
  | syscall | setCap | schedSleep | rrSleep | elect | preempt | migrate | finish | notify | copy
  | fail | answer => exact h.thread hstep
  | ret n => exact h.ret hstep
  | publish n => exact h.publish hguard hstep
  | lookup j =>
    cases hstep
    exact ⟨h.current, h.old, h.kept⟩
  | send j => exact h.send hguard hstep

omit [DecidableEq σ] in
lemma WkInv.init (hth : s.th = fun n => if n = 0 then ⟨.running, false, false, false, false, false, .user,
      .none⟩ else ⟨.dead, false, false, false, false, false, .removed, .none⟩)
    (hcurrent : s.current = 0) (howed : s.owed = false) : WkInv s := by
  refine ⟨?_, fun n hn => ?_, fun h => ?_⟩
  · rw [hcurrent, hth]
    exact ⟨rfl, rfl, rfl, rfl, .inl ⟨rfl, rfl⟩⟩
  · rw [hcurrent] at hn
    simp only [hth, if_neg hn]
    exact ⟨.inl rfl, nofun, nofun, nofun⟩
  · rw [howed] at h
    cases h

/-- No wakeup is lost in a run in which no migration leaves one behind. -/
theorem wakeups_kept (h : (wkMachine σ).Reach WakeupGuard s) : WakeupKept s := by
  have hinv : WkInv s := h.invariant (fun _ hinit => .init hinit.1 hinit.2.1 hinit.2.2.2)
    fun _ _ _ hs hguard hstep => hs.step hguard hstep
  exact hinv.wakeupKept

/-- `WakeupGuard` as a test. -/
def wakeupGuard (s : WkState Unit) : WkEvent Unit → Bool
  | .publish n => (s.th n).uwakeup = false || s.owed = false
  | .send j => s.target j = some s.current
  | _ => true

lemma wakeupGuard_spec (s : WkState Unit) (e : WkEvent Unit) (h : wakeupGuard s e = true) :
    WakeupGuard s e := by
  cases e with
  | publish n =>
    intro huwakeup howed
    simp [wakeupGuard, huwakeup, howed] at h
  | send j => exact .inl (by simpa [wakeupGuard] using h)
  | _ => trivial

def wkStart : WkState Unit where
  th n := if n = 0 then ⟨.running, false, false, false, false, false, .user, .none⟩
    else ⟨.dead, false, false, false, false, false, .removed, .none⟩
  current := 0
  target _ := none
  owed := false

def migration : List (WkEvent Unit) :=
  [.migrate 0, .schedSleep 0, .rrSleep 0, .copy 0, .publish 0, .answer 0, .elect 1]

/-- The thread migrates and goes to sleep, then a wakeup is sent. -/
theorem wakeups_kept_migrated : ∃ s : WkState Unit, (wkMachine Unit).Reach WakeupGuard s ∧
    s.current = 1 ∧ (s.th 1).pc = .asleep (.sysSleep 1) ∧ s.owed = true ∧ WakeupKept s := by
  have hvalues : (((wkMachine Unit).restrict wakeupGuard).run wkStart
      (migration ++ [.syscall 1, .setCap 1, .schedSleep 1, .rrSleep 1, .lookup (), .send ()])).map
        (fun s => (s.current, (s.th 1).pc, s.owed)) = some (1, .asleep (.sysSleep 1), true) := by
    decide +kernel
  obtain ⟨s, hs, hfields⟩ := Option.map_eq_some_iff.mp hvalues
  rw [Prod.mk.injEq, Prod.mk.injEq] at hfields
  have hreach : (wkMachine Unit).Reach WakeupGuard s :=
    Machine.Reachable.of_restrict wakeupGuard_spec
      (Machine.Reachable.run (.init ⟨rfl, rfl, rfl, rfl⟩) _ hs)
  exact ⟨s, hreach, hfields.1, hfields.2.1, hfields.2.2, wakeups_kept hreach⟩

/-- A wakeup that is sent before a migration is left in the old slot, and the thread sleeps. -/
theorem wakeup_left_behind : ∃ s : WkState Unit, (wkMachine Unit).Reachable s ∧ s.current = 1 ∧
    s.owed = true ∧ s.th 1 = ⟨.wait, false, false, true, false, false, .asleep (.sysSleep 1), .none⟩ ∧
      ¬WakeupKept s := by
  have hvalues : ((wkMachine Unit).run wkStart
      ([.lookup (), .send ()] ++ migration ++ [.syscall 1, .setCap 1, .schedSleep 1, .rrSleep 1])).map
        (fun s => (s.current, s.owed, s.th 1)) = some (1, true,
          ⟨.wait, false, false, true, false, false, .asleep (.sysSleep 1), .none⟩) := by
    decide +kernel
  obtain ⟨s, hs, hfields⟩ := Option.map_eq_some_iff.mp hvalues
  rw [Prod.mk.injEq, Prod.mk.injEq] at hfields
  obtain ⟨hcurrent, howed, hth⟩ := hfields
  refine ⟨s, Machine.Reachable.run (.init ⟨rfl, rfl, rfl, rfl⟩) _ hs, hcurrent, howed, hth, fun h => ?_⟩
  have hkept := h.kept howed
  rw [hcurrent, hth] at hkept
  simp [Th.Woken, Th.Runnable, Pc.left] at hkept

end Almos.UserWakeup
