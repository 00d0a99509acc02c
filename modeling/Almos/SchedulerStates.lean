import Mathlib
import Almos.SchedulerWakeups

/-!
# The assertions of the scheduler

`rr_wakeup` expects a thread that sleeps or is ready, and `rr_sleep` one that runs in the kernel.
Between the release of an object's lock and `sched_sleep` interrupts are enabled: a wakeup that comes
then is for a running thread.
-/
namespace Almos.Sched
open WaitQueue
variable {ι θ : Type*} {cpu : Cpu ι θ} {s s' : SchedState ι θ}

/-- `sched_event_notify` finds a wakeup of the running thread only in `schedule` called by
`sched_sleep`. -/
def SelfWokenAsleep (s : SchedState ι θ) : SchedEvent ι θ → Prop
  | .visit => ∀ port, s.scan = some port → s.ports port = some (.wakeup s.current) →
      s.phase = .asleep
  | _ => True

/-- The states of the running thread, of those that wait and of those in a run queue. -/
structure StatesOk (cpu : Cpu ι θ) (s : SchedState ι θ) : Prop where
  running : s.phase ≠ .asleep → s.state s.current = .kernel ∨
    s.state s.current = .usr ∧ s.phase = .run
  sleepers : ∀ t, t ≠ s.current → Waits cpu s t → s.state t = .wait
  queued : ∀ t, Queued s t → s.state t = .ready ∨ s.state t = .create

namespace StatesOk

lemma current_not_queued (h : StatesOk cpu s) (hphase : s.phase ≠ .asleep) :
    ¬Queued s s.current := by
  intro hqueued
  rcases h.running hphase with hstate | ⟨hstate, -⟩
  · rcases h.queued _ hqueued with hready | hcreate
    · cases hstate.symm.trans hready
    · cases hstate.symm.trans hcreate
  · rcases h.queued _ hqueued with hready | hcreate
    · cases hstate.symm.trans hready
    · cases hstate.symm.trans hcreate

lemma keep (h : StatesOk cpu s) (hstate : s'.state = s.state) (hcurrent : s'.current = s.current)
    (hrunning : s'.phase ≠ .asleep → s.state s.current = .kernel ∨
      s.state s.current = .usr ∧ s'.phase = .run)
    (hwaits : ∀ t, t ≠ s.current → Waits cpu s' t → Waits cpu s t)
    (hqueued : ∀ t, Queued s' t → Queued s t) : StatesOk cpu s' := by
  constructor
  · rw [hstate, hcurrent]
    exact hrunning
  · intro t hne hw
    rw [hcurrent] at hne
    rw [hstate]
    exact h.sleepers t hne (hwaits t hne hw)
  · intro t hq
    rw [hstate]
    exact h.queued t (hqueued t hq)

lemma setCurrent [DecidableEq ι] {state : ThreadState} {phase : Phase θ} {scan : Option ℕ} (h : StatesOk cpu s)
    (hphase : s.phase ≠ .asleep)
    (hrunning : phase ≠ .asleep → state = .kernel ∨ state = .usr ∧ phase = .run) :
    StatesOk cpu { s.setState s.current state with phase := phase, scan := scan } := by
  have hsame : ∀ t, t ≠ s.current → (s.setState s.current state).state t = s.state t :=
    fun t => setState_of_ne
  constructor
  · intro hnot
    change (s.setState s.current state).state s.current = _ ∨
      (s.setState s.current state).state s.current = _ ∧ _
    rw [setState_self]
    exact hrunning hnot
  · intro t hne hw
    exact (hsame t hne).trans (h.sleepers t hne hw)
  · intro t hq
    have hne : t ≠ s.current := by
      rintro rfl
      exact h.current_not_queued hphase hq
    have hold := h.queued t hq
    rw [← hsame t hne] at hold
    exact hold

end StatesOk

lemma queued_addLast {thread t : ι} :
    Queued (s.addLast cpu thread) t ↔ t = thread ∨ Queued s t := by
  unfold SchedState.addLast Queued
  split_ifs
  · simp only [List.mem_append, List.mem_singleton]
    tauto
  · simp only [List.mem_append, List.mem_singleton]
    tauto

lemma StatesOk.init [DecidableEq ι] (h : Booted cpu s) : StatesOk cpu s := by
  have hkernel : s.state s.current = .kernel := by simp [h.state, h.current]
  refine ⟨fun _ => .inl hkernel, fun t _ hw => ?_, fun t hq => ?_⟩
  · rcases hw with ⟨object, hmem⟩ | hport
    · simp [h.queues] at hmem
    · simp [h.ports] at hport
  · simp [Queued, h.kthreads, h.migrate, h.runnable] at hq

section States
variable [DecidableEq ι] [Fintype θ]

lemma StatesOk.arrive {port : ℕ} {event : PortEvent ι} {thread : ι} {state : ThreadState}
    (h : StatesOk cpu s) (hok : SchedOk cpu s) (hport : s.ports port = some event)
    (hthread : event.thread = thread) (hstate : state = .ready ∨ state = .create)
    (hcurrent : thread = s.current → s.phase = .asleep) :
    StatesOk cpu (({ s with ports := Function.update s.ports port none }.setState thread
      state).addLast cpu thread) := by
  have hltid : cpu.ltid thread = port := hthread ▸ hok.ports port event hport
  constructor
  · intro hphase
    rw [addLast_phase] at hphase
    change s.phase ≠ _ at hphase
    have hne : s.current ≠ thread := fun heq => hphase (hcurrent heq.symm)
    rw [addLast_state, addLast_current, addLast_phase]
    change (SchedState.setState _ thread state).state s.current = _ ∨
      (SchedState.setState _ thread state).state s.current = _ ∧ _
    rw [setState_of_ne hne]
    exact h.running hphase
  · intro t hne hw
    rw [addLast_current] at hne
    unfold Waits at hw
    rw [addLast_queues, addLast_ports] at hw
    rw [addLast_state]
    rcases eq_or_ne t thread with rfl | hother
    · rcases hw with ⟨object, hmem⟩ | hport'
      · have hnone := hok.port_none_of_mem hmem
        rw [hltid, hport] at hnone
        cases hnone
      · change Function.update s.ports port none (cpu.ltid t) = _ at hport'
        rw [hltid, Function.update_self] at hport'
        cases hport'
    · rw [setState_of_ne hother]
      apply h.sleepers t hne
      rcases hw with hqueue | hport'
      · exact .inl hqueue
      · change Function.update s.ports port none (cpu.ltid t) = _ at hport'
        rw [← hltid, Function.update_of_ne fun heq => hother (cpu.ltid_inj heq)] at hport'
        exact .inr hport'
  · intro t hq
    rw [addLast_state]
    rcases eq_or_ne t thread with rfl | hother
    · rw [setState_self]
      exact hstate
    · rcases queued_addLast.mp hq with heq | hold
      · exact absurd heq hother
      · rw [setState_of_ne hother]
        exact h.queued t hold

lemma StatesOk.woken {port : ℕ} {thread : ι} (h : StatesOk cpu s) (hok : SchedOk cpu s)
    (hport : s.ports port = some (.wakeup thread))
    (hcurrent : thread = s.current → s.phase = .asleep) : s.state thread = .wait := by
  have hltid : cpu.ltid thread = port := hok.ports port _ hport
  have hwaits : Waits cpu s thread := .inr (hltid ▸ hport)
  rcases eq_or_ne thread s.current with rfl | hne
  · rcases hok.waits _ hwaits with hkernel | hwait
    · exact absurd hkernel (hok.asleep (hcurrent rfl))
    · exact hwait
  · exact h.sleepers thread hne hwaits

lemma StatesOk.visit {port : ℕ} (h : StatesOk cpu s) (hok : SchedOk cpu s)
    (hself : s.ports port = some (.wakeup s.current) → s.phase = .asleep) :
    StatesOk cpu (visitPort cpu s port) := by
  unfold visitPort
  obtain ⟨scan, hscan⟩ : ∃ scan, scan = if port + 1 < cpu.schedThreadsNr then some (port + 1)
    else none := ⟨_, rfl⟩
  rw [← hscan]
  have hnext : StatesOk cpu { s with scan := scan } :=
    h.keep rfl rfl h.running (fun _ _ => id) fun _ => id
  have hnextOk : SchedOk cpu { s with scan := scan } :=
    hok.goto rfl hok.locked hok.asleep hok.yielding hok.idle
  cases hport : s.ports port with
  | none =>
    simp only [hport]
    exact hnext
  | some event =>
    cases event with
    | wakeup thread =>
      have hcurrent : thread = s.current → s.phase = .asleep := by
        rintro rfl
        exact hself hport
      have hwait := h.woken hok hport hcurrent
      simp only [hport]
      unfold rrWakeup
      rw [if_neg (by simp [hwait])]
      exact hnext.arrive hnextOk hport rfl (.inl rfl) hcurrent
    | addCreated thread =>
      have hltid : cpu.ltid thread = port := hok.ports port _ hport
      have hfresh := hok.ne_current_of_fresh (.inr (hltid ▸ hport))
      simp only [hport]
      exact hnext.arrive hnextOk hport rfl (.inr rfl) fun heq => absurd heq hfresh

omit [Fintype θ] in
lemma queued_requeue {forcedYield : Bool} {t : ι} (h : Queued (requeue cpu s forcedYield) t) :
    t = s.current ∨ Queued s t := by
  by_cases hyields : cpu.type s.current ≠ .idle ∧ s.state s.current = .kernel
  · simp only [requeue, if_pos hyields] at h
    by_cases hpthread : cpu.type s.current = .pthread
    · rw [if_pos hpthread] at h
      by_cases hforced : cpu.loadBalancing ∧ forcedYield
      · rw [if_pos hforced] at h
        simp only [Queued, SchedState.setState, List.mem_cons] at h ⊢
        tauto
      · rw [if_neg hforced] at h
        simp only [Queued, SchedState.setState, List.mem_append, List.mem_singleton] at h ⊢
        tauto
    · rw [if_neg hpthread] at h
      by_cases hbalancing : cpu.loadBalancing
      · rw [if_pos hbalancing] at h
        simp only [Queued, SchedState.setState, List.mem_append, List.mem_singleton] at h ⊢
        tauto
      · rw [if_neg hbalancing] at h
        simp only [Queued, SchedState.setState, List.mem_cons] at h ⊢
        tauto
  · have hsame : requeue cpu s forcedYield = s := if_neg hyields
    rw [hsame] at h
    exact .inr h

omit [DecidableEq ι] [Fintype θ] in
lemma queued_takeFirst {first t : ι} (hfirst : takeFirst s = some (s', first)) (h : Queued s' t) :
    Queued s t := by
  unfold takeFirst at hfirst
  split at hfirst
  · next head rest heq =>
    cases hfirst
    simp only [Queued, heq, List.mem_cons] at h ⊢
    tauto
  · next head rest hk hm =>
    cases hfirst
    simp only [Queued, hm, List.mem_cons] at h ⊢
    tauto
  · next head rest hk hm hr =>
    cases hfirst
    simp only [Queued, hr, List.mem_cons] at h ⊢
    tauto
  · cases hfirst

lemma StatesOk.parked (h : StatesOk cpu s) (forcedYield : Bool)
    (hok : SchedOk cpu s) (hphase : s.phase = .asleep ∨ s.phase = .yielding) :
    (∀ t, Waits cpu (requeue cpu s forcedYield) t →
      (requeue cpu s forcedYield).state t = .wait) ∧
    ∀ t, Queued (requeue cpu s forcedYield) t →
      (requeue cpu s forcedYield).state t = .ready ∨
        (requeue cpu s forcedYield).state t = .create := by
  by_cases hyields : cpu.type s.current ≠ .idle ∧ s.state s.current = .kernel
  · obtain ⟨hstate, -, hports, hqueues, -, -, -⟩ :=
      requeue_spec forcedYield hyields.1 hyields.2
    have hyielding : s.phase = .yielding := by
      rcases hphase with hasleep | hyielding
      · exact absurd hyields.2 (hok.asleep hasleep)
      · exact hyielding
    constructor
    · intro t hw
      unfold Waits at hw
      rw [hqueues, hports] at hw
      have hne : t ≠ s.current := by
        rintro rfl
        exact hok.current_not_waits (by rw [hyielding]; rfl) hw
      rw [hstate, setState_of_ne hne]
      exact h.sleepers t hne hw
    · intro t hq
      rw [hstate]
      rcases eq_or_ne t s.current with rfl | hne
      · exact .inl setState_self
      · rw [setState_of_ne hne]
        exact h.queued t ((queued_requeue hq).resolve_left hne)
  · have hsame : requeue cpu s forcedYield = s := if_neg hyields
    rw [hsame]
    refine ⟨fun t hw => ?_, h.queued⟩
    rcases eq_or_ne t s.current with rfl | hne
    · rcases hphase with hasleep | hyielding
      · exact (hok.waits _ hw).resolve_left (hok.asleep hasleep)
      · exact absurd hw (hok.current_not_waits (by rw [hyielding]; rfl))
    · exact h.sleepers t hne hw

omit [Fintype θ] in
lemma StatesOk.of_run {next : ι} {state : ThreadState}
    (hsleep : ∀ t, Waits cpu s t → s.state t = .wait)
    (hqueued : ∀ t, Queued s t → s.state t = .ready ∨ s.state t = .create)
    (hnext : ¬Queued s next) (hstate : state = .kernel ∨ state = .usr) :
    StatesOk cpu { s.setState next state with current := next, phase := .run } := by
  have hsame : ∀ t, t ≠ next → (s.setState next state).state t = s.state t :=
    fun t => setState_of_ne
  constructor
  · intro _
    change (s.setState next state).state next = _ ∨ (s.setState next state).state next = _ ∧ _
    rw [setState_self]
    exact hstate.imp_right fun husr => ⟨husr, rfl⟩
  · intro t hne hw
    exact (hsame t hne).trans (hsleep t hw)
  · intro t hq
    have hne : t ≠ next := by
      rintro rfl
      exact hnext hq
    have hold := hqueued t hq
    rw [← hsame t hne] at hold
    exact hold

lemma StatesOk.elect {forcedYield : Bool} (h : StatesOk cpu s) (hok : SchedOk cpu s)
    (hphase : s.phase = .asleep ∨ s.phase = .yielding)
    (hstep : schedule cpu s forcedYield = some s') : StatesOk cpu s' := by
  obtain ⟨hsleep, hqueued⟩ := h.parked forcedYield hok hphase
  have hparked : Parked cpu (requeue cpu s forcedYield) := .of_requeue hok hphase
  unfold schedule at hstep
  obtain ⟨r, hr⟩ : ∃ r, r = requeue cpu s forcedYield := ⟨_, rfl⟩
  rw [← hr] at hparked hsleep hqueued
  simp only [← hr] at hstep
  rw [Option.map_eq_some_iff] at hstep
  obtain ⟨⟨u, next⟩, helected, rfl⟩ := hstep
  dsimp only
  have hkernel : ∀ c : Prop, ∀ _ : Decidable c,
      (if c then ThreadState.usr else .kernel) = .kernel ∨
        (if c then ThreadState.usr else .kernel) = .usr := by
    intro c _
    split_ifs
    · exact .inr rfl
    · exact .inl rfl
  split_ifs at helected with hcount
  · obtain ⟨hstate, -, hports, hqueues, -, hfirst, -, hlinks⟩ := takeFirst_spec cpu helected
    apply StatesOk.of_run
    · intro t hw
      unfold Waits at hw
      rw [hqueues, hports] at hw
      rw [hstate]
      exact hsleep t hw
    · intro t hq
      rw [hstate]
      exact hqueued t (queued_takeFirst helected hq)
    · intro hq
      have hpos : 0 < Sched.links cpu u next := hq.links_pos
      have hone := hlinks next
      rw [if_pos rfl, hparked.links] at hone
      split_ifs at hone
      omega
    · exact hkernel _ _
  · obtain ⟨rfl, rfl⟩ : r = u ∧ cpu.threadIdle = next := by simpa using helected
    apply StatesOk.of_run hsleep hqueued
    · intro hq
      have hpos : 0 < Sched.links cpu r cpu.threadIdle := hq.links_pos
      rw [hparked.links, if_pos (.inr rfl)] at hpos
      omega
    · exact hkernel _ _

lemma StatesOk.create {thread : ι} (h : StatesOk cpu s) (hok : SchedOk cpu s)
    (hborn : s.born thread = false) :
    StatesOk cpu { s.setState thread .create with
      born := Function.update s.born thread true
      ports := Function.update s.ports (cpu.ltid thread) (some (.addCreated thread)) } := by
  have hsame : ∀ t, t ≠ thread → (s.setState thread .create).state t = s.state t :=
    fun t => setState_of_ne
  have hcurrent : s.current ≠ thread := (hok.ne_current_of_fresh (.inl hborn)).symm
  constructor
  · intro hphase
    have hold := h.running hphase
    rw [← hsame _ hcurrent] at hold
    exact hold
  · intro t hne hw
    obtain ⟨hold, hother⟩ := hok.waits_of_create hborn hw
    exact (hsame t hother).trans (h.sleepers t hne hold)
  · intro t hq
    rcases eq_or_ne t thread with rfl | hne
    · exact .inr setState_self
    · have hold := h.queued t hq
      rw [← hsame t hne] at hold
      exact hold

variable [DecidableEq θ]

lemma StatesOk.step {e : SchedEvent ι θ} (h : StatesOk cpu s) (hok : SchedOk cpu s)
    (hself : SelfWokenAsleep s e) (hstep : schedStep cpu s e = some s') : StatesOk cpu s' := by
  cases e with
  | syscall =>
    obtain ⟨-, hrun, rfl⟩ := threadStep_eq_some hstep
    exact h.setCurrent (by simp [hrun.1]) fun _ => .inl rfl
  | sysret =>
    obtain ⟨-, hrun, rfl⟩ := threadStep_eq_some hstep
    exact h.setCurrent (by simp [hrun.1]) fun _ => .inr ⟨rfl, hrun.1⟩
  | lock object =>
    obtain ⟨-, hrun, rfl⟩ := threadStep_eq_some hstep
    exact h.keep rfl rfl (fun _ => .inl hrun.2.1) (fun _ _ => id) fun _ => id
  | unlock =>
    simp only [schedStep] at hstep
    split at hstep
    · next object hphase =>
      obtain ⟨-, -, rfl⟩ := threadStep_eq_some hstep
      exact h.keep rfl rfl (fun _ => .inl (hok.locked object hphase)) (fun _ _ => id) fun _ => id
    · cases hstep
  | waitOn order =>
    simp only [schedStep] at hstep
    split at hstep
    · next object hphase =>
      obtain ⟨-, -, rfl⟩ := threadStep_eq_some hstep
      exact h.keep rfl rfl (fun _ => .inl (hok.locked object hphase))
        (fun _ hne => SchedOk.waits_of_waitOn hne) fun _ => id
    · cases hstep
  | release =>
    simp only [schedStep] at hstep
    split at hstep
    · next object hphase =>
      obtain ⟨-, -, rfl⟩ := threadStep_eq_some hstep
      have hkernel := (h.running (by simp [hphase])).resolve_right (by simp [hphase])
      exact h.keep rfl rfl (fun _ => .inl hkernel) (fun _ _ => id) fun _ => id
    · cases hstep
  | disableIrq =>
    obtain ⟨-, hphase, rfl⟩ := threadStep_eq_some hstep
    have hkernel := (h.running (by simp [hphase])).resolve_right (by simp [hphase])
    exact h.keep rfl rfl (fun _ => .inl hkernel) (fun _ _ => id) fun _ => id
  | rrSleep =>
    obtain ⟨-, hphase, rfl⟩ := threadStep_eq_some hstep
    exact h.setCurrent (by simp [hphase]) fun hasleep => absurd rfl hasleep
  | schedYield =>
    obtain ⟨-, hrun, rfl⟩ := threadStep_eq_some hstep
    exact h.keep rfl rfl (fun _ => .inl hrun.2) (fun _ _ => id) fun _ => id
  | schedIdle =>
    obtain ⟨-, hrun, rfl⟩ := threadStep_eq_some hstep
    exact h.keep rfl rfl h.running (fun _ _ => id) fun _ => id
  | clock =>
    obtain ⟨-, hirq, rfl⟩ := threadStep_eq_some hstep
    split_ifs with husr
    · exact h.setCurrent hirq.not_asleep fun _ => .inl rfl
    · exact h.keep rfl rfl h.running (fun _ _ => id) fun _ => id
  | balance victim =>
    obtain ⟨-, hvictim, rfl⟩ := threadStep_eq_some hstep
    refine h.keep rfl rfl h.running (fun _ _ => id) fun t hq => ?_
    simp only [Queued, List.mem_append, List.mem_singleton] at hq ⊢
    rcases hq with hk | (hm | rfl) | hr
    · exact .inl hk
    · exact .inr (.inl hm)
    · exact .inr (.inr hvictim.2.2)
    · exact .inr (.inr (List.mem_of_mem_erase hr))
  | visit =>
    obtain ⟨port, hscan, rfl⟩ := Option.map_eq_some_iff.mp hstep
    exact h.visit hok (hself port hscan)
  | elect forcedYield =>
    simp only [schedStep] at hstep
    split_ifs at hstep with hphase
    exact h.elect hok hphase.2 hstep
  | wakeupOne object order =>
    simp only [schedStep] at hstep
    split_ifs at hstep with hlinked
    obtain ⟨⟨thread, rest⟩, hwoken, rfl⟩ := Option.map_eq_some_iff.mp hstep
    exact h.keep rfl rfl h.running (fun _ _ => SchedOk.waits_of_wakeup hwoken) fun _ => id
  | addCreated thread =>
    simp only [schedStep] at hstep
    split_ifs at hstep with hborn
    cases hstep
    exact h.create hok hborn

/-- The next port holds a wakeup: `sched_event_notify` calls `rr_wakeup` for this thread. -/
def CallsRrWakeup (s : SchedState ι θ) (thread : ι) : Prop :=
  ∃ port, s.scan = some port ∧ s.ports port = some (.wakeup thread)

/-- In every run in which a wakeup of the running thread is found only once it sleeps: `rr_wakeup`
is called for a thread that sleeps or is ready, `rr_sleep` for one that runs in the kernel, and a
running thread is in no run queue. -/
theorem scheduler_assertions_hold (h : (schedMachine cpu).Reach SelfWokenAsleep s) :
    (∀ t, CallsRrWakeup s t → SelfWokenAsleep s .visit → s.state t = .wait ∨ s.state t = .ready) ∧
    (s.phase = .sleeping → s.state s.current = .kernel) ∧
    (s.phase ≠ .asleep → ¬Queued s s.current) := by
  have hboth : SchedOk cpu s ∧ StatesOk cpu s := by
    apply h.invariant (I := fun s => SchedOk cpu s ∧ StatesOk cpu s)
    · exact fun _ hinit => ⟨.init hinit, .init hinit⟩
    · intro s e s' hs hself hstep
      exact ⟨hs.1.step hstep, hs.2.step hs.1 hself hstep⟩
  obtain ⟨hok, hstates⟩ := hboth
  refine ⟨fun t hcall hself => ?_, fun hphase => ?_, hstates.current_not_queued⟩
  · obtain ⟨port, hscan, hport⟩ := hcall
    refine .inl (hstates.woken hok hport ?_)
    rintro rfl
    exact hself port hscan hport
  · exact (hstates.running (by simp [hphase])).resolve_right (by simp [hphase])

end States

/-- `SelfWokenAsleep` as a test. -/
def selfWokenAsleep (s : SchedState (Fin 2) Unit) : SchedEvent (Fin 2) Unit → Bool
  | .visit =>
      match s.scan with
      | some port => s.ports port ≠ some (.wakeup s.current) || s.phase = .asleep
      | none => true
  | _ => true

lemma selfWokenAsleep_spec (s : SchedState (Fin 2) Unit) (e : SchedEvent (Fin 2) Unit)
    (h : selfWokenAsleep s e = true) : SelfWokenAsleep s e := by
  cases e with
  | visit =>
    intro port hscan hport
    simp only [selfWokenAsleep, hscan, hport] at h
    simpa using h
  | _ => trivial

/-- The wakeup comes after `rr_sleep`, and `schedule` finds it. -/
theorem scheduler_assertions_hold_asleep : ∃ s : SchedState (Fin 2) Unit,
    (schedMachine twoThreads).Reach SelfWokenAsleep s ∧ CallsRrWakeup s 1 ∧
      SelfWokenAsleep s .visit ∧ (s.state 1 = .wait ∨ s.state 1 = .ready) := by
  let events := untilReleased ++ [.disableIrq, .rrSleep, .wakeupOne () .first, .visit]
  have hvalues : (((schedMachine twoThreads).restrict selfWokenAsleep).run bootState events).map
      (fun s => (s.scan, s.ports 1, selfWokenAsleep s .visit)) =
        some (some 1, some (.wakeup 1), true) := by decide +kernel
  obtain ⟨s, hs, hfields⟩ := Option.map_eq_some_iff.mp hvalues
  rw [Prod.mk.injEq, Prod.mk.injEq] at hfields
  have hreach : (schedMachine twoThreads).Reach SelfWokenAsleep s :=
    Machine.Reachable.of_restrict selfWokenAsleep_spec
      (Machine.Reachable.run (.init bootState_booted) events hs)
  have hcall : CallsRrWakeup s 1 := ⟨1, hfields.1, hfields.2.1⟩
  have hself : SelfWokenAsleep s .visit := selfWokenAsleep_spec s .visit hfields.2.2
  exact ⟨s, hreach, hcall, hself, (scheduler_assertions_hold hreach).1 1 hcall hself⟩

/-- The wakeup and the timer interrupt come between the release of the lock and `sched_sleep`:
`rr_wakeup` is called for the running thread and links it in a run queue. -/
theorem running_thread_woken : ∃ s s' : SchedState (Fin 2) Unit,
    (schedMachine twoThreads).Reachable s ∧ CallsRrWakeup s 1 ∧ s.state 1 = .kernel ∧
      schedStep twoThreads s .visit = some s' ∧ s'.current = 1 ∧ s'.phase = .released ∧
      1 ∈ s'.runnable := by
  let events := untilReleased ++ [.wakeupOne () .first, .clock, .visit]
  have hvalues : ((schedMachine twoThreads).run bootState events).map
      (fun s => (s.scan, s.ports 1, s.state 1)) =
        some (some 1, some (.wakeup 1), .kernel) := by decide +kernel
  obtain ⟨s, hs, hfields⟩ := Option.map_eq_some_iff.mp hvalues
  rw [Prod.mk.injEq, Prod.mk.injEq] at hfields
  have hnext : (((schedMachine twoThreads).run bootState events).bind
      (fun s => schedStep twoThreads s .visit)).map
      (fun s => (s.current, s.phase, s.runnable)) = some (1, .released, [1]) := by decide +kernel
  rw [hs, Option.bind_some] at hnext
  obtain ⟨s', hs', hafter⟩ := Option.map_eq_some_iff.mp hnext
  rw [Prod.mk.injEq, Prod.mk.injEq] at hafter
  refine ⟨s, s', Machine.Reachable.run (.init bootState_booted) events hs,
    ⟨1, hfields.1, hfields.2.1⟩, hfields.2.2, hs', hafter.1, hafter.2.1, ?_⟩
  rw [hafter.2.2]
  exact List.mem_singleton.mpr rfl

end Almos.Sched
