import Mathlib
import Almos.Scheduler
import Almos.Threads

/-!
# Wakeups

A thread that is not the running one is always at exactly one place: in one wait queue, in its port
or in one run queue. So no wakeup is lost, although the timer interrupt can consume one that comes
before the thread has gone to sleep. That interrupt is also how a running thread gets into a run
queue.
-/
namespace Almos.Sched
open WaitQueue
variable {ι θ : Type*} {cpu : Cpu ι θ} {s s' : SchedState ι θ}

def links [DecidableEq ι] [Fintype θ] (cpu : Cpu ι θ) (s : SchedState ι θ) (t : ι) : ℕ :=
  ∑ object, (s.queues object).count t + (s.ports (cpu.ltid t)).isSome.toNat +
    (s.kthreads.count t + s.migrate.count t + s.runnable.count t)

def Queued (s : SchedState ι θ) (t : ι) : Prop :=
  t ∈ s.kthreads ∨ t ∈ s.migrate ∨ t ∈ s.runnable

def Waits (cpu : Cpu ι θ) (s : SchedState ι θ) (t : ι) : Prop :=
  (∃ object, t ∈ s.queues object) ∨ s.ports (cpu.ltid t) = some (.wakeup t)

def PortsOk (cpu : Cpu ι θ) (s : SchedState ι θ) : Prop :=
  ∀ port event, s.ports port = some event → cpu.ltid event.thread = port

def Phase.links : Phase θ → ℕ
  | .linked _ | .released | .sleeping | .asleep => 1
  | .run | .locked _ | .yielding => 0

lemma PortsOk.thread {t : ι} {event : PortEvent ι} (h : PortsOk cpu s)
    (hport : s.ports (cpu.ltid t) = some event) : event.thread = t :=
  cpu.ltid_inj (h _ _ hport)

section Links
variable [DecidableEq ι] [Fintype θ]

lemma queues_le_links {t : ι} (object : θ) : (s.queues object).count t ≤ links cpu s t := by
  have hle : (s.queues object).count t ≤ ∑ object, (s.queues object).count t :=
    Finset.single_le_sum (f := fun q => (s.queues q).count t) (fun _ _ => Nat.zero_le _)
      (Finset.mem_univ object)
  unfold links
  omega

lemma Waits.links_pos {t : ι} (h : Waits cpu s t) : 0 < links cpu s t := by
  rcases h with ⟨object, hmem⟩ | hport
  · have hpos := List.count_pos_iff.mpr hmem
    have hle : (s.queues object).count t ≤ links cpu s t := queues_le_links object
    omega
  · unfold links
    rw [hport]
    simp

lemma Queued.links_pos {t : ι} (h : Queued s t) : 0 < links cpu s t := by
  unfold links
  rcases h with hmem | hmem | hmem
  · have hpos := List.count_pos_iff.mpr hmem
    omega
  · have hpos := List.count_pos_iff.mpr hmem
    omega
  · have hpos := List.count_pos_iff.mpr hmem
    omega

lemma linked_cases {t : ι} (hports : PortsOk cpu s) (h : 0 < links cpu s t) :
    Waits cpu s t ∨ s.ports (cpu.ltid t) = some (.addCreated t) ∨ Queued s t := by
  by_contra hnot
  obtain ⟨hwaits, hcreated, hqueued⟩ : ¬Waits cpu s t ∧
      s.ports (cpu.ltid t) ≠ some (.addCreated t) ∧ ¬Queued s t := by
    refine ⟨fun hw => hnot (.inl hw), fun hc => hnot (.inr (.inl hc)), fun hq =>
      hnot (.inr (.inr hq))⟩
  have hsum : ∑ object, (s.queues object).count t = 0 := by
    apply Finset.sum_eq_zero
    intro object _
    exact List.count_eq_zero.mpr fun hmem => hwaits (.inl ⟨object, hmem⟩)
  have hnone : s.ports (cpu.ltid t) = none := by
    cases hport : s.ports (cpu.ltid t) with
    | none => rfl
    | some event =>
      have hthread := hports.thread hport
      cases event with
      | wakeup thread =>
        obtain rfl : thread = t := hthread
        exact absurd (.inr hport) hwaits
      | addCreated thread =>
        obtain rfl : thread = t := hthread
        exact absurd hport hcreated
  have hrun : s.kthreads.count t = 0 ∧ s.migrate.count t = 0 ∧ s.runnable.count t = 0 := by
    refine ⟨List.count_eq_zero.mpr fun hmem => hqueued (.inl hmem),
      List.count_eq_zero.mpr fun hmem => hqueued (.inr (.inl hmem)),
      List.count_eq_zero.mpr fun hmem => hqueued (.inr (.inr hmem))⟩
  unfold links at h
  rw [hsum, hnone] at h
  simp only [Option.isSome_none, Bool.toNat_false] at h
  omega

lemma links_addLast (thread t : ι) :
    links cpu (s.addLast cpu thread) t = links cpu s t + if thread = t then 1 else 0 := by
  unfold SchedState.addLast
  split_ifs <;> simp [links, List.count_append, *] <;> omega

lemma links_clear {port : ℕ} {event : PortEvent ι} (hports : PortsOk cpu s)
    (hport : s.ports port = some event) {thread : ι} (hthread : event.thread = thread) (t : ι) :
    links cpu { s with ports := Function.update s.ports port none } t +
      (if thread = t then 1 else 0) = links cpu s t := by
  subst hthread
  have hltid := hports port event hport
  unfold links
  rcases eq_or_ne event.thread t with rfl | hne
  · rw [hltid, hport]
    simp
    omega
  · have hother : cpu.ltid t ≠ port := by
      rw [← hltid]
      exact fun heq => hne (cpu.ltid_inj heq).symm
    simp [hne, hother]

variable (cpu s) in
lemma links_send (event : PortEvent ι) {thread : ι} (hnone : s.ports (cpu.ltid thread) = none)
    (t : ι) :
    links cpu { s with ports := Function.update s.ports (cpu.ltid thread) (some event) } t =
      links cpu s t + if thread = t then 1 else 0 := by
  unfold links
  rcases eq_or_ne thread t with rfl | hne
  · rw [hnone]
    simp
    omega
  · have hother : cpu.ltid t ≠ cpu.ltid thread := fun heq => hne (cpu.ltid_inj heq).symm
    simp [hne, hother]

variable (cpu s) in
lemma links_queue [DecidableEq θ] (object : θ) (queue : List ι) (t : ι) :
    links cpu { s with queues := Function.update s.queues object queue } t +
      (s.queues object).count t = links cpu s t + queue.count t := by
  have hsum := Threads.sum_update (fun queue : List ι => queue.count t) s.queues object queue
  unfold links
  dsimp only at hsum ⊢
  omega

end Links

@[simp] lemma setState_self [DecidableEq ι] {i : ι} {state : ThreadState} :
    (s.setState i state).state i = state := Function.update_self ..

lemma setState_of_ne [DecidableEq ι] {i t : ι} {state : ThreadState} (hne : t ≠ i) :
    (s.setState i state).state t = s.state t := Function.update_of_ne hne ..

section Fields
variable {thread : ι}

@[simp] lemma addLast_state : (s.addLast cpu thread).state = s.state := by
  unfold SchedState.addLast
  split_ifs <;> rfl

@[simp] lemma addLast_born : (s.addLast cpu thread).born = s.born := by
  unfold SchedState.addLast
  split_ifs <;> rfl

@[simp] lemma addLast_current : (s.addLast cpu thread).current = s.current := by
  unfold SchedState.addLast
  split_ifs <;> rfl

@[simp] lemma addLast_phase : (s.addLast cpu thread).phase = s.phase := by
  unfold SchedState.addLast
  split_ifs <;> rfl

@[simp] lemma addLast_ports : (s.addLast cpu thread).ports = s.ports := by
  unfold SchedState.addLast
  split_ifs <;> rfl

@[simp] lemma addLast_queues : (s.addLast cpu thread).queues = s.queues := by
  unfold SchedState.addLast
  split_ifs <;> rfl

end Fields

section Invariant
variable [DecidableEq ι] [Fintype θ]

/-- The running thread has a link only on its way to sleep; every other thread has one. -/
def expected (cpu : Cpu ι θ) (s : SchedState ι θ) (t : ι) : ℕ :=
  if s.born t = false ∨ t = cpu.threadIdle then 0
  else if t = s.current then s.phase.links else 1

structure SchedOk (cpu : Cpu ι θ) (s : SchedState ι θ) : Prop where
  links : ∀ t, links cpu s t = expected cpu s t
  ports : PortsOk cpu s
  waits : ∀ t, Waits cpu s t → s.state t = .kernel ∨ s.state t = .wait
  locked : ∀ object, s.phase = .locked object → s.state s.current = .kernel
  asleep : s.phase = .asleep → s.state s.current ≠ .kernel
  yielding : s.phase = .yielding → s.state s.current = .kernel
  count : s.count = s.kthreads.length + s.migrate.length + s.runnable.length
  born : s.born s.current = true
  awake : s.state s.current ≠ .create
  idleBorn : s.born cpu.threadIdle = true
  idleKernel : s.state cpu.threadIdle = .kernel
  fresh : ∀ t, s.born t = false ∨ s.ports (cpu.ltid t) = some (.addCreated t) →
    s.state t = .create
  idle : s.current = cpu.threadIdle → s.phase = .run ∨ s.phase = .yielding

namespace SchedOk

lemma links_le (h : SchedOk cpu s) (t : ι) : Sched.links cpu s t ≤ 1 := by
  rw [h.links t, expected]
  split_ifs
  · exact Nat.zero_le 1
  · cases s.phase <;> simp [Phase.links]
  · exact le_rfl

lemma current_ne_idle (h : SchedOk cpu s) (hrun : s.phase ≠ .run) (hyield : s.phase ≠ .yielding) :
    s.current ≠ cpu.threadIdle := by
  intro hidle
  rcases h.idle hidle with hphase | hphase
  · exact hrun hphase
  · exact hyield hphase

lemma current_links (h : SchedOk cpu s) (hidle : s.current ≠ cpu.threadIdle) :
    Sched.links cpu s s.current = s.phase.links := by
  rw [h.links, expected, if_neg, if_pos rfl]
  rintro (hborn | hcurrent)
  · rw [h.born] at hborn
    cases hborn
  · exact hidle hcurrent

/-- The running thread has no link at a place where it has not called `wait_on`. -/
lemma current_free (h : SchedOk cpu s) (hphase : s.phase.links = 0) :
    Sched.links cpu s s.current = 0 := by
  by_cases hidle : s.current = cpu.threadIdle
  · rw [h.links, expected, if_pos (.inr hidle)]
  · rw [h.current_links hidle, hphase]

lemma current_not_waits (h : SchedOk cpu s) (hphase : s.phase.links = 0) :
    ¬Waits cpu s s.current := by
  intro hwaits
  have hpos := hwaits.links_pos
  rw [h.current_free hphase] at hpos
  omega

lemma ne_current_of_fresh {t : ι} (h : SchedOk cpu s)
    (hfresh : s.born t = false ∨ s.ports (cpu.ltid t) = some (.addCreated t)) : t ≠ s.current := by
  rintro rfl
  exact h.awake (h.fresh _ hfresh)

lemma born_of_links {t : ι} (h : SchedOk cpu s) (hpos : 0 < Sched.links cpu s t) :
    s.born t = true ∧ t ≠ cpu.threadIdle := by
  rw [h.links, expected] at hpos
  split_ifs at hpos with hout
  · omega
  · exact ⟨by simpa using fun hb => hout (.inl hb), fun hi => hout (.inr hi)⟩
  · exact ⟨by simpa using fun hb => hout (.inl hb), fun hi => hout (.inr hi)⟩

lemma goto {phase : Phase θ} {scan : Option ℕ} (h : SchedOk cpu s)
    (hlinks : phase.links = s.phase.links)
    (hlocked : ∀ object, phase = .locked object → s.state s.current = .kernel)
    (hasleep : phase = .asleep → s.state s.current ≠ .kernel)
    (hyielding : phase = .yielding → s.state s.current = .kernel)
    (hidle : s.current = cpu.threadIdle → phase = .run ∨ phase = .yielding) :
    SchedOk cpu { s with phase := phase, scan := scan } := by
  refine ⟨fun t => ?_, h.ports, h.waits, hlocked, hasleep, hyielding, h.count, h.born, h.awake,
    h.idleBorn, h.idleKernel, h.fresh, hidle⟩
  have ht := h.links t
  unfold expected at ht ⊢
  dsimp only
  rw [hlinks]
  exact ht

lemma setCurrent {state : ThreadState} (h : SchedOk cpu s) (hphase : s.phase = .run)
    (hidle : s.current ≠ cpu.threadIdle) (hstate : state ≠ .create) :
    SchedOk cpu (s.setState s.current state) := by
  have hzero : s.phase.links = 0 := by
    rw [hphase]
    rfl
  refine ⟨h.links, h.ports, fun t hwaits => ?_, fun object hlocked => ?_, fun hasleep => ?_,
    fun hyielding => ?_, h.count, h.born, ?_, h.idleBorn, ?_, fun t hfresh => ?_, h.idle⟩
  · have hne : t ≠ s.current := by
      rintro rfl
      exact h.current_not_waits hzero hwaits
    rw [setState_of_ne hne]
    exact h.waits t hwaits
  · cases hphase.symm.trans hlocked
  · cases hphase.symm.trans hasleep
  · cases hphase.symm.trans hyielding
  · exact fun hcreate => hstate (setState_self.symm.trans hcreate)
  · rw [setState_of_ne hidle.symm]
    exact h.idleKernel
  · rw [setState_of_ne (h.ne_current_of_fresh hfresh)]
    exact h.fresh t hfresh

lemma sleep (h : SchedOk cpu s) (hphase : s.phase = .sleeping) :
    SchedOk cpu { rrSleep s with phase := .asleep, scan := some 0 } := by
  have hidle : s.current ≠ cpu.threadIdle := h.current_ne_idle (by simp [hphase]) (by simp [hphase])
  have hstate : ∀ t, t ≠ s.current → (rrSleep s).state t = s.state t := fun t => setState_of_ne
  have hwait : (rrSleep s).state s.current = .wait := setState_self
  refine ⟨fun t => ?_, h.ports, fun t hwaits => ?_, nofun, fun _ => ?_, nofun, h.count, h.born, ?_,
    h.idleBorn, (hstate _ hidle.symm).trans h.idleKernel, fun t hfresh => ?_,
    fun hi => absurd hi hidle⟩
  · have ht := h.links t
    unfold expected at ht ⊢
    rw [hphase] at ht
    exact ht
  · rcases eq_or_ne t s.current with rfl | hne
    · exact .inr hwait
    · have hold := h.waits t hwaits
      rw [← hstate t hne] at hold
      exact hold
  · change (rrSleep s).state s.current ≠ _
    rw [hwait]
    decide
  · change (rrSleep s).state s.current ≠ _
    rw [hwait]
    decide
  · exact (hstate t (h.ne_current_of_fresh hfresh)).trans (h.fresh t hfresh)

lemma port_none_of_mem {object : θ} {t : ι} (h : SchedOk cpu s) (hmem : t ∈ s.queues object) :
    s.ports (cpu.ltid t) = none := by
  have hpos := List.count_pos_iff.mpr hmem
  have hle : (s.queues object).count t ≤ ∑ object, (s.queues object).count t :=
    Finset.single_le_sum (f := fun q => (s.queues q).count t) (fun _ _ => Nat.zero_le _)
      (Finset.mem_univ object)
  have hone := h.links_le t
  unfold Sched.links at hone
  cases hport : s.ports (cpu.ltid t) with
  | none => rfl
  | some event =>
    rw [hport] at hone
    simp only [Option.isSome_some, Bool.toNat_true] at hone
    omega

lemma waits_of_create {thread t : ι} {born : ι → Bool} (h : SchedOk cpu s)
    (hborn : s.born thread = false)
    (hwaits : Waits cpu { s.setState thread .create with
      born := born
      ports := Function.update s.ports (cpu.ltid thread) (some (.addCreated thread)) } t) :
    Waits cpu s t ∧ t ≠ thread := by
  have hzero : Sched.links cpu s thread = 0 := by
    rw [h.links, expected, if_pos (.inl hborn)]
  have hne : t ≠ thread := by
    rintro rfl
    rcases hwaits with ⟨object, hmem⟩ | hport
    · have hold : Waits cpu s t := .inl ⟨object, hmem⟩
      have hpos := hold.links_pos
      omega
    · dsimp only at hport
      rw [Function.update_self] at hport
      cases hport
  refine ⟨?_, hne⟩
  rcases hwaits with hqueue | hport
  · exact .inl hqueue
  · dsimp only at hport
    rw [Function.update_of_ne fun heq => hne (cpu.ltid_inj heq)] at hport
    exact .inr hport

lemma create {thread : ι} (h : SchedOk cpu s) (hborn : s.born thread = false) :
    SchedOk cpu { s.setState thread .create with
      born := Function.update s.born thread true
      ports := Function.update s.ports (cpu.ltid thread) (some (.addCreated thread)) } := by
  have hzero : Sched.links cpu s thread = 0 := by
    rw [h.links, expected, if_pos (.inl hborn)]
  have hnone : s.ports (cpu.ltid thread) = none := by
    cases hport : s.ports (cpu.ltid thread) with
    | none => rfl
    | some event =>
      unfold Sched.links at hzero
      rw [hport] at hzero
      simp at hzero
  have hcurrent : s.current ≠ thread := by
    rintro rfl
    rw [h.born] at hborn
    cases hborn
  have hidle : cpu.threadIdle ≠ thread := by
    rintro rfl
    rw [h.idleBorn] at hborn
    cases hborn
  have hstate : ∀ t, t ≠ thread → (s.setState thread .create).state t = s.state t :=
    fun t => setState_of_ne
  refine ⟨fun t => ?_, fun port event hport => ?_, fun t hwaits => ?_, fun object hphase => ?_,
    fun hphase => ?_, fun hphase => ?_, h.count, ?_, ?_, ?_, ?_, fun t hfresh => ?_, h.idle⟩
  · have hsend := links_send cpu s (.addCreated thread) hnone t
    change Sched.links cpu { s with
      ports := Function.update s.ports (cpu.ltid thread) (some (.addCreated thread)) } t = _
    refine hsend.trans ?_
    rw [h.links t]
    unfold expected
    dsimp only [SchedState.setState]
    rcases eq_or_ne thread t with rfl | hne
    · simp [hborn, hidle.symm, hcurrent.symm]
    · simp only [if_neg hne, Function.update_of_ne hne.symm, Nat.add_zero]
      rfl
  · dsimp only at hport
    rcases eq_or_ne port (cpu.ltid thread) with rfl | hne
    · rw [Function.update_self] at hport
      cases hport
      rfl
    · rw [Function.update_of_ne hne] at hport
      exact h.ports port event hport
  · obtain ⟨hold, hne⟩ := h.waits_of_create hborn hwaits
    have hwaiting := h.waits t hold
    rw [← hstate t hne] at hwaiting
    exact hwaiting
  · exact (hstate _ hcurrent).trans (h.locked object hphase)
  · exact fun hkernel => h.asleep hphase ((hstate _ hcurrent).symm.trans hkernel)
  · exact (hstate _ hcurrent).trans (h.yielding hphase)
  · change Function.update s.born thread true s.current = true
    rw [Function.update_of_ne hcurrent, h.born]
  · exact fun hcreate => h.awake ((hstate _ hcurrent).symm.trans hcreate)
  · change Function.update s.born thread true cpu.threadIdle = true
    rw [Function.update_of_ne hidle, h.idleBorn]
  · exact (hstate _ hidle).trans h.idleKernel
  · rcases eq_or_ne t thread with rfl | hne
    · exact setState_self
    · refine (hstate t hne).trans (h.fresh t ?_)
      dsimp only at hfresh
      rwa [Function.update_of_ne hne, Function.update_of_ne fun heq => hne (cpu.ltid_inj heq)]
        at hfresh

variable [DecidableEq θ]

omit [Fintype θ] in
/-- Whoever waits after `wait_on` did before, or is the thread that called it. -/
lemma waits_of_waitOn {object : θ} {order : WaitOrder} {phase : Phase θ} {t : ι}
    (hne : t ≠ s.current)
    (hwaits : Waits cpu { s with
      phase := phase
      queues := Function.update s.queues object
        (WaitQueue.waitOn (s.queues object) s.current order) } t) : Waits cpu s t := by
  rcases hwaits with ⟨object', hmem⟩ | hport
  · refine .inl ⟨object', ?_⟩
    dsimp only at hmem
    rcases eq_or_ne object' object with rfl | hobject
    · rw [Function.update_self] at hmem
      have hpos := List.count_pos_iff.mpr hmem
      rw [count_waitOn, if_neg hne.symm] at hpos
      exact List.count_pos_iff.mp hpos
    · rwa [Function.update_of_ne hobject] at hmem
  · exact .inr hport

lemma waitOn {object : θ} {order : WaitOrder} (h : SchedOk cpu s)
    (hphase : s.phase = .locked object) :
    SchedOk cpu { s with
      phase := .linked object
      queues := Function.update s.queues object
        (WaitQueue.waitOn (s.queues object) s.current order) } := by
  have hidle : s.current ≠ cpu.threadIdle := h.current_ne_idle (by simp [hphase]) (by simp [hphase])
  refine ⟨fun t => ?_, h.ports, fun t hwaits => ?_, nofun, nofun, nofun, h.count, h.born, h.awake,
    h.idleBorn, h.idleKernel, h.fresh, fun hi => absurd hi hidle⟩
  · obtain ⟨queue, hwait⟩ : ∃ queue, queue = WaitQueue.waitOn (s.queues object) s.current order :=
      ⟨_, rfl⟩
    have hqueue := links_queue cpu s object queue t
    rw [hwait, count_waitOn, h.links t, ← hwait] at hqueue
    rw [← hwait]
    change Sched.links cpu { s with queues := Function.update s.queues object queue } t = _
    unfold expected at hqueue ⊢
    dsimp only
    rcases eq_or_ne s.current t with rfl | hne
    · have hborn : ¬(s.born s.current = false ∨ s.current = cpu.threadIdle) := by
        simp [h.born, hidle]
      simp only [if_neg hborn, if_true, hphase, Phase.links] at hqueue ⊢
      omega
    · simp only [if_neg hne, if_neg hne.symm] at hqueue ⊢
      omega
  · rcases eq_or_ne t s.current with rfl | hne
    · exact .inl (h.locked object hphase)
    · exact h.waits t (waits_of_waitOn hne hwaits)

omit [Fintype θ] in
lemma waits_of_wakeup {object : θ} {order : WaitOrder} {thread t : ι} {rest : List ι}
    (hwoken : WaitQueue.wakeupOne (s.queues object) order = some (thread, rest))
    (hwaits : Waits cpu { s with
      queues := Function.update s.queues object rest
      ports := Function.update s.ports (cpu.ltid thread) (some (.wakeup thread)) } t) :
    Waits cpu s t := by
  have hcount := count_wakeupOne hwoken t
  rcases eq_or_ne thread t with rfl | hne
  · rw [if_pos rfl] at hcount
    exact .inl ⟨object, List.count_pos_iff.mp (by omega)⟩
  · rcases hwaits with ⟨object', hmem⟩ | hport
    · dsimp only at hmem
      rcases eq_or_ne object' object with rfl | hobject
      · rw [Function.update_self] at hmem
        have hpos := List.count_pos_iff.mpr hmem
        exact .inl ⟨object', List.count_pos_iff.mp (by omega)⟩
      · rw [Function.update_of_ne hobject] at hmem
        exact .inl ⟨object', hmem⟩
    · dsimp only at hport
      rw [Function.update_of_ne fun heq => hne (cpu.ltid_inj heq).symm] at hport
      exact .inr hport

lemma wakeup {object : θ} {order : WaitOrder} {thread : ι} {rest : List ι} (h : SchedOk cpu s)
    (hwoken : WaitQueue.wakeupOne (s.queues object) order = some (thread, rest)) :
    SchedOk cpu { s with
      queues := Function.update s.queues object rest
      ports := Function.update s.ports (cpu.ltid thread) (some (.wakeup thread)) } := by
  have hcount := count_wakeupOne hwoken
  have hmem : thread ∈ s.queues object := by
    have hone := hcount thread
    rw [if_pos rfl] at hone
    exact List.count_pos_iff.mp (by omega)
  have hnone := h.port_none_of_mem hmem
  refine ⟨fun t => ?_, fun port event hport => ?_, fun t hwaits => ?_, h.locked, h.asleep,
    h.yielding, h.count, h.born, h.awake, h.idleBorn, h.idleKernel, fun t hfresh => ?_, h.idle⟩
  · have hqueue := links_queue cpu s object rest t
    have hsend := links_send cpu { s with queues := Function.update s.queues object rest }
      (.wakeup thread) hnone t
    have hold := h.links t
    have ht := hcount t
    refine hsend.trans ?_
    change _ = expected cpu s t
    omega
  · dsimp only at hport
    rcases eq_or_ne port (cpu.ltid thread) with rfl | hne
    · rw [Function.update_self] at hport
      cases hport
      rfl
    · rw [Function.update_of_ne hne] at hport
      exact h.ports port event hport
  · exact h.waits t (waits_of_wakeup hwoken hwaits)
  · apply h.fresh t
    rcases hfresh with hborn | hport
    · exact .inl hborn
    · dsimp only at hport
      rcases eq_or_ne t thread with rfl | hne
      · rw [Function.update_self] at hport
        cases hport
      · rw [Function.update_of_ne fun heq => hne (cpu.ltid_inj heq)] at hport
        exact .inr hport

end SchedOk
end Invariant

section Schedule
variable [DecidableEq ι] [Fintype θ]

namespace SchedOk

/-- The event of a port is taken: its thread goes from the port to a run queue. -/
lemma arrive {port : ℕ} {event : PortEvent ι} {thread : ι} {state : ThreadState} (h : SchedOk cpu s)
    (hport : s.ports port = some event) (hthread : event.thread = thread)
    (hstate : state ≠ .kernel) (hcreate : state = .create → s.state thread = .create) :
    SchedOk cpu (({ s with ports := Function.update s.ports port none }.setState thread
      state).addLast cpu thread) := by
  have hltid : cpu.ltid thread = port := hthread ▸ h.ports port event hport
  have hsome : s.ports (cpu.ltid thread) = some event := by rw [hltid, hport]
  have hpos : 0 < Sched.links cpu s thread := by
    unfold Sched.links
    rw [hsome]
    simp
  obtain ⟨hborn, hidle⟩ := h.born_of_links hpos
  -- a running thread that has not called `wait_on` has no event
  have hcurrent : s.phase.links = 0 → s.current ≠ thread := by
    rintro hzero rfl
    rw [h.current_free hzero] at hpos
    omega
  constructor
  · intro t
    have hclear := links_clear h.ports hport hthread t
    have hold := h.links t
    rw [links_addLast]
    refine hclear.trans ?_
    unfold expected at hold ⊢
    rw [addLast_born, addLast_current, addLast_phase]
    exact hold
  · intro port' event' hport'
    rw [addLast_ports] at hport'
    apply h.ports port' event'
    rcases eq_or_ne port' port with rfl | hne
    · change Function.update s.ports port' none port' = _ at hport'
      rw [Function.update_self] at hport'
      cases hport'
    · change Function.update s.ports port none port' = _ at hport'
      rwa [Function.update_of_ne hne] at hport'
  · intro t hwaits
    rw [addLast_state]
    unfold Waits at hwaits
    rw [addLast_queues, addLast_ports] at hwaits
    rcases eq_or_ne t thread with rfl | hne
    · rcases hwaits with ⟨object, hmem⟩ | hport'
      · have hnone := h.port_none_of_mem hmem
        rw [hsome] at hnone
        cases hnone
      · change Function.update s.ports port none (cpu.ltid t) = _ at hport'
        rw [hltid, Function.update_self] at hport'
        cases hport'
    · rw [setState_of_ne hne]
      apply h.waits t
      rcases hwaits with hqueue | hport'
      · exact .inl hqueue
      · change Function.update s.ports port none (cpu.ltid t) = _ at hport'
        rw [← hltid, Function.update_of_ne fun heq => hne (cpu.ltid_inj heq)] at hport'
        exact .inr hport'
  · intro object hphase
    rw [addLast_phase] at hphase
    change s.phase = _ at hphase
    rw [addLast_state, addLast_current]
    change (SchedState.setState _ thread state).state s.current = _
    rw [setState_of_ne (hcurrent (by rw [hphase]; rfl))]
    exact h.locked object hphase
  · intro hphase
    rw [addLast_phase] at hphase
    rw [addLast_state, addLast_current]
    change (SchedState.setState _ thread state).state s.current ≠ _
    rcases eq_or_ne s.current thread with heq | hne
    · rw [heq, setState_self]
      exact hstate
    · rw [setState_of_ne hne]
      exact h.asleep hphase
  · intro hphase
    rw [addLast_phase] at hphase
    change s.phase = _ at hphase
    rw [addLast_state, addLast_current]
    change (SchedState.setState _ thread state).state s.current = _
    rw [setState_of_ne (hcurrent (by rw [hphase]; rfl))]
    exact h.yielding hphase
  · have hcount := h.count
    unfold SchedState.addLast
    split_ifs
    · simp only [SchedState.setState, List.length_append, List.length_singleton]
      omega
    · simp only [SchedState.setState, List.length_append, List.length_singleton]
      omega
  · rw [addLast_born, addLast_current]
    exact h.born
  · rw [addLast_state, addLast_current]
    change (SchedState.setState _ thread state).state s.current ≠ _
    rcases eq_or_ne s.current thread with heq | hne
    · rw [heq, setState_self]
      exact fun hstate => h.awake (heq ▸ hcreate hstate)
    · rw [setState_of_ne hne]
      exact h.awake
  · rw [addLast_born]
    exact h.idleBorn
  · rw [addLast_state, setState_of_ne hidle.symm]
    exact h.idleKernel
  · intro t hfresh
    rw [addLast_born, addLast_ports] at hfresh
    change s.born t = false ∨ Function.update s.ports port none (cpu.ltid t) = _ at hfresh
    rw [addLast_state]
    rcases eq_or_ne t thread with rfl | hne
    · rw [hltid, Function.update_self, hborn] at hfresh
      rcases hfresh with hfalse | hnone
      · cases hfalse
      · cases hnone
    · rw [setState_of_ne hne]
      rw [← hltid, Function.update_of_ne fun heq => hne (cpu.ltid_inj heq)] at hfresh
      exact h.fresh t hfresh
  · rw [addLast_current, addLast_phase]
    exact h.idle

lemma visit (h : SchedOk cpu s) (port : ℕ) : SchedOk cpu (visitPort cpu s port) := by
  unfold visitPort
  obtain ⟨scan, hscan⟩ : ∃ scan, scan = if port + 1 < cpu.schedThreadsNr then some (port + 1)
    else none := ⟨_, rfl⟩
  rw [← hscan]
  have hnext : SchedOk cpu { s with scan := scan } :=
    h.goto rfl h.locked h.asleep h.yielding h.idle
  cases hport : s.ports port with
  | none =>
    simp only [hport]
    exact hnext
  | some event =>
    cases event with
    | wakeup thread =>
      have hready : s.state thread ≠ .ready := by
        have hltid : cpu.ltid thread = port := h.ports port _ hport
        rcases h.waits thread (.inr (hltid ▸ hport)) with hstate | hstate
        · simp [hstate]
        · simp [hstate]
      simp only [hport]
      unfold rrWakeup
      rw [if_neg hready]
      exact hnext.arrive hport rfl (by decide) nofun
    | addCreated thread =>
      have hltid : cpu.ltid thread = port := h.ports port _ hport
      simp only [hport]
      exact hnext.arrive hport rfl (by decide) fun _ => h.fresh thread (.inr (hltid ▸ hport))

lemma balance {victim : ι} (h : SchedOk cpu s) (hmem : victim ∈ s.runnable) :
    SchedOk cpu { s with
      runnable := s.runnable.erase victim
      migrate := s.migrate ++ [victim] } := by
  refine ⟨fun t => ?_, h.ports, h.waits, h.locked, h.asleep, h.yielding, ?_, h.born, h.awake,
    h.idleBorn, h.idleKernel, h.fresh, h.idle⟩
  · refine Eq.trans ?_ (h.links t)
    have hpos := List.count_pos_iff.mpr hmem
    unfold Sched.links
    dsimp only
    rw [List.count_append, List.count_erase]
    rcases eq_or_ne victim t with rfl | hne
    · simp only [beq_self_eq_true, if_true, List.count_singleton_self]
      omega
    · simp [hne]
  · have hcount := h.count
    have hpos := List.length_pos_of_mem hmem
    simp only [List.length_append, List.length_singleton, List.length_erase_of_mem hmem]
    omega

end SchedOk

/-- Between the end of the running thread's turn and the choice of the next: every thread is in some
place. -/
structure Parked (cpu : Cpu ι θ) (s : SchedState ι θ) : Prop where
  links : ∀ t, links cpu s t = if s.born t = false ∨ t = cpu.threadIdle then 0 else 1
  ports : PortsOk cpu s
  waits : ∀ t, Waits cpu s t → s.state t = .kernel ∨ s.state t = .wait
  count : s.count = s.kthreads.length + s.migrate.length + s.runnable.length
  idleBorn : s.born cpu.threadIdle = true
  idleKernel : s.state cpu.threadIdle = .kernel
  fresh : ∀ t, s.born t = false ∨ s.ports (cpu.ltid t) = some (.addCreated t) →
    s.state t = .create

lemma requeue_spec (forcedYield : Bool) (htype : cpu.type s.current ≠ .idle)
    (hstate : s.state s.current = .kernel) :
    (requeue cpu s forcedYield).state = (s.setState s.current .ready).state ∧
    (requeue cpu s forcedYield).born = s.born ∧
    (requeue cpu s forcedYield).ports = s.ports ∧
    (requeue cpu s forcedYield).queues = s.queues ∧
    (requeue cpu s forcedYield).count = s.count + 1 ∧
    (requeue cpu s forcedYield).kthreads.length + (requeue cpu s forcedYield).migrate.length +
      (requeue cpu s forcedYield).runnable.length =
        s.kthreads.length + s.migrate.length + s.runnable.length + 1 ∧
    ∀ t, Sched.links cpu (requeue cpu s forcedYield) t =
      Sched.links cpu s t + if s.current = t then 1 else 0 := by
  unfold requeue
  simp only [htype, hstate, ne_eq, not_false_eq_true, and_self, if_true]
  split_ifs
  · refine ⟨rfl, rfl, rfl, rfl, rfl, ?_, fun t => ?_⟩
    · simp only [SchedState.setState, List.length_cons]
      omega
    · simp only [Sched.links, SchedState.setState, List.count_cons, beq_iff_eq]
      omega
  · refine ⟨rfl, rfl, rfl, rfl, rfl, ?_, fun t => ?_⟩
    · simp only [SchedState.setState, List.length_append, List.length_singleton]
      omega
    · simp only [Sched.links, SchedState.setState, List.count_append, List.count_cons,
        List.count_nil, beq_iff_eq]
      omega
  · refine ⟨rfl, rfl, rfl, rfl, rfl, ?_, fun t => ?_⟩
    · simp only [SchedState.setState, List.length_append, List.length_singleton]
      omega
    · simp only [Sched.links, SchedState.setState, List.count_append, List.count_cons,
        List.count_nil, beq_iff_eq]
      omega
  · refine ⟨rfl, rfl, rfl, rfl, rfl, ?_, fun t => ?_⟩
    · simp only [SchedState.setState, List.length_cons]
      omega
    · simp only [Sched.links, SchedState.setState, List.count_cons, beq_iff_eq]
      omega

lemma Parked.of_requeue {forcedYield : Bool} (h : SchedOk cpu s)
    (hphase : s.phase = .asleep ∨ s.phase = .yielding) :
    Parked cpu (requeue cpu s forcedYield) := by
  by_cases hyields : cpu.type s.current ≠ .idle ∧ s.state s.current = .kernel
  · obtain ⟨hstate, hborn, hports, hqueues, hcount, hlength, hlinks⟩ :=
      requeue_spec forcedYield hyields.1 hyields.2
    have hyielding : s.phase = .yielding := by
      rcases hphase with hasleep | hyielding
      · exact absurd hyields.2 (h.asleep hasleep)
      · exact hyielding
    have hidle : s.current ≠ cpu.threadIdle := fun heq =>
      hyields.1 ((cpu.type_idle s.current).mpr heq)
    have hfree : Sched.links cpu s s.current = 0 := h.current_free (by rw [hyielding]; rfl)
    refine ⟨fun t => ?_, ?_, fun t hwaits => ?_, ?_, ?_, ?_, fun t hfresh => ?_⟩
    · rw [hlinks t, hborn]
      rcases eq_or_ne s.current t with rfl | hne
      · rw [hfree, if_pos rfl, if_neg]
        simp [h.born, hidle]
      · rw [if_neg hne, h.links t, expected, if_neg hne.symm, Nat.add_zero]
    · unfold PortsOk
      rw [hports]
      exact h.ports
    · unfold Waits at hwaits
      rw [hqueues, hports] at hwaits
      have hne : t ≠ s.current := by
        rintro rfl
        exact h.current_not_waits (by rw [hyielding]; rfl) hwaits
      rw [hstate, setState_of_ne hne]
      exact h.waits t hwaits
    · rw [hcount, hlength, h.count]
    · rw [hborn]
      exact h.idleBorn
    · rw [hstate, setState_of_ne hidle.symm]
      exact h.idleKernel
    · rw [hborn, hports] at hfresh
      rw [hstate, setState_of_ne (h.ne_current_of_fresh hfresh)]
      exact h.fresh t hfresh
  · have hsame : requeue cpu s forcedYield = s := if_neg hyields
    rw [hsame]
    refine ⟨fun t => ?_, h.ports, h.waits, h.count, h.idleBorn, h.idleKernel, h.fresh⟩
    rw [h.links t, expected]
    split_ifs with hout hcurrent
    · rfl
    · -- only a thread that has called `wait_on` goes to sleep
      subst hcurrent
      rcases hphase with hasleep | hyielding
      · rw [hasleep]
        rfl
      · refine absurd ⟨fun htype => hout (.inr ((cpu.type_idle _).mp htype)), ?_⟩ hyields
        exact h.yielding hyielding
    · rfl

variable (cpu) in
lemma takeFirst_spec {first : ι} (hfirst : takeFirst s = some (s', first)) :
    s'.state = s.state ∧ s'.born = s.born ∧ s'.ports = s.ports ∧ s'.queues = s.queues ∧
    s'.count = s.count - 1 ∧ Queued s first ∧
    s'.kthreads.length + s'.migrate.length + s'.runnable.length + 1 =
      s.kthreads.length + s.migrate.length + s.runnable.length ∧
    ∀ t, Sched.links cpu s' t + (if first = t then 1 else 0) = Sched.links cpu s t := by
  unfold takeFirst at hfirst
  split at hfirst
  · next head rest heq =>
    cases hfirst
    refine ⟨rfl, rfl, rfl, rfl, rfl, .inl (by simp [heq]), ?_, fun t => ?_⟩
    · simp only [heq, List.length_cons]
      omega
    · simp only [Sched.links, heq, List.count_cons, beq_iff_eq]
      omega
  · next head rest hk hm =>
    cases hfirst
    refine ⟨rfl, rfl, rfl, rfl, rfl, .inr (.inl (by simp [hm])), ?_, fun t => ?_⟩
    · simp only [hm, List.length_cons]
      omega
    · simp only [Sched.links, hm, List.count_cons, beq_iff_eq]
      omega
  · next head rest hk hm hr =>
    cases hfirst
    refine ⟨rfl, rfl, rfl, rfl, rfl, .inr (.inr (by simp [hr])), ?_, fun t => ?_⟩
    · simp only [hr, List.length_cons]
      omega
    · simp only [Sched.links, hr, List.count_cons, beq_iff_eq]
      omega
  · cases hfirst

lemma SchedOk.of_run {next : ι} {state : ThreadState} (hlinks : ∀ t, Sched.links cpu s t =
      if s.born t = false ∨ t = cpu.threadIdle then 0 else if t = next then 0 else 1)
    (hports : PortsOk cpu s)
    (hwaits : ∀ t, Waits cpu s t → s.state t = .kernel ∨ s.state t = .wait)
    (hcount : s.count = s.kthreads.length + s.migrate.length + s.runnable.length)
    (hidleBorn : s.born cpu.threadIdle = true) (hidleKernel : s.state cpu.threadIdle = .kernel)
    (hfresh : ∀ t, s.born t = false ∨ s.ports (cpu.ltid t) = some (.addCreated t) →
      s.state t = .create)
    (hborn : s.born next = true) (hstate : state ≠ .create)
    (hidle : next = cpu.threadIdle → state = .kernel) :
    SchedOk cpu { s.setState next state with current := next, phase := .run } := by
  have hfree : Sched.links cpu s next = 0 := by rw [hlinks next, if_pos rfl, ite_self]
  have hsame : ∀ t, t ≠ next → (s.setState next state).state t = s.state t :=
    fun t => setState_of_ne
  refine ⟨hlinks, hports, fun t hw => ?_, nofun, nofun, nofun, hcount, hborn, ?_, hidleBorn, ?_,
    fun t hnew => ?_, fun _ => .inl rfl⟩
  · have hne : t ≠ next := by
      rintro rfl
      have hpos : 0 < Sched.links cpu s t := Waits.links_pos (s := s) hw
      omega
    have hold := hwaits t hw
    rw [← hsame t hne] at hold
    exact hold
  · exact fun hcreate => hstate (setState_self.symm.trans hcreate)
  · change (s.setState next state).state cpu.threadIdle = _
    rcases eq_or_ne cpu.threadIdle next with heq | hne
    · rw [heq, setState_self]
      exact hidle heq.symm
    · rw [hsame _ hne]
      exact hidleKernel
  · have hne : t ≠ next := by
      rintro rfl
      rcases hnew with hfalse | hport
      · change s.born t = false at hfalse
        rw [hborn] at hfalse
        cases hfalse
      · change s.ports (cpu.ltid t) = _ at hport
        unfold Sched.links at hfree
        rw [hport] at hfree
        simp at hfree
    exact (hsame t hne).trans (hfresh t hnew)

lemma SchedOk.elect {forcedYield : Bool} (h : SchedOk cpu s)
    (hphase : s.phase = .asleep ∨ s.phase = .yielding)
    (hstep : schedule cpu s forcedYield = some s') : SchedOk cpu s' := by
  have hparked : Parked cpu (requeue cpu s forcedYield) := .of_requeue h hphase
  unfold schedule at hstep
  obtain ⟨r, hr⟩ : ∃ r, r = requeue cpu s forcedYield := ⟨_, rfl⟩
  rw [← hr] at hparked
  simp only [← hr] at hstep
  rw [Option.map_eq_some_iff] at hstep
  obtain ⟨⟨u, next⟩, helected, rfl⟩ := hstep
  dsimp only
  split_ifs at helected with hcount
  · obtain ⟨hstate, hborn, hports, hqueues, hcount', hqueued, hlength, hlinks⟩ :=
      takeFirst_spec cpu helected
    have hpos : 0 < Sched.links cpu r next := hqueued.links_pos
    have hnext : ¬(r.born next = false ∨ next = cpu.threadIdle) := by
      intro hout
      rw [hparked.links, if_pos hout] at hpos
      omega
    apply SchedOk.of_run
    · intro t
      have ht := hlinks t
      rw [hparked.links t] at ht
      rw [hborn]
      rcases eq_or_ne next t with rfl | hne
      · rw [if_neg hnext, if_pos rfl] at ht ⊢
        omega
      · rw [if_neg hne, Nat.add_zero] at ht
        rw [if_neg hne.symm]
        exact ht
    · unfold PortsOk
      rw [hports]
      exact hparked.ports
    · intro t hw
      unfold Waits at hw
      rw [hqueues, hports] at hw
      rw [hstate]
      exact hparked.waits t hw
    · have hold := hparked.count
      omega
    · rw [hborn]
      exact hparked.idleBorn
    · rw [hstate]
      exact hparked.idleKernel
    · intro t hnew
      rw [hborn, hports] at hnew
      rw [hstate]
      exact hparked.fresh t hnew
    · rw [hborn]
      simpa using fun hb => hnext (.inl hb)
    · split_ifs <;> decide
    · exact fun hidle => absurd (.inr hidle) hnext
  · obtain ⟨rfl, rfl⟩ : r = u ∧ cpu.threadIdle = next := by simpa using helected
    apply SchedOk.of_run
    · intro t
      rw [hparked.links t]
      split_ifs with hout hidle
      · rfl
      · exact absurd (.inr hidle) hout
      · rfl
    · exact hparked.ports
    · exact hparked.waits
    · exact hparked.count
    · exact hparked.idleBorn
    · exact hparked.idleKernel
    · exact hparked.fresh
    · exact hparked.idleBorn
    · split_ifs <;> decide
    · intro _
      rw [if_neg]
      rintro ⟨-, hcreate, -⟩
      rw [hparked.idleKernel] at hcreate
      cases hcreate

end Schedule

lemma threadStep_eq_some {ok : Prop} [Decidable ok] {next : SchedState ι θ}
    (h : threadStep s ok next = some s') : s.scan = none ∧ ok ∧ next = s' := by
  unfold threadStep at h
  split_ifs at h with hok
  cases h
  exact ⟨hok.1, hok.2, rfl⟩

lemma irqEnabled.not_asleep (h : irqEnabled cpu s) : s.phase ≠ .asleep := by
  intro hphase
  unfold irqEnabled at h
  rw [hphase] at h
  exact h

section Runs
variable [DecidableEq ι] [Fintype θ]

/-- The timer interrupt starts a scan; a thread interrupted in user code is in the kernel then. -/
lemma SchedOk.clock (h : SchedOk cpu s) (hphase : s.phase ≠ .asleep) :
    SchedOk cpu { (if s.state s.current = .usr then s.setState s.current .kernel else s) with
      scan := some 0 } := by
  split_ifs with husr
  · have hsame : ∀ t, t ≠ s.current → (s.setState s.current .kernel).state t = s.state t :=
      fun t => setState_of_ne
    have hidle : cpu.threadIdle ≠ s.current := by
      intro heq
      rw [← heq, h.idleKernel] at husr
      cases husr
    refine ⟨h.links, h.ports, fun t hw => ?_, fun _ _ => setState_self,
      fun hasleep => absurd hasleep hphase, fun _ => setState_self, h.count, h.born, ?_, h.idleBorn,
      (hsame _ hidle).trans h.idleKernel, fun t hfresh => ?_, h.idle⟩
    · have hold := h.waits t hw
      have hne : t ≠ s.current := by
        rintro rfl
        rw [husr] at hold
        rcases hold with hstate | hstate <;> cases hstate
      rw [← hsame t hne] at hold
      exact hold
    · exact fun hcreate => by cases setState_self.symm.trans hcreate
    · exact (hsame t (h.ne_current_of_fresh hfresh)).trans (h.fresh t hfresh)
  · exact h.goto rfl h.locked h.asleep h.yielding h.idle

lemma SchedOk.init (h : Booted cpu s) : SchedOk cpu s := by
  have hstate : s.state cpu.threadIdle = .kernel := by simp [h.state]
  have hborn : s.born cpu.threadIdle = true := by simp [h.born]
  have hnot : ∀ t, ¬Waits cpu s t := by
    rintro t (⟨object, hmem⟩ | hport)
    · simp [h.queues] at hmem
    · simp [h.ports] at hport
  refine ⟨fun t => ?_, ?_, fun t hw => absurd hw (hnot t), ?_, ?_, ?_, ?_, ?_, ?_, hborn, hstate,
    fun t hfresh => ?_, fun _ => .inl h.phase⟩
  · by_cases hidle : t = cpu.threadIdle <;>
      simp [Sched.links, expected, h.queues, h.ports, h.kthreads, h.migrate, h.runnable, h.born,
        hidle]
  · intro port event hport
    simp [h.ports] at hport
  · intro object hphase
    cases h.phase.symm.trans hphase
  · intro hphase
    cases h.phase.symm.trans hphase
  · intro hphase
    cases h.phase.symm.trans hphase
  · simp [h.count, h.kthreads, h.migrate, h.runnable]
  · rw [h.current]
    exact hborn
  · rw [h.current, hstate]
    decide
  · rcases hfresh with hnew | hport
    · have hne : t ≠ cpu.threadIdle := by
        rintro rfl
        rw [hborn] at hnew
        cases hnew
      simp [h.state, hne]
    · simp [h.ports] at hport

variable [DecidableEq θ]

lemma SchedOk.step {e : SchedEvent ι θ} (h : SchedOk cpu s) (hstep : schedStep cpu s e = some s') :
    SchedOk cpu s' := by
  cases e with
  | syscall =>
    obtain ⟨-, hok, rfl⟩ := threadStep_eq_some hstep
    refine h.setCurrent hok.1 (fun hidle => ?_) (by decide)
    have husr := hok.2
    rw [hidle, h.idleKernel] at husr
    cases husr
  | sysret =>
    obtain ⟨-, hok, rfl⟩ := threadStep_eq_some hstep
    refine h.setCurrent hok.1 (fun hidle => ?_) (by decide)
    have htype := hok.2.2
    rw [(cpu.type_idle _).mpr hidle] at htype
    cases htype
  | lock object =>
    obtain ⟨hscan, hok, rfl⟩ := threadStep_eq_some hstep
    refine h.goto (by rw [hok.1]; rfl) (fun _ _ => hok.2.1) nofun nofun fun hidle => ?_
    exact absurd ((cpu.type_idle _).mpr hidle) hok.2.2
  | unlock =>
    simp only [schedStep] at hstep
    split at hstep
    · next object hphase =>
      obtain ⟨-, -, rfl⟩ := threadStep_eq_some hstep
      exact h.goto (by rw [hphase]; rfl) nofun nofun nofun fun _ => .inl rfl
    · cases hstep
  | waitOn order =>
    simp only [schedStep] at hstep
    split at hstep
    · next object hphase =>
      obtain ⟨-, -, rfl⟩ := threadStep_eq_some hstep
      exact h.waitOn hphase
    · cases hstep
  | release =>
    simp only [schedStep] at hstep
    split at hstep
    · next object hphase =>
      obtain ⟨-, -, rfl⟩ := threadStep_eq_some hstep
      refine h.goto (by rw [hphase]; rfl) nofun nofun nofun fun hidle => ?_
      exact absurd hidle (h.current_ne_idle (by simp [hphase]) (by simp [hphase]))
    · cases hstep
  | disableIrq =>
    obtain ⟨-, hphase, rfl⟩ := threadStep_eq_some hstep
    refine h.goto (by rw [hphase]; rfl) nofun nofun nofun fun hidle => ?_
    exact absurd hidle (h.current_ne_idle (by simp [hphase]) (by simp [hphase]))
  | rrSleep =>
    obtain ⟨-, hphase, rfl⟩ := threadStep_eq_some hstep
    exact h.sleep hphase
  | schedYield =>
    obtain ⟨-, hok, rfl⟩ := threadStep_eq_some hstep
    exact h.goto (by rw [hok.1]; rfl) nofun nofun (fun _ => hok.2) fun _ => .inr rfl
  | schedIdle =>
    obtain ⟨-, hok, rfl⟩ := threadStep_eq_some hstep
    exact h.goto rfl h.locked h.asleep h.yielding h.idle
  | clock =>
    obtain ⟨-, hirq, rfl⟩ := threadStep_eq_some hstep
    exact h.clock hirq.not_asleep
  | balance victim =>
    obtain ⟨-, hok, rfl⟩ := threadStep_eq_some hstep
    exact h.balance hok.2.2
  | visit =>
    obtain ⟨port, -, rfl⟩ := Option.map_eq_some_iff.mp hstep
    exact h.visit port
  | elect forcedYield =>
    simp only [schedStep] at hstep
    split_ifs at hstep with hok
    exact h.elect hok.2 hstep
  | wakeupOne object order =>
    simp only [schedStep] at hstep
    split_ifs at hstep with hlinked
    obtain ⟨⟨thread, rest⟩, hwoken, rfl⟩ := Option.map_eq_some_iff.mp hstep
    exact h.wakeup hwoken
  | addCreated thread =>
    simp only [schedStep] at hstep
    split_ifs at hstep with hborn
    cases hstep
    exact h.create hborn

/-- In every reachable state a thread that sleeps and is not the running one is in a wait queue, or
a wakeup is in its port, or it is in a run queue. -/
theorem wakeups_not_lost (h : (schedMachine cpu).Reachable s) {t : ι} (hne : t ≠ s.current)
    (hwait : s.state t = .wait) :
    (∃ object, t ∈ s.queues object) ∨ s.ports (cpu.ltid t) = some (.wakeup t) ∨ Queued s t := by
  have hok : SchedOk cpu s := h.invariant (fun _ => .init) fun _ _ _ hs hstep => hs.step hstep
  -- a thread that sleeps was created, and is not the idle thread
  have hout : ¬(s.born t = false ∨ t = cpu.threadIdle) := by
    rintro (hborn | rfl)
    · have hcreate := hok.fresh t (.inl hborn)
      rw [hwait] at hcreate
      cases hcreate
    · have hkernel := hok.idleKernel
      rw [hwait] at hkernel
      cases hkernel
  have hpos : 0 < Sched.links cpu s t := by
    rw [hok.links t, expected, if_neg hout, if_neg hne]
    exact Nat.one_pos
  rcases linked_cases hok.ports hpos with (hqueue | hport) | hcreated | hqueued
  · exact .inl hqueue
  · exact .inr (.inl hport)
  · have hcreate := hok.fresh t (.inr hcreated)
    rw [hwait] at hcreate
    cases hcreate
  · exact .inr (.inr hqueued)

end Runs

/-- The idle thread, one more thread and one object with an `mcs_lock`. -/
def twoThreads : Cpu (Fin 2) Unit where
  type i := if i = 0 then .idle else .pthread
  ltid i := i
  threadIdle := 0
  schedThreadsNr := 2
  loadBalancing := false
  mcsLock _ := true
  ltid_inj := Fin.val_injective
  ltid_lt i := i.isLt
  type_idle i := by
    split_ifs with hi <;> simp [hi]

def bootState : SchedState (Fin 2) Unit where
  state i := if i = 0 then .kernel else .create
  born i := decide (i = 0)
  current := 0
  phase := .run
  scan := none
  ports _ := none
  count := 0
  kthreads := []
  migrate := []
  runnable := []
  queues _ := []

lemma bootState_booted : Booted twoThreads bootState :=
  ⟨rfl, rfl, rfl, fun _ => rfl, fun _ => rfl, fun _ => rfl, rfl, rfl, rfl, rfl, fun _ => rfl⟩

def untilReleased : List (SchedEvent (Fin 2) Unit) :=
  [.addCreated 1, .schedIdle, .visit, .visit, .schedYield, .visit, .visit, .elect false, .syscall,
    .lock (), .waitOn .last, .release]

/-- The thread sleeps in the queue of the object. -/
theorem wakeups_not_lost_sleeper : ∃ s : SchedState (Fin 2) Unit,
    (schedMachine twoThreads).Reachable s ∧ s.current = 0 ∧ s.state 1 = .wait ∧
      ((∃ object, 1 ∈ s.queues object) ∨ s.ports 1 = some (.wakeup 1) ∨ Queued s 1) := by
  let events := untilReleased ++ [.disableIrq, .rrSleep, .visit, .visit, .elect false]
  have hsleeps : ((schedMachine twoThreads).run bootState events).map
      (fun s => (s.current, s.state 1)) = some (0, .wait) := by decide +kernel
  obtain ⟨s, hs, hvalues⟩ := Option.map_eq_some_iff.mp hsleeps
  rw [Prod.mk.injEq] at hvalues
  have hreach : (schedMachine twoThreads).Reachable s :=
    Machine.Reachable.run (.init bootState_booted) events hs
  have hne : (1 : Fin 2) ≠ s.current := by
    rw [hvalues.1]
    decide
  exact ⟨s, hreach, hvalues.1, hvalues.2, wakeups_not_lost hreach hne hvalues.2⟩

end Almos.Sched
