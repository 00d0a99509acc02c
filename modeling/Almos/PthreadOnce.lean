import Almos.Machine

/-!
# pthread_once

Calls by any number of threads on one control, each with both pointers given. The lock, the state
and the routine are touched in steps of their own.
-/
namespace Almos.PthreadOnce

/-- Where a thread is: in no call, at the test, the store or the release of the lock, at the call of
the routine or in it, or at the release of the lock with the state found set. -/
inductive Pc
  | idle
  | test
  | store
  | unlock
  | begin
  | running
  | leave
deriving DecidableEq

/-- `returns` has an entry for each call that has returned 0: whether `init_routine` had completed. -/
structure OnceState (ι : Type*) where
  lock : Bool
  state : Bool
  pc : ι → Pc
  started : ℕ
  completed : Bool
  returns : List Bool

inductive Event (ι : Type*)
  | tryLock (thread : ι) (scFails : Bool)
  | testState (thread : ι)
  | storeState (thread : ι)
  | unlock (thread : ι)
  | beginRoutine (thread : ι)
  | endRoutine (thread : ι)

variable {ι : Type*} [DecidableEq ι]

def OnceState.setPc (s : OnceState ι) (t : ι) (pc : Pc) : OnceState ι :=
  { s with pc := Function.update s.pc t pc }

/-- `return 0` -/
def OnceState.ret (s : OnceState ι) (t : ι) : OnceState ι :=
  { s.setPc t .idle with returns := s.completed :: s.returns }

section Fields
variable (s : OnceState ι) (t u : ι) (pc : Pc)

@[simp, grind =] lemma OnceState.setPc_pc :
    (s.setPc t pc).pc u = if u = t then pc else s.pc u := Function.update_apply ..
@[simp, grind =] lemma OnceState.setPc_lock : (s.setPc t pc).lock = s.lock := rfl
@[simp, grind =] lemma OnceState.setPc_state : (s.setPc t pc).state = s.state := rfl
@[simp, grind =] lemma OnceState.setPc_started : (s.setPc t pc).started = s.started := rfl
@[simp, grind =] lemma OnceState.setPc_completed : (s.setPc t pc).completed = s.completed := rfl
@[simp, grind =] lemma OnceState.setPc_returns : (s.setPc t pc).returns = s.returns := rfl
@[simp, grind =] lemma OnceState.ret_pc :
    (s.ret t).pc u = if u = t then .idle else s.pc u := Function.update_apply ..
@[simp, grind =] lemma OnceState.ret_lock : (s.ret t).lock = s.lock := rfl
@[simp, grind =] lemma OnceState.ret_state : (s.ret t).state = s.state := rfl
@[simp, grind =] lemma OnceState.ret_started : (s.ret t).started = s.started := rfl
@[simp, grind =] lemma OnceState.ret_completed : (s.ret t).completed = s.completed := rfl
@[simp, grind =] lemma OnceState.ret_returns :
    (s.ret t).returns = s.completed :: s.returns := rfl

end Fields

/-- One step of `pthread_once`. The store of `cpu_atomic_cas` may fail on a free lock. -/
def step (s : OnceState ι) : Event ι → Option (OnceState ι)
  | .tryLock t scFails =>
      if s.pc t = .idle then
        if s.lock = true ∨ scFails = true then some (s.ret t)
        else some { s.setPc t .test with lock := true }
      else none
  | .testState t =>
      if s.pc t = .test then some (s.setPc t (if s.state then .leave else .store)) else none
  | .storeState t =>
      if s.pc t = .store then some { s.setPc t .unlock with state := true } else none
  | .unlock t =>
      if s.pc t = .leave then some { s.ret t with lock := false }
      else if s.pc t = .unlock then some { s.setPc t .begin with lock := false }
      else none
  | .beginRoutine t =>
      if s.pc t = .begin then some { s.setPc t .running with started := s.started + 1 } else none
  | .endRoutine t =>
      if s.pc t = .running then some ({ s with completed := true }.ret t) else none

/-- `PTHREAD_ONCE_INIT`, before any call. -/
def onceInit : OnceState ι where
  lock := false
  state := false
  pc _ := .idle
  started := 0
  completed := false
  returns := []

def machine : Machine (OnceState ι) (Event ι) where
  init s := s = onceInit
  step := step

/-- Started once at most, and by some call once one has returned, none of which was early. -/
structure Safe (s : OnceState ι) : Prop where
  once : s.started ≤ 1
  started : s.returns ≠ [] → 1 ≤ s.started
  completed : ∀ b ∈ s.returns, b = true

/-- Until `init_routine` has completed no trylock fails, and no call that found the state set lets
the lock go. -/
def ok (s : OnceState ι) : Event ι → Prop
  | .tryLock _ scFails => s.lock = false ∧ scFails = false ∨ s.completed = true
  | .unlock t => s.pc t = .leave → s.completed = true
  | _ => True

instance (s : OnceState ι) : DecidablePred (ok s)
  | .tryLock _ _ => inferInstanceAs (Decidable (_ ∨ _))
  | .unlock _ => inferInstanceAs (Decidable (_ → _))
  | .testState _ => inferInstanceAs (Decidable True)
  | .storeState _ => inferInstanceAs (Decidable True)
  | .beginRoutine _ => inferInstanceAs (Decidable True)
  | .endRoutine _ => inferInstanceAs (Decidable True)

def InLock (pc : Pc) : Prop := pc = .test ∨ pc = .store ∨ pc = .unlock ∨ pc = .leave

def Pending (pc : Pc) : Prop := pc = .unlock ∨ pc = .begin ∨ pc = .running

structure Inv (s : OnceState ι) : Prop where
  held : ∀ t, InLock (s.pc t) → s.lock = true
  alone : ∀ t u, InLock (s.pc t) → InLock (s.pc u) → t = u
  store : ∀ t, s.pc t = .store → s.state = false
  pending : ∀ t, Pending (s.pc t) → s.state = true ∧ s.completed = false
  single : ∀ t u, Pending (s.pc t) → Pending (s.pc u) → t = u
  fresh : ∀ t, s.pc t = .unlock ∨ s.pc t = .begin → s.started = 0
  running : ∀ t, s.pc t = .running → s.started = 1
  unset : s.state = false → s.started = 0 ∧ s.completed = false
  once : s.started ≤ 1
  done : s.completed = true → s.started = 1

omit [DecidableEq ι] in
lemma inv_onceInit : Inv (onceInit : OnceState ι) := by
  constructor <;> simp [onceInit, InLock, Pending]

namespace Inv
variable {s s' : OnceState ι} {t : ι}

omit [DecidableEq ι] in
/-- As long as the lock is free no thread is between its trylock and its release. -/
lemma notMem_inLock (h : Inv s) (hlock : s.lock = false) (u : ι) : ¬InLock (s.pc u) := by
  intro hu
  rw [h.held u hu] at hlock
  cases hlock

omit [DecidableEq ι] in
lemma notMem_pending (h : Inv s) (hstate : s.state = false) (u : ι) : ¬Pending (s.pc u) := by
  intro hu
  rw [(h.pending u hu).1] at hstate
  cases hstate

lemma ret (h : Inv s) (hpc : s.pc t = .idle) : Inv (s.ret t) := by
  have hsame : ∀ u, (s.ret t).pc u = s.pc u := by
    intro u
    rw [OnceState.ret_pc]
    split_ifs with hu
    · rw [hu, hpc]
    · rfl
  constructor <;> simp only [hsame, OnceState.ret_lock, OnceState.ret_state, OnceState.ret_started,
    OnceState.ret_completed]
  exacts [h.held, h.alone, h.store, h.pending, h.single, h.fresh, h.running, h.unset, h.once, h.done]

omit [DecidableEq ι] in
lemma others_out (h : Inv s) (ht : InLock (s.pc t)) (u : ι) (hu : u ≠ t) : ¬InLock (s.pc u) :=
  fun hin => hu (h.alone u t hin ht)

omit [DecidableEq ι] in
lemma others_idle (h : Inv s) (ht : Pending (s.pc t)) (u : ι) (hu : u ≠ t) : ¬Pending (s.pc u) :=
  fun hin => hu (h.single u t hin ht)

lemma tryLock (h : Inv s) (hlock : s.lock = false) :
    Inv { s.setPc t .test with lock := true } where
  held _ _ := rfl
  alone := by grind [h.notMem_inLock hlock]
  store := by grind [h.store]
  pending := by grind [h.pending, Pending]
  single := by grind [h.single, Pending]
  fresh := by grind [h.fresh]
  running := by grind [h.running]
  unset := h.unset
  once := h.once
  done := h.done

lemma testState (h : Inv s) (hpc : s.pc t = .test) :
    Inv (s.setPc t (if s.state then .leave else .store)) := by
  have hin : InLock (s.pc t) := .inl hpc
  have hout := h.others_out hin
  have hpending := h.pending
  have hsingle := h.single
  exact
    { held := fun _ _ => h.held t hin
      alone := by grind [InLock]
      store := by grind [h.store]
      pending := by grind [Pending]
      single := by grind [Pending]
      fresh := by grind [h.fresh]
      running := by grind [h.running]
      unset := h.unset
      once := h.once
      done := h.done }

lemma storeState (h : Inv s) (hpc : s.pc t = .store) :
    Inv { s.setPc t .unlock with state := true } := by
  have hin : InLock (s.pc t) := .inr (.inl hpc)
  have hout := h.others_out hin
  have hidle := h.notMem_pending (h.store t hpc)
  obtain ⟨hstarted, hcompleted⟩ := h.unset (h.store t hpc)
  exact
    { held := fun _ _ => h.held t hin
      alone := by grind [InLock]
      store := by grind [InLock]
      pending := by grind
      single := by grind
      fresh := fun _ _ => hstarted
      running := by grind [Pending]
      unset := fun hstate => by cases hstate
      once := h.once
      done := h.done }

lemma unlockLeave (h : Inv s) (hpc : s.pc t = .leave) : Inv { s.ret t with lock := false } := by
  have hout := h.others_out (.inr (.inr (.inr hpc)))
  have hpending := h.pending
  have hsingle := h.single
  exact
    { held := by grind [InLock]
      alone := by grind [InLock]
      store := by grind [h.store]
      pending := by grind [Pending]
      single := by grind [Pending]
      fresh := by grind [h.fresh]
      running := by grind [h.running]
      unset := h.unset
      once := h.once
      done := h.done }

lemma unlock (h : Inv s) (hpc : s.pc t = .unlock) :
    Inv { s.setPc t .begin with lock := false } := by
  have hset : Pending (s.pc t) := .inl hpc
  have hout := h.others_out (.inr (.inr (.inl hpc)))
  have hidle := h.others_idle hset
  have hstate := h.pending t hset
  exact
    { held := by grind [InLock]
      alone := by grind [InLock]
      store := by grind [h.store]
      pending := fun _ _ => hstate
      single := by grind
      fresh := fun _ _ => h.fresh t (.inl hpc)
      running := by grind [h.running]
      unset := h.unset
      once := h.once
      done := h.done }

lemma beginRoutine (h : Inv s) (hpc : s.pc t = .begin) :
    Inv { s.setPc t .running with started := s.started + 1 } := by
  have hset : Pending (s.pc t) := .inr (.inl hpc)
  have hidle := h.others_idle hset
  obtain ⟨hstate, hcompleted⟩ := h.pending t hset
  have hstarted := h.fresh t (.inr hpc)
  have hheld := h.held
  have halone := h.alone
  exact
    { held := by grind [InLock]
      alone := by grind [InLock]
      store := by grind [h.store]
      pending := fun _ _ => ⟨hstate, hcompleted⟩
      single := by grind
      fresh := by grind [Pending]
      running := fun _ _ => congrArg (· + 1) hstarted
      unset := by grind
      once := by grind
      done := by grind }

lemma endRoutine (h : Inv s) (hpc : s.pc t = .running) :
    Inv ({ s with completed := true }.ret t) := by
  have hset : Pending (s.pc t) := .inr (.inr hpc)
  have hidle := h.others_idle hset
  have hstate := (h.pending t hset).1
  have hheld := h.held
  have halone := h.alone
  exact
    { held := by grind [InLock]
      alone := by grind [InLock]
      store := by grind [h.store]
      pending := by grind [Pending]
      single := by grind [Pending]
      fresh := by grind [h.fresh]
      running := by grind [h.running]
      unset := by grind
      once := h.once
      done := fun _ => h.running t hpc }

lemma step {e : Event ι} (h : Inv s) (hs : step s e = some s') : Inv s' := by
  cases e with
  | tryLock t scFails =>
    simp only [PthreadOnce.step] at hs
    split_ifs at hs with hpc hlock
    · cases hs
      exact h.ret hpc
    · cases hs
      exact h.tryLock (by simpa using (not_or.mp hlock).1)
  | testState t =>
    simp only [PthreadOnce.step] at hs
    split_ifs at hs with hpc <;> cases hs
    all_goals simpa [*] using h.testState hpc
  | storeState t =>
    simp only [PthreadOnce.step] at hs
    split_ifs at hs with hpc
    cases hs
    exact h.storeState hpc
  | unlock t =>
    simp only [PthreadOnce.step] at hs
    split_ifs at hs with hleave hpc
    · cases hs
      exact h.unlockLeave hleave
    · cases hs
      exact h.unlock hpc
  | beginRoutine t =>
    simp only [PthreadOnce.step] at hs
    split_ifs at hs with hpc
    cases hs
    exact h.beginRoutine hpc
  | endRoutine t =>
    simp only [PthreadOnce.step] at hs
    split_ifs at hs with hpc
    cases hs
    exact h.endRoutine hpc

end Inv

lemma inv_reach {P : OnceState ι → Event ι → Prop} {s : OnceState ι}
    (h : Machine.Reach machine P s) : Inv s :=
  h.invariant (fun _ hs => hs ▸ inv_onceInit) fun _ _ _ hi _ => hi.step

structure Settled (s : OnceState ι) : Prop where
  early : ∀ b ∈ s.returns, b = true
  late : s.returns ≠ [] → s.completed = true

omit [DecidableEq ι] in
lemma Settled.safe {s : OnceState ι} (h : Settled s) (hi : Inv s) : Safe s where
  once := hi.once
  started hne := (hi.done (h.late hne)).ge
  completed := h.early

lemma Settled.ret {s : OnceState ι} (h : Settled s) (hdone : s.completed = true) (t : ι) :
    Settled (s.ret t) := by
  refine ⟨fun b hb => ?_, fun _ => hdone⟩
  rw [OnceState.ret_returns, hdone] at hb
  exact (List.mem_cons.mp hb).elim id (h.early b)

lemma Settled.step {s s' : OnceState ι} {e : Event ι} (h : Settled s) (hok : ok s e)
    (hs : step s e = some s') : Settled s' := by
  cases e with
  | tryLock t scFails =>
    simp only [PthreadOnce.step] at hs
    split_ifs at hs with hpc hfails
    · cases hs
      obtain ⟨hlock, hsc⟩ | hdone := hok
      · simp [hlock, hsc] at hfails
      · exact h.ret hdone t
    · cases hs
      exact ⟨h.early, h.late⟩
  | testState t =>
    simp only [PthreadOnce.step] at hs
    split_ifs at hs <;> cases hs <;> exact ⟨h.early, h.late⟩
  | storeState t =>
    simp only [PthreadOnce.step] at hs
    split_ifs at hs
    cases hs
    exact ⟨h.early, h.late⟩
  | unlock t =>
    simp only [PthreadOnce.step] at hs
    split_ifs at hs with hleave hpc
    · cases hs
      have hret := h.ret (hok hleave) t
      exact ⟨hret.early, hret.late⟩
    · cases hs
      exact ⟨h.early, h.late⟩
  | beginRoutine t =>
    simp only [PthreadOnce.step] at hs
    split_ifs at hs
    cases hs
    exact ⟨h.early, h.late⟩
  | endRoutine t =>
    simp only [PthreadOnce.step] at hs
    split_ifs at hs
    cases hs
    have hdone : Settled { s with completed := true } := ⟨h.early, fun _ => rfl⟩
    exact hdone.ret rfl t

lemma not_safe_of_not_ok {s s' : OnceState ι} {e : Event ι} (hs : step s e = some s')
    (hok : ¬ok s e) : ¬Safe s' := by
  intro hsafe
  cases e with
  | tryLock t scFails =>
    obtain ⟨hfails, hdone⟩ := not_or.mp hok
    simp only [PthreadOnce.step] at hs
    split_ifs at hs with hpc hlock
    · cases hs
      exact hdone (hsafe.completed _ List.mem_cons_self)
    · obtain ⟨hfree, hsc⟩ := not_or.mp hlock
      exact hfails ⟨by simpa using hfree, by simpa using hsc⟩
  | unlock t =>
    obtain ⟨hleave, hdone⟩ := Classical.not_imp.mp hok
    rw [PthreadOnce.step, if_pos hleave] at hs
    cases hs
    exact hdone (hsafe.completed _ List.mem_cons_self)
  | testState t => exact hok trivial
  | storeState t => exact hok trivial
  | beginRoutine t => exact hok trivial
  | endRoutine t => exact hok trivial

/-- A run is safe in all its states as long as its steps meet the condition, and no longer. -/
theorem pthread_once_safe_iff :
    (∀ s : OnceState ι, Machine.Reach machine ok s → Safe s) ∧
    ∀ (s s' : OnceState ι) (e : Event ι), Machine.Reach machine ok s → step s e = some s' →
      (Safe s' ↔ ok s e) := by
  have hsettled : ∀ s : OnceState ι, Machine.Reach machine ok s → Settled s := fun s h =>
    h.invariant (fun _ hs => hs ▸ ⟨by simp [onceInit], by simp [onceInit]⟩)
      fun _ _ _ hi hok => hi.step hok
  refine ⟨fun s h => (hsettled s h).safe (inv_reach h), fun s s' e h hs => ⟨fun hsafe => ?_, ?_⟩⟩
  · by_contra hok
    exact not_safe_of_not_ok hs hok hsafe
  · exact fun hok => ((hsettled s h).step hok hs).safe (inv_reach (h.step hok hs))

theorem pthread_once_two_calls : ∃ s : OnceState ℕ, s.returns = [true, true] ∧ Safe s := by
  obtain ⟨s, hs, hreturns⟩ : ∃ s, (machine.restrict fun s e => decide (ok s e)).run onceInit
      [.tryLock 0 false, .testState 0, .storeState 0, .unlock 0, .beginRoutine 0, .endRoutine 0,
        .tryLock 1 false, .testState 1, .unlock (1 : ℕ)] = some s ∧ s.returns = [true, true] :=
    ⟨_, rfl, rfl⟩
  have hinit : (machine.restrict fun s e => decide (ok s e)).init (onceInit : OnceState ℕ) := rfl
  have hreach := Machine.Reachable.of_restrict (fun _ _ => of_decide_eq_true)
    (Machine.Reachable.run (.init hinit) _ hs)
  exact ⟨s, hreturns, pthread_once_safe_iff.1 s hreach⟩

/-- A call returns while the routine runs, and one before it has begun. -/
theorem pthread_once_returns_early :
    (∃ s : OnceState ℕ, machine.Reachable s ∧ s.pc 0 = .running ∧ s.returns = [false] ∧ ¬Safe s) ∧
    ∃ s : OnceState ℕ, machine.Reachable s ∧ s.started = 0 ∧ s.returns = [false] ∧ ¬Safe s := by
  have hsafe : ∀ s : OnceState ℕ, s.returns = [false] → ¬Safe s := by
    intro s hreturns h
    have hfalse := h.completed false (by simp [hreturns])
    cases hfalse
  constructor
  · obtain ⟨s, hs, hpc, hreturns⟩ : ∃ s, machine.run onceInit
        [.tryLock 0 false, .testState 0, .storeState 0, .unlock 0, .beginRoutine 0,
          .tryLock 1 false, .testState 1, .unlock (1 : ℕ)] = some s ∧
        s.pc 0 = .running ∧ s.returns = [false] := ⟨_, rfl, rfl, rfl⟩
    exact ⟨s, Machine.Reachable.run (.init rfl) _ hs, hpc, hreturns, hsafe s hreturns⟩
  · obtain ⟨s, hs, hstarted, hreturns⟩ : ∃ s, machine.run onceInit
        [.tryLock 0 false, .tryLock (1 : ℕ) false] = some s ∧
        s.started = 0 ∧ s.returns = [false] := ⟨_, rfl, rfl, rfl⟩
    exact ⟨s, Machine.Reachable.run (.init rfl) _ hs, hstarted, hreturns, hsafe s hreturns⟩

end Almos.PthreadOnce
