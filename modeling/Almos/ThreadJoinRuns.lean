import Mathlib
import Almos.ThreadJoin

/-!
# Joins agree with the exit

Without a detach, and without a second join after the target has been let go, the one wait queue
serves both directions.
-/
namespace Almos.ThreadJoin
open WaitQueue
variable {ι α : Type*}

def Place.holds : Place α → Lock → Bool
  | .joinCheck | .joinTarget | .joinFailed _ | .joinSleeps | .joinTaken _ | .detachCheck
  | .detachTarget | .detachUnlock => fun l => l = .th
  | .joinSection | .detachSection => fun l => l = .th ∨ l = .target
  | _ => fun _ => false

def TargetPlace.holds : TargetPlace → Lock → Bool
  | .lockSection => fun l => l = .target
  | _ => fun _ => false

namespace State

def holds (s : State ι α) : Option ι → Lock → Bool
  | some t => (s.place t).holds
  | none => s.target.holds

end State

structure LocksOk (s : State ι α) : Prop where
  held : ∀ t l, s.held t l = if s.holds t l = true then 1 else 0
  free : ∀ t l, s.holds t l = true → s.lock l = -1
  word : ∀ l, s.lock l = 0 ∨ s.lock l = -1
  one : ∀ t u l, s.holds t l = true → s.holds u l = true → t = u

variable [DecidableEq ι] {s t : State ι α} {this : Option ι} {l : Lock}

omit [DecidableEq ι] in
lemma LocksOk.congr (h : LocksOk s) (hlock : t.lock = s.lock) (hheld : t.held = s.held)
    (hholds : ∀ u k, t.holds u k = s.holds u k) : LocksOk t := by
  refine ⟨fun u k => ?_, fun u k hu => ?_, fun k => ?_, fun u w k hu hw => ?_⟩
  · rw [hheld, hholds, h.held]
  · rw [hholds] at hu
    rw [hlock, h.free u k hu]
  · rw [hlock]
    exact h.word k
  · rw [hholds] at hu hw
    exact h.one u w k hu hw

lemma LocksOk.acquire (this : Option ι) (h : LocksOk s) (hfree : s.lock l = 0)
    (hlock : t.lock = (s.spinlockLock this l).lock) (hheld : t.held = (s.spinlockLock this l).held)
    (hholds : ∀ u k, t.holds u k = if u = this ∧ k = l then true else s.holds u k) :
    LocksOk t := by
  have hnone : ∀ u, s.holds u l = false := by
    intro u
    by_contra hu
    rw [Bool.not_eq_false] at hu
    have hword := h.free u l hu
    omega
  refine ⟨fun u k => ?_, fun u k hu => ?_, fun k => ?_, fun u w k hu hw => ?_⟩
  · rw [hheld, hholds]
    by_cases hu : u = this
    · subst hu
      by_cases hk : k = l
      · subst hk
        simp [State.spinlockLock, h.held, hnone]
      · simp [State.spinlockLock, h.held, hk]
    · simp [State.spinlockLock, h.held, hu]
  · rw [hlock]
    by_cases hk : k = l
    · subst hk
      simp [State.spinlockLock]
    · have hold : s.holds u k = true := by simpa [hholds, hk] using hu
      simp [State.spinlockLock, hk, h.free u k hold]
  · rw [hlock]
    by_cases hk : k = l
    · subst hk
      simp [State.spinlockLock]
    · simpa [State.spinlockLock, hk] using h.word k
  · by_cases hk : k = l
    · subst hk
      have honly : ∀ u, t.holds u k = true → u = this := by
        intro u hu
        by_contra hne
        simp [hholds, hne, hnone] at hu
      rw [honly u hu, honly w hw]
    · have hu' : s.holds u k = true := by simpa [hholds, hk] using hu
      have hw' : s.holds w k = true := by simpa [hholds, hk] using hw
      exact h.one u w k hu' hw'

lemma LocksOk.release (this : Option ι) (h : LocksOk s) (hthis : s.holds this l = true)
    (hlock : t.lock = (s.spinlockUnlock this l).lock)
    (hheld : t.held = (s.spinlockUnlock this l).held)
    (hholds : ∀ u k, t.holds u k = if u = this ∧ k = l then false else s.holds u k) :
    LocksOk t := by
  have hword := h.free this l hthis
  have hzero : (s.spinlockUnlock this l).lock l = 0 := by simp [State.spinlockUnlock, hword]
  refine ⟨fun u k => ?_, fun u k hu => ?_, fun k => ?_, fun u w k hu hw => ?_⟩
  · rw [hheld, hholds]
    by_cases hu : u = this
    · subst hu
      by_cases hk : k = l
      · subst hk
        simp [State.spinlockUnlock, h.held, hthis]
      · simp [State.spinlockUnlock, h.held, hk]
    · simp [State.spinlockUnlock, h.held, hu]
  · rw [hlock]
    by_cases hk : k = l
    · subst hk
      rw [hholds] at hu
      split_ifs at hu with hne
      have heq : u = this := h.one u this k hu hthis
      exact absurd ⟨heq, rfl⟩ hne
    · have hold : s.holds u k = true := by simpa [hholds, hk] using hu
      simp [State.spinlockUnlock, hk, h.free u k hold]
  · rw [hlock]
    by_cases hk : k = l
    · subst hk
      exact .inl hzero
    · simpa [State.spinlockUnlock, hk] using h.word k
  · rw [hholds] at hu hw
    split_ifs at hu with hne
    split_ifs at hw with hne'
    exact h.one u w k hu hw

variable {this : ι} {place : Place α} {exitVal : α}

lemma holds_goto (s : State ι α) (this : ι) (place : Place α) (u : Option ι) :
    (s.goto this place).holds u = if u = some this then place.holds else s.holds u := by
  cases u with
  | none => rfl
  | some u =>
    by_cases hu : u = this
    · simp [State.holds, State.goto, hu]
    · simp [State.holds, State.goto, hu]

lemma LocksOk.goto (h : LocksOk s) (hplace : ∀ k, place.holds k = (s.place this).holds k) :
    LocksOk (s.goto this place) := by
  refine h.congr rfl rfl fun u k => ?_
  rw [holds_goto]
  split_ifs with hu
  · rw [hu, hplace k]
    rfl
  · rfl

lemma LocksOk.locks (h : LocksOk s) (hstep : s.locks this l place = some t)
    (hplace : ∀ k, place.holds k = if k = l then true else (s.place this).holds k) :
    LocksOk t := by
  unfold State.locks at hstep
  split_ifs at hstep with hfree
  rw [← Option.some.inj hstep]
  refine h.acquire (some this) hfree rfl rfl fun u k => ?_
  rw [holds_goto]
  by_cases hu : u = some this
  · subst hu
    by_cases hk : k = l
    · simp [hk, hplace]
    · simp only [hplace, hk, and_false, if_true, if_false]
      rfl
  · simp only [hu, false_and, if_false]
    rfl

lemma LocksOk.unlocks (h : LocksOk s) (hthis : (s.place this).holds l = true)
    (hplace : ∀ k, place.holds k = if k = l then false else (s.place this).holds k) :
    LocksOk ((s.spinlockUnlock (some this) l).goto this place) := by
  refine h.release (some this) hthis rfl rfl fun u k => ?_
  rw [holds_goto]
  by_cases hu : u = some this
  · subst hu
    by_cases hk : k = l
    · simp [hk, hplace]
    · simp only [hplace, hk, and_false, if_true, if_false]
      rfl
  · simp only [hu, false_and, if_false]
    rfl

def Place.claims : Place α → Bool
  | .joinSleeps | .joinSleep | .joinTaken _ | .joinReturn _ => true
  | _ => false

def Place.detaches : Place α → Bool
  | .detachLock | .detachCheck | .detachTarget | .detachSection | .detachUnlock => true
  | _ => false

/-- What a join has, or will read from the `exit_value` of its thread, is the value of the exit. -/
def Place.Delivers (exitVal mail : α) : Place α → Prop
  | .joinSleeps | .joinSleep => mail = exitVal
  | .joinTaken retval | .joinReturn retval => retval = exitVal
  | _ => True

def State.successes (s : State ι α) : List α := s.log.filterMap fun result => result.2.toOption

inductive Phase (exitVal : α) (s : State ι α) : Prop
  | unjoined (target : s.target ≠ .sleep ∧ s.target ≠ .exited) (join : s.join = none)
      (waitQueue : s.waitQueue = []) (claims : ∀ t, (s.place t).claims = false)
      (log : s.successes = [])
  | joined (j : ι) (target : s.target ≠ .sleep ∧ s.target ≠ .exited) (join : s.join = some j)
      (waitQueue : s.waitQueue = [some j])
      (joiner : s.place j = .joinSleeps ∨ s.place j = .joinSleep)
      (claims : ∀ t, t ≠ j → (s.place t).claims = false) (log : s.successes = [])
  | waiting (target : s.target = .sleep) (join : s.join = none) (waitQueue : s.waitQueue = [none])
      (value : s.exitValue = exitVal) (claims : ∀ t, (s.place t).claims = false)
      (log : s.successes = [])
  | done (target : s.target = .sleep ∨ s.target = .exited) (waitQueue : s.waitQueue = [])
      (one : ∀ t u, (s.place t).claims = true → (s.place u).claims = true → t = u)
      (delivers : ∀ t, (s.place t).Delivers exitVal (s.mail t))
      (open_log : ∀ t, (s.place t).claims = true → s.successes = [])
      (log : s.successes = [] ∨ s.successes = [exitVal])

structure Inv (exitVal : α) (s : State ι α) : Prop where
  locks : LocksOk s
  joinable : s.joinable = true
  undetached : ∀ t, (s.place t).detaches = false
  phase : Phase exitVal s

lemma Place.delivers_of_claims {mail : α} (h : place.claims = false) :
    place.Delivers exitVal mail := by
  cases place with
  | joinSleeps => cases h
  | joinSleep => cases h
  | joinTaken retval => cases h
  | joinReturn retval => cases h
  | _ => trivial

omit [DecidableEq ι] in
lemma Phase.congr (h : Phase exitVal s) (htarget : t.target = s.target) (hjoin : t.join = s.join)
    (hqueue : t.waitQueue = s.waitQueue) (hvalue : t.exitValue = s.exitValue)
    (hmail : t.mail = s.mail) (hlog : t.successes = s.successes)
    (hplace : ∀ u, t.place u = s.place u ∨
      (t.place u).claims = false ∧ (s.place u).claims = false) : Phase exitVal t := by
  have hclaims : ∀ u, (t.place u).claims = (s.place u).claims := by
    intro u
    rcases hplace u with heq | ⟨hnew, hold⟩
    · rw [heq]
    · rw [hnew, hold]
  cases h with
  | unjoined target join waitQueue claims log =>
    exact .unjoined (htarget ▸ target) (hjoin.trans join) (hqueue.trans waitQueue)
      (fun u => (hclaims u).trans (claims u)) (hlog.trans log)
  | joined j target join waitQueue joiner claims log =>
    have hj : t.place j = s.place j := by
      refine (hplace j).resolve_right fun hno => ?_
      rcases joiner with hj | hj
      · simp [hj, Place.claims] at hno
      · simp [hj, Place.claims] at hno
    exact .joined j (htarget ▸ target) (hjoin.trans join) (hqueue.trans waitQueue) (hj ▸ joiner)
      (fun u hu => (hclaims u).trans (claims u hu)) (hlog.trans log)
  | waiting target join waitQueue value claims log =>
    exact .waiting (htarget ▸ target) (hjoin.trans join) (hqueue.trans waitQueue)
      (hvalue.trans value) (fun u => (hclaims u).trans (claims u)) (hlog.trans log)
  | done target waitQueue one delivers open_log log =>
    refine .done (htarget ▸ target) (hqueue.trans waitQueue) (fun u w hu hw => ?_) (fun u => ?_)
      (fun u hu => ?_) (hlog ▸ log)
    · rw [hclaims] at hu hw
      exact one u w hu hw
    · rcases hplace u with heq | ⟨hnew, -⟩
      · rw [heq, hmail]
        exact delivers u
      · exact Place.delivers_of_claims hnew
    · rw [hclaims] at hu
      rw [hlog]
      exact open_log u hu

lemma Phase.goto (h : Phase exitVal s) (hthis : (s.place this).claims = false)
    (hplace : place.claims = false) : Phase exitVal (s.goto this place) := by
  refine h.congr rfl rfl rfl rfl rfl rfl fun u => ?_
  rcases eq_or_ne u this with rfl | hne
  · exact .inr ⟨by simpa [State.goto] using hplace, hthis⟩
  · exact .inl (by simp [State.goto, hne])

lemma Phase.spinlockLock (h : Phase exitVal s) (w : Option ι) (l : Lock) :
    Phase exitVal (s.spinlockLock w l) :=
  h.congr rfl rfl rfl rfl rfl rfl fun _ => .inl rfl

lemma Phase.spinlockUnlock (h : Phase exitVal s) (w : Option ι) (l : Lock) :
    Phase exitVal (s.spinlockUnlock w l) :=
  h.congr rfl rfl rfl rfl rfl rfl fun _ => .inl rfl

lemma undetached_goto (h : ∀ u, (s.place u).detaches = false) (hplace : place.detaches = false)
    (u : ι) : ((s.goto this place).place u).detaches = false := by
  rcases eq_or_ne u this with rfl | hne
  · simpa [State.goto] using hplace
  · simpa [State.goto, hne] using h u

lemma Phase.pass (h : Phase exitVal s)
    (hjoined : s.place this = .joinSleeps ∨ s.place this = .joinSleep → some this ∉ s.waitQueue)
    (hthis : (s.place this).claims = true)
    (hplace : place.claims = true) (hdelivers : (s.place this).Delivers exitVal (s.mail this) →
      place.Delivers exitVal (s.mail this)) : Phase exitVal (s.goto this place) := by
  cases h with
  | unjoined target join waitQueue claims log => simp [claims] at hthis
  | waiting target join waitQueue value claims log => simp [claims] at hthis
  | joined j target join waitQueue joiner claims log =>
    have hj : this = j := by
      by_contra hne
      simp [claims this hne] at hthis
    subst hj
    exact absurd (by simp [waitQueue]) (hjoined joiner)
  | done target waitQueue one delivers open_log log =>
    have hclaims : ∀ u, ((s.goto this place).place u).claims = (s.place u).claims := by
      intro u
      rcases eq_or_ne u this with rfl | hne
      · simp [State.goto, hplace, hthis]
      · simp [State.goto, hne]
    refine .done target waitQueue (fun u w hu hw => ?_) (fun u => ?_) (fun u hu => ?_) log
    · rw [hclaims] at hu hw
      exact one u w hu hw
    · rcases eq_or_ne u this with rfl | hne
      · simpa [State.goto] using hdelivers (delivers u)
      · simpa [State.goto, hne] using delivers u
    · rw [hclaims] at hu
      exact open_log u hu

lemma Phase.joinSleeps (h : Phase exitVal s) (hat : s.place this = .joinSleeps) :
    Phase exitVal (s.goto this .joinSleep) := by
  cases h with
  | unjoined target join waitQueue claims log =>
    have hthis := claims this
    simp [hat, Place.claims] at hthis
  | waiting target join waitQueue value claims log =>
    have hthis := claims this
    simp [hat, Place.claims] at hthis
  | joined j target join waitQueue joiner claims log =>
    have hj : this = j := by
      by_contra hne
      have hthis := claims this hne
      simp [hat, Place.claims] at hthis
    subst hj
    refine .joined this target join waitQueue (.inr (by simp [State.goto])) (fun u hu => ?_) log
    simpa [State.goto, hu] using claims u hu
  | done target waitQueue one delivers open_log log =>
    have hpass : Phase exitVal s := .done target waitQueue one delivers open_log log
    refine hpass.pass (fun _ => by simp [waitQueue]) (by simp [hat, Place.claims]) rfl ?_
    rw [hat]
    exact id

lemma Phase.joinSection (h : Phase exitVal s) (hat : s.place this = .joinSection)
    (hok : s.join = none → s.waitQueue = [] → s.target ≠ .sleep ∧ s.target ≠ .exited) :
    Phase exitVal (s.joinSection this) := by
  have hthis : (s.place this).claims = false := by
    rw [hat]
    rfl
  unfold State.joinSection
  split_ifs with hjoin hempty
  · exact (h.spinlockUnlock (some this) .target).goto hthis rfl
  · rw [not_not] at hjoin
    obtain ⟨hbefore, hbefore'⟩ := hok hjoin hempty
    have hclaims : (∀ u, (s.place u).claims = false) ∧ s.successes = [] := by
      cases h with
      | unjoined target join waitQueue claims log => exact ⟨claims, log⟩
      | joined j target join waitQueue joiner claims log => simp [hjoin] at join
      | waiting target join waitQueue value claims log => exact absurd target hbefore
      | done target waitQueue one delivers open_log log =>
        exact absurd target (by simp [hbefore, hbefore'])
    refine .joined this ⟨hbefore, hbefore'⟩ rfl ?_ (.inl (by simp [State.goto])) (fun u hu => ?_)
      hclaims.2
    · simp [State.goto, State.spinlockUnlock, hempty, waitOn]
    simpa [State.goto, State.spinlockUnlock, hu] using hclaims.1 u
  · rw [not_not] at hjoin
    cases h with
    | unjoined target join waitQueue claims log => exact absurd waitQueue hempty
    | joined j target join waitQueue joiner claims log => simp [hjoin] at join
    | done target waitQueue one delivers open_log log => exact absurd waitQueue hempty
    | waiting target join waitQueue value claims log =>
      have hwake : s.wakeupOne = { s with waitQueue := [] } := by
        simp [State.wakeupOne, waitQueue, WaitQueue.wakeupOne]
      have honly : ∀ u, (((s.wakeupOne.spinlockUnlock (some this) .target).goto this
          (.joinTaken s.exitValue)).place u).claims = true → u = this := by
        intro u hu
        by_contra hne
        have hold := claims u
        simp [hwake, State.goto, State.spinlockUnlock, hne, hold] at hu
      refine .done (.inl ?_) ?_ (fun u w hu hw => ?_) (fun u => ?_) (fun u _ => ?_) (.inl ?_)
      · simpa [hwake, State.goto, State.spinlockUnlock] using target
      · simp [hwake, State.goto, State.spinlockUnlock]
      · rw [honly u hu, honly w hw]
      · rcases eq_or_ne u this with rfl | hne
        · simpa [State.goto, Place.Delivers] using value
        · apply Place.delivers_of_claims
          simpa [hwake, State.goto, State.spinlockUnlock, hne] using claims u
      · rw [hwake]
        exact log
      · rw [hwake]
        exact log

lemma Inv.goto (h : Inv exitVal s) (hholds : ∀ k, place.holds k = (s.place this).holds k)
    (hthis : (s.place this).claims = false)
    (hplace : place.claims = false ∧ place.detaches = false) : Inv exitVal (s.goto this place) :=
  ⟨h.locks.goto hholds, h.joinable, undetached_goto h.undetached hplace.2,
    h.phase.goto hthis hplace.1⟩

lemma Inv.locksStep (h : Inv exitVal s) (hstep : s.locks this l place = some t)
    (hholds : ∀ k, place.holds k = if k = l then true else (s.place this).holds k)
    (hthis : (s.place this).claims = false)
    (hplace : place.claims = false ∧ place.detaches = false) : Inv exitVal t := by
  have hlocks := h.locks.locks hstep hholds
  unfold State.locks at hstep
  split_ifs at hstep
  obtain rfl := Option.some.inj hstep
  exact ⟨hlocks, h.joinable, undetached_goto h.undetached hplace.2,
    (h.phase.spinlockLock _ _).goto hthis hplace.1⟩

omit [DecidableEq ι] in
lemma Phase.log_error (h : Phase exitVal s) (err : JoinError) :
    Phase exitVal { s with log := (this, .error err) :: s.log } :=
  h.congr rfl rfl rfl rfl rfl (by simp [State.successes, Except.toOption]) fun _ => .inl rfl

lemma LocksOk.joinSection (h : LocksOk s) (hat : s.place this = .joinSection) :
    LocksOk (s.joinSection this) := by
  have hholds : (s.place this).holds .target = true := by
    rw [hat]
    rfl
  have hplace : ∀ place : Place α, place.holds = Place.holds (.joinSleeps : Place α) →
      ∀ k, place.holds k = if k = .target then false else (s.place this).holds k := by
    intro place hsame k
    rw [hsame, hat]
    cases k with
    | th => rfl
    | task => rfl
    | target => rfl
  have hwake : LocksOk s.wakeupOne := by
    unfold State.wakeupOne
    split
    · exact h.congr rfl rfl fun _ _ => rfl
    · exact h
  have hsame : s.wakeupOne.place = s.place := by
    unfold State.wakeupOne
    split
    · rfl
    · rfl
  unfold State.joinSection
  split_ifs with hjoin hempty
  · exact h.unlocks hholds (hplace _ rfl)
  · have hwait : LocksOk { s with
        join := some this, waitQueue := waitOn s.waitQueue (some this) .any } :=
      h.congr rfl rfl fun _ _ => rfl
    exact hwait.unlocks hholds (hplace _ rfl)
  · apply hwake.unlocks
    · rw [hsame]
      exact hholds
    · rw [hsame]
      exact hplace _ rfl

lemma Inv.joinSection (h : Inv exitVal s) (hat : s.place this = .joinSection)
    (hok : s.join = none → s.waitQueue = [] → s.target ≠ .sleep ∧ s.target ≠ .exited) :
    Inv exitVal (s.joinSection this) := by
  have hwake : s.wakeupOne.joinable = s.joinable ∧ s.wakeupOne.place = s.place := by
    unfold State.wakeupOne
    split
    · exact ⟨rfl, rfl⟩
    · exact ⟨rfl, rfl⟩
  refine ⟨h.locks.joinSection hat, ?_, ?_, h.phase.joinSection hat hok⟩
  · unfold State.joinSection
    split_ifs with hjoin hempty
    · exact h.joinable
    · exact h.joinable
    · exact hwake.1.trans h.joinable
  · unfold State.joinSection
    split_ifs with hjoin hempty
    · exact undetached_goto h.undetached rfl
    · exact undetached_goto h.undetached rfl
    · apply undetached_goto _ rfl
      intro u
      have hold := h.undetached u
      rwa [← hwake.2] at hold

lemma Inv.unlocksStep (h : Inv exitVal s) (hat : (s.place this).holds = Place.holds (.joinSleeps : Place α))
    (hholds : ∀ k, place.holds k = false) (hdetaches : place.detaches = false)
    (hphase : Phase exitVal ((s.spinlockUnlock (some this) .th).goto this place)) :
    Inv exitVal ((s.spinlockUnlock (some this) .th).goto this place) := by
  refine ⟨h.locks.unlocks ?_ fun k => ?_, h.joinable, undetached_goto h.undetached hdetaches, hphase⟩
  · rw [hat]
    rfl
  · rw [hholds, hat]
    cases k with
    | th => rfl
    | task => rfl
    | target => rfl

lemma Inv.joinReturn_error (h : Inv exitVal s) (hholds : ∀ k, (s.place this).holds k = false)
    (err : JoinError) (hphase : Phase exitVal (s.goto this .idle)) :
    Inv exitVal (s.joinReturn this (.error err)) := by
  have hlocks : LocksOk (s.goto this .idle) := h.locks.goto fun k => (hholds k).symm
  exact ⟨hlocks.congr rfl rfl fun _ _ => rfl, h.joinable, undetached_goto h.undetached rfl,
    hphase.log_error err⟩

lemma Inv.sibling (h : Inv exitVal s) (hok : EventOk s (.go (some this)))
    (hstep : stepSibling s this = some t) : Inv exitVal t := by
  unfold stepSibling at hstep
  cases hat : s.place this with
  | idle => simp [hat] at hstep
  | joinReturn retval => simp [hat] at hstep
  | joinLock =>
    simp only [hat] at hstep
    refine h.locksStep hstep (fun k => ?_) (by simp [hat, Place.claims]) ⟨rfl, rfl⟩
    cases k <;> simp [hat, Place.holds]
  | joinCheck =>
    simp only [hat, Option.some.injEq] at hstep
    rw [← hstep]
    have hclaims : (s.place this).claims = false := by simp [hat, Place.claims]
    unfold State.joinCheck
    split_ifs
    · exact h.goto (fun k => by rw [hat]; rfl) hclaims ⟨rfl, rfl⟩
    · exact h.goto (fun k => by rw [hat]; rfl) hclaims ⟨rfl, rfl⟩
    · exact h.goto (fun k => by rw [hat]; rfl) hclaims ⟨rfl, rfl⟩
  | joinTarget =>
    simp only [hat] at hstep
    refine h.locksStep hstep (fun k => ?_) (by simp [hat, Place.claims]) ⟨rfl, rfl⟩
    cases k <;> simp [hat, Place.holds]
  | joinSection =>
    simp only [hat, Option.some.injEq] at hstep
    rw [← hstep]
    exact h.joinSection hat (hok hat)
  | joinFailed err =>
    simp only [hat, Option.some.injEq] at hstep
    rw [← hstep]
    have hphase : Phase exitVal ((s.spinlockUnlock (some this) .th).goto this .idle) :=
      (h.phase.spinlockUnlock _ _).goto (by simp [State.spinlockUnlock, hat, Place.claims]) rfl
    have hidle : Inv exitVal ((s.spinlockUnlock (some this) .th).goto this .idle) :=
      h.unlocksStep (by rw [hat]; rfl) (fun _ => rfl) rfl hphase
    exact ⟨hidle.locks.congr rfl rfl fun _ _ => rfl, hidle.joinable, hidle.undetached,
      hidle.phase.log_error err⟩
  | joinSleeps =>
    simp only [hat, Option.some.injEq] at hstep
    rw [← hstep]
    refine h.unlocksStep (by rw [hat]) (fun _ => rfl) rfl ?_
    exact (h.phase.spinlockUnlock _ _).joinSleeps (by simp [State.spinlockUnlock, hat])
  | joinSleep =>
    simp only [hat] at hstep
    split_ifs at hstep with hqueue
    rw [← Option.some.inj hstep]
    refine ⟨h.locks.goto fun k => by rw [hat]; rfl, h.joinable, undetached_goto h.undetached rfl,
      h.phase.pass (fun _ => hqueue) (by simp [hat, Place.claims]) rfl ?_⟩
    rw [hat]
    exact id
  | joinTaken retval =>
    simp only [hat, Option.some.injEq] at hstep
    rw [← hstep]
    refine h.unlocksStep (by rw [hat]; rfl) (fun _ => rfl) rfl ?_
    refine (h.phase.spinlockUnlock _ _).pass ?_ ?_ rfl ?_
    · simp [State.spinlockUnlock, hat]
    · simp [State.spinlockUnlock, hat, Place.claims]
    · simp [State.spinlockUnlock, hat, Place.Delivers]
  | detachLock => simpa [hat, Place.detaches] using h.undetached this
  | detachCheck => simpa [hat, Place.detaches] using h.undetached this
  | detachTarget => simpa [hat, Place.detaches] using h.undetached this
  | detachSection => simpa [hat, Place.detaches] using h.undetached this
  | detachUnlock => simpa [hat, Place.detaches] using h.undetached this

lemma Phase.ret {retval : α} (h : Phase exitVal s) (hat : s.place this = .joinReturn retval)
    (copied : Bool) : Phase exitVal
      (s.joinReturn this (if copied = true then .ok retval else .error .efault)) := by
  have hthis : (s.place this).claims = true := by simp [hat, Place.claims]
  cases h with
  | unjoined target join waitQueue claims log => simp [claims] at hthis
  | waiting target join waitQueue value claims log => simp [claims] at hthis
  | joined j target join waitQueue joiner claims log =>
    have hj : this = j := by
      by_contra hne
      simp [claims this hne] at hthis
    subst hj
    simp [hat] at joiner
  | done target waitQueue one delivers open_log log =>
    have hnone : ∀ u, ((s.goto this .idle).place u).claims = false := by
      intro u
      rcases eq_or_ne u this with rfl | hne
      · simp [State.goto, Place.claims]
      · by_contra hu
        rw [Bool.not_eq_false] at hu
        simp only [State.goto, Function.update_of_ne hne] at hu
        exact hne (one u this hu hthis)
    have hvalue : retval = exitVal := by simpa [hat, Place.Delivers] using delivers this
    refine .done target waitQueue (fun u w hu _ => ?_) (fun u => ?_) (fun u hu => ?_) ?_
    · exact absurd ((hnone u).symm.trans hu) (by simp)
    · exact Place.delivers_of_claims (hnone u)
    · exact absurd ((hnone u).symm.trans hu) (by simp)
    · have hempty := open_log this hthis
      cases copied with
      | false => exact .inl hempty
      | true =>
        have hlog : retval :: s.successes = [exitVal] := by rw [hempty, hvalue]
        exact .inr hlog

lemma LocksOk.exitSection (h : LocksOk s) (hat : s.target = .lockSection)
    (hlock : t.lock = (s.spinlockUnlock none .target).lock)
    (hheld : t.held = (s.spinlockUnlock none .target).held) (hplace : t.place = s.place)
    (htarget : t.target = .sleep ∨ t.target = .exited) : LocksOk t := by
  refine h.release none (by simp [State.holds, TargetPlace.holds, hat]) hlock hheld
    fun u k => ?_
  cases u with
  | none =>
    rcases htarget with htarget | htarget
    · cases k <;> simp [State.holds, TargetPlace.holds, hat, htarget]
    · cases k <;> simp [State.holds, TargetPlace.holds, hat, htarget]
  | some u => simp [State.holds, hplace]

lemma Inv.exitSection (h : Inv exitVal s) (hat : s.target = .lockSection)
    (hstep : s.exitSection exitVal = some t) : Inv exitVal t := by
  unfold State.exitSection at hstep
  rw [if_neg (by simp [h.joinable])] at hstep
  split_ifs at hstep with hempty
  · rw [← Option.some.inj hstep]
    refine ⟨h.locks.exitSection hat rfl rfl rfl (.inl rfl), h.joinable, h.undetached, ?_⟩
    cases h.phase with
    | unjoined target join waitQueue claims log =>
      exact .waiting rfl join (by simp [hempty, waitOn]) rfl claims log
    | joined j target join waitQueue joiner claims log => simp [hempty] at waitQueue
    | waiting target join waitQueue value claims log => simp [hat] at target
    | done target waitQueue one delivers open_log log => simp [hat] at target
  · cases h.phase with
    | unjoined target join waitQueue claims log => exact absurd waitQueue hempty
    | waiting target join waitQueue value claims log => simp [hat] at target
    | done target waitQueue one delivers open_log log => simp [hat] at target
    | joined j target join waitQueue joiner claims log =>
      have hwake : s.wakeupOne = { s with waitQueue := [] } := by
        simp [State.wakeupOne, waitQueue, WaitQueue.wakeupOne]
      rw [join, Option.map_some, hwake] at hstep
      rw [← Option.some.inj hstep]
      have honly : ∀ u, (s.place u).claims = true → u = j := by
        intro u hu
        by_contra hne
        simp [claims u hne] at hu
      refine ⟨h.locks.exitSection hat rfl rfl rfl (.inr rfl), h.joinable, h.undetached,
        .done (.inr rfl) rfl (fun u w hu hw => ?_) (fun u => ?_) (fun _ _ => log) (.inl log)⟩
      · rw [honly u hu, honly w hw]
      · rcases eq_or_ne u j with rfl | hne
        · rcases joiner with hj | hj
          · simp [State.spinlockUnlock, hj, Place.Delivers]
          · simp [State.spinlockUnlock, hj, Place.Delivers]
        · exact Place.delivers_of_claims (claims u hne)

lemma Inv.target (h : Inv exitVal s) (hstep : stepTarget s exitVal = some t) : Inv exitVal t := by
  have hsame : ∀ (t : State ι α) (hplace : t.place = s.place) (u : ι) (k : Lock),
      t.holds (some u) k = s.holds (some u) k := by
    intro t hplace u k
    simp only [State.holds, hplace]
  unfold stepTarget at hstep
  cases hat : s.target with
  | running => simp [hat] at hstep
  | exited => simp [hat] at hstep
  | lock =>
    simp only [hat] at hstep
    split_ifs at hstep with hfree
    rw [← Option.some.inj hstep]
    refine ⟨h.locks.acquire none hfree rfl rfl fun u k => ?_, h.joinable, h.undetached, ?_⟩
    · cases u with
      | none => cases k <;> simp [State.holds, TargetPlace.holds, hat]
      | some u => simp [State.holds, State.spinlockLock]
    · cases h.phase with
      | unjoined target join waitQueue claims log =>
        exact .unjoined (by simp) join waitQueue claims log
      | joined j target join waitQueue joiner claims log =>
        exact .joined j (by simp) join waitQueue joiner claims log
      | waiting target join waitQueue value claims log => simp [hat] at target
      | done target waitQueue one delivers open_log log => simp [hat] at target
  | lockSection =>
    simp only [hat] at hstep
    exact h.exitSection hat hstep
  | sleep =>
    simp only [hat] at hstep
    split_ifs at hstep with hqueue
    rw [← Option.some.inj hstep]
    refine ⟨h.locks.congr rfl rfl fun u k => ?_, h.joinable, h.undetached, ?_⟩
    · cases u with
      | none => simp [State.holds, TargetPlace.holds, hat]
      | some u => rfl
    · cases h.phase with
      | unjoined target join waitQueue claims log => exact absurd hat target.1
      | joined j target join waitQueue joiner claims log => exact absurd hat target.1
      | waiting target join waitQueue value claims log => simp [waitQueue] at hqueue
      | done target waitQueue one delivers open_log log =>
        exact .done (.inr rfl) waitQueue one delivers open_log log

lemma Inv.step {e : Event ι} (h : Inv exitVal s) (hok : EventOk s e)
    (hstep : step exitVal s e = some t) : Inv exitVal t := by
  cases e with
  | call this op =>
    cases op with
    | detach => exact hok.elim
    | join refused =>
      cases hat : s.place this with
      | idle =>
        have hclaims : (s.place this).claims = false := by
          rw [hat]
          rfl
        cases refused with
        | none =>
          simp only [ThreadJoin.step, hat, Option.some.injEq] at hstep
          rw [← hstep]
          exact h.goto (fun k => by rw [hat]; rfl) hclaims ⟨rfl, rfl⟩
        | some err =>
          simp only [ThreadJoin.step, hat, Option.some.injEq] at hstep
          rw [← hstep]
          exact h.joinReturn_error (fun k => by rw [hat]; rfl) err (h.phase.goto hclaims rfl)
      | _ => simp [ThreadJoin.step, hat] at hstep
  | go this =>
    cases this with
    | none => exact h.target hstep
    | some this => exact h.sibling hok hstep
  | ret this copied =>
    cases hat : s.place this with
    | joinReturn retval =>
      simp only [ThreadJoin.step, hat, Option.some.injEq] at hstep
      rw [← hstep]
      have hlocks : LocksOk (s.goto this .idle) := h.locks.goto fun k => by rw [hat]; rfl
      exact ⟨hlocks.congr rfl rfl fun _ _ => rfl, h.joinable, undetached_goto h.undetached rfl,
        h.phase.ret hat copied⟩
    | _ => simp [ThreadJoin.step, hat] at hstep
  | exit =>
    simp only [ThreadJoin.step] at hstep
    split_ifs at hstep with hat
    rw [← Option.some.inj hstep]
    refine ⟨h.locks.congr rfl rfl fun u k => ?_, h.joinable, h.undetached, ?_⟩
    · cases u with
      | none => simp [State.holds, TargetPlace.holds, hat]
      | some u => rfl
    · cases h.phase with
      | unjoined target join waitQueue claims log =>
        exact .unjoined (by simp) join waitQueue claims log
      | joined j target join waitQueue joiner claims log =>
        exact .joined j (by simp) join waitQueue joiner claims log
      | waiting target join waitQueue value claims log => simp [hat] at target
      | done target waitQueue one delivers open_log log => simp [hat] at target
  | destroy =>
    simp only [ThreadJoin.step] at hstep
    split_ifs at hstep with hat
    rw [← Option.some.inj hstep]
    exact ⟨h.locks.congr rfl rfl fun _ _ => rfl, h.joinable, h.undetached,
      h.phase.congr rfl rfl rfl rfl rfl rfl fun _ => .inl rfl⟩

lemma inv_init (h : (machine exitVal).init s) : Inv exitVal s := by
  obtain ⟨hlock, hheld, -, hjoinable, hjoin, hqueue, htarget, hplace, hlog⟩ := h
  have hholds : ∀ u k, s.holds u k = false := by
    intro u k
    cases u with
    | none => simp [State.holds, TargetPlace.holds, htarget]
    | some u => simp [State.holds, Place.holds, hplace]
  refine ⟨⟨?_, ?_, ?_, ?_⟩, hjoinable, ?_, .unjoined ?_ hjoin hqueue ?_ ?_⟩
  · intro u k
    simp [hholds, hheld]
  · intro u k hu
    simp [hholds] at hu
  · exact fun k => .inl (hlock k)
  · intro u w k hu
    simp [hholds] at hu
  · simp [hplace, Place.detaches]
  · simp [htarget]
  · simp [hplace, Place.claims]
  · simp [State.successes, hlog]

lemma inv_reach (h : (machine exitVal).Reach EventOk s) : Inv exitVal s :=
  Machine.Reach.invariant (fun _ => inv_init) (fun _ _ _ hi hok hs => hi.step hok hs) h

structure Agree (exitVal : α) (s : State ι α) : Prop where
  /-- at most one join succeeds, with the value of the exit -/
  success : s.successes = [] ∨ s.successes = [exitVal]
  /-- nobody waits for a target that is gone -/
  exited : s.target = .exited → s.waitQueue = []
  /-- the target waits for a joiner only if there can be one -/
  sleeps : none ∈ s.waitQueue → s.joinable = true ∧ s.join = none
  /-- no thread gives back what it has not taken -/
  held : ∀ t l, 0 ≤ s.held t l
  /-- a thread that has returned holds nothing -/
  returned : (∀ t, s.place t = .idle → ∀ l, s.held (some t) l = 0) ∧
    (s.target = .exited → ∀ l, s.held none l = 0)

/-- Join and exit agree in every run in which nobody detaches the target, or goes to wait for it
after an earlier join has let it go. -/
theorem thread_join_agree (h : (machine exitVal).Reach EventOk s) : Agree exitVal s := by
  have hinv := inv_reach h
  refine ⟨?_, fun hexited => ?_, fun hwaits => ⟨hinv.joinable, ?_⟩, fun u k => ?_,
    fun u hidle k => ?_, fun hexited k => ?_⟩
  · cases hinv.phase with
    | unjoined target join waitQueue claims log => exact .inl log
    | joined j target join waitQueue joiner claims log => exact .inl log
    | waiting target join waitQueue value claims log => exact .inl log
    | done target waitQueue one delivers open_log log => exact log
  · cases hinv.phase with
    | unjoined target join waitQueue claims log => exact waitQueue
    | joined j target join waitQueue joiner claims log => exact absurd hexited target.2
    | waiting target join waitQueue value claims log => simp [hexited] at target
    | done target waitQueue one delivers open_log log => exact waitQueue
  · cases hinv.phase with
    | unjoined target join waitQueue claims log => exact join
    | joined j target join waitQueue joiner claims log => simp [waitQueue] at hwaits
    | waiting target join waitQueue value claims log => exact join
    | done target waitQueue one delivers open_log log => simp [waitQueue] at hwaits
  · rw [hinv.locks.held]
    split_ifs
    · exact zero_le_one
    · exact le_rfl
  · rw [hinv.locks.held, State.holds, hidle]
    rfl
  · rw [hinv.locks.held, State.holds, hexited]
    rfl

def fresh : State Bool ℕ where
  lock _ := 0
  held _ _ := 0
  found := true
  joinable := true
  join := none
  waitQueue := []
  exitValue := 0
  mail _ := 0
  target := .running
  place _ := .idle
  log := []

lemma fresh_init : (machine 7).init fresh := by
  simp [machine, fresh]

def joinedRun : List (Event Bool) :=
  [.exit, .go none, .go none, .call true (.join none), .go (some true), .go (some true),
    .go (some true), .go (some true), .go (some true), .ret true true]

def noDetach (s : State Bool ℕ) : Event Bool → Bool
  | .call _ .detach => false
  | .go (some t) => s.waitQueue ≠ [] ∨ s.place t ≠ .joinSection
  | _ => true

/-- A sibling joins a target that waits for it. -/
theorem thread_join_agree_waiting :
    ∃ s : State Bool ℕ, s.successes = [7] ∧ s.target = .sleep ∧ Agree 7 s := by
  have hguard : ∀ s e, noDetach s e = true → EventOk s e := by
    intro s e h
    cases e with
    | call this op =>
      cases op with
      | join refused => trivial
      | detach => simp [noDetach] at h
    | go this =>
      cases this with
      | none => trivial
      | some this =>
        intro hat _ hempty
        simp [noDetach, hat, hempty] at h
    | ret this copied => trivial
    | exit => trivial
    | destroy => trivial
  obtain ⟨s, hrun, hsuccess, htarget⟩ : ∃ s, ((machine 7).restrict noDetach).run fresh joinedRun =
      some s ∧ s.successes = [7] ∧ s.target = .sleep := ⟨_, rfl, rfl, rfl⟩
  have hreach : ((machine 7).restrict noDetach).Reachable s :=
    Machine.Reachable.run (.init fresh_init) joinedRun hrun
  exact ⟨s, hsuccess, htarget, thread_join_agree (hreach.of_restrict hguard)⟩

/-- A detach returns with `th_lock`, and gives back a lock that it has not taken. A second join,
between the first and the end of the target, waits for ever in the queue of a thread that is gone. -/
theorem detach_keeps_lock_and_join_strands :
    (∃ s, (machine 7).Reachable s ∧ s.place true = .idle ∧ s.held (some true) .th = 1 ∧
        s.held (some true) .task = -1) ∧
      ∃ s : State Bool ℕ, (machine 7).Reachable s ∧ s.target = .exited ∧
        s.waitQueue = [some false] := by
  constructor
  · obtain ⟨s, hrun, hfacts⟩ : ∃ s, (machine 7).run fresh [.call true .detach, .go (some true),
        .go (some true), .go (some true), .go (some true), .go (some true)] = some s ∧
          s.place true = .idle ∧ s.held (some true) .th = 1 ∧ s.held (some true) .task = -1 :=
      ⟨_, rfl, rfl, rfl, rfl⟩
    exact ⟨s, Machine.Reachable.run (.init fresh_init) _ hrun, hfacts⟩
  · obtain ⟨s, hrun, hfacts⟩ : ∃ s, (machine 7).run fresh (joinedRun ++
        [.call false (.join none), .go (some false), .go (some false), .go (some false),
          .go (some false), .go none]) = some s ∧ s.target = .exited ∧
            s.waitQueue = [some false] := ⟨_, rfl, rfl, rfl⟩
    exact ⟨s, Machine.Reachable.run (.init fresh_init) _ hrun, hfacts⟩

end Almos.ThreadJoin
