import Almos.Bits
import Almos.Machine
import Almos.Spinlock

/-!
# Signals

`signal_rise` and `signal_notify`, and the locks they take and release. Other parties may hold locks
between the calls; a call waits while a lock that it takes is not free. A thread that exits runs no
more.
-/
namespace Almos.Signals

/-- `SIG_NR` -/
def sigNr : ℕ := 32

/-- `SIGKILL` -/
def sigKill : ℕ := 9

/-- `SIGTERM` -/
def sigTerm : ℕ := 15

/-- `SIG_IGNORE`, `SIG_DEFAULT` or a handler of the user. -/
inductive Action
  | sigIgnore
  | sigDefault
  | user (handler : ℕ)
deriving DecidableEq

/-- `th_lock`, the lock of a thread, and the memory that is taken for one where there is no thread. -/
inductive Lock
  | thLock
  | thread (t : ℕ)
  | stray
deriving DecidableEq

inductive LockOp
  | acquire (l : Lock)
  | release (l : Lock)
deriving DecidableEq

def LockOp.lock : LockOp → Lock
  | acquire l | release l => l

/-- A task, and of its threads the words of signals, the mark `TH_DOING_SIGNAL`, the handler that
runs and whether they have exited. `word` are the words of the locks and `held` the parties that hold
them between the calls; `ops` and `taken` are what the last step did with locks, and the signal that
it took. -/
structure Task where
  threads : List ℕ
  handler : Option ℕ
  sigactions : ℕ → Action
  sigState : ℕ → BitVec 32
  sigMask : ℕ → BitVec 32
  signaled : ℕ → Bool
  running : ℕ → Option ℕ
  exited : ℕ → Bool
  word : Lock → ℤ
  held : Lock → Option ℕ
  ops : List LockOp
  taken : Option (ℕ × ℕ)

namespace Task

def spinlockLock (s : Task) (l : Lock) : Option Task :=
  if s.word l = 0 then
    some { s with word := Function.update s.word l (-1), ops := s.ops ++ [.acquire l] }
  else none

/-- A lock that nobody holds is taken by it, one of a writer freed. -/
def spinlockUnlock (s : Task) (l : Lock) : Task :=
  { s with
    word := Function.update s.word l (Spinlock.unlockWord (s.word l))
    ops := s.ops ++ [.release l] }

def raise (s : Task) (t sig : ℕ) : Task :=
  { s with sigState := Function.update s.sigState t (s.sigState t ||| 1#32 <<< sig) }

def clear (s : Task) (t sig : ℕ) : Task :=
  { s with sigState := Function.update s.sigState t (s.sigState t &&& ~~~(1#32 <<< sig)) }

end Task

/-- A round of the loop of `signal_rise_all`. -/
def riseThread (sig : ℕ) (s : Task) (t : ℕ) : Task :=
  ((s.spinlockUnlock (.thread t)).raise t sig).spinlockUnlock (.thread t)

def signalRiseAll (s : Task) (sig : ℕ) : Option Task :=
  (s.spinlockLock .thLock).map fun s =>
    (s.threads.foldl (riseThread sig) s).spinlockUnlock .thLock

def signalRiseOne (s : Task) (sig : ℕ) : Option Task :=
  (s.spinlockLock .thLock).bind fun s =>
    match s.handler.or s.threads.head? with
    | some t => (s.spinlockLock (.thread t)).map fun s =>
        ((s.raise t sig).spinlockUnlock (.thread t)).spinlockUnlock .thLock
    | none => (s.spinlockLock .stray).map fun s =>
        (s.spinlockUnlock .stray).spinlockUnlock .thLock

def signalRise (s : Task) (sig : ℕ) : Option Task :=
  if sig = sigTerm ∨ sig = sigKill then signalRiseAll s sig else signalRiseOne s sig

/-- The loop of `signal_notify`, with the rounds that are left. -/
def lowestSignal : ℕ → BitVec 32 → ℕ → ℕ
  | 0, _, sig => sig
  | left + 1, sigState, sig =>
      if sigState ≠ 0 ∧ sigState &&& 1#32 = 0 then lowestSignal left (sigState >>> 1) (sig + 1)
      else sig

def enabled (s : Task) (t : ℕ) : BitVec 32 := s.sigState t &&& s.sigMask t

/-- What follows once a signal was taken: `cpu_signal_notify` puts the context on the signal stack,
which fails unless `frame`, and a default action ends the thread. -/
def deliver (s : Task) (t sig : ℕ) (frame : Bool) : Task :=
  match s.sigactions sig with
  | .sigIgnore => s
  | .sigDefault => { s with exited := Function.update s.exited t true }
  | .user _ => if frame = true then { s with running := Function.update s.running t (some sig) } else s

def signalNotify (s : Task) (t : ℕ) (frame : Bool) : Option Task :=
  let sig := lowestSignal sigNr (enabled s t) 0
  if sig ≠ 0 then
    if s.signaled t = true then some s
    else
      let s := { s with signaled := Function.update s.signaled t true }
      (s.spinlockLock (.thread t)).map fun s =>
        deliver { (s.clear t sig).spinlockUnlock (.thread t) with taken := some (t, sig) } t sig frame
  else some s

/-- `sys_sigreturn`; a context that cannot be read back ends the thread. -/
def sigreturn (s : Task) (t : ℕ) (frame : Bool) : Task :=
  let s := { s with running := Function.update s.running t none }
  if frame = true then { s with signaled := Function.update s.signaled t false }
  else { s with exited := Function.update s.exited t true }

inductive Event
  | rise (sig : ℕ)
  | notify (t : ℕ) (frame : Bool)
  | sigreturn (t : ℕ) (frame : Bool)
  | lock (p : ℕ) (l : Lock)
  | unlock (p : ℕ) (l : Lock)

def Task.fresh (s : Task) : Task := { s with ops := [], taken := none }

def step (s : Task) : Event → Option Task
  | .rise sig => if 0 < sig ∧ sig < sigNr then signalRise s.fresh sig else none
  | .notify t frame => if s.exited t = false then signalNotify s.fresh t frame else none
  | .sigreturn t frame =>
      if s.exited t = false ∧ s.running t ≠ none then some (sigreturn s.fresh t frame) else none
  | .lock p l => (s.fresh.spinlockLock l).map fun s =>
      { s with held := Function.update s.held l (some p) }
  | .unlock p l =>
      if s.held l = some p then
        some { s.fresh.spinlockUnlock l with held := Function.update s.held l none }
      else none

/-- The word of a lock is -1 while a party holds it and 0 otherwise. -/
def Words (s : Task) : Prop := ∀ l ≠ .stray, s.word l = if s.held l = none then 0 else -1

/-- A task as `signal_manager_init` and `signal_init` leave it, with any actions and masks and with
locks that any parties hold. -/
structure Start (s : Task) : Prop where
  words : Words s
  sigState : ∀ t, s.sigState t = 0
  signaled : ∀ t, s.signaled t = false
  running : ∀ t, s.running t = none

def machine : Machine Task Event where
  init := Start
  step := step

def Lowest (w : BitVec 32) (sig : ℕ) : Prop :=
  w.getLsbD sig = true ∧ ∀ k < sig, w.getLsbD k = false

def Marked (s : Task) : Prop :=
  ∀ t, s.exited t = false → s.signaled t = true → s.running t ≠ none

/-- What a step should do: signals stay until they are taken, a thread without handler takes the
lowest one and nothing else, and the locks that are released are those that were acquired. -/
structure StepOk (s : Task) (e : Event) (t : Task) : Prop where
  stays : ∀ u sig, (enabled s u).getLsbD sig = true → (t.sigState u).getLsbD sig = false →
    t.taken = some (u, sig) ∧ ∃ frame, e = .notify u frame
  takes : ∀ u frame, e = .notify u frame → s.running u = none →
    (∀ sig, t.taken = some (u, sig) ↔ Lowest (enabled s u) sig) ∧
      ∀ sig, (t.sigState u).getLsbD sig =
        ((s.sigState u).getLsbD sig && !decide (t.taken = some (u, sig)))
  locks : ∀ sig, e = .rise sig → t.word = s.word ∧ t.held = s.held ∧
    (∀ l, t.ops.count (.release l) = t.ops.count (.acquire l)) ∧ .acquire .stray ∉ t.ops

/-- A broadcast finds no thread and any other signal finds one; a thread without handler takes no
ignored signal, and one with a handler of the user only with room for the context. -/
def Guard (s : Task) : Event → Prop
  | .rise sig =>
      if sig = sigTerm ∨ sig = sigKill then s.threads = [] else s.handler.or s.threads.head? ≠ none
  | .notify t frame => s.running t = none → ∀ sig, Lowest (enabled s t) sig →
      match s.sigactions sig with
      | .sigIgnore => False
      | .sigDefault => True
      | .user _ => frame = true
  | _ => True

variable {s t : Task} {e : Event} {w : BitVec 32}

lemma and_one_eq_zero : w &&& 1#32 = 0 ↔ w.getLsbD 0 = false := by
  constructor
  · intro h
    have hbit := congrArg (fun v => v.getLsbD 0) h
    simpa using hbit
  · intro h
    refine BitVec.eq_of_getLsbD_eq fun i hi => ?_
    rcases eq_or_ne i 0 with rfl | hne
    · rw [BitVec.getLsbD_and, h]
      rfl
    · simp [hne]

lemma Lowest.unique {i j : ℕ} (hi : Lowest w i) (hj : Lowest w j) : i = j := by
  rcases Nat.lt_trichotomy i j with hlt | heq | hlt
  · have hclear := hj.2 i hlt
    rw [hi.1] at hclear
    cases hclear
  · exact heq
  · have hclear := hi.2 j hlt
    rw [hj.1] at hclear
    cases hclear

lemma lowestSignal_spec : ∀ left (w : BitVec 32) sig, (∃ k < left, w.getLsbD k = true) →
    ∃ k, lowestSignal left w sig = sig + k ∧ Lowest w k := by
  intro left
  induction left with
  | zero =>
    rintro w sig ⟨k, hk, -⟩
    exact absurd hk (Nat.not_lt_zero k)
  | succ left ih =>
    rintro w sig ⟨k, hk, hbit⟩
    have hne : w ≠ 0 := by
      rintro rfl
      simp at hbit
    by_cases hzero : w.getLsbD 0 = false
    · have hk0 : k ≠ 0 := by
        rintro rfl
        rw [hzero] at hbit
        cases hbit
      obtain ⟨m, rfl⟩ : ∃ m, k = m + 1 := ⟨k - 1, by omega⟩
      have hshift : ∀ i, (w >>> 1).getLsbD i = w.getLsbD (i + 1) := by
        intro i
        rw [BitVec.getLsbD_ushiftRight, Nat.add_comm]
      obtain ⟨j, hloop, hset, hbelow⟩ :=
        ih (w >>> 1) (sig + 1) ⟨m, by omega, by rw [hshift, hbit]⟩
      refine ⟨j + 1, ?_, by rw [← hshift, hset], fun i hi => ?_⟩
      · rw [lowestSignal, if_pos ⟨hne, and_one_eq_zero.mpr hzero⟩, hloop]
        omega
      · cases i with
        | zero => exact hzero
        | succ i => rw [← hshift, hbelow i (by omega)]
    · refine ⟨0, ?_, by simpa using hzero, fun i hi => absurd hi (Nat.not_lt_zero i)⟩
      rw [lowestSignal, if_neg fun h => hzero (and_one_eq_zero.mp h.2)]
      rfl

lemma lowestSignal_zero (left sig : ℕ) : lowestSignal left 0 sig = sig := by
  cases left with
  | zero => rfl
  | succ left => rw [lowestSignal, if_neg fun h => h.1 rfl]

lemma lowestSignal_iff (hzero : w.getLsbD 0 = false) (sig : ℕ) :
    lowestSignal sigNr w 0 = sig ∧ sig ≠ 0 ↔ Lowest w sig := by
  by_cases hw : w = 0
  · subst hw
    rw [lowestSignal_zero]
    refine iff_of_false (fun h => h.2 h.1.symm) fun h => ?_
    have hset := h.1
    simp at hset
  · have hbit : ∃ k < sigNr, w.getLsbD k = true := by
      by_contra hnone
      push Not at hnone
      refine hw (BitVec.eq_of_getLsbD_eq fun i hi => ?_)
      have hclear := hnone i hi
      simpa using hclear
    obtain ⟨k, hloop, hlow⟩ := lowestSignal_spec sigNr w 0 hbit
    rw [Nat.zero_add] at hloop
    rw [hloop]
    constructor
    · rintro ⟨rfl, -⟩
      exact hlow
    · intro hsig
      refine ⟨hlow.unique hsig, ?_⟩
      rintro rfl
      have hset := hsig.1
      rw [hzero] at hset
      cases hset

lemma raise_bit {sig : ℕ} (hsig : sig < sigNr) (k : ℕ) :
    (w ||| 1#32 <<< sig).getLsbD k = (w.getLsbD k || decide (k = sig)) := by
  rw [BitVec.getLsbD_or, Bits.one_shiftLeft_getLsbD hsig]

lemma clear_bit {sig : ℕ} (hsig : sig < sigNr) (k : ℕ) :
    (w &&& ~~~(1#32 <<< sig)).getLsbD k = (w.getLsbD k && !decide (k = sig)) := by
  rw [BitVec.getLsbD_and, BitVec.getLsbD_not, Bits.one_shiftLeft_getLsbD hsig]
  by_cases hk : k < 32
  · simp [hk]
  · simp [BitVec.getLsbD_of_ge w k (by omega)]

lemma Lowest.lt {sig : ℕ} (h : Lowest w sig) : sig < sigNr := by
  by_contra hge
  have hset := h.1
  rw [BitVec.getLsbD_of_ge w sig (Nat.le_of_not_lt hge)] at hset
  cases hset

lemma word_restore {l : Lock} {word : Lock → ℤ} (h : word l = 0) :
    Function.update (Function.update word l (-1)) l (Spinlock.unlockWord (-1)) = word := by
  rw [Function.update_idem]
  exact Function.update_eq_self_iff.mpr h.symm

lemma riseThreads_ops (sig : ℕ) : ∀ (l : List ℕ) (s : Task), (l.foldl (riseThread sig) s).ops =
    s.ops ++ l.flatMap fun t => [.release (.thread t), .release (.thread t)] := by
  intro l
  induction l with
  | nil => simp
  | cons t l ih =>
    intro s
    rw [List.foldl_cons, ih]
    simp [riseThread, Task.spinlockUnlock, Task.raise]

lemma riseAll_cases {sig : ℕ} (h : signalRiseAll s sig = some t) :
    (s.threads = [] ∧ t = { s with ops := s.ops ++ [.acquire .thLock, .release .thLock] }) ∨
      ∃ u ∈ s.threads, t.ops = s.ops ++ .acquire .thLock ::
        (s.threads.flatMap (fun t => [.release (.thread t), .release (.thread t)]) ++
          [.release .thLock]) := by
  obtain ⟨s', hlock, rfl⟩ := Option.map_eq_some_iff.mp h
  unfold Task.spinlockLock at hlock
  split_ifs at hlock with hfree
  obtain rfl := Option.some.inj hlock
  cases hthreads : s.threads with
  | nil =>
    refine .inl ⟨rfl, ?_⟩
    simp only [List.foldl_nil, Task.spinlockUnlock, Function.update_self, word_restore hfree]
    simp
  | cons u l =>
    refine .inr ⟨u, List.mem_cons_self, ?_⟩
    simp only [Task.spinlockUnlock, riseThreads_ops]
    simp

lemma riseOne_cases {sig : ℕ} (h : signalRiseOne s sig = some t) :
    (∃ u, s.handler.or s.threads.head? = some u ∧ t = { s.raise u sig with
      ops := s.ops ++ [.acquire .thLock, .acquire (.thread u), .release (.thread u),
        .release .thLock] }) ∨
      s.handler.or s.threads.head? = none ∧ .acquire .stray ∈ t.ops := by
  obtain ⟨s', hlock, hrest⟩ := Option.bind_eq_some_iff.mp h
  unfold Task.spinlockLock at hlock
  split_ifs at hlock with hfree
  obtain rfl := Option.some.inj hlock
  cases hthread : s.handler.or s.threads.head? with
  | none =>
    simp only [hthread] at hrest
    obtain ⟨s'', hlock', rfl⟩ := Option.map_eq_some_iff.mp hrest
    unfold Task.spinlockLock at hlock'
    split_ifs at hlock'
    obtain rfl := Option.some.inj hlock'
    exact .inr ⟨rfl, by simp [Task.spinlockUnlock]⟩
  | some u =>
    simp only [hthread] at hrest
    obtain ⟨s'', hlock', rfl⟩ := Option.map_eq_some_iff.mp hrest
    unfold Task.spinlockLock at hlock'
    split_ifs at hlock' with hfree'
    obtain rfl := Option.some.inj hlock'
    refine .inl ⟨u, rfl, ?_⟩
    simp only [Task.spinlockUnlock, Task.raise, Function.update_self, word_restore hfree',
      word_restore hfree]
    simp

def taking (s : Task) (u sig : ℕ) : Task :=
  { s.clear u sig with
    signaled := Function.update s.signaled u true
    ops := s.ops ++ [.acquire (.thread u), .release (.thread u)]
    taken := some (u, sig) }

lemma notify_cases {u : ℕ} {frame : Bool} (hzero : (s.sigState u).getLsbD 0 = false)
    (h : signalNotify s u frame = some t) :
    (t = s ∧ (s.signaled u = true ∨ ∀ sig, ¬Lowest (enabled s u) sig)) ∨
      ∃ sig, Lowest (enabled s u) sig ∧ s.signaled u = false ∧
        t = deliver (taking s u sig) u sig frame := by
  have hbit : (enabled s u).getLsbD 0 = false := by
    rw [enabled, BitVec.getLsbD_and, hzero, Bool.false_and]
  simp only [signalNotify] at h
  split_ifs at h with hsig hmark
  · exact .inl ⟨(Option.some.inj h).symm, .inl hmark⟩
  · obtain ⟨s', hlock, rfl⟩ := Option.map_eq_some_iff.mp h
    unfold Task.spinlockLock at hlock
    split_ifs at hlock with hfree
    obtain rfl := Option.some.inj hlock
    refine .inr ⟨_, (lowestSignal_iff hbit _).mp ⟨rfl, hsig⟩, by simpa using hmark, ?_⟩
    simp only [Task.spinlockUnlock, Task.clear, Function.update_self, word_restore hfree, taking]
    simp
  · refine .inl ⟨(Option.some.inj h).symm, .inr fun sig hlow => ?_⟩
    obtain ⟨heq, hne⟩ := (lowestSignal_iff hbit sig).mpr hlow
    exact hne (heq.symm.trans (by simpa using hsig))

/-- Signal 0 is never raised, a thread is marked exactly while a handler runs, and the locks are those
of the parties that hold them. -/
structure Ok (s : Task) : Prop where
  words : Words s
  zero : ∀ u, (s.sigState u).getLsbD 0 = false
  runs : ∀ u, s.running u ≠ none → s.signaled u = true
  marked : Marked s

lemma Ok.marks (h : Ok s) {u : ℕ} (hexited : s.exited u = false) :
    s.signaled u = true ↔ s.running u ≠ none :=
  ⟨h.marked u hexited, h.runs u⟩

lemma stays_of_subset (hstate : ∀ u k, (s.sigState u).getLsbD k = true →
    (t.sigState u).getLsbD k = true) (u sig : ℕ) (hraised : (enabled s u).getLsbD sig = true)
    (hgone : (t.sigState u).getLsbD sig = false) :
    t.taken = some (u, sig) ∧ ∃ frame, e = .notify u frame := by
  rw [enabled, BitVec.getLsbD_and, Bool.and_eq_true] at hraised
  rw [hstate u sig hraised.1] at hgone
  cases hgone

lemma raise_subset {sig : ℕ} (hsig : sig < sigNr) (u v k : ℕ)
    (h : (s.sigState v).getLsbD k = true) : ((s.raise u sig).sigState v).getLsbD k = true := by
  simp only [Task.raise, Function.update_apply]
  split_ifs with hv
  · subst hv
    rw [raise_bit hsig, h, Bool.true_or]
  · exact h

lemma rise_iff (hmarked : Marked s) {sig : ℕ} (hsig : sig < sigNr)
    (h : signalRise s.fresh sig = some t) :
    StepOk s (.rise sig) t ∧ Marked t ↔ Guard s (.rise sig) := by
  unfold signalRise at h
  simp only [Guard]
  split_ifs at h ⊢ with hall
  · obtain ⟨hempty, rfl⟩ | ⟨u, hu, hops⟩ := riseAll_cases h
    · refine iff_of_true ⟨⟨stays_of_subset fun _ _ hk => hk, (by rintro u frame ⟨⟩), ?_⟩, hmarked⟩
        hempty
      rintro sig -
      refine ⟨rfl, rfl, fun l => ?_, by simp [Task.fresh]⟩
      simp [Task.fresh, List.count_cons]
    · refine iff_of_false (fun hok => ?_) (List.ne_nil_of_mem hu)
      have hcount := (hok.1.locks sig rfl).2.2.1 (.thread u)
      have hacquired : t.ops.count (.acquire (.thread u)) = 0 := by
        rw [List.count_eq_zero, hops]
        simp [Task.fresh]
      have hreleased : .release (.thread u) ∈ t.ops := by
        rw [hops]
        simp [Task.fresh] at hu ⊢
        exact hu
      rw [hacquired] at hcount
      exact absurd hreleased (List.count_eq_zero.mp hcount)
  · obtain ⟨u, hu, rfl⟩ | ⟨hnone, hops⟩ := riseOne_cases h
    · have hsome : s.handler.or s.threads.head? ≠ none := by
        change s.handler.or s.threads.head? = some u at hu
        rw [hu]
        exact Option.some_ne_none u
      refine iff_of_true ⟨⟨stays_of_subset fun v k hk => raise_subset (s := s) hsig u v k hk,
        (by rintro u frame ⟨⟩), ?_⟩, hmarked⟩ hsome
      rintro sig -
      refine ⟨rfl, rfl, fun l => ?_, by simp [Task.fresh]⟩
      simp [Task.fresh, List.count_cons]
      omega
    · exact iff_of_false (fun hok => (hok.1.locks sig rfl).2.2.2 hops) fun hsome => hsome hnone

lemma deliver_fields (s : Task) (u sig : ℕ) (frame : Bool) :
    (deliver s u sig frame).sigState = s.sigState ∧ (deliver s u sig frame).taken = s.taken ∧
      (deliver s u sig frame).signaled = s.signaled ∧ (deliver s u sig frame).word = s.word ∧
      (deliver s u sig frame).held = s.held := by
  unfold deliver
  split
  · exact ⟨rfl, rfl, rfl, rfl, rfl⟩
  · exact ⟨rfl, rfl, rfl, rfl, rfl⟩
  · split_ifs <;> exact ⟨rfl, rfl, rfl, rfl, rfl⟩

lemma deliver_marks {u : ℕ} (sig : ℕ) (frame : Bool) (hexited : s.exited u = false)
    (hidle : s.running u = none) :
    ((deliver s u sig frame).exited u = false → (deliver s u sig frame).running u ≠ none) ↔
      match s.sigactions sig with
      | .sigIgnore => False
      | .sigDefault => True
      | .user _ => frame = true := by
  unfold deliver
  cases s.sigactions sig with
  | sigIgnore => simp [hexited, hidle]
  | sigDefault => simp
  | user handler =>
    cases frame with
    | false => simp [hexited, hidle]
    | true => simp [hexited]

lemma deliver_other {u v : ℕ} (sig : ℕ) (frame : Bool) (hne : v ≠ u) :
    (deliver s u sig frame).exited v = s.exited v ∧
      (deliver s u sig frame).running v = s.running v := by
  unfold deliver
  split
  · exact ⟨rfl, rfl⟩
  · exact ⟨Function.update_of_ne hne .., rfl⟩
  · split_ifs
    · exact ⟨rfl, Function.update_of_ne hne ..⟩
    · exact ⟨rfl, rfl⟩

lemma taking_bit {u sig : ℕ} (hsig : sig < sigNr) (v k : ℕ) :
    ((taking s u sig).sigState v).getLsbD k =
      ((s.sigState v).getLsbD k && !decide (v = u ∧ k = sig)) := by
  by_cases hv : v = u
  · subst hv
    simp [taking, Task.clear, clear_bit hsig]
  · simp [taking, Task.clear, hv]

lemma notify_iff (hok : Ok s) {u : ℕ} {frame : Bool} (hexited : s.exited u = false)
    (h : signalNotify s.fresh u frame = some t) :
    StepOk s (.notify u frame) t ∧ Marked t ↔ Guard s (.notify u frame) := by
  have hmarks := hok.marks hexited
  obtain ⟨rfl, hidle⟩ | ⟨sig, hlow, hmark, rfl⟩ := notify_cases (s := s.fresh) (hok.zero u) h
  · have hnone : s.running u = none → ∀ sig, ¬Lowest (enabled s u) sig := by
      intro hrun
      refine hidle.resolve_left fun hmark => ?_
      exact hmarks.mp hmark hrun
    refine iff_of_true ⟨⟨stays_of_subset fun _ _ hk => hk, ?_, by rintro sig ⟨⟩⟩, hok.marked⟩ ?_
    · rintro v frame ⟨⟩ hrun
      refine ⟨fun sig => iff_of_false (by simp [Task.fresh]) (hnone hrun sig), fun sig => ?_⟩
      simp [Task.fresh]
    · exact fun hrun sig hlow => absurd hlow (hnone hrun sig)
  · have hrun : s.running u = none := by
      by_contra hrun
      exact Bool.false_ne_true (hmark.symm.trans (hmarks.mpr hrun))
    obtain ⟨hstate, htaken, hsignaled, -⟩ := deliver_fields (taking s.fresh u sig) u sig frame
    have hbit : ∀ v k, ((deliver (taking s.fresh u sig) u sig frame).sigState v).getLsbD k =
        ((s.sigState v).getLsbD k && !decide (v = u ∧ k = sig)) := by
      intro v k
      rw [hstate]
      exact taking_bit hlow.lt v k
    have htaken' : (deliver (taking s.fresh u sig) u sig frame).taken = some (u, sig) := htaken
    have hstep : StepOk s (.notify u frame) (deliver (taking s.fresh u sig) u sig frame) := by
      refine ⟨fun v k hraised hgone => ?_, ?_, by rintro sig ⟨⟩⟩
      · rw [enabled, BitVec.getLsbD_and, Bool.and_eq_true] at hraised
        rw [hbit, hraised.1] at hgone
        obtain ⟨rfl, rfl⟩ : v = u ∧ k = sig := by simpa using hgone
        exact ⟨htaken', frame, rfl⟩
      · rintro v frame ⟨⟩ -
        rw [htaken']
        refine ⟨fun k => ⟨?_, fun hk => ?_⟩, fun k => ?_⟩
        · rintro ⟨⟩
          exact hlow
        · rw [hlow.unique hk]
        · rw [hbit]
          simp [eq_comm]
    have hself := deliver_marks (s := taking s.fresh u sig) sig frame hexited hrun
    have hmarked : Marked (deliver (taking s.fresh u sig) u sig frame) ↔
        ((deliver (taking s.fresh u sig) u sig frame).exited u = false →
          (deliver (taking s.fresh u sig) u sig frame).running u ≠ none) := by
      constructor
      · intro h hex
        refine h u hex ?_
        rw [hsignaled]
        exact Function.update_self ..
      · intro h v hex hmarkv
        rcases eq_or_ne v u with rfl | hne
        · exact h hex
        · obtain ⟨hexv, hrunv⟩ := deliver_other (s := taking s.fresh u sig) sig frame hne
          rw [hexv] at hex
          rw [hsignaled] at hmarkv
          rw [hrunv]
          exact hok.marked v hex ((Function.update_of_ne hne ..).symm.trans hmarkv)
    rw [and_iff_right hstep, hmarked, hself]
    constructor
    · intro haction _ k hk
      rw [hk.unique hlow]
      exact haction
    · intro hguard
      exact hguard hrun sig hlow

lemma other_iff (hstate : t.sigState = s.sigState) (htaken : ∀ u frame, e ≠ .notify u frame)
    (hrise : ∀ sig, e ≠ .rise sig) (hguard : Guard s e) (hmarked : Marked t) :
    StepOk s e t ∧ Marked t ↔ Guard s e := by
  refine iff_of_true ⟨⟨stays_of_subset fun v k hk => ?_, ?_, ?_⟩, hmarked⟩ hguard
  · rw [hstate]
    exact hk
  · intro u frame heq
    exact absurd heq (htaken u frame)
  · intro sig heq
    exact absurd heq (hrise sig)

lemma sigreturn_marked (h : Marked s) {u : ℕ} (frame : Bool) : Marked (sigreturn s u frame) := by
  intro v hexited hmark
  rcases eq_or_ne v u with rfl | hne
  · cases frame with
    | true => simp [sigreturn] at hmark
    | false => simp [sigreturn] at hexited
  · have hrun : (sigreturn s u frame).running v = s.running v := by
      unfold sigreturn
      split_ifs <;> exact Function.update_of_ne hne ..
    rw [hrun]
    cases frame with
    | true => exact h v hexited ((Function.update_of_ne hne ..).symm.trans hmark)
    | false => exact h v ((Function.update_of_ne hne ..).symm.trans hexited) hmark

lemma lock_cases {p : ℕ} {l : Lock} (h : step s (.lock p l) = some t) :
    s.word l = 0 ∧ t = { s.fresh with
      word := Function.update s.word l (-1)
      held := Function.update s.held l (some p)
      ops := [.acquire l] } := by
  obtain ⟨s', hlock, rfl⟩ := Option.map_eq_some_iff.mp h
  unfold Task.spinlockLock at hlock
  split_ifs at hlock with hfree
  obtain rfl := Option.some.inj hlock
  exact ⟨hfree, rfl⟩

lemma step_iff (hok : Ok s) (hstep : step s e = some t) :
    StepOk s e t ∧ Marked t ↔ Guard s e := by
  cases e with
  | rise sig =>
    simp only [step] at hstep
    split_ifs at hstep with hsig
    exact rise_iff hok.marked hsig.2 hstep
  | notify u frame =>
    simp only [step] at hstep
    split_ifs at hstep with hexited
    exact notify_iff hok hexited hstep
  | sigreturn u frame =>
    simp only [step] at hstep
    split_ifs at hstep
    obtain rfl := Option.some.inj hstep
    refine other_iff ?_ (by simp) (by simp) trivial
      (sigreturn_marked (s := s.fresh) hok.marked frame)
    unfold sigreturn
    split_ifs <;> rfl
  | lock p l =>
    obtain ⟨-, rfl⟩ := lock_cases hstep
    exact other_iff rfl (by simp) (by simp) trivial hok.marked
  | unlock p l =>
    simp only [step] at hstep
    split_ifs at hstep
    obtain rfl := Option.some.inj hstep
    exact other_iff rfl (by simp) (by simp) trivial hok.marked

lemma raise_zero {u sig : ℕ} (h : ∀ v, (s.sigState v).getLsbD 0 = false) (hsig : 0 < sig)
    (hlt : sig < sigNr) (v : ℕ) : ((s.raise u sig).sigState v).getLsbD 0 = false := by
  simp only [Task.raise, Function.update_apply]
  split_ifs
  · rw [raise_bit hlt, h u]
    simp [hsig.ne]
  · exact h v

lemma deliver_runs {u : ℕ} (h : ∀ v, s.running v ≠ none → s.signaled v = true) (sig : ℕ)
    (frame : Bool) (hmark : s.signaled u = true) (v : ℕ)
    (hrun : (deliver s u sig frame).running v ≠ none) :
    (deliver s u sig frame).signaled v = true := by
  rw [(deliver_fields s u sig frame).2.2.1]
  rcases eq_or_ne v u with rfl | hne
  · exact hmark
  · rw [(deliver_other sig frame hne).2] at hrun
    exact h v hrun

lemma sigreturn_runs {u : ℕ} (h : ∀ v, s.running v ≠ none → s.signaled v = true) (frame : Bool)
    (v : ℕ) (hrun : (sigreturn s u frame).running v ≠ none) :
    (sigreturn s u frame).signaled v = true := by
  have hrunning : (sigreturn s u frame).running = Function.update s.running u none := by
    unfold sigreturn
    split_ifs <;> rfl
  rw [hrunning] at hrun
  rcases eq_or_ne v u with rfl | hne
  · exact absurd (Function.update_self ..) hrun
  · rw [Function.update_of_ne hne] at hrun
    unfold sigreturn
    split_ifs
    · exact (Function.update_of_ne hne ..).trans (h v hrun)
    · exact h v hrun

lemma Ok.step (hok : Ok s) (hguard : Guard s e) (hstep : step s e = some t) : Ok t := by
  have hmarked := ((step_iff hok hstep).mpr hguard).2
  cases e with
  | rise sig =>
    simp only [Signals.step] at hstep
    split_ifs at hstep with hsig
    unfold signalRise at hstep
    simp only [Guard] at hguard
    split_ifs at hstep hguard
    · obtain ⟨-, rfl⟩ | ⟨u, hu, -⟩ := riseAll_cases hstep
      · exact ⟨hok.words, hok.zero, hok.runs, hmarked⟩
      · exact absurd hguard (List.ne_nil_of_mem hu)
    · obtain ⟨u, -, rfl⟩ | ⟨hnone, -⟩ := riseOne_cases hstep
      · exact ⟨hok.words, raise_zero (s := s.fresh) hok.zero hsig.1 hsig.2, hok.runs, hmarked⟩
      · exact absurd hnone hguard
  | notify u frame =>
    simp only [Signals.step] at hstep
    split_ifs at hstep
    obtain ⟨rfl, -⟩ | ⟨sig, hlow, -, rfl⟩ := notify_cases (s := s.fresh) (hok.zero u) hstep
    · exact ⟨hok.words, hok.zero, hok.runs, hmarked⟩
    · obtain ⟨hstate, -, -, hword, hheld⟩ := deliver_fields (taking s.fresh u sig) u sig frame
      refine ⟨fun l hl => ?_, fun v => ?_, deliver_runs (fun v hrun => ?_) sig frame ?_, hmarked⟩
      · rw [hword, hheld]
        exact hok.words l hl
      · rw [hstate, taking_bit hlow.lt]
        change ((s.sigState v).getLsbD 0 && _) = false
        rw [hok.zero v, Bool.false_and]
      · simp only [taking, Function.update_apply]
        split_ifs
        · rfl
        · exact hok.runs v hrun
      · exact Function.update_self ..
  | sigreturn u frame =>
    simp only [Signals.step] at hstep
    split_ifs at hstep
    obtain rfl := Option.some.inj hstep
    have hfields : (sigreturn s.fresh u frame).sigState = s.sigState ∧
        (sigreturn s.fresh u frame).word = s.word ∧ (sigreturn s.fresh u frame).held = s.held := by
      unfold sigreturn
      split_ifs <;> exact ⟨rfl, rfl, rfl⟩
    refine ⟨fun l hl => ?_, fun v => ?_, sigreturn_runs (s := s.fresh) hok.runs frame, hmarked⟩
    · rw [hfields.2.1, hfields.2.2]
      exact hok.words l hl
    · rw [hfields.1]
      exact hok.zero v
  | lock p l =>
    obtain ⟨-, rfl⟩ := lock_cases hstep
    refine ⟨fun k hk => ?_, hok.zero, hok.runs, hmarked⟩
    rcases eq_or_ne k l with rfl | hne
    · simp
    · simp only [Function.update_of_ne hne]
      exact hok.words k hk
  | unlock p l =>
    simp only [Signals.step] at hstep
    split_ifs at hstep with hheld
    obtain rfl := Option.some.inj hstep
    refine ⟨fun k hk => ?_, hok.zero, hok.runs, hmarked⟩
    rcases eq_or_ne k l with rfl | hne
    · have hword : s.word k = -1 := by
        rw [hok.words k hk, hheld, if_neg (Option.some_ne_none p)]
      simp [Task.spinlockUnlock, Task.fresh, hword, Spinlock.unlockWord]
    · simp only [Task.spinlockUnlock, Task.fresh, Function.update_of_ne hne]
      exact hok.words k hk

lemma Start.ok (h : Start s) : Ok s where
  words := h.words
  zero u := by
    rw [h.sigState u]
    rfl
  runs u hrun := absurd (h.running u) hrun
  marked u _ hmark := by
    rw [h.signaled u] at hmark
    cases hmark

/-- In runs whose steps meet the condition marked threads run a handler, and the next step does what
it should and keeps it so exactly if it meets the condition. -/
theorem signal_delivery (h : machine.Reach Guard s) :
    Marked s ∧ ∀ e t, machine.step s e = some t → (StepOk s e t ∧ Marked t ↔ Guard s e) := by
  have hok : Ok s :=
    h.invariant (I := Ok) (fun _ => Start.ok) fun _ _ _ hok hguard hstep => hok.step hguard hstep
  exact ⟨hok.marked, fun e t hstep => step_iff hok hstep⟩

/-- Two threads with all signals enabled; `SIGCHLD` is ignored and `SIGUSR1` has a handler. -/
def twoThreads : Task where
  threads := [1, 2]
  handler := none
  sigactions sig := if sig = 20 then .sigIgnore else if sig = 30 then .user 0x1000 else .sigDefault
  sigState _ := 0
  sigMask _ := BitVec.allOnes 32
  signaled _ := false
  running _ := none
  exited _ := false
  word _ := 0
  held _ := none
  ops := []
  taken := none

lemma twoThreads_start : Start twoThreads :=
  ⟨fun _ _ => rfl, fun _ => rfl, fun _ => rfl, fun _ => rfl⟩

/-- `SIGUSR1` is raised and its handler runs, while a party holds the lock of the other thread. -/
theorem signal_delivery_handler : ∃ s : Task,
    machine.run twoThreads [.lock 7 (.thread 2), .rise 30, .notify 1 true] = some s ∧
      s.running 1 = some 30 ∧ s.held (.thread 2) = some 7 ∧ s.word (.thread 2) = -1 ∧ Marked s := by
  obtain ⟨r, hr⟩ : ∃ r, machine.step twoThreads (.lock 7 (.thread 2)) = some r := ⟨_, rfl⟩
  obtain ⟨s, hs⟩ : ∃ s, machine.step r (.rise 30) = some s := by
    obtain rfl := Option.some.inj hr
    exact ⟨_, rfl⟩
  obtain ⟨t, ht⟩ : ∃ t, machine.step s (.notify 1 true) = some t := by
    obtain rfl := Option.some.inj hr
    obtain rfl := Option.some.inj hs
    exact ⟨_, rfl⟩
  have hrise : Guard r (.rise 30) := by
    obtain rfl := Option.some.inj hr
    exact Option.some_ne_none 1
  have hnotify : Guard s (.notify 1 true) := by
    obtain rfl := Option.some.inj hr
    obtain rfl := Option.some.inj hs
    intro _ sig hlow
    obtain rfl := hlow.unique (⟨by decide, by decide⟩ : Lowest (1#32 <<< 30) 30)
    exact rfl
  have hreach : machine.Reach Guard t :=
    .step (.step (.step (e := .lock 7 (.thread 2)) (.init twoThreads_start) trivial hr) hrise hs)
      hnotify ht
  have hmarked := (signal_delivery hreach).1
  obtain rfl := Option.some.inj hr
  obtain rfl := Option.some.inj hs
  obtain rfl := Option.some.inj ht
  exact ⟨_, rfl, rfl, rfl, rfl, hmarked⟩

/-- An ignored signal leaves the mark without a handler, and the next signal is not taken. -/
theorem ignored_signal_marks : ∃ s t : Task, machine.Reachable s ∧ ¬Marked s ∧
    machine.run s [.rise 30, .notify 1 true] = some t ∧ t.taken = none ∧
      Lowest (enabled t 1) 30 := by
  obtain ⟨s, hs⟩ : ∃ s, machine.run twoThreads [.rise 20, .notify 1 true] = some s := ⟨_, rfl⟩
  have hreach : machine.Reachable s := .run (.init twoThreads_start) _ hs
  obtain rfl := Option.some.inj hs
  refine ⟨_, _, hreach, fun h => h 1 rfl rfl rfl, rfl, rfl, ?_⟩
  exact (⟨by decide, by decide⟩ : Lowest (1#32 <<< 30) 30)

end Almos.Signals
