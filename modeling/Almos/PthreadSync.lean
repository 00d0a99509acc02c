import Mathlib
import Almos.Pthread

/-!
# Owners, waiters and wakeups

The mutexes and the condition variables are followed one by one: a step changes one of them and leaves
the others, for which only the places of their own threads matter.
-/
namespace Almos.Pthread
variable {ι κ χ : Type*}

/-- The mutex in whose `pthread_mutex_lock` a thread sleeps. -/
def Pc.lockWait : Pc ι κ χ → Option κ
  | .lockSleeps m => some m
  | _ => none

def Pc.condWait : Pc ι κ χ → Option χ
  | .waitUnlock c | .waitSleeps c => some c
  | _ => none

def Pc.uses : Pc ι κ χ → Option χ
  | .waitUnlock c | .signals c _ | .broadcasts c _ => some c
  | _ => none

def Pc.hand : Pc ι κ χ → List ι
  | .signals _ next => [next]
  | .broadcasts _ b => b.batch ++ b.tbl ++ b.root
  | _ => []

def Pc.asleep : Pc ι κ χ → Bool
  | .lockSleeps _ | .waitSleeps _ => true
  | _ => false

lemma Pc.uses_of_hand {pc : Pc ι κ χ} {i : ι} (h : i ∈ pc.hand) : ∃ c, pc.uses = some c := by
  cases pc with
  | signals c next => exact ⟨c, rfl⟩
  | broadcasts c b => exact ⟨c, rfl⟩
  | run | locking | lockSleeps | trying | waitUnlock | waitSleeps | waitLock => cases h

lemma Pc.lockWait_of_condWait {pc : Pc ι κ χ} {c : χ} (h : pc.condWait = some c) : pc.lockWait = none := by
  cases pc with
  | waitUnlock | waitSleeps => rfl
  | run | locking | lockSleeps | trying | waitLock | signals | broadcasts => cases h

def Pc.Plain (pc : Pc ι κ χ) : Prop :=
  pc.lockWait = none ∧ pc.condWait = none ∧ pc.uses = none ∧ pc.hand = [] ∧ pc.asleep = false

/-- Its locking has returned 0, or the last owner has handed it over. -/
def Owns (s : PtState ι κ χ) (i : ι) (m : κ) : Prop :=
  s.held i m = true ∨ (s.pc i).lockWait = some m ∧ s.wakeup i = true

def InHand (s : PtState ι κ χ) (i : ι) : Prop := ∃ k, i ∈ (s.pc k).hand

structure MutexOk (s : PtState ι κ χ) (m : κ) : Prop where
  waiting : (s.mutex m).waiting = (s.mutex m).queue.length
  nodup : (s.mutex m).queue.Nodup
  queued : ∀ i, i ∈ (s.mutex m).queue ↔ (s.pc i).lockWait = some m ∧ s.wakeup i = false
  free : (s.mutex m).value = .free → (s.mutex m).queue = []
  owner : ∀ i, Owns s i m ↔ (s.mutex m).value = .thread i

structure CondOk (mutexOf : χ → κ) (s : PtState ι κ χ) (c : χ) : Prop where
  count : (s.cond c).count = (s.cond c).queue.length
  uses : ∀ k, (s.pc k).uses = some c → s.held k (mutexOf c) = true
  waits : ∀ i, (i ∈ (s.cond c).queue ∨ ∃ k, (s.pc k).uses = some c ∧ i ∈ (s.pc k).hand) ↔
    (s.pc i).condWait = some c ∧ s.wakeup i = false
  nodup : (s.cond c).queue.Nodup
  apart : ∀ k, (s.pc k).uses = some c → ((s.pc k).hand ++ (s.cond c).queue).Nodup

structure Broadcast.Ok (b : Broadcast ι) : Prop where
  count : b.count = b.root.length
  targets : b.targets = b.woken ++ (b.batch ++ b.tbl ++ b.root)
  room : b.tbl.length < 100
  nodup : b.targets.Nodup

structure PtInv (mutexOf : χ → κ) (s : PtState ι κ χ) : Prop where
  mutex : ∀ m, MutexOk s m
  cond : ∀ c, CondOk mutexOf s c
  asleep : ∀ i, s.wakeup i = true → (s.pc i).asleep = true
  broadcasts : ∀ k c b, s.pc k = .broadcasts c b → b.Ok
  inHand : ∀ i, InHand s i → s.taken i = s.woken i + 1
  notInHand : ∀ i, ¬InHand s i → s.taken i = s.woken i

variable {mutexOf : χ → κ} {s t : PtState ι κ χ} {i : ι} {m : κ} {c : χ}

/-- A mutex is as it was when only its recursion count, and threads that do not sleep for it, have
changed. -/
lemma MutexOk.frame (h : MutexOk s m)
    (hmutex : ∃ cntr, t.mutex m = { s.mutex m with cntr := cntr })
    (hpc : ∀ i, (t.pc i).lockWait = some m ↔ (s.pc i).lockWait = some m)
    (hwakeup : ∀ i, (s.pc i).lockWait = some m → t.wakeup i = s.wakeup i)
    (hheld : ∀ i, t.held i m = s.held i m) : MutexOk t m := by
  obtain ⟨cntr, hmutex⟩ := hmutex
  have hwait : ∀ i b, ((t.pc i).lockWait = some m ∧ t.wakeup i = b) ↔
      (s.pc i).lockWait = some m ∧ s.wakeup i = b := by
    intro i b
    rw [hpc i]
    exact and_congr_right fun hi => by rw [hwakeup i hi]
  constructor
  · rw [hmutex]
    exact h.waiting
  · rw [hmutex]
    exact h.nodup
  · intro i
    rw [hmutex, hwait i false]
    exact h.queued i
  · rw [hmutex]
    exact h.free
  · intro i
    rw [hmutex, Owns, hheld i, hwait i true]
    exact h.owner i

/-- A condition variable is as it was when it, its waiters and the threads still to be woken are the
same, and the mutex of its users is still held. -/
lemma CondOk.frame (h : CondOk mutexOf s c) (hcond : t.cond c = s.cond c)
    (huses : ∀ k, (t.pc k).uses = some c → (s.pc k).uses = some c ∧ (t.pc k).hand = (s.pc k).hand ∧
      t.held k (mutexOf c) = s.held k (mutexOf c))
    (hhand : ∀ k i, (s.pc k).uses = some c → i ∈ (s.pc k).hand →
      (t.pc k).uses = some c ∧ i ∈ (t.pc k).hand)
    (hwait : ∀ i, ((t.pc i).condWait = some c ∧ t.wakeup i = false) ↔
      (s.pc i).condWait = some c ∧ s.wakeup i = false) : CondOk mutexOf t c := by
  constructor
  · rw [hcond]
    exact h.count
  · intro k hk
    obtain ⟨hold, -, hheld⟩ := huses k hk
    rw [hheld]
    exact h.uses k hold
  · intro i
    rw [hcond, hwait i, ← h.waits i]
    apply or_congr_right
    constructor
    · rintro ⟨k, hk, hi⟩
      obtain ⟨hold, hsame, -⟩ := huses k hk
      exact ⟨k, hold, hsame ▸ hi⟩
    · rintro ⟨k, hk, hi⟩
      exact ⟨k, hhand k i hk hi⟩
  · rw [hcond]
    exact h.nodup
  · intro k hk
    obtain ⟨hold, hsame, -⟩ := huses k hk
    rw [hcond, hsame]
    exact h.apart k hold

lemma PtInv.user_unique (h : PtInv mutexOf s) {j k : ι} (hj : (s.pc j).uses = some c)
    (hk : (s.pc k).uses = some c) : j = k := by
  have hvj := ((h.mutex (mutexOf c)).owner j).mp (.inl ((h.cond c).uses j hj))
  have hvk := ((h.mutex (mutexOf c)).owner k).mp (.inl ((h.cond c).uses k hk))
  rw [hvj] at hvk
  exact MutexValue.thread.inj hvk

lemma PtInv.wakeup_false (h : PtInv mutexOf s) (hi : (s.pc i).asleep = false) :
    s.wakeup i = false := by
  cases hwakeup : s.wakeup i with
  | false => rfl
  | true =>
    have hasleep := h.asleep i hwakeup
    rw [hi] at hasleep
    cases hasleep

variable [DecidableEq ι]

/-- A thread that does not wait moves: a call begins, goes on inside, or ends with nobody left to
wake. -/
lemma PtInv.quiet {pc : Pc ι κ χ} (h : PtInv mutexOf s)
    (hmutex : ∀ m, ∃ cntr, t.mutex m = { s.mutex m with cntr := cntr })
    (hpc : t.pc = Function.update s.pc i pc) (hcond : t.cond = s.cond)
    (hwakeup : t.wakeup = s.wakeup) (hheld : t.held = s.held) (htaken : t.taken = s.taken)
    (hwoken : t.woken = s.woken) (hold : (s.pc i).lockWait = none ∧ (s.pc i).condWait = none ∧
      (s.pc i).asleep = false) (hnew : pc.lockWait = none ∧ pc.condWait = none)
    (huses : pc.uses = none ∨ pc.uses = (s.pc i).uses) (hhand : pc.hand = (s.pc i).hand)
    (hbroadcast : ∀ c b, pc = .broadcasts c b → b.Ok) : PtInv mutexOf t := by
  have hat : t.pc i = pc := by rw [hpc, Function.update_self]
  have hother : ∀ k, k ≠ i → t.pc k = s.pc k := fun k hk => by
    rw [hpc, Function.update_of_ne hk]
  have hsame : ∀ k, (t.pc k).hand = (s.pc k).hand := by
    intro k
    rcases eq_or_ne k i with rfl | hk
    · rw [hat, hhand]
    · rw [hother k hk]
  have hinhand : ∀ j, InHand t j ↔ InHand s j := by
    intro j
    simp only [InHand, hsame]
  constructor
  · intro m
    refine (h.mutex m).frame (hmutex m) (fun k => ?_) (fun k _ => by rw [hwakeup])
      fun k => by rw [hheld]
    rcases eq_or_ne k i with rfl | hk
    · rw [hat, hold.1, hnew.1]
    · rw [hother k hk]
  · intro c
    refine (h.cond c).frame (by rw [hcond]) (fun k hk => ?_) (fun k j hk hj => ?_) fun k => ?_
    · refine ⟨?_, hsame k, by rw [hheld]⟩
      rcases eq_or_ne k i with rfl | hne
      · rw [hat] at hk
        rcases huses with hnone | heq
        · rw [hnone] at hk
          cases hk
        · rw [← heq, hk]
      · rw [← hother k hne, hk]
    · refine ⟨?_, by rw [hsame]; exact hj⟩
      rcases eq_or_ne k i with rfl | hne
      · rw [hat]
        rcases huses with hnone | heq
        · have hmem : j ∈ pc.hand := by rw [hhand]; exact hj
          obtain ⟨c', hc'⟩ := Pc.uses_of_hand hmem
          rw [hnone] at hc'
          cases hc'
        · rw [heq, hk]
      · rw [hother k hne, hk]
    · rw [hwakeup]
      rcases eq_or_ne k i with rfl | hne
      · rw [hat, hold.2.1, hnew.2]
      · rw [hother k hne]
  · intro k hk
    rw [hwakeup] at hk
    rcases eq_or_ne k i with rfl | hne
    · rw [h.wakeup_false hold.2.2] at hk
      cases hk
    · rw [hother k hne]
      exact h.asleep k hk
  · intro k c b hk
    rcases eq_or_ne k i with rfl | hne
    · exact hbroadcast c b (hat ▸ hk)
    · exact h.broadcasts k c b (hother k hne ▸ hk)
  · intro j hj
    rw [htaken, hwoken]
    exact h.inHand j ((hinhand j).mp hj)
  · intro j hj
    rw [htaken, hwoken]
    exact h.notInHand j fun hs => hj ((hinhand j).mpr hs)

/-- A thread changes one mutex. Only threads that sleep for that mutex get or use up a wakeup, and who
is woken was taken off its queue. -/
lemma PtInv.mutexStep (h : PtInv mutexOf s) (i : ι) (m : κ) (pc : Pc ι κ χ) (hm : MutexOk t m)
    (hmutex : ∀ n, n ≠ m → t.mutex n = s.mutex n) (hpc : t.pc = Function.update s.pc i pc)
    (hcond : t.cond = s.cond)
    (hold : (s.pc i).hand = [] ∧ ∀ n, (s.pc i).lockWait = some n → n = m)
    (hnew : pc.uses = none ∧ pc.hand = [] ∧ pc.condWait = (s.pc i).condWait ∧
      ∀ n, pc.lockWait = some n → n = m)
    (hwakeup : ∀ k, (s.pc k).lockWait ≠ some m → t.wakeup k = s.wakeup k)
    (hheld : ∀ k n, k ≠ i ∨ n ≠ m → t.held k n = s.held k n)
    (hasleep : ∀ k, t.wakeup k = true → (t.pc k).asleep = true)
    (hcount : ∀ k, t.taken k + s.woken k = s.taken k + t.woken k) : PtInv mutexOf t := by
  have hat : t.pc i = pc := by rw [hpc, Function.update_self]
  have hother : ∀ k, k ≠ i → t.pc k = s.pc k := fun k hk => by
    rw [hpc, Function.update_of_ne hk]
  have hsame : ∀ k, (t.pc k).hand = (s.pc k).hand := by
    intro k
    rcases eq_or_ne k i with rfl | hk
    · rw [hat, hnew.2.1, hold.1]
    · rw [hother k hk]
  have hcondWait : ∀ k, (t.pc k).condWait = (s.pc k).condWait := by
    intro k
    rcases eq_or_ne k i with rfl | hk
    · rw [hat, hnew.2.2.1]
    · rw [hother k hk]
  have huser : ∀ k c, (t.pc k).uses = some c → k ≠ i := by
    rintro k c hk rfl
    rw [hat, hnew.1] at hk
    cases hk
  have hinhand : ∀ j, InHand t j ↔ InHand s j := by
    intro j
    simp only [InHand, hsame]
  constructor
  · intro n
    rcases eq_or_ne n m with rfl | hn
    · exact hm
    refine (h.mutex n).frame ⟨_, hmutex n hn⟩ (fun k => ?_) (fun k hk => ?_)
      fun k => hheld k n (.inr hn)
    · rcases eq_or_ne k i with rfl | hne
      · rw [hat]
        exact ⟨fun hk => absurd (hnew.2.2.2 n hk) hn, fun hk => absurd (hold.2 n hk) hn⟩
      · rw [hother k hne]
    · exact hwakeup k fun hkm => hn (Option.some.inj (hk.symm.trans hkm))
  · intro c
    refine (h.cond c).frame (by rw [hcond]) (fun k hk => ?_) (fun k j hk hj => ?_) fun k => ?_
    · have hne := huser k c hk
      exact ⟨hother k hne ▸ hk, hsame k, hheld k _ (.inl hne)⟩
    · have hne : k ≠ i := by
        rintro rfl
        rw [hold.1] at hj
        cases hj
      rw [hother k hne]
      exact ⟨hk, hj⟩
    · rw [hcondWait k]
      apply and_congr_right
      intro hk
      rw [hwakeup k (by simp [Pc.lockWait_of_condWait hk])]
  · exact hasleep
  · intro k c b hk
    have hne := huser k c (by rw [hk]; rfl)
    exact h.broadcasts k c b (hother k hne ▸ hk)
  · intro j hj
    have hbefore := h.inHand j ((hinhand j).mp hj)
    have hboth := hcount j
    omega
  · intro j hj
    have hbefore := h.notInHand j fun hs => hj ((hinhand j).mpr hs)
    have hboth := hcount j
    omega


omit [DecidableEq ι] in
lemma MutexOk.acquire (h : MutexOk s m) (hfree : (s.mutex m).value = .free)
    (hmutex : t.mutex m = { s.mutex m with value := .thread i })
    (hlock : ∀ k, (t.pc k).lockWait = (s.pc k).lockWait) (hwakeup : t.wakeup = s.wakeup)
    (hheld : t.held i m = true)
    (hother : ∀ k, k ≠ i → t.held k m = s.held k m) : MutexOk t m := by
  have hempty := h.free hfree
  constructor
  · rw [hmutex]
    exact h.waiting
  · rw [hmutex]
    exact h.nodup
  · intro k
    rw [hmutex, hlock k, hwakeup]
    exact h.queued k
  · rw [hmutex]
    exact nofun
  · intro k
    rw [hmutex, Owns, hlock k, hwakeup]
    rcases eq_or_ne k i with rfl | hk
    · simp [hheld]
    · have hnot := h.owner k
      rw [hfree, Owns, ← hother k hk] at hnot
      rw [hnot]
      exact iff_of_false nofun fun heq => hk (MutexValue.thread.inj heq).symm

omit [DecidableEq ι] in
lemma MutexOk.enqueue (h : MutexOk s m) (hbusy : (s.mutex m).value ≠ .free)
    (hmutex : t.mutex m = { s.mutex m with
      waiting := (s.mutex m).waiting + 1, queue := (s.mutex m).queue ++ [i] })
    (hold : (s.pc i).lockWait = none) (hnew : (t.pc i).lockWait = some m)
    (hsleeps : s.wakeup i = false) (hpc : ∀ k, k ≠ i → t.pc k = s.pc k)
    (hwakeup : t.wakeup = s.wakeup) (hheld : t.held = s.held) : MutexOk t m := by
  have hnot : i ∉ (s.mutex m).queue := fun hmem => by
    have hlock := ((h.queued i).mp hmem).1
    rw [hold] at hlock
    cases hlock
  constructor
  · rw [hmutex, List.length_append, h.waiting]
    rfl
  · rw [hmutex]
    refine List.Nodup.append h.nodup (List.nodup_singleton i) ?_
    simpa using hnot
  · intro k
    rw [hmutex, List.mem_append, List.mem_singleton, hwakeup]
    rcases eq_or_ne k i with rfl | hk
    · exact iff_of_true (.inr rfl) ⟨hnew, hsleeps⟩
    · rw [hpc k hk, ← h.queued k]
      exact or_iff_left hk
  · rw [hmutex]
    exact fun hfree => absurd hfree hbusy
  · intro k
    rw [hmutex, ← h.owner k, Owns, Owns, hheld, hwakeup]
    rcases eq_or_ne k i with rfl | hk
    · simp [hold, hsleeps]
    · rw [hpc k hk]

omit [DecidableEq ι] in
lemma MutexOk.resume (h : MutexOk s m) (hmutex : t.mutex m = s.mutex m)
    (hold : (s.pc i).lockWait = some m) (hwoken : s.wakeup i = true)
    (hnew : (t.pc i).lockWait = none) (hpc : ∀ k, k ≠ i → t.pc k = s.pc k)
    (hwakeup : ∀ k, k ≠ i → t.wakeup k = s.wakeup k) (hheld : t.held i m = true)
    (hother : ∀ k, k ≠ i → t.held k m = s.held k m) : MutexOk t m := by
  constructor
  · rw [hmutex]
    exact h.waiting
  · rw [hmutex]
    exact h.nodup
  · intro k
    rw [hmutex, h.queued k]
    rcases eq_or_ne k i with rfl | hk
    · simp [hwoken, hnew]
    · rw [hpc k hk, hwakeup k hk]
  · rw [hmutex]
    exact h.free
  · intro k
    rw [hmutex, ← h.owner k]
    rcases eq_or_ne k i with rfl | hk
    · exact iff_of_true (.inl hheld) (.inr ⟨hold, hwoken⟩)
    · rw [Owns, Owns, hpc k hk, hwakeup k hk, hother k hk]

omit [DecidableEq ι] in
lemma MutexOk.freed (h : MutexOk s m) (howner : (s.mutex m).value = .thread i)
    (hnone : (s.mutex m).waiting = 0) (hmutex : t.mutex m = { s.mutex m with value := .free })
    (hlock : ∀ k, (t.pc k).lockWait = (s.pc k).lockWait) (hi : (s.pc i).lockWait = none)
    (hwakeup : t.wakeup = s.wakeup) (hheld : t.held i m = false)
    (hother : ∀ k, k ≠ i → t.held k m = s.held k m) : MutexOk t m := by
  constructor
  · rw [hmutex]
    exact h.waiting
  · rw [hmutex]
    exact h.nodup
  · intro k
    rw [hmutex, hlock k, hwakeup]
    exact h.queued k
  · rw [hmutex]
    intro _
    apply List.eq_nil_of_length_eq_zero
    rw [← h.waiting, hnone]
  · intro k
    rw [hmutex, Owns, hlock k, hwakeup]
    rcases eq_or_ne k i with rfl | hk
    · simp [hheld, hi]
    · have hnot := h.owner k
      rw [howner, Owns, ← hother k hk] at hnot
      rw [hnot]
      exact iff_of_false (fun heq => hk (MutexValue.thread.inj heq).symm) nofun

lemma MutexOk.handed {next : ι} {rest : List ι} (h : MutexOk s m)
    (howner : (s.mutex m).value = .thread i) (hqueue : (s.mutex m).queue = next :: rest)
    (hmutex : t.mutex m = { s.mutex m with
      value := .thread next, waiting := (s.mutex m).waiting - 1, queue := rest })
    (hlock : ∀ k, (t.pc k).lockWait = (s.pc k).lockWait) (hi : (s.pc i).lockWait = none)
    (hwakeup : t.wakeup = Function.update s.wakeup next true) (hheld : t.held i m = false)
    (hother : ∀ k, k ≠ i → t.held k m = s.held k m) : MutexOk t m := by
  have hnext : (s.pc next).lockWait = some m ∧ s.wakeup next = false :=
    (h.queued next).mp (by simp [hqueue])
  have hnodup := h.nodup
  rw [hqueue, List.nodup_cons] at hnodup
  have hne : next ≠ i := by
    rintro rfl
    rw [hi] at hnext
    cases hnext.1
  constructor
  · rw [hmutex]
    change (s.mutex m).waiting - 1 = rest.length
    rw [h.waiting, hqueue, List.length_cons, Nat.add_sub_cancel]
  · rw [hmutex]
    exact hnodup.2
  · intro k
    rw [hmutex, hlock k, hwakeup]
    rcases eq_or_ne k next with rfl | hk
    · simp [hnodup.1]
    · rw [Function.update_of_ne hk, ← h.queued k, hqueue, List.mem_cons]
      exact (or_iff_right hk).symm
  · rw [hmutex]
    exact nofun
  · intro k
    rw [hmutex, Owns, hlock k, hwakeup]
    rcases eq_or_ne k next with rfl | hk
    · rw [Function.update_self]
      exact iff_of_true (.inr ⟨hnext.1, rfl⟩) rfl
    rw [Function.update_of_ne hk]
    rcases eq_or_ne k i with rfl | hki
    · rw [hheld, hi]
      exact iff_of_false (by simp) fun heq => hk (MutexValue.thread.inj heq).symm
    · have hnot := h.owner k
      rw [howner, Owns, ← hother k hki] at hnot
      rw [hnot]
      exact iff_of_false (fun heq => hki (MutexValue.thread.inj heq).symm)
        fun heq => hk (MutexValue.thread.inj heq).symm

variable [DecidableEq κ]

lemma PtState.setHeld_self (s : PtState ι κ χ) (b : Bool) : (s.setHeld i m b).held i m = b := by
  simp [PtState.setHeld]

lemma PtState.setHeld_other (s : PtState ι κ χ) (b : Bool) {k : ι} {n : κ} (h : k ≠ i ∨ n ≠ m) :
    (s.setHeld i m b).held k n = s.held k n := by
  rcases eq_or_ne k i with rfl | hk
  · rcases h with h | h
    · exact absurd rfl h
    · simp [PtState.setHeld, Function.update_of_ne h]
  · simp [PtState.setHeld, Function.update_of_ne hk]

lemma PtState.move_pc_self (s : PtState ι κ χ) (pc : Pc ι κ χ) (mutex : Mutex ι) :
    (s.move i pc m mutex).pc i = pc := Function.update_self _ _ _

lemma PtState.move_pc_other (s : PtState ι κ χ) (pc : Pc ι κ χ) (mutex : Mutex ι) {k : ι}
    (h : k ≠ i) : (s.move i pc m mutex).pc k = s.pc k := Function.update_of_ne h _ _

omit [DecidableEq κ] in
lemma lockWait_update {pc : Pc ι κ χ} (h : pc.lockWait = (s.pc i).lockWait) (k : ι) :
    (Function.update s.pc i pc k).lockWait = (s.pc k).lockWait := by
  rcases eq_or_ne k i with rfl | hk
  · rw [Function.update_self, h]
  · rw [Function.update_of_ne hk]

omit [DecidableEq κ] in
lemma PtInv.asleep_update (h : PtInv mutexOf s) (pc : Pc ι κ χ) (hi : (s.pc i).asleep = false) (k : ι)
    (hk : s.wakeup k = true) : (Function.update s.pc i pc k).asleep = true := by
  have hne : k ≠ i := by
    rintro rfl
    rw [h.wakeup_false hi] at hk
    cases hk
  rw [Function.update_of_ne hne]
  exact h.asleep k hk

lemma PtInv.acquire (h : PtInv mutexOf s) (hplain : (s.pc i).Plain)
    (hfree : (s.mutex m).value = .free) :
    PtInv mutexOf ((s.move i .run m { s.mutex m with value := .thread i }).setHeld i m true) := by
  obtain ⟨hlock, hcond, -, hhand, hasleep⟩ := hplain
  refine h.mutexStep i m .run ?_ (fun n hn => Function.update_of_ne hn _ _)
    rfl rfl ⟨hhand, by simp [hlock]⟩ ⟨rfl, rfl, hcond.symm, nofun⟩ (fun k _ => rfl)
    (fun k n hk => s.setHeld_other _ hk) (h.asleep_update _ hasleep) fun k => rfl
  exact (h.mutex m).acquire hfree (Function.update_self _ _ _) (lockWait_update hlock.symm) rfl
    (PtState.setHeld_self _ _) fun k hk => PtState.setHeld_other _ _ (.inl hk)

lemma PtInv.enqueue (h : PtInv mutexOf s) (hplain : (s.pc i).Plain)
    (hbusy : (s.mutex m).value ≠ .free) :
    PtInv mutexOf (s.move i (.lockSleeps m) m { s.mutex m with
      waiting := (s.mutex m).waiting + 1
      queue := addLast (s.mutex m).waiting (s.mutex m).queue i }) := by
  obtain ⟨hlock, hcond, -, hhand, hasleep⟩ := hplain
  have hadd : addLast (s.mutex m).waiting (s.mutex m).queue i = (s.mutex m).queue ++ [i] := by
    unfold addLast
    split_ifs with hnone
    · rw [(h.mutex m).waiting] at hnone
      rw [List.eq_nil_of_length_eq_zero hnone]
    · rfl
  rw [hadd]
  refine h.mutexStep i m (.lockSleeps m) ?_
    (fun n hn => Function.update_of_ne hn _ _) rfl rfl ⟨hhand, by simp [hlock]⟩
    ⟨rfl, rfl, hcond.symm, fun n hn => (Option.some.inj hn).symm⟩ (fun k _ => rfl)
    (fun k n _ => rfl) (h.asleep_update _ hasleep) fun k => rfl
  exact (h.mutex m).enqueue hbusy (Function.update_self _ _ _) hlock
    (by rw [s.move_pc_self]; rfl) (h.wakeup_false hasleep) (fun k hk => s.move_pc_other _ _ hk) rfl rfl

lemma PtInv.resume (h : PtInv mutexOf s) (hpc : s.pc i = .lockSleeps m) (hwoken : s.wakeup i = true) :
    PtInv mutexOf { s.setHeld i m true with
      pc := Function.update s.pc i .run, wakeup := Function.update s.wakeup i false } := by
  refine h.mutexStep i m .run ?_ (fun n _ => rfl) rfl rfl
    ⟨by rw [hpc]; rfl, fun n hn => ?_⟩ ⟨rfl, rfl, by rw [hpc]; rfl, nofun⟩ (fun k hk => ?_)
    (fun k n hk => s.setHeld_other _ hk) (fun k hk => ?_) fun k => rfl
  · exact (h.mutex m).resume rfl (by rw [hpc]; rfl) hwoken (by simp [Pc.lockWait])
      (fun k hk => Function.update_of_ne hk _ _) (fun k hk => Function.update_of_ne hk _ _)
      (s.setHeld_self _) fun k hk => s.setHeld_other _ (.inl hk)
  · rw [hpc] at hn
    exact (Option.some.inj hn).symm
  · apply Function.update_of_ne
    rintro rfl
    exact hk (by rw [hpc]; rfl)
  · change Function.update s.wakeup i false k = true at hk
    change ((Function.update s.pc i .run) k).asleep = true
    have hne : k ≠ i := by
      rintro rfl
      rw [Function.update_self] at hk
      cases hk
    rw [Function.update_of_ne hne] at hk ⊢
    exact h.asleep k hk

lemma PtInv.release (h : PtInv mutexOf s) (howns : s.held i m = true) (pc : Pc ι κ χ)
    (hold : (s.pc i).lockWait = none ∧ (s.pc i).hand = [] ∧ (s.pc i).asleep = false)
    (hnew : pc.lockWait = none ∧ pc.uses = none ∧ pc.hand = [] ∧ pc.condWait = (s.pc i).condWait) :
    PtInv mutexOf (s.release i m pc) := by
  obtain ⟨hlock, hhand, hasleep⟩ := hold
  have howner := ((h.mutex m).owner i).mp (.inl howns)
  have hlockWait : ∀ k, (Function.update s.pc i pc k).lockWait = (s.pc k).lockWait :=
    lockWait_update (by rw [hnew.1, hlock])
  have hplaces : (s.pc i).hand = [] ∧ ∀ n, (s.pc i).lockWait = some n → n = m :=
    ⟨hhand, by simp [hlock]⟩
  have hplaces' : pc.uses = none ∧ pc.hand = [] ∧ pc.condWait = (s.pc i).condWait ∧
      ∀ n, pc.lockWait = some n → n = m := ⟨hnew.2.1, hnew.2.2.1, hnew.2.2.2, by simp [hnew.1]⟩
  unfold PtState.release pthreadMutexUnlock
  split_ifs with hnested hno hnone
  · -- one level less
    refine h.mutexStep i m pc ?_ (fun n hn => Function.update_of_ne hn _ _) rfl rfl hplaces hplaces'
      (fun k _ => rfl) (fun k n _ => rfl) (h.asleep_update _ hasleep) fun k => rfl
    exact (h.mutex m).frame ⟨_, Function.update_self _ _ _⟩ (fun k => by rw [← hlockWait k]; rfl)
      (fun k _ => rfl) fun k => rfl
  · exact absurd howner hno
  · refine h.mutexStep i m pc ?_ (fun n hn => Function.update_of_ne hn _ _) rfl rfl hplaces hplaces'
      (fun k _ => rfl) (fun k n hk => PtState.setHeld_other _ _ hk) (h.asleep_update _ hasleep)
      fun k => rfl
    exact (h.mutex m).freed howner hnone (Function.update_self _ _ _) hlockWait hlock rfl
      (PtState.setHeld_self _ _) fun k hk => PtState.setHeld_other _ _ (.inl hk)
  · cases hqueue : (s.mutex m).queue with
    | nil =>
      rw [(h.mutex m).waiting, hqueue] at hnone
      exact absurd rfl hnone
    | cons next rest =>
      dsimp only
      have hnext := ((h.mutex m).queued next).mp (by simp [hqueue])
      have hne : next ≠ i := by
        rintro rfl
        rw [hlock] at hnext
        cases hnext.1
      refine h.mutexStep i m pc ?_ (fun n hn => Function.update_of_ne hn _ _) rfl rfl hplaces hplaces'
        (fun k hk => ?_) (fun k n hk => PtState.setHeld_other _ _ hk) (fun k hk => ?_) fun k => ?_
      · exact (h.mutex m).handed howner hqueue (Function.update_self _ _ _) hlockWait hlock rfl
          (PtState.setHeld_self _ _) fun k hk => PtState.setHeld_other _ _ (.inl hk)
      · apply Function.update_of_ne
        rintro rfl
        exact hk hnext.1
      · change Function.update s.wakeup next true k = true at hk
        change (Function.update s.pc i pc k).asleep = true
        rcases eq_or_ne k next with rfl | hkn
        · rw [Function.update_of_ne hne]
          cases hpc : s.pc k with
          | lockSleeps n => rfl
          | run | locking | trying | waitUnlock | waitSleeps | waitLock | signals | broadcasts =>
            rw [hpc] at hnext
            cases hnext.1
        · rw [Function.update_of_ne hkn] at hk
          exact h.asleep_update pc hasleep k hk
      · change Function.update s.taken next (s.taken next + 1) k + s.woken k =
          s.taken k + Function.update s.woken next (s.woken next + 1) k
        rcases eq_or_ne k next with rfl | hkn
        · rw [Function.update_self, Function.update_self]
          omega
        · rw [Function.update_of_ne hkn, Function.update_of_ne hkn]

/-! ### One condition variable changes -/

omit [DecidableEq κ] in
/-- A thread changes one condition variable; only threads that wait for it get or use up a wakeup. -/
lemma PtInv.condStep (h : PtInv mutexOf s) (i : ι) (c : χ) (pc : Pc ι κ χ) (hc : CondOk mutexOf t c)
    (hcond : ∀ d, d ≠ c → t.cond d = s.cond d) (hpc : t.pc = Function.update s.pc i pc)
    (hmutex : t.mutex = s.mutex) (hheld : t.held = s.held)
    (hlock : (s.pc i).lockWait = none ∧ pc.lockWait = none)
    (hold : ∀ d, (s.pc i).uses = some d ∨ (s.pc i).condWait = some d → d = c)
    (hnew : ∀ d, pc.uses = some d ∨ pc.condWait = some d → d = c)
    (hwakeup : ∀ k, (s.pc k).condWait ≠ some c → t.wakeup k = s.wakeup k)
    (hasleep : ∀ k, t.wakeup k = true → (t.pc k).asleep = true)
    (hbroadcast : ∀ d b, pc = .broadcasts d b → b.Ok)
    (hin : ∀ k, InHand t k → t.taken k = t.woken k + 1)
    (hnot : ∀ k, ¬InHand t k → t.taken k = t.woken k) : PtInv mutexOf t := by
  have hat : t.pc i = pc := by rw [hpc, Function.update_self]
  have hother : ∀ k, k ≠ i → t.pc k = s.pc k := fun k hk => by
    rw [hpc, Function.update_of_ne hk]
  refine ⟨fun m => ?_, fun d => ?_, hasleep, fun k d b hk => ?_, hin, hnot⟩
  · have hlockWait : ∀ k, (t.pc k).lockWait = (s.pc k).lockWait := by
      rw [hpc]
      exact lockWait_update (by rw [hlock.1, hlock.2])
    refine (h.mutex m).frame ⟨_, by rw [hmutex]⟩ (fun k => by rw [hlockWait k]) (fun k hk => ?_)
      fun k => by rw [hheld]
    apply hwakeup
    intro hcw
    rw [Pc.lockWait_of_condWait hcw] at hk
    cases hk
  · rcases eq_or_ne d c with rfl | hd
    · exact hc
    refine (h.cond d).frame (hcond d hd) (fun k hk => ?_) (fun k j hk hj => ?_) fun k => ?_
    · have hne : k ≠ i := by
        rintro rfl
        exact hd (hnew d (.inl (hat ▸ hk)))
      rw [hother k hne] at hk ⊢
      exact ⟨hk, rfl, by rw [hheld]⟩
    · have hne : k ≠ i := by
        rintro rfl
        exact hd (hold d (.inl hk))
      rw [hother k hne]
      exact ⟨hk, hj⟩
    · rcases eq_or_ne k i with rfl | hne
      · rw [hat]
        exact iff_of_false (fun hk => hd (hnew d (.inr hk.1))) fun hk => hd (hold d (.inr hk.1))
      · rw [hother k hne]
        refine and_congr_right fun hk => ?_
        rw [hwakeup k fun hkc => hd (Option.some.inj (hk.symm.trans hkc))]
  · rcases eq_or_ne k i with rfl | hne
    · exact hbroadcast d b (hat ▸ hk)
    · exact h.broadcasts k d b (hother k hne ▸ hk)

omit [DecidableEq ι] [DecidableEq κ] in
/-- While a thread outside of the calls holds the mutex, nobody uses the condition variable. -/
lemma PtInv.no_user (h : PtInv mutexOf s) (hplain : (s.pc i).Plain)
    (howns : s.held i (mutexOf c) = true) (k : ι) : (s.pc k).uses ≠ some c := by
  intro hk
  have hvi := ((h.mutex (mutexOf c)).owner i).mp (.inl howns)
  have hvk := ((h.mutex (mutexOf c)).owner k).mp (.inl ((h.cond c).uses k hk))
  obtain rfl : i = k := MutexValue.thread.inj (hvi.symm.trans hvk)
  rw [hplain.2.2.1] at hk
  cases hk

omit [DecidableEq ι] [DecidableEq κ] in
lemma PtInv.queue_notInHand (h : PtInv mutexOf s) (hno : ∀ k, (s.pc k).uses ≠ some c) {j : ι}
    (hj : j ∈ (s.cond c).queue) : ¬InHand s j := by
  rintro ⟨k, hk⟩
  obtain ⟨d, hd⟩ := Pc.uses_of_hand hk
  have hwaits := (((h.cond d).waits j).mp (.inr ⟨k, hd, hk⟩)).1
  have hwaits' := (((h.cond c).waits j).mp (.inl hj)).1
  obtain rfl : d = c := Option.some.inj (hwaits.symm.trans hwaits')
  exact hno k hd

omit [DecidableEq κ] in
lemma inHand_update {pc : Pc ι κ χ} (hpc : t.pc = Function.update s.pc i pc)
    (hempty : (s.pc i).hand = []) (j : ι) : InHand t j ↔ j ∈ pc.hand ∨ InHand s j := by
  constructor
  · rintro ⟨k, hk⟩
    rcases eq_or_ne k i with rfl | hne
    · rw [hpc, Function.update_self] at hk
      exact .inl hk
    · rw [hpc, Function.update_of_ne hne] at hk
      exact .inr ⟨k, hk⟩
  · rintro (hj | ⟨k, hk⟩)
    · exact ⟨i, by rwa [hpc, Function.update_self]⟩
    · have hne : k ≠ i := by
        rintro rfl
        rw [hempty] at hk
        cases hk
      exact ⟨k, by rwa [hpc, Function.update_of_ne hne]⟩

omit [DecidableEq κ] in
/-- The owner of the mutex begins to use the condition variable and takes threads off its queue. -/
lemma PtInv.claim (h : PtInv mutexOf s) (hplain : (s.pc i).Plain)
    (howns : s.held i (mutexOf c) = true) (pc : Pc ι κ χ) (hpc : t.pc = Function.update s.pc i pc)
    (huses : pc.uses = some c) (hplaces : pc.lockWait = none ∧ pc.condWait = none)
    (hhand : pc.hand ++ (t.cond c).queue = (s.cond c).queue)
    (hcount : (t.cond c).count = (t.cond c).queue.length)
    (hcond : ∀ d, d ≠ c → t.cond d = s.cond d) (hmutex : t.mutex = s.mutex)
    (hwakeup : t.wakeup = s.wakeup) (hheld : t.held = s.held) (hwoken : t.woken = s.woken)
    (htaken : ∀ j, t.taken j = s.taken j + if j ∈ pc.hand then 1 else 0)
    (hbroadcast : ∀ d b, pc = .broadcasts d b → b.Ok) : PtInv mutexOf t := by
  have hno := h.no_user hplain howns
  obtain ⟨hlock, hcondWait, hnone, hempty, hasleep⟩ := hplain
  have hc := h.cond c
  have hat : t.pc i = pc := by rw [hpc, Function.update_self]
  have hother : ∀ k, k ≠ i → t.pc k = s.pc k := fun k hk => by
    rw [hpc, Function.update_of_ne hk]
  have honly : ∀ k, (t.pc k).uses = some c → k = i := by
    intro k hk
    by_contra hne
    rw [hother k hne] at hk
    exact hno k hk
  have hnodup := hc.nodup
  rw [← hhand] at hnodup
  have hdisj : ∀ j, j ∈ pc.hand → ¬InHand s j := fun j hj =>
    h.queue_notInHand hno (by rw [← hhand]; exact List.mem_append_left _ hj)
  refine h.condStep i c pc ?_ hcond hpc hmutex hheld ⟨hlock, hplaces.1⟩ (by simp [hnone, hcondWait])
    (by simp [huses, hplaces.2, eq_comm]) (fun k _ => by rw [hwakeup])
    (by rw [hwakeup, hpc]; exact h.asleep_update _ hasleep) hbroadcast (fun j hj => ?_) fun j hj => ?_
  · constructor
    · exact hcount
    · intro k hk
      rw [honly k hk, hheld]
      exact howns
    · intro j
      have hold := hc.waits j
      rw [or_iff_left fun ⟨k, hk, _⟩ => hno k hk, ← hhand, List.mem_append] at hold
      have hhands : (∃ k, (t.pc k).uses = some c ∧ j ∈ (t.pc k).hand) ↔ j ∈ pc.hand := by
        constructor
        · rintro ⟨k, hk, hj⟩
          rwa [honly k hk, hat] at hj
        · exact fun hj => ⟨i, by rw [hat]; exact huses, by rwa [hat]⟩
      rw [hhands, or_comm, hold, hwakeup]
      rcases eq_or_ne j i with rfl | hne
      · rw [hat, hcondWait, hplaces.2]
      · rw [hother j hne]
    · exact (List.nodup_append.mp hnodup).2.1
    · intro k hk
      rw [honly k hk, hat]
      exact hnodup
  · rw [htaken, hwoken]
    rcases (inHand_update hpc hempty j).mp hj with hj | hj
    · rw [if_pos hj, h.notInHand j (hdisj j hj)]
    · rw [if_neg fun hmem => hdisj j hmem hj, h.inHand j hj]
  · rw [inHand_update hpc hempty j, not_or] at hj
    rw [htaken, hwoken, if_neg hj.1, h.notInHand j hj.2, Nat.add_zero]

variable [DecidableEq χ]

omit [DecidableEq κ] in
lemma PtInv.wait (h : PtInv mutexOf s) (hplain : (s.pc i).Plain)
    (howns : s.held i (mutexOf c) = true) :
    PtInv mutexOf { s with
      cond := Function.update s.cond c (pthreadCondWait (s.cond c) i)
      pc := Function.update s.pc i (.waitUnlock c) } := by
  have hno := h.no_user hplain howns
  obtain ⟨hlock, hcondWait, huses, hempty, hasleep⟩ := hplain
  have hc := h.cond c
  have hwakeup := h.wakeup_false hasleep
  have hadd : pthreadCondWait (s.cond c) i = ⟨(s.cond c).count + 1, (s.cond c).queue ++ [i]⟩ := by
    unfold pthreadCondWait addLast
    split_ifs with hnone
    · rw [hc.count] at hnone
      rw [List.eq_nil_of_length_eq_zero hnone]
    · rfl
  have hnotin : i ∉ (s.cond c).queue := fun hmem => by
    have hw := ((hc.waits i).mp (.inl hmem)).1
    rw [hcondWait] at hw
    cases hw
  have hnodup : ((s.cond c).queue ++ [i]).Nodup := by
    refine List.Nodup.append hc.nodup (List.nodup_singleton i) ?_
    simpa using hnotin
  let t : PtState ι κ χ := { s with
    cond := Function.update s.cond c (pthreadCondWait (s.cond c) i)
    pc := Function.update s.pc i (.waitUnlock c) }
  have hat : t.pc i = .waitUnlock c := Function.update_self _ _ _
  have hother : ∀ k, k ≠ i → t.pc k = s.pc k := fun k hk => Function.update_of_ne hk _ _
  have hcond : t.cond c = ⟨(s.cond c).count + 1, (s.cond c).queue ++ [i]⟩ :=
    (Function.update_self _ _ _).trans hadd
  have honly : ∀ k, (t.pc k).uses = some c → k = i := by
    intro k hk
    by_contra hne
    rw [hother k hne] at hk
    exact hno k hk
  have hin : ∀ j, InHand t j ↔ InHand s j := by
    intro j
    rw [inHand_update (t := t) rfl hempty j]
    exact or_iff_right nofun
  refine h.condStep i c (.waitUnlock c) ?_ (fun d hd => Function.update_of_ne hd _ _) rfl rfl rfl
    ⟨hlock, rfl⟩ (by simp [huses, hcondWait]) (by simp [Pc.uses, Pc.condWait, eq_comm])
    (fun k _ => rfl) (h.asleep_update _ hasleep) nofun (fun j hj => h.inHand j ((hin j).mp hj))
    fun j hj => h.notInHand j fun hs => hj ((hin j).mpr hs)
  change CondOk mutexOf t c
  constructor
  · rw [hcond, List.length_append, ← hc.count]
    rfl
  · intro k hk
    rw [honly k hk]
    exact howns
  · intro j
    have hold := hc.waits j
    rw [or_iff_left fun ⟨k, hk, _⟩ => hno k hk] at hold
    rw [or_iff_left, hcond, List.mem_append, List.mem_singleton]
    · rcases eq_or_ne j i with rfl | hne
      · rw [hat]
        exact iff_of_true (.inr rfl) ⟨rfl, hwakeup⟩
      · rw [hother j hne, or_iff_left hne]
        exact hold
    · rintro ⟨k, hk, hj⟩
      rw [honly k hk, hat] at hj
      cases hj
  · rw [hcond]
    exact hnodup
  · intro k hk
    rw [honly k hk, hat, hcond]
    exact hnodup

omit [DecidableEq κ] [DecidableEq χ] in
lemma PtInv.condResume (h : PtInv mutexOf s) (hpc : s.pc i = .waitSleeps c)
    (hwoken : s.wakeup i = true) :
    PtInv mutexOf { s with
      pc := Function.update s.pc i (.waitLock c), wakeup := Function.update s.wakeup i false } := by
  let t : PtState ι κ χ := { s with
    pc := Function.update s.pc i (.waitLock c), wakeup := Function.update s.wakeup i false }
  have hat : t.pc i = .waitLock c := Function.update_self _ _ _
  have hother : ∀ k, k ≠ i → t.pc k = s.pc k := fun k hk => Function.update_of_ne hk _ _
  have hasleep : ∀ k, t.wakeup k = true → (t.pc k).asleep = true := by
    intro k hk
    have hne : k ≠ i := by
      rintro rfl
      simp [t] at hk
    rw [hother k hne]
    exact h.asleep k ((Function.update_of_ne hne _ _).symm.trans hk)
  have hempty : (s.pc i).hand = [] := by
    rw [hpc]
    rfl
  have hin : ∀ j, InHand t j ↔ InHand s j := by
    intro j
    rw [inHand_update (t := t) rfl hempty j]
    exact or_iff_right nofun
  refine h.condStep i c (.waitLock c) ?_ (fun d _ => rfl) rfl rfl rfl (by simp [hpc, Pc.lockWait])
    (by simp [hpc, Pc.uses, Pc.condWait, eq_comm]) nofun (fun k hk => ?_) hasleep nofun
    (fun j hj => h.inHand j ((hin j).mp hj)) fun j hj => h.notInHand j fun hs => hj ((hin j).mpr hs)
  · change CondOk mutexOf t c
    refine (h.cond c).frame rfl (fun k hk => ?_) (fun k j hk hj => ?_) fun k => ?_
    · have hne : k ≠ i := by
        rintro rfl
        rw [hat] at hk
        cases hk
      rw [hother k hne] at hk ⊢
      exact ⟨hk, rfl, rfl⟩
    · have hne : k ≠ i := by
        rintro rfl
        rw [hempty] at hj
        cases hj
      rw [hother k hne]
      exact ⟨hk, hj⟩
    · rcases eq_or_ne k i with rfl | hne
      · rw [hat, hwoken]
        exact iff_of_false nofun nofun
      · rw [hother k hne]
        change _ ∧ Function.update s.wakeup i false k = false ↔ _
        rw [Function.update_of_ne hne]
  · apply Function.update_of_ne
    rintro rfl
    exact hk (by rw [hpc]; rfl)

/-- A wake up of the first thread in the hand of `i`, which goes on at `pc`. -/
def PtState.wakeFrom (s : PtState ι κ χ) (i next : ι) (pc : Pc ι κ χ) : PtState ι κ χ :=
  { s.wake next with pc := Function.update s.pc i pc }

/-- `i` has the lock of a condition variable and the threads to wake in its hand, and keeps the rest. -/
structure Waking (s : PtState ι κ χ) (i : ι) (c : χ) (next : ι) (rest : List ι) (pc : Pc ι κ χ) :
    Prop where
  uses : (s.pc i).uses = some c
  places : (s.pc i).lockWait = none ∧ (s.pc i).condWait = none
  hand : (s.pc i).hand = next :: rest
  newPlaces : pc.lockWait = none ∧ pc.condWait = none
  newHand : pc.hand = rest
  newUses : pc.uses = some c ∨ pc.uses = none ∧ rest = []

section Wake
variable {next : ι} {rest : List ι} {pc : Pc ι κ χ}

omit [DecidableEq κ] [DecidableEq χ]

lemma PtState.wakeFrom_pc_self : (s.wakeFrom i next pc).pc i = pc := Function.update_self _ _ _

lemma PtState.wakeFrom_pc_of_ne {k : ι} (hk : k ≠ i) : (s.wakeFrom i next pc).pc k = s.pc k :=
  Function.update_of_ne hk _ _

lemma PtState.wakeFrom_wakeup_of_ne {k : ι} (hk : k ≠ next) :
    (s.wakeFrom i next pc).wakeup k = s.wakeup k := Function.update_of_ne hk _ _

namespace PtInv
variable (h : PtInv mutexOf s) (hw : Waking s i c next rest pc)
include h hw

omit [DecidableEq ι] in
lemma next_waits : (s.pc next).condWait = some c ∧ s.wakeup next = false :=
  ((h.cond c).waits next).mp (.inr ⟨i, hw.uses, by rw [hw.hand]; exact List.mem_cons_self⟩)

omit [DecidableEq ι] in
lemma next_ne : next ≠ i := by
  rintro rfl
  have hnext := (h.next_waits hw).1
  rw [hw.places.2] at hnext
  cases hnext

omit [DecidableEq ι] in
lemma next_apart : next ∉ rest ∧ next ∉ (s.cond c).queue ∧ (rest ++ (s.cond c).queue).Nodup := by
  have hapart := (h.cond c).apart i hw.uses
  rw [hw.hand, List.cons_append, List.nodup_cons, List.mem_append, not_or] at hapart
  exact ⟨hapart.1.1, hapart.1.2, hapart.2⟩

lemma wake_uses {k : ι} (hk : ((s.wakeFrom i next pc).pc k).uses = some c) : k = i := by
  by_contra hki
  rw [PtState.wakeFrom_pc_of_ne hki] at hk
  exact hki (h.user_unique hk hw.uses)

/-- A thread is in one hand only. -/
lemma wake_notInHand : ¬InHand (s.wakeFrom i next pc) next := by
  rintro ⟨k, hk⟩
  rcases eq_or_ne k i with rfl | hki
  · rw [PtState.wakeFrom_pc_self, hw.newHand] at hk
    exact (h.next_apart hw).1 hk
  · rw [PtState.wakeFrom_pc_of_ne hki] at hk
    obtain ⟨d, hd⟩ := Pc.uses_of_hand hk
    have hwaits := (((h.cond d).waits next).mp (.inr ⟨k, hd, hk⟩)).1
    obtain rfl : d = c := Option.some.inj (hwaits.symm.trans (h.next_waits hw).1)
    exact hki (h.user_unique hd hw.uses)

omit h in
lemma wake_inHand (j : ι) : InHand s j ↔ j = next ∨ InHand (s.wakeFrom i next pc) j := by
  constructor
  · rintro ⟨k, hk⟩
    rcases eq_or_ne k i with rfl | hki
    · rw [hw.hand, List.mem_cons] at hk
      refine hk.imp_right fun hj => ⟨k, ?_⟩
      rwa [PtState.wakeFrom_pc_self, hw.newHand]
    · exact .inr ⟨k, by rwa [PtState.wakeFrom_pc_of_ne hki]⟩
  · rintro (rfl | ⟨k, hk⟩)
    · exact ⟨i, by rw [hw.hand]; exact List.mem_cons_self⟩
    · rcases eq_or_ne k i with rfl | hki
      · rw [PtState.wakeFrom_pc_self, hw.newHand] at hk
        exact ⟨k, by rw [hw.hand]; exact List.mem_cons_of_mem _ hk⟩
      · exact ⟨k, by rwa [PtState.wakeFrom_pc_of_ne hki] at hk⟩

lemma wake_waits (j : ι) : (j ∈ (s.cond c).queue ∨
    ∃ k, ((s.wakeFrom i next pc).pc k).uses = some c ∧ j ∈ ((s.wakeFrom i next pc).pc k).hand) ↔
      ((s.wakeFrom i next pc).pc j).condWait = some c ∧ (s.wakeFrom i next pc).wakeup j = false := by
  have hold := (h.cond c).waits j
  have hhands : (∃ k, (s.pc k).uses = some c ∧ j ∈ (s.pc k).hand) ↔ j ∈ next :: rest := by
    constructor
    · rintro ⟨k, hk, hj⟩
      rwa [h.user_unique hk hw.uses, hw.hand] at hj
    · exact fun hj => ⟨i, hw.uses, by rwa [hw.hand]⟩
  have hhands' : (∃ k, ((s.wakeFrom i next pc).pc k).uses = some c ∧
      j ∈ ((s.wakeFrom i next pc).pc k).hand) ↔ j ∈ rest := by
    constructor
    · rintro ⟨k, hk, hj⟩
      rwa [h.wake_uses hw hk, PtState.wakeFrom_pc_self, hw.newHand] at hj
    · intro hj
      refine ⟨i, ?_, by rwa [PtState.wakeFrom_pc_self, hw.newHand]⟩
      rw [PtState.wakeFrom_pc_self]
      refine hw.newUses.resolve_right fun hnil => ?_
      rw [hnil.2] at hj
      cases hj
  rw [hhands, List.mem_cons] at hold
  rw [hhands']
  rcases eq_or_ne j next with rfl | hjn
  · obtain ⟨hrest, hqueue, -⟩ := h.next_apart hw
    have hwoken : (s.wakeFrom i j pc).wakeup j = true := Function.update_self _ _ _
    rw [hwoken]
    exact iff_of_false (not_or.mpr ⟨hqueue, hrest⟩) nofun
  · rw [or_iff_right hjn] at hold
    refine hold.trans ?_
    rw [PtState.wakeFrom_wakeup_of_ne hjn]
    rcases eq_or_ne j i with rfl | hji
    · rw [PtState.wakeFrom_pc_self, hw.places.2, hw.newPlaces.2]
    · rw [PtState.wakeFrom_pc_of_ne hji]

lemma wake_cond : CondOk mutexOf (s.wakeFrom i next pc) c where
  count := (h.cond c).count
  uses k hk := by
    rw [h.wake_uses hw hk]
    exact (h.cond c).uses i hw.uses
  waits := h.wake_waits hw
  nodup := (h.cond c).nodup
  apart k hk := by
    rw [h.wake_uses hw hk, PtState.wakeFrom_pc_self, hw.newHand]
    exact (h.next_apart hw).2.2

lemma wake_asleep (k : ι) (hk : (s.wakeFrom i next pc).wakeup k = true) :
    ((s.wakeFrom i next pc).pc k).asleep = true := by
  rcases eq_or_ne k next with rfl | hkn
  · have hne := h.next_ne hw
    have hnext := (h.next_waits hw).1
    rw [PtState.wakeFrom_pc_of_ne hne]
    cases hpck : s.pc k with
    | waitSleeps d => rfl
    | waitUnlock d =>
      -- it would still hold the mutex
      rw [hpck] at hnext
      exact absurd (h.user_unique (by rw [hpck]; exact hnext) hw.uses) hne
    | run | locking | lockSleeps | trying | waitLock | signals | broadcasts =>
      rw [hpck] at hnext
      cases hnext
  · rw [PtState.wakeFrom_wakeup_of_ne hkn] at hk
    have hki : k ≠ i := by
      rintro rfl
      have hasleep := h.asleep k hk
      have hplaces := hw.places
      cases hpck : s.pc k with
      | lockSleeps n =>
        rw [hpck] at hplaces
        cases hplaces.1
      | waitSleeps d =>
        rw [hpck] at hplaces
        cases hplaces.2
      | run | locking | trying | waitUnlock | waitLock | signals | broadcasts =>
        rw [hpck] at hasleep
        cases hasleep
    rw [PtState.wakeFrom_pc_of_ne hki]
    exact h.asleep k hk

lemma wake (hbroadcast : ∀ d b, pc = .broadcasts d b → b.Ok) :
    PtInv mutexOf (s.wakeFrom i next pc) := by
  have hin := wake_inHand hw
  have hnextOut := h.wake_notInHand hw
  refine h.condStep i c pc (h.wake_cond hw) (fun d _ => rfl) rfl rfl rfl
    ⟨hw.places.1, hw.newPlaces.1⟩ (by simp [hw.uses, hw.places.2, eq_comm]) (fun d hd => ?_)
    (fun k hk => ?_) (h.wake_asleep hw) hbroadcast (fun j hj => ?_) fun j hj => ?_
  · rcases hd with hd | hd
    · rcases hw.newUses with heq | hnil
      · exact Option.some.inj (hd.symm.trans heq)
      · rw [hnil.1] at hd
        cases hd
    · rw [hw.newPlaces.2] at hd
      cases hd
  · apply PtState.wakeFrom_wakeup_of_ne
    rintro rfl
    exact hk (h.next_waits hw).1
  · have hjn : j ≠ next := fun heq => hnextOut (heq ▸ hj)
    have hbefore := h.inHand j ((hin j).mpr (.inr hj))
    change s.taken j = Function.update s.woken next (s.woken next + 1) j + 1
    rw [Function.update_of_ne hjn]
    exact hbefore
  · change s.taken j = Function.update s.woken next (s.woken next + 1) j
    rcases eq_or_ne j next with rfl | hjn
    · rw [Function.update_self]
      exact h.inHand j ((hin j).mpr (.inl rfl))
    · rw [Function.update_of_ne hjn]
      exact h.notInHand j fun hs => hj (((hin j).mp hs).resolve_left hjn)

end PtInv

end Wake

def Broadcast.left (b : Broadcast ι) : ℕ := 3 * b.root.length + 2 * b.tbl.length + b.batch.length

omit [DecidableEq ι] in
lemma Broadcast.Ok.step {b : Broadcast ι} (h : b.Ok) :
    (∃ next b', b.step = .wakes next b' ∧ b'.Ok ∧ b'.targets = b.targets ∧ b'.left < b.left ∧
      b.batch ++ b.tbl ++ b.root = next :: (b'.batch ++ b'.tbl ++ b'.root)) ∨
    (∃ b', b.step = .goes b' ∧ b'.Ok ∧ b'.targets = b.targets ∧ b'.left < b.left ∧
      b'.batch ++ b'.tbl ++ b'.root = b.batch ++ b.tbl ++ b.root) ∨
    (b.step = .returns ∧ b.batch ++ b.tbl ++ b.root = [] ∧ b.woken = b.targets) := by
  obtain ⟨count, root, tbl, batch, targets, woken⟩ := b
  obtain ⟨hcount, htargets, hroom, hnodup⟩ := h
  dsimp only at hcount htargets hroom hnodup
  subst hcount
  cases batch with
  | cons next rest =>
    refine .inl ⟨next, _, rfl, ⟨rfl, ?_, hroom, hnodup⟩, rfl, ?_, rfl⟩
    · simpa using htargets
    · simp [left]
  | nil =>
    cases root with
    | cons next rest =>
      right; left
      simp only [Broadcast.step]
      split_ifs with hfull
      · have hfits : sysThreadWakeup (tbl ++ [next]) = tbl ++ [next] := if_pos hfull.le
        rw [hfits]
        refine ⟨_, rfl, ⟨by simp, by simpa using htargets, by simp, hnodup⟩, rfl, ?_, by simp⟩
        simp only [left, List.length_cons, List.length_append, List.length_nil]
        omega
      · refine ⟨_, rfl, ⟨by simp, by simpa using htargets, ?_, hnodup⟩, rfl, ?_, by simp⟩
        · rw [List.length_append, List.length_singleton] at hfull ⊢
          omega
        · simp only [left, List.length_cons, List.length_append, List.length_nil]
          omega
    | nil =>
      cases tbl with
      | nil => exact .inr (.inr ⟨rfl, rfl, by simpa using htargets.symm⟩)
      | cons first rest =>
        right; left
        have hfits : sysThreadWakeup (first :: rest) = first :: rest := if_pos (Nat.le_of_lt hroom)
        refine ⟨⟨0, [], [], sysThreadWakeup (first :: rest), targets, woken⟩, rfl, ?_⟩
        rw [hfits]
        refine ⟨⟨rfl, by simpa using htargets, by simp, hnodup⟩, rfl, ?_, by simp⟩
        simp only [left, List.length_cons, List.length_nil]
        omega

omit [DecidableEq κ] [DecidableEq χ] in
lemma pthreadMutexLock_cntr {mutex mutex' : Mutex ι} {err : Option PtError}
    (h : pthreadMutexLock mutex i = some (mutex', err)) :
    ∃ cntr, mutex' = { mutex with cntr := cntr } := by
  unfold pthreadMutexLock at h
  split_ifs at h
  · cases h
    exact ⟨_, rfl⟩
  · cases h
    exact ⟨_, rfl⟩
  · cases h
    exact ⟨_, rfl⟩

lemma pthreadMutexTrylock_cntr {mutex mutex' : Mutex ι} {err : Option PtError}
    (h : pthreadMutexTrylock mutex i = some (mutex', err)) :
    ∃ cntr, mutex' = { mutex with cntr := cntr } := by
  unfold pthreadMutexTrylock at h
  split_ifs at h
  · cases h
    exact ⟨_, rfl⟩
  · cases h
    exact ⟨_, rfl⟩
  · cases h
    exact ⟨_, rfl⟩

omit [DecidableEq χ] in
lemma PtInv.returns {mutex : Mutex ι} (h : PtInv mutexOf s) (hplain : (s.pc i).Plain)
    (hmutex : ∃ cntr, mutex = { s.mutex m with cntr := cntr }) :
    PtInv mutexOf (s.move i .run m mutex) := by
  obtain ⟨hlock, hcondWait, -, hempty, hasleep⟩ := hplain
  refine h.quiet (fun n => ?_) rfl rfl rfl rfl rfl rfl ⟨hlock, hcondWait, hasleep⟩ ⟨rfl, rfl⟩
    (.inl rfl) hempty.symm nofun
  rcases eq_or_ne n m with rfl | hn
  · obtain ⟨cntr, rfl⟩ := hmutex
    exact ⟨cntr, Function.update_self _ _ _⟩
  · exact ⟨_, Function.update_of_ne hn _ _⟩

omit [DecidableEq κ] [DecidableEq χ] in
lemma PtInv.enters {pc : Pc ι κ χ} (h : PtInv mutexOf s) (hplain : (s.pc i).Plain) (hpc : pc.Plain) :
    PtInv mutexOf { s with pc := Function.update s.pc i pc } := by
  obtain ⟨hlock, hcondWait, -, hempty, hasleep⟩ := hplain
  obtain ⟨hlock', hcondWait', huses', hempty', -⟩ := hpc
  refine h.quiet (fun n => ⟨_, rfl⟩) rfl rfl rfl rfl rfl rfl ⟨hlock, hcondWait, hasleep⟩
    ⟨hlock', hcondWait'⟩ (.inl huses') (hempty'.trans hempty.symm) fun c b hb => ?_
  rw [hb] at huses'
  cases huses'

omit [DecidableEq χ] in
lemma PtInv.goOn (h : PtInv mutexOf s) (hstep : ptGoOn mutexOf s i = some t) : PtInv mutexOf t := by
  cases hpc : s.pc i with
  | run =>
    simp only [ptGoOn, hpc] at hstep
    cases hstep
  | locking n =>
    have hplain : (s.pc i).Plain := by
      rw [hpc]
      exact ⟨rfl, rfl, rfl, rfl, rfl⟩
    simp only [ptGoOn, hpc, pthreadMutexLockSection] at hstep
    by_cases hfree : (s.mutex n).value = .free
    · rw [if_pos hfree] at hstep
      cases hstep
      exact h.acquire hplain hfree
    · rw [if_neg hfree] at hstep
      cases hstep
      exact h.enqueue hplain hfree
  | lockSleeps n =>
    simp only [ptGoOn, hpc] at hstep
    split_ifs at hstep with hwoken
    cases hstep
    exact h.resume hpc hwoken
  | trying n =>
    have hplain : (s.pc i).Plain := by
      rw [hpc]
      exact ⟨rfl, rfl, rfl, rfl, rfl⟩
    simp only [ptGoOn, hpc, pthreadMutexTrylockSection] at hstep
    by_cases hfree : (s.mutex n).value = .free
    · rw [if_neg (not_not.mpr hfree)] at hstep
      cases hstep
      exact h.acquire hplain hfree
    · rw [if_pos hfree] at hstep
      cases hstep
      exact h.returns hplain ⟨_, rfl⟩
  | waitUnlock d =>
    simp only [ptGoOn, hpc] at hstep
    cases hstep
    exact h.release ((h.cond d).uses i (by rw [hpc]; rfl)) _ (by rw [hpc]; exact ⟨rfl, rfl, rfl⟩)
      (by rw [hpc]; exact ⟨rfl, rfl, rfl, rfl⟩)
  | waitSleeps d =>
    simp only [ptGoOn, hpc] at hstep
    split_ifs at hstep with hwoken
    cases hstep
    exact h.condResume hpc hwoken
  | waitLock d =>
    have hplain : (s.pc i).Plain := by
      rw [hpc]
      exact ⟨rfl, rfl, rfl, rfl, rfl⟩
    simp only [ptGoOn, hpc] at hstep
    split at hstep
    next mutex err hlock =>
      cases hstep
      exact h.returns hplain (pthreadMutexLock_cntr hlock)
    next =>
      cases hstep
      exact h.enters hplain ⟨rfl, rfl, rfl, rfl, rfl⟩
  | signals d next =>
    simp only [ptGoOn, hpc] at hstep
    cases hstep
    have hw : Waking s i d next [] .run := ⟨by rw [hpc]; rfl, by rw [hpc]; exact ⟨rfl, rfl⟩,
      by rw [hpc]; rfl, ⟨rfl, rfl⟩, rfl, .inr ⟨rfl, rfl⟩⟩
    exact h.wake hw nofun
  | broadcasts d b =>
    simp only [ptGoOn, hpc] at hstep
    have hold : (s.pc i).lockWait = none ∧ (s.pc i).condWait = none ∧ (s.pc i).asleep = false := by
      rw [hpc]
      exact ⟨rfl, rfl, rfl⟩
    obtain ⟨next, b', hb, hok, -, -, hhand⟩ | ⟨b', hb, hok, -, -, hhand⟩ | ⟨hb, hempty, -⟩ :=
      (h.broadcasts i d b hpc).step
    · rw [hb] at hstep
      cases hstep
      have hw : Waking s i d next (Pc.broadcasts d b' : Pc ι κ χ).hand (.broadcasts d b') :=
        ⟨by rw [hpc]; rfl, ⟨hold.1, hold.2.1⟩, by rw [hpc]; exact hhand, ⟨rfl, rfl⟩, rfl, .inl rfl⟩
      refine h.wake hw fun d' b'' heq => ?_
      cases heq
      exact hok
    · rw [hb] at hstep
      cases hstep
      refine h.quiet (fun n => ⟨_, rfl⟩) rfl rfl rfl rfl rfl rfl hold ⟨rfl, rfl⟩
        (.inr (by rw [hpc]; rfl)) (by rw [hpc]; exact hhand) fun d' b'' heq => ?_
      cases heq
      exact hok
    · rw [hb] at hstep
      cases hstep
      exact h.quiet (fun n => ⟨_, rfl⟩) rfl rfl rfl rfl rfl rfl hold ⟨rfl, rfl⟩ (.inl rfl)
        (by rw [hpc]; exact hempty.symm) nofun

lemma PtInv.step {e : PtEvent ι κ χ} (h : PtInv mutexOf s) (hstep : ptStep mutexOf s e = some t) :
    PtInv mutexOf t := by
  have hrun : ∀ {i : ι}, s.pc i = .run → (s.pc i).Plain := by
    intro i hpc
    rw [hpc]
    exact ⟨rfl, rfl, rfl, rfl, rfl⟩
  cases e with
  | step i => exact h.goOn hstep
  | lock i n =>
    simp only [ptStep] at hstep
    split at hstep
    next hpc =>
      split at hstep
      next mutex err hlock =>
        cases hstep
        exact h.returns (hrun hpc) (pthreadMutexLock_cntr hlock)
      next =>
        cases hstep
        exact h.enters (hrun hpc) ⟨rfl, rfl, rfl, rfl, rfl⟩
    next => cases hstep
  | trylock i n =>
    simp only [ptStep] at hstep
    split at hstep
    next hpc =>
      split at hstep
      next mutex err hlock =>
        cases hstep
        exact h.returns (hrun hpc) (pthreadMutexTrylock_cntr hlock)
      next =>
        cases hstep
        exact h.enters (hrun hpc) ⟨rfl, rfl, rfl, rfl, rfl⟩
    next => cases hstep
  | unlock i n =>
    simp only [ptStep] at hstep
    split at hstep
    next hpc howns =>
      cases hstep
      exact h.release howns .run (by rw [hpc]; exact ⟨rfl, rfl, rfl⟩) (by rw [hpc]; exact ⟨rfl, rfl, rfl, rfl⟩)
    next => cases hstep
  | wait i d =>
    simp only [ptStep] at hstep
    split at hstep
    next hpc howns =>
      cases hstep
      exact h.wait (hrun hpc) howns
    next => cases hstep
  | signal i d =>
    simp only [ptStep] at hstep
    split at hstep
    next cond next hpc howns hsignal =>
      cases hstep
      have hqueue : next :: cond.queue = (s.cond d).queue ∧ cond.count = cond.queue.length := by
        unfold pthreadCondSignal at hsignal
        split_ifs at hsignal with hnone
        · cases hsignal
        have hcount := (h.cond d).count
        cases hqueue : (s.cond d).queue with
        | nil =>
          rw [hqueue] at hsignal
          cases hsignal
        | cons first rest =>
          rw [hqueue] at hsignal hcount
          cases hsignal
          exact ⟨rfl, by rw [hcount]; rfl⟩
      refine h.claim (hrun hpc) howns (.signals d next) rfl rfl ⟨rfl, rfl⟩ ?_ ?_
        (fun d' hd => Function.update_of_ne hd _ _) rfl rfl rfl rfl (fun j => ?_) nofun
      · simpa [Pc.hand, PtState.take] using hqueue.1
      · simpa [PtState.take] using hqueue.2
      · change Function.update s.taken next (s.taken next + 1) j = _
        rcases eq_or_ne j next with rfl | hne
        · simp [Pc.hand]
        · simp [Pc.hand, hne]
    next =>
      cases hstep
      exact h
    next => cases hstep
  | broadcast i d =>
    simp only [ptStep] at hstep
    split at hstep
    next cond b hpc howns hbroadcast =>
      cases hstep
      unfold pthreadCondBroadcast at hbroadcast
      split_ifs at hbroadcast with hnone
      cases hbroadcast
      have hok : Broadcast.Ok ⟨(s.cond d).count, (s.cond d).queue, [], [], (s.cond d).queue, []⟩ :=
        ⟨(h.cond d).count, rfl, by simp, (h.cond d).nodup⟩
      refine h.claim (hrun hpc) howns (.broadcasts d _) rfl rfl ⟨rfl, rfl⟩ ?_ ?_
        (fun d' hd => Function.update_of_ne hd _ _) rfl rfl rfl rfl (fun j => rfl) fun d' b heq => ?_
      · simp [Pc.hand]
      · simp
      · cases heq
        exact hok
    next =>
      cases hstep
      exact h
    next => cases hstep

lemma PtInv.init (h : (ptMachine mutexOf).init s) : PtInv mutexOf s := by
  obtain ⟨hmutex, hcond, hpc, hwakeup, hheld, htaken, hwoken⟩ := h
  have hnobody : ∀ i, ¬InHand s i := by
    rintro i ⟨k, hk⟩
    rw [hpc] at hk
    cases hk
  constructor
  · intro m
    obtain ⟨recursive, hm⟩ := hmutex m
    constructor
    · rw [hm]
      rfl
    · rw [hm]
      exact List.nodup_nil
    · intro i
      rw [hm, hpc]
      exact iff_of_false nofun nofun
    · rw [hm]
      exact fun _ => rfl
    · intro i
      rw [hm, Owns, hpc, hheld]
      exact iff_of_false (by simp [Pc.lockWait]) nofun
  · intro c
    constructor
    · rw [hcond c]
      rfl
    · intro k hk
      rw [hpc] at hk
      cases hk
    · intro i
      rw [hcond c, hpc]
      exact iff_of_false (by simp [Pc.uses]) nofun
    · rw [hcond c]
      exact List.nodup_nil
    · intro k hk
      rw [hpc] at hk
      cases hk
  · intro i hi
    rw [hwakeup] at hi
    cases hi
  · intro k c b hk
    rw [hpc] at hk
    cases hk
  · exact fun i hi => absurd hi (hnobody i)
  · intro i _
    rw [htaken, hwoken]

end Almos.Pthread
