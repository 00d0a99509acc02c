import Mathlib
import Almos.Machine
import Almos.Threads
import Almos.WaitQueue

/-!
# The sleeping reader/writer lock

`count` is -1 for a writer and else the number of readers; threads that have to wait are in one of
two queues. `rwlock_unlock` hands the lock to the threads it wakes. The body of each function, between
`mcs_lock` and `mcs_unlock`, is one step. `count` is far from the ends of its 32 bits: a thread is a
page-aligned address.
-/
namespace Almos.Rwlock
open Threads WaitQueue

inductive RwError
  | ebusy
  | eperm
deriving DecidableEq

/-- `struct rwlock_s` -/
structure RwLock (ι : Type*) where
  count : ℤ
  rdWaitQueue : List ι
  wrWaitQueue : List ι

variable {ι : Type*}

/-- `rwlock_wrlock`, with whether the lock was free; if not, the thread sleeps. -/
def rwlockWrlock (lock : RwLock ι) (this : ι) : RwLock ι × Bool :=
  if lock.count = 0 then ({ lock with count := lock.count - 1 }, true)
  else ({ lock with wrWaitQueue := waitOn lock.wrWaitQueue this .last }, false)

/-- `rwlock_rdlock`; writers that wait go first. -/
def rwlockRdlock (lock : RwLock ι) (this : ι) : RwLock ι × Bool :=
  if 0 ≤ lock.count ∧ lock.wrWaitQueue = [] then ({ lock with count := lock.count + 1 }, true)
  else ({ lock with rdWaitQueue := waitOn lock.rdWaitQueue this .last }, false)

/-- `rwlock_trywrlock` -/
def rwlockTrywrlock (lock : RwLock ι) : Except RwError (RwLock ι) :=
  if lock.count ≠ 0 then .error .ebusy else .ok { lock with count := lock.count - 1 }

/-- `rwlock_tryrdlock` -/
def rwlockTryrdlock (lock : RwLock ι) : Except RwError (RwLock ι) :=
  if 0 ≤ lock.count ∧ lock.wrWaitQueue = [] then .ok { lock with count := lock.count + 1 }
  else .error .ebusy

/-- The threads that `rwlock_unlock` wakes. -/
inductive Woken (ι : Type*)
  | writer (thread : ι)
  | readers (threads : List ι)

/-- `rwlock_unlock` -/
def rwlockUnlock (lock : RwLock ι) : Except RwError (RwLock ι × Woken ι) :=
  if lock.count = 0 then .error .eperm
  else if 1 < lock.count then .ok ({ lock with count := lock.count - 1 }, .readers [])
  else
    match wakeupOne lock.wrWaitQueue .first with
    | some (thread, rest) => .ok ({ lock with count := 0 - 1, wrWaitQueue := rest }, .writer thread)
    | none =>
        .ok ({ lock with count := 0 + lock.rdWaitQueue.length, rdWaitQueue := [] },
          .readers lock.rdWaitQueue)

/-- A thread waits from the call that blocks to the `rwlock_unlock` that wakes it. -/
inductive RwPc
  | idle
  | waitsWrite
  | waitsRead
  | writes
  | reads
deriving DecidableEq

structure RwState (ι : Type*) where
  lock : RwLock ι
  pc : ι → RwPc

inductive RwEvent (ι : Type*)
  | wrlock (i : ι)
  | rdlock (i : ι)
  | trywrlock (i : ι)
  | tryrdlock (i : ι)
  | unlock (i : ι)

variable [DecidableEq ι]

def handOver (pc : ι → RwPc) : Woken ι → ι → RwPc
  | .writer thread => Function.update pc thread .writes
  | .readers threads => threads.foldl (fun pc thread => Function.update pc thread .reads) pc

def rwStep (s : RwState ι) : RwEvent ι → Option (RwState ι)
  | .wrlock i =>
      if s.pc i = .idle then
        match rwlockWrlock s.lock i with
        | (lock, true) => some ⟨lock, Function.update s.pc i .writes⟩
        | (lock, false) => some ⟨lock, Function.update s.pc i .waitsWrite⟩
      else none
  | .rdlock i =>
      if s.pc i = .idle then
        match rwlockRdlock s.lock i with
        | (lock, true) => some ⟨lock, Function.update s.pc i .reads⟩
        | (lock, false) => some ⟨lock, Function.update s.pc i .waitsRead⟩
      else none
  | .trywrlock i =>
      if s.pc i = .idle then
        match rwlockTrywrlock s.lock with
        | .ok lock => some ⟨lock, Function.update s.pc i .writes⟩
        | .error _ => some s
      else none
  | .tryrdlock i =>
      if s.pc i = .idle then
        match rwlockTryrdlock s.lock with
        | .ok lock => some ⟨lock, Function.update s.pc i .reads⟩
        | .error _ => some s
      else none
  | .unlock i =>
      if s.pc i = .writes ∨ s.pc i = .reads then
        match rwlockUnlock s.lock with
        | .ok (lock, woken) => some ⟨lock, handOver (Function.update s.pc i .idle) woken⟩
        | .error _ => some { s with pc := Function.update s.pc i .idle }
      else none

/-- After `rwlock_init`, with every thread outside. -/
def rwMachine (ι : Type*) [DecidableEq ι] : Machine (RwState ι) (RwEvent ι) where
  init s := s.lock = ⟨0, [], []⟩ ∧ ∀ i, s.pc i = .idle
  step := rwStep

def threadsAt [Fintype ι] (pc : ι → RwPc) (place : RwPc) : ℕ :=
  count (fun pc => decide (pc = place)) pc

def Queued (pc : ι → RwPc) (place : RwPc) (queue : List ι) : Prop :=
  ∀ i, queue.count i = if pc i = place then 1 else 0

lemma Queued.enter {pc : ι → RwPc} {place : RwPc} {queue : List ι} {i : ι}
    (h : Queued pc place queue) (hi : pc i ≠ place) :
    Queued (Function.update pc i place) place (waitOn queue i .last) := by
  intro j
  rw [count_waitOn, h j]
  rcases eq_or_ne j i with rfl | hne
  · simp [hi]
  · simp [hne, hne.symm]

lemma Queued.other {pc : ι → RwPc} {place new : RwPc} {queue : List ι} {i : ι}
    (h : Queued pc place queue) (hi : pc i ≠ place) (hnew : new ≠ place) :
    Queued (Function.update pc i new) place queue := by
  intro j
  rw [h j]
  rcases eq_or_ne j i with rfl | hne
  · simp [hi, hnew]
  · simp [hne]

lemma Queued.leave {pc : ι → RwPc} {place new : RwPc} {queue rest : List ι} {i : ι}
    {order : WaitOrder} (h : Queued pc place queue)
    (hwoken : wakeupOne queue order = some (i, rest)) (hnew : new ≠ place) :
    Queued (Function.update pc i new) place rest ∧ pc i = place := by
  have hcount := count_wakeupOne hwoken
  have hi : pc i = place := by
    have hone := hcount i
    rw [if_pos rfl, h i] at hone
    split_ifs at hone with hpc
    exact hpc
  refine ⟨fun j => ?_, hi⟩
  have hone := hcount j
  rw [h j] at hone
  rcases eq_or_ne j i with rfl | hne
  · rw [if_pos rfl, if_pos hi] at hone
    rw [Function.update_self, if_neg hnew]
    omega
  · rw [if_neg hne.symm] at hone
    rw [Function.update_of_ne hne]
    omega

lemma Queued.pc_of_mem {pc : ι → RwPc} {place : RwPc} {queue : List ι} {i : ι}
    (h : Queued pc place queue) (hi : i ∈ queue) : pc i = place := by
  have hpos := List.count_pos_iff.mpr hi
  rw [h i] at hpos
  by_contra hpc
  rw [if_neg hpc] at hpos
  omega

lemma Queued.nodup {pc : ι → RwPc} {place : RwPc} {queue : List ι} (h : Queued pc place queue) :
    queue.Nodup := by
  rw [List.nodup_iff_count_le_one]
  intro i
  rw [h i]
  split_ifs <;> omega

lemma handOver_readers {threads : List ι} (pc : ι → RwPc) (i : ι) :
    handOver pc (.readers threads) i = if i ∈ threads then .reads else pc i := by
  induction threads generalizing pc with
  | nil => simp [handOver]
  | cons thread threads ih =>
    have hrest := ih (Function.update pc thread .reads)
    simp only [handOver, List.foldl_cons] at hrest ⊢
    rw [hrest]
    rcases eq_or_ne i thread with rfl | hne
    · simp
    · simp [hne]

/-- When all readers are woken their queue is empty and the other one as it was. -/
lemma Queued.handOver {pc : ι → RwPc} {rd wr : List ι} (hrd : Queued pc .waitsRead rd)
    (hwr : Queued pc .waitsWrite wr) :
    Queued (Rwlock.handOver pc (.readers rd)) .waitsRead [] ∧
      Queued (Rwlock.handOver pc (.readers rd)) .waitsWrite wr := by
  constructor
  · intro i
    rw [handOver_readers]
    by_cases hmem : i ∈ rd
    · simp [hmem]
    · have hcount := hrd i
      rw [List.count_eq_zero.mpr hmem] at hcount
      rw [if_neg hmem, ← hcount, List.count_nil]
  · intro i
    rw [hwr i, handOver_readers]
    by_cases hmem : i ∈ rd
    · simp [hmem, hrd.pc_of_mem hmem]
    · rw [if_neg hmem]

variable [Fintype ι] {s t : RwState ι}

lemma threadsAt_update (pc : ι → RwPc) (place new : RwPc) (i : ι) :
    threadsAt (Function.update pc i new) place + (if pc i = place then 1 else 0) =
      threadsAt pc place + if new = place then 1 else 0 := by
  have hcount := count_update (fun pc => decide (pc = place)) pc i new
  simpa [threadsAt, Bool.toNat, Bool.cond_decide] using hcount

lemma threadsAt_handOver {threads : List ι} {pc : ι → RwPc}
    (hnodup : threads.Nodup) (hpc : ∀ i ∈ threads, pc i = .waitsRead) :
    threadsAt (handOver pc (.readers threads)) .reads = threadsAt pc .reads + threads.length ∧
      threadsAt (handOver pc (.readers threads)) .writes = threadsAt pc .writes := by
  induction threads generalizing pc with
  | nil => exact ⟨rfl, rfl⟩
  | cons thread threads ih =>
    obtain ⟨hnew, hnodup⟩ := List.nodup_cons.mp hnodup
    have hrest : ∀ i ∈ threads, Function.update pc thread .reads i = .waitsRead := by
      intro i hi
      have hne : i ≠ thread := by
        rintro rfl
        exact hnew hi
      rw [Function.update_of_ne hne, hpc i (List.mem_cons_of_mem _ hi)]
    obtain ⟨hreads, hwrites⟩ := ih hnodup hrest
    have hthread : pc thread = .waitsRead := hpc thread List.mem_cons_self
    have hread := threadsAt_update pc .reads .reads thread
    have hwrite := threadsAt_update pc .writes .reads thread
    simp only [hthread, reduceCtorEq, if_false, if_true] at hread hwrite
    change threadsAt (handOver (Function.update pc thread .reads) (.readers threads)) .reads = _ ∧
      threadsAt (handOver (Function.update pc thread .reads) (.readers threads)) .writes = _
    rw [List.length_cons]
    omega

/-- `count` for readers and writers, the queues, and nobody waits for a free lock. -/
structure RwOk (s : RwState ι) : Prop where
  owners : threadsAt s.pc .writes = 0 ∧ s.lock.count = threadsAt s.pc .reads ∨
    threadsAt s.pc .writes = 1 ∧ threadsAt s.pc .reads = 0 ∧ s.lock.count = -1
  rd : Queued s.pc .waitsRead s.lock.rdWaitQueue
  wr : Queued s.pc .waitsWrite s.lock.wrWaitQueue
  free : s.lock.count = 0 → s.lock.rdWaitQueue = [] ∧ s.lock.wrWaitQueue = []

lemma RwOk.wait {lock : RwLock ι} {i : ι} {new : RwPc} (h : RwOk s) (hi : s.pc i = .idle)
    (hwrite : new ≠ .writes) (hread : new ≠ .reads) (hcount : lock.count = s.lock.count)
    (hrd : Queued (Function.update s.pc i new) .waitsRead lock.rdWaitQueue)
    (hwr : Queued (Function.update s.pc i new) .waitsWrite lock.wrWaitQueue)
    (hbusy : s.lock.count ≠ 0) : RwOk ⟨lock, Function.update s.pc i new⟩ := by
  have hwrites := threadsAt_update s.pc .writes new i
  have hreads := threadsAt_update s.pc .reads new i
  simp only [hi, hwrite, hread, reduceCtorEq, if_false, Nat.add_zero] at hwrites hreads
  refine ⟨?_, hrd, hwr, fun hzero => absurd (hcount ▸ hzero) hbusy⟩
  dsimp only
  rw [hwrites, hreads, hcount]
  exact h.owners

lemma RwOk.take_write {i : ι} (h : RwOk s) (hi : s.pc i = .idle) (hfree : s.lock.count = 0) :
    RwOk ⟨{ s.lock with count := s.lock.count - 1 }, Function.update s.pc i .writes⟩ := by
  have hwrites := threadsAt_update s.pc .writes .writes i
  have hreads := threadsAt_update s.pc .reads .writes i
  simp only [hi, reduceCtorEq, if_false, if_true, Nat.add_zero] at hwrites hreads
  have howners := h.owners
  constructor
  · right
    dsimp only
    omega
  · exact h.rd.other (by simp [hi]) (by decide)
  · exact h.wr.other (by simp [hi]) (by decide)
  · intro hzero
    change s.lock.count - 1 = 0 at hzero
    omega

lemma RwOk.take_read {i : ι} (h : RwOk s) (hi : s.pc i = .idle) (hfree : 0 ≤ s.lock.count) :
    RwOk ⟨{ s.lock with count := s.lock.count + 1 }, Function.update s.pc i .reads⟩ := by
  have hwrites := threadsAt_update s.pc .writes .reads i
  have hreads := threadsAt_update s.pc .reads .reads i
  simp only [hi, reduceCtorEq, if_false, if_true, Nat.add_zero] at hwrites hreads
  have howners := h.owners
  constructor
  · left
    dsimp only
    omega
  · exact h.rd.other (by simp [hi]) (by decide)
  · exact h.wr.other (by simp [hi]) (by decide)
  · intro hzero
    change s.lock.count + 1 = 0 at hzero
    omega

lemma RwOk.left {i : ι} (h : RwOk s) (hi : s.pc i = .writes ∨ s.pc i = .reads) :
    s.lock.count ≠ 0 ∧
    Queued (Function.update s.pc i .idle) .waitsRead s.lock.rdWaitQueue ∧
    Queued (Function.update s.pc i .idle) .waitsWrite s.lock.wrWaitQueue ∧
    threadsAt (Function.update s.pc i .idle) .writes = 0 ∧
    ((threadsAt (Function.update s.pc i .idle) .reads : ℤ) = s.lock.count - 1 ∨
      threadsAt (Function.update s.pc i .idle) .reads = 0 ∧ s.lock.count = -1) := by
  have hwrites := threadsAt_update s.pc .writes .idle i
  have hreads := threadsAt_update s.pc .reads .idle i
  have howners := h.owners
  have hrd : Queued (Function.update s.pc i .idle) .waitsRead s.lock.rdWaitQueue :=
    h.rd.other (by rcases hi with hi | hi <;> simp [hi]) (by decide)
  have hwr : Queued (Function.update s.pc i .idle) .waitsWrite s.lock.wrWaitQueue :=
    h.wr.other (by rcases hi with hi | hi <;> simp [hi]) (by decide)
  rcases hi with hi | hi
  · simp only [hi, reduceCtorEq, if_false, if_true, Nat.add_zero] at hwrites hreads
    refine ⟨?_, hrd, hwr, ?_, ?_⟩ <;> omega
  · simp only [hi, reduceCtorEq, if_false, if_true, Nat.add_zero] at hwrites hreads
    refine ⟨?_, hrd, hwr, ?_, ?_⟩ <;> omega

lemma RwOk.unlock {i : ι} {lock : RwLock ι} {woken : Woken ι} (h : RwOk s)
    (hi : s.pc i = .writes ∨ s.pc i = .reads) (hunlock : rwlockUnlock s.lock = .ok (lock, woken)) :
    RwOk ⟨lock, handOver (Function.update s.pc i .idle) woken⟩ := by
  obtain ⟨hbusy, hrd, hwr, hwrites, hreads⟩ := h.left hi
  unfold rwlockUnlock at hunlock
  rw [if_neg hbusy] at hunlock
  split_ifs at hunlock with hmore
  · -- other readers stay
    cases hunlock
    refine ⟨.inl ⟨hwrites, ?_⟩, hrd, hwr, fun hzero => ?_⟩
    · change s.lock.count - 1 = (threadsAt (Function.update s.pc i .idle) .reads : ℤ)
      omega
    · change s.lock.count - 1 = 0 at hzero
      omega
  · have hnone : threadsAt (Function.update s.pc i .idle) .reads = 0 := by omega
    cases hone : wakeupOne s.lock.wrWaitQueue .first with
    | some woken =>
      obtain ⟨thread, rest⟩ := woken
      rw [hone] at hunlock
      cases hunlock
      obtain ⟨hwr', hthread⟩ := hwr.leave hone (show RwPc.writes ≠ .waitsWrite by decide)
      have hwrites' := threadsAt_update (Function.update s.pc i .idle) .writes .writes thread
      have hreads' := threadsAt_update (Function.update s.pc i .idle) .reads .writes thread
      simp only [hthread, reduceCtorEq, if_false, if_true, Nat.add_zero] at hwrites' hreads'
      refine ⟨.inr ⟨?_, ?_, rfl⟩, ?_, hwr', fun hzero => ?_⟩
      · exact hwrites'.trans (by omega)
      · exact hreads'.trans (by omega)
      · exact hrd.other (by simp [hthread]) (by decide)
      · change (0 - 1 : ℤ) = 0 at hzero
        omega
    | none =>
      rw [hone] at hunlock
      cases hunlock
      have hempty : s.lock.wrWaitQueue = [] := by simpa [wakeupOne] using hone
      obtain ⟨hreads', hwrites'⟩ := threadsAt_handOver hrd.nodup fun _ => hrd.pc_of_mem
      obtain ⟨hrd', hwr'⟩ := hrd.handOver hwr
      refine ⟨.inl ⟨hwrites'.trans hwrites, ?_⟩, hrd', hwr', fun _ => ⟨rfl, hempty⟩⟩
      rw [hnone] at hreads'
      change (0 + s.lock.rdWaitQueue.length : ℤ) = _
      exact congrArg Nat.cast hreads'.symm

lemma RwOk.step {e : RwEvent ι} (h : RwOk s) (hstep : rwStep s e = some t) : RwOk t := by
  cases e with
  | wrlock i =>
    simp only [rwStep, rwlockWrlock] at hstep
    split_ifs at hstep with hi hfree
    · cases hstep
      exact h.take_write hi hfree
    · cases hstep
      exact h.wait hi (by decide) (by decide) rfl (h.rd.other (by simp [hi]) (by decide))
        (h.wr.enter (by simp [hi])) hfree
  | rdlock i =>
    simp only [rwStep, rwlockRdlock] at hstep
    split_ifs at hstep with hi hfree
    · cases hstep
      exact h.take_read hi hfree.1
    · cases hstep
      refine h.wait hi (by decide) (by decide) rfl (h.rd.enter (by simp [hi]))
        (h.wr.other (by simp [hi]) (by decide)) fun hzero => hfree ⟨hzero.ge, (h.free hzero).2⟩
  | trywrlock i =>
    simp only [rwStep, rwlockTrywrlock] at hstep
    split_ifs at hstep with hi hbusy
    · cases hstep
      exact h
    · cases hstep
      exact h.take_write hi (not_not.mp hbusy)
  | tryrdlock i =>
    simp only [rwStep, rwlockTryrdlock] at hstep
    split_ifs at hstep with hi hfree
    · cases hstep
      exact h.take_read hi hfree.1
    · cases hstep
      exact h
  | unlock i =>
    simp only [rwStep] at hstep
    split_ifs at hstep with hi
    cases hunlock : rwlockUnlock s.lock with
    | ok result =>
      rw [hunlock] at hstep
      cases hstep
      exact h.unlock hi hunlock
    | error err =>
      -- an owner never finds the count 0
      have hbusy := (h.left hi).1
      unfold rwlockUnlock at hunlock
      rw [if_neg hbusy] at hunlock
      split_ifs at hunlock
      split at hunlock <;> cases hunlock

lemma RwOk.init (hlock : s.lock = ⟨0, [], []⟩) (hidle : ∀ i, s.pc i = .idle) : RwOk s := by
  have hnone : ∀ place : RwPc, place ≠ .idle → threadsAt s.pc place = 0 := by
    intro place hplace
    apply count_eq_zero
    intro i
    rw [hidle i]
    exact decide_eq_false hplace.symm
  constructor
  · left
    rw [hnone .writes (by decide), hnone .reads (by decide), hlock]
    exact ⟨rfl, rfl⟩
  · intro i
    simp [hlock, hidle i]
  · intro i
    simp [hlock, hidle i]
  · rw [hlock]
    exact fun _ => ⟨rfl, rfl⟩

/-- In every reachable state `count` says who owns the lock, a thread that waits is once in the
queue of its kind, and nobody waits for a free lock. -/
theorem rwlock_owners_counted (h : (rwMachine ι).Reachable s) :
    (s.lock.count = -1 ↔ threadsAt s.pc .writes = 1 ∧ threadsAt s.pc .reads = 0) ∧
    (∀ n : ℕ, s.lock.count = n ↔ threadsAt s.pc .reads = n ∧ threadsAt s.pc .writes = 0) ∧
    (∀ i, s.lock.rdWaitQueue.count i = (if s.pc i = .waitsRead then 1 else 0) ∧
      s.lock.wrWaitQueue.count i = if s.pc i = .waitsWrite then 1 else 0) ∧
    (s.lock.count = 0 → s.lock.rdWaitQueue = [] ∧ s.lock.wrWaitQueue = []) := by
  have hok : RwOk s := h.invariant (fun _ hinit => .init hinit.1 hinit.2)
    fun _ _ _ hs hstep => hs.step hstep
  have howners := hok.owners
  refine ⟨?_, fun n => ?_, fun i => ⟨hok.rd i, hok.wr i⟩, hok.free⟩
  · omega
  · omega

/-- Thread 0 writes and thread 1 waits to read. -/
theorem rwlock_owners_counted_writer : ∃ s : RwState (Fin 2), (rwMachine (Fin 2)).Reachable s ∧
    s.lock.count = -1 ∧ threadsAt s.pc .writes = 1 ∧ threadsAt s.pc .reads = 0 ∧
      s.pc 1 = .waitsRead ∧ s.lock.rdWaitQueue.count 1 = 1 := by
  let start : RwState (Fin 2) := ⟨⟨0, [], []⟩, fun _ => .idle⟩
  have hreach : (rwMachine (Fin 2)).Reachable
      ⟨⟨-1, [1], []⟩, Function.update (Function.update start.pc 0 .writes) 1 .waitsRead⟩ :=
    Machine.Reachable.run (.init ⟨rfl, fun _ => rfl⟩) (s := start) [.wrlock 0, .rdlock 1] rfl
  obtain ⟨howner, -, hqueues, -⟩ := rwlock_owners_counted hreach
  obtain ⟨hwrites, hreads⟩ := howner.mp rfl
  exact ⟨_, hreach, rfl, hwrites, hreads, rfl, (hqueues 1).1⟩

end Almos.Rwlock
