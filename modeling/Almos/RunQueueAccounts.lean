import Mathlib
import Almos.RunQueue

/-!
# The counters of the run queues

Each function links one thread, takes one away or moves one, so the threads that are linked change by
a permutation and one thread. What the counters say follows from the lengths.
-/
namespace Almos.Rr

lemma inc_of_lt {w x : ℕ} (h : x + 1 < 2 ^ w) : inc w x = x + 1 := if_pos h

lemma dec_succ (w x : ℕ) : dec w (x + 1) = x := if_neg (Nat.succ_ne_zero x)

variable {ι : Type*}

def RrState.queued (s : RrState ι) : List ι :=
  s.rQueues.kthreads ++ (s.rQueues.runnable ++ s.rQueues.migrate)

/-- The counters are the lengths of the lists. -/
structure Accounts (s : RrState ι) : Prop where
  count : s.count =
    s.rQueues.kthreads.length + s.rQueues.runnable.length + s.rQueues.migrate.length
  runnable : s.rQueues.uRunnable = s.rQueues.runnable.length
  migrate : s.rQueues.mRunnable = s.rQueues.migrate.length
  kthreads : s.scheduler.kRunnable = s.rQueues.kthreads.length
  users : s.scheduler.uRunnable = s.rQueues.runnable.length + s.rQueues.migrate.length

section
variable {s t : RrState ι} {i : ι} {first : Bool}

@[simp] lemma enqueue_threads : (s.enqueue i first).threads = s.threads := by
  simp only [RrState.enqueue]
  split <;> rfl

@[simp] lemma enqueue_current : (s.enqueue i first).current = s.current := by
  simp only [RrState.enqueue]
  split <;> rfl

@[simp] lemma enqueue_registered : (s.enqueue i first).registered = s.registered := by
  simp only [RrState.enqueue]
  split <;> rfl

@[simp] lemma enqueue_created : (s.enqueue i first).created = s.created := by
  simp only [RrState.enqueue]
  split <;> rfl

lemma queued_length : s.queued.length =
    s.rQueues.kthreads.length + s.rQueues.runnable.length + s.rQueues.migrate.length := by
  rw [RrState.queued, List.length_append, List.length_append, Nat.add_assoc]

lemma queued_enqueue : (s.enqueue i first).queued.Perm (i :: s.queued) := by
  by_cases htype : (s.threads i).type = .kthread
  · simp only [RrState.enqueue, if_pos htype, RrState.queued, List.append_assoc]
    exact List.perm_middle
  · simp only [RrState.enqueue, if_neg htype, RrState.queued]
    have hrunnable : (if first = true then i :: s.rQueues.runnable
        else s.rQueues.runnable ++ [i]).Perm (i :: s.rQueues.runnable) := by
      split_ifs
      · exact List.Perm.refl _
      · exact List.perm_append_singleton i _
    exact ((hrunnable.append_right _).append_left _).trans List.perm_middle

lemma Accounts.congr (h : Accounts s) (hcount : t.count = s.count) (hqueues : t.rQueues = s.rQueues)
    (huser : t.scheduler.uRunnable = s.scheduler.uRunnable)
    (hkernel : t.scheduler.kRunnable = s.scheduler.kRunnable) : Accounts t := by
  constructor
  · rw [hcount, hqueues, h.count]
  · rw [hqueues, h.runnable]
  · rw [hqueues, h.migrate]
  · rw [hkernel, hqueues, h.kthreads]
  · rw [huser, hqueues, h.users]

lemma Accounts.enqueue (h : Accounts s) (hroom : s.queued.length + 1 < 2 ^ 16) :
    Accounts (s.enqueue i first) := by
  have hlength := queued_length (s := s)
  have hcount : inc 32 s.count = s.count + 1 := inc_of_lt (by rw [h.count]; omega)
  by_cases htype : (s.threads i).type = .kthread
  · have hkernel : inc 16 s.scheduler.kRunnable = s.scheduler.kRunnable + 1 :=
      inc_of_lt (by rw [h.kthreads]; omega)
    simp only [RrState.enqueue, if_pos htype]
    constructor
    · show inc 32 s.count = (s.rQueues.kthreads ++ [i]).length + s.rQueues.runnable.length +
        s.rQueues.migrate.length
      rw [hcount, h.count, List.length_append, List.length_singleton]
      omega
    · exact h.runnable
    · exact h.migrate
    · rw [hkernel, h.kthreads, List.length_append, List.length_singleton]
    · exact h.users
  · have huser : inc 16 s.scheduler.uRunnable = s.scheduler.uRunnable + 1 :=
      inc_of_lt (by rw [h.users]; omega)
    have hrun : inc 32 s.rQueues.uRunnable = s.rQueues.uRunnable + 1 :=
      inc_of_lt (by rw [h.runnable]; omega)
    have hnew : (if first = true then i :: s.rQueues.runnable
        else s.rQueues.runnable ++ [i]).length = s.rQueues.runnable.length + 1 := by
      split_ifs <;> simp
    simp only [RrState.enqueue, if_neg htype]
    constructor
    · show inc 32 s.count = s.rQueues.kthreads.length + (if first = true then i :: s.rQueues.runnable
        else s.rQueues.runnable ++ [i]).length + s.rQueues.migrate.length
      rw [hnew, hcount, h.count]
      omega
    · exact (hrun.trans (by rw [h.runnable])).trans hnew.symm
    · exact h.migrate
    · exact h.kthreads
    · show inc 16 s.scheduler.uRunnable = (if first = true then i :: s.rQueues.runnable
        else s.rQueues.runnable ++ [i]).length + s.rQueues.migrate.length
      rw [hnew, huser, h.users]
      omega

variable [DecidableEq ι]

@[simp] lemma setThread_threads (thread : Thread) :
    (s.setThread i thread).threads = Function.update s.threads i thread := rfl

@[simp] lemma setThread_queued (thread : Thread) : (s.setThread i thread).queued = s.queued := rfl

lemma Accounts.take (h : Accounts s) (hroom : s.queued.length < 2 ^ 16) :
    (∃ elected u, rrTake s = some (u, some elected) ∧ Accounts u ∧
        s.queued.Perm (elected :: u.queued) ∧ u.current = s.current ∧
        u.registered = s.registered ∧ u.created = s.created ∧
        u.threads = Function.update s.threads elected
          { s.threads elected with forcedYield := false }) ∨
      s.queued = [] ∧ rrTake s = some (s, none) := by
  have hlength := queued_length (s := s)
  have hcount := h.count
  have hrunnable := h.runnable
  have hmigrate := h.migrate
  have hkthreads := h.kthreads
  have husers := h.users
  by_cases hpos : 0 < s.count
  · left
    rw [rrTake, if_pos hpos]
    cases hk : s.rQueues.kthreads with
    | cons elected rest =>
      simp only [hk, List.length_cons] at hlength hcount hkthreads
      refine ⟨elected, _, rfl, ?_, ?_, rfl, rfl, rfl, rfl⟩
      · have hdec : dec 16 s.scheduler.kRunnable = rest.length := by
          rw [hkthreads]
          exact dec_succ _ _
        have hsum : s.count = rest.length + s.rQueues.runnable.length +
          s.rQueues.migrate.length + 1 := by omega
        constructor
        · show dec 32 s.count = _
          rw [hsum]
          exact dec_succ _ _
        · exact hrunnable
        · exact hmigrate
        · exact hdec
        · exact husers
      · rw [RrState.queued, hk]
        exact List.Perm.refl _
    | nil =>
      simp only [hk, List.length_nil, Nat.zero_add] at hlength hcount
      cases hm : s.rQueues.migrate with
      | cons elected rest =>
        simp only [hm, List.length_cons] at hlength hcount hmigrate husers
        refine ⟨elected, _, rfl, ?_, ?_, rfl, rfl, rfl, rfl⟩
        · have hsum : s.count = s.rQueues.runnable.length + rest.length + 1 := by omega
          have husum : s.scheduler.uRunnable = s.rQueues.runnable.length + rest.length + 1 := by
            omega
          constructor
          · show dec 32 s.count = s.rQueues.kthreads.length + _ + _
            rw [hsum, hk, List.length_nil, Nat.zero_add]
            exact dec_succ _ _
          · exact hrunnable
          · show dec 32 s.rQueues.mRunnable = rest.length
            rw [hmigrate]
            exact dec_succ _ _
          · exact hkthreads
          · show dec 16 s.scheduler.uRunnable = _
            rw [husum]
            exact dec_succ _ _
        · simp only [RrState.queued, hk, hm, List.nil_append]
          exact List.perm_middle
      | nil =>
        simp only [hm, List.length_nil, Nat.add_zero] at hlength hcount husers
        cases hr : s.rQueues.runnable with
        | cons elected rest =>
          simp only [hr, List.length_cons] at hlength hcount hrunnable husers
          refine ⟨elected, _, rfl, ?_, ?_, rfl, rfl, rfl, rfl⟩
          · constructor
            · show dec 32 s.count = s.rQueues.kthreads.length + _ + s.rQueues.migrate.length
              rw [hcount, hk, hm, List.length_nil, Nat.zero_add, Nat.add_zero]
              exact dec_succ _ _
            · show dec 32 s.rQueues.uRunnable = rest.length
              rw [hrunnable]
              exact dec_succ _ _
            · exact hmigrate
            · exact hkthreads
            · show dec 16 s.scheduler.uRunnable = rest.length + s.rQueues.migrate.length
              rw [husers, hm, List.length_nil, Nat.add_zero]
              exact dec_succ _ _
          · simp [RrState.queued, RrState.setThread, hk, hm, hr]
        | nil =>
          rw [hr, List.length_nil] at hcount
          omega
  · right
    have hnil : s.queued = [] := by
      apply List.eq_nil_of_length_eq_zero
      omega
    exact ⟨hnil, by rw [rrTake, if_neg hpos]⟩

/-- Balancing changes priorities only, and picks the running thread or one of the list. -/
lemma rrVictim_spec {threads threads' : ι → Thread} {victim victim' : ι} {max max' : ℤ} {list : List ι}
    (h : rrVictim threads victim max list = (threads', victim', max')) :
    (∀ j, (threads' j).type = (threads j).type ∧ (threads' j).state = (threads j).state) ∧
      (victim' = victim ∨ victim' ∈ list) := by
  induction list generalizing threads victim max with
  | nil =>
    cases h
    exact ⟨fun _ => ⟨rfl, rfl⟩, .inl rfl⟩
  | cons thread rest ih =>
    rw [rrVictim] at h
    have hkeep : ∀ j, (Function.update threads thread
        { threads thread with boostedPrio := (threads thread).boostedPrio >>> 1 } j).type =
          (threads j).type ∧
        (Function.update threads thread
        { threads thread with boostedPrio := (threads thread).boostedPrio >>> 1 } j).state =
          (threads j).state := by
      intro j
      by_cases hj : j = thread
      · subst hj
        rw [Function.update_self]
        exact ⟨rfl, rfl⟩
      · rw [Function.update_of_ne hj]
        exact ⟨rfl, rfl⟩
    split_ifs at h
    · obtain ⟨hthreads, hvictim⟩ := ih h
      exact ⟨hthreads, hvictim.imp_right (List.mem_cons_of_mem _)⟩
    · obtain ⟨hthreads, hvictim⟩ := ih h
      refine ⟨fun j => ⟨(hthreads j).1.trans (hkeep j).1, (hthreads j).2.trans (hkeep j).2⟩, .inr ?_⟩
      rcases hvictim with rfl | hmem
      · exact List.mem_cons_self
      · exact List.mem_cons_of_mem _ hmem
    · obtain ⟨hthreads, hvictim⟩ := ih h
      exact ⟨fun j => ⟨(hthreads j).1.trans (hkeep j).1, (hthreads j).2.trans (hkeep j).2⟩,
        hvictim.imp_right (List.mem_cons_of_mem _)⟩

structure Same (s t : RrState ι) : Prop where
  type : ∀ j, (t.threads j).type = (s.threads j).type
  state : ∀ j, (t.threads j).state = (s.threads j).state
  current : t.current = s.current
  registered : t.registered = s.registered
  created : t.created = s.created

omit [DecidableEq ι] in
lemma Same.trans {u : RrState ι} (h : Same s t) (h' : Same t u) : Same s u where
  type j := (h'.type j).trans (h.type j)
  state j := (h'.state j).trans (h.state j)
  current := h'.current.trans h.current
  registered := h'.registered.trans h.registered
  created := h'.created.trans h.created

lemma Same.setThread {thread : Thread} (htype : thread.type = (s.threads i).type)
    (hstate : thread.state = (s.threads i).state) : Same s (s.setThread i thread) := by
  refine ⟨fun j => ?_, fun j => ?_, rfl, rfl, rfl⟩
  · by_cases hj : j = i
    · rw [hj, setThread_threads, Function.update_self, htype]
    · rw [setThread_threads, Function.update_of_ne hj]
  · by_cases hj : j = i
    · rw [hj, setThread_threads, Function.update_self, hstate]
    · rw [setThread_threads, Function.update_of_ne hj]

lemma Accounts.balance (h : Accounts s) (hroom : s.queued.length < 2 ^ 16) :
    Accounts (rrSchedLoadBalance s) ∧ (rrSchedLoadBalance s).queued.Perm s.queued ∧
      Same s (rrSchedLoadBalance s) := by
  have hlength := queued_length (s := s)
  have hset : Same s (s.setThread s.current
      { s.threads s.current with boostedPrio := (s.threads s.current).boostedPrio >>> 1 }) :=
    .setThread rfl rfl
  simp only [rrSchedLoadBalance]
  generalize (if ¬(s.threads s.current).exported = true ∧ (s.threads s.current).migrationEnabled = true
    then (s.threads s.current).boostedPrio else -1) = max
  cases hvictim : rrVictim (s.setThread s.current { s.threads s.current with
      boostedPrio := (s.threads s.current).boostedPrio >>> 1 }).threads s.current max
      (s.setThread s.current { s.threads s.current with
        boostedPrio := (s.threads s.current).boostedPrio >>> 1 }).rQueues.runnable with
  | mk threads rest =>
    obtain ⟨victim, max'⟩ := rest
    obtain ⟨hthreads, hmem⟩ := rrVictim_spec hvictim
    have hsame : Same s { s with threads } :=
      hset.trans ⟨fun j => (hthreads j).1, fun j => (hthreads j).2, rfl, rfl, rfl⟩
    simp only
    split_ifs with hmove
    · have hrun : victim ∈ s.rQueues.runnable := hmem.resolve_left hmove.2.2
      have herase := List.length_erase_of_mem hrun
      have hpos : 0 < s.rQueues.runnable.length := List.length_pos_of_mem hrun
      have hinc : inc 32 s.rQueues.mRunnable = s.rQueues.mRunnable + 1 :=
        inc_of_lt (by rw [h.migrate]; omega)
      have hdec : dec 32 s.rQueues.uRunnable = s.rQueues.runnable.length - 1 := by
        have hsucc : s.rQueues.uRunnable = s.rQueues.runnable.length - 1 + 1 := by
          rw [h.runnable]
          omega
        rw [hsucc]
        exact dec_succ _ _
      refine ⟨⟨?_, ?_, ?_, h.kthreads, ?_⟩, ?_,
        ⟨hsame.type, hsame.state, rfl, rfl, rfl⟩⟩
      · show s.count = s.rQueues.kthreads.length + (s.rQueues.runnable.erase victim).length +
          (s.rQueues.migrate ++ [victim]).length
        rw [h.count, herase, List.length_append, List.length_singleton]
        omega
      · exact hdec.trans herase.symm
      · show inc 32 s.rQueues.mRunnable = (s.rQueues.migrate ++ [victim]).length
        rw [hinc, h.migrate, List.length_append, List.length_singleton]
      · show s.scheduler.uRunnable = (s.rQueues.runnable.erase victim).length +
          (s.rQueues.migrate ++ [victim]).length
        rw [h.users, herase, List.length_append, List.length_singleton]
        omega
      · show (s.rQueues.kthreads ++ (s.rQueues.runnable.erase victim ++
          (s.rQueues.migrate ++ [victim]))).Perm (s.rQueues.kthreads ++
            (s.rQueues.runnable ++ s.rQueues.migrate))
        refine List.Perm.append_left _ ?_
        have hfront : (victim :: s.rQueues.runnable.erase victim).Perm s.rQueues.runnable :=
          (List.perm_cons_erase hrun).symm
        have hback : (s.rQueues.migrate ++ [victim]).Perm (victim :: s.rQueues.migrate) :=
          List.perm_append_singleton _ _
        exact ((hback.append_left _).trans List.perm_middle).trans (hfront.append_right _)
    · exact ⟨h.congr rfl rfl rfl rfl, List.Perm.refl _, hsame⟩

lemma Accounts.clock (h : Accounts s) (hroom : s.queued.length < 2 ^ 16) (balance : Bool) :
    Accounts (rrClockBalancing s balance) ∧ (rrClockBalancing s balance).queued.Perm s.queued ∧
      Same s (rrClockBalancing s balance) := by
  have hset : ∀ {u : RrState ι} (q : ℤ) (c : Prop) [Decidable c],
      Accounts u → Accounts (if c then u.setThread u.current { u.threads u.current with quantum := q }
        else u) ∧
      (if c then u.setThread u.current { u.threads u.current with quantum := q } else u).queued =
        u.queued ∧
      Same u (if c then u.setThread u.current { u.threads u.current with quantum := q } else u) := by
    intro u q c _ hu
    split_ifs
    · exact ⟨hu.congr rfl rfl rfl rfl, rfl, .setThread rfl rfl⟩
    · exact ⟨hu, rfl, ⟨fun _ => rfl, fun _ => rfl, rfl, rfl, rfl⟩⟩
  obtain ⟨hacc, hqueued, hsame⟩ := hset ((s.threads s.current).quantum - 1)
    (0 < (s.threads s.current).quantum) h
  simp only [rrClockBalancing]
  generalize (if 0 < (s.threads s.current).quantum then s.setThread s.current
    { s.threads s.current with quantum := (s.threads s.current).quantum - 1 } else s) = u
    at hacc hqueued hsame ⊢
  have hmid : Accounts (if balance = true then rrSchedLoadBalance u else u) ∧
      (if balance = true then rrSchedLoadBalance u else u).queued.Perm s.queued ∧
      Same s (if balance = true then rrSchedLoadBalance u else u) := by
    split_ifs
    · obtain ⟨hacc', hperm, hsame'⟩ := hacc.balance (by rw [hqueued]; exact hroom)
      exact ⟨hacc', hqueued ▸ hperm, hsame.trans hsame'⟩
    · exact ⟨hacc, by rw [hqueued], hsame⟩
  generalize (if balance = true then rrSchedLoadBalance u else u) = v at hmid ⊢
  obtain ⟨hacc', hperm, hsame'⟩ := hmid
  obtain ⟨hacc'', hqueued', hsame''⟩ :=
    hset 0 (0 < v.rQueues.mRunnable ∧ ¬(v.threads v.current).exported = true) hacc'
  exact ⟨hacc'', by rw [hqueued']; exact hperm, hsame'.trans hsame''⟩

end

variable [DecidableEq ι] {cpu : RrCpu ι} {s t : RrState ι} {i : ι}

/-- Where the threads are. A registered thread that was added is linked, sleeps or runs. -/
structure RrOk (cpu : RrCpu ι) (s : RrState ι) : Prop where
  accounts : Accounts s
  nodup : s.queued.Nodup
  queued : ∀ i ∈ s.queued, i ∈ s.registered ∧ i ∉ s.created ∧
    ((s.threads i).state = .create ∨ (s.threads i).state = .ready)
  added : ∀ i ∈ s.registered, i ∉ s.created → i ∈ s.queued ∨ (s.threads i).state = .wait ∨
    i = s.current ∧ ((s.threads i).state = .usr ∨ (s.threads i).state = .kernel)
  created : ∀ i ∈ s.created, i ∈ s.registered ∧ (s.threads i).state = .create
  createdNodup : s.created.Nodup
  registered : s.registered.Nodup
  le : s.registered.length ≤ cpu.schedThreadsNr
  type : ∀ i ∈ s.registered, (s.threads i).type ≠ .idle
  idle : cpu.threadIdle ∉ s.registered ∧ (s.threads cpu.threadIdle).type = .idle
  current : (s.threads s.current).type ≠ .idle → (s.threads s.current).state ≠ .dead →
    s.current ∈ s.registered ∧ s.current ∉ s.created
  asleep : (s.threads s.current).type = .idle → (s.threads s.current).state = .kernel
  begun : (s.threads s.current).state ≠ .create

namespace RrOk

omit [DecidableEq ι] in
lemma length_lt (h : RrOk cpu s) : s.queued.length < 2 ^ 16 := by
  have hsub : s.queued.length ≤ s.registered.length :=
    (h.nodup.subperm fun i hi => (h.queued i hi).1).length_le
  exact lt_of_le_of_lt (hsub.trans h.le) cpu.schedThreadsNr_lt

omit [DecidableEq ι] in
lemma room (h : RrOk cpu s) (hreg : i ∈ s.registered) (hnot : i ∉ s.queued) :
    s.queued.length + 1 < 2 ^ 16 := by
  have hnodup : (i :: s.queued).Nodup := List.nodup_cons.mpr ⟨hnot, h.nodup⟩
  have hsub : (i :: s.queued).length ≤ s.registered.length := by
    refine (hnodup.subperm fun j hj => ?_).length_le
    rcases List.mem_cons.mp hj with rfl | hmem
    · exact hreg
    · exact (h.queued j hmem).1
  exact lt_of_le_of_lt (hsub.trans h.le) cpu.schedThreadsNr_lt

omit [DecidableEq ι] in
lemma congr (h : RrOk cpu s) (hsame : Same s t) (hacc : Accounts t) (hperm : t.queued.Perm s.queued) :
    RrOk cpu t where
  accounts := hacc
  nodup := hperm.nodup_iff.mpr h.nodup
  queued i hi := by
    rw [hsame.registered, hsame.created, hsame.state]
    exact h.queued i (hperm.mem_iff.mp hi)
  added i hi hnot := by
    rw [hperm.mem_iff, hsame.state, hsame.current]
    exact h.added i (hsame.registered ▸ hi) (hsame.created ▸ hnot)
  created i hi := by
    rw [hsame.registered, hsame.state]
    exact h.created i (hsame.created ▸ hi)
  createdNodup := hsame.created ▸ h.createdNodup
  registered := hsame.registered ▸ h.registered
  le := hsame.registered ▸ h.le
  type i hi := by
    rw [hsame.type]
    exact h.type i (hsame.registered ▸ hi)
  idle := by
    rw [hsame.registered, hsame.type]
    exact h.idle
  current := by
    rw [hsame.current, hsame.type, hsame.state, hsame.registered, hsame.created]
    exact h.current
  asleep := by
    rw [hsame.current, hsame.type, hsame.state]
    exact h.asleep
  begun := by
    rw [hsame.current, hsame.state]
    exact h.begun

lemma link (h : RrOk cpu s) (hperm : t.queued.Perm (i :: s.queued)) (hacc : Accounts t)
    (hreg : i ∈ s.registered) (hnot : i ∉ s.queued)
    (hothers : ∀ j, j ≠ i → (t.threads j).state = (s.threads j).state)
    (htype : ∀ j, (t.threads j).type = (s.threads j).type)
    (hi : (t.threads i).state = .create ∨ (t.threads i).state = .ready)
    (hbegun : i = s.current → (t.threads i).state = .ready)
    (hregistered : t.registered = s.registered) (hcreated : t.created = s.created.erase i)
    (hcurrent : t.current = s.current) : RrOk cpu t := by
  have hidle : i ≠ cpu.threadIdle := by
    rintro rfl
    exact h.idle.1 hreg
  have hmem : ∀ {j}, j ≠ i → (j ∈ t.created ↔ j ∈ s.created) := by
    intro j hj
    rw [hcreated, List.mem_erase_of_ne hj]
  have hnotmem : i ∉ t.created := by
    rw [hcreated]
    exact h.createdNodup.not_mem_erase
  constructor
  · exact hacc
  · exact hperm.nodup_iff.mpr (List.nodup_cons.mpr ⟨hnot, h.nodup⟩)
  · intro j hj
    rw [hregistered]
    rcases List.mem_cons.mp (hperm.mem_iff.mp hj) with rfl | hold
    · exact ⟨hreg, hnotmem, hi⟩
    · have hji : j ≠ i := by
        rintro rfl
        exact hnot hold
      rw [hmem hji, hothers j hji]
      exact h.queued j hold
  · intro j hj hnotj
    rw [hregistered] at hj
    by_cases hji : j = i
    · exact .inl (hperm.mem_iff.mpr (hji ▸ List.mem_cons_self))
    · rw [hmem hji] at hnotj
      rw [hothers j hji, hcurrent]
      exact (h.added j hj hnotj).imp_left fun hold => hperm.mem_iff.mpr (List.mem_cons_of_mem _ hold)
  · intro j hj
    have hji : j ≠ i := by
      rintro rfl
      exact hnotmem hj
    rw [hmem hji] at hj
    rw [hregistered, hothers j hji]
    exact h.created j hj
  · rw [hcreated]
    exact h.createdNodup.erase i
  · rw [hregistered]
    exact h.registered
  · rw [hregistered]
    exact h.le
  · intro j hj
    rw [htype]
    exact h.type j (hregistered ▸ hj)
  · rw [hregistered, htype]
    exact h.idle
  · intro htypeCurrent hstate
    rw [hcurrent] at htypeCurrent hstate ⊢
    rw [htype] at htypeCurrent
    rw [hregistered]
    by_cases hji : s.current = i
    · rw [hji]
      exact ⟨hreg, hnotmem⟩
    · rw [hmem hji]
      rw [hothers _ hji] at hstate
      exact h.current htypeCurrent hstate
  · intro htypeCurrent
    rw [hcurrent] at htypeCurrent ⊢
    rw [htype] at htypeCurrent
    have hji : s.current ≠ i := by
      intro hji
      exact h.type i hreg (hji ▸ htypeCurrent)
    rw [hothers _ hji]
    exact h.asleep htypeCurrent
  · rw [hcurrent]
    by_cases hji : i = s.current
    · rw [← hji, hbegun hji]
      decide
    · rw [hothers _ (Ne.symm hji)]
      exact h.begun

omit [DecidableEq ι] in
lemma not_queued (h : RrOk cpu s) (hcreate : (s.threads i).state ≠ .create)
    (hready : (s.threads i).state ≠ .ready) : i ∉ s.queued := by
  intro hi
  exact (h.queued i hi).2.2.elim hcreate hready

lemma setCurrent (h : RrOk cpu s) {state : ThreadState}
    (hold : (s.threads s.current).state = .usr ∨ (s.threads s.current).state = .kernel)
    (htype : (s.threads s.current).type ≠ .idle)
    (hnew : state = .wait ∨ state = .usr ∨ state = .kernel) :
    RrOk cpu (s.setState s.current state) := by
  have hnot : s.current ∉ s.queued := by
    apply h.not_queued <;> rcases hold with hold | hold <;> rw [hold] <;> decide
  have hdead : (s.threads s.current).state ≠ .dead := by
    rcases hold with hold | hold <;> rw [hold] <;> decide
  obtain ⟨hreg, hcreated⟩ := h.current htype hdead
  have hself : ((s.setState s.current state).threads s.current).state = state := by
    simp [RrState.setState]
  have hother : ∀ {j}, j ≠ s.current →
      (s.setState s.current state).threads j = s.threads j := fun hj => Function.update_of_ne hj _ _
  have htypes : ∀ j, ((s.setState s.current state).threads j).type = (s.threads j).type := by
    intro j
    by_cases hj : j = s.current
    · simp [RrState.setState, hj]
    · rw [hother hj]
  constructor
  · exact h.accounts.congr rfl rfl rfl rfl
  · exact h.nodup
  · intro j hj
    have hne : j ≠ s.current := by
      rintro rfl
      exact hnot hj
    rw [hother hne]
    exact h.queued j hj
  · intro j hj hnotj
    by_cases hji : j = s.current
    · subst hji
      rw [hself]
      exact .inr (hnew.imp_right fun hrun => ⟨rfl, hrun⟩)
    · rw [hother hji]
      exact h.added j hj hnotj
  · intro j hj
    have hne : j ≠ s.current := by
      rintro rfl
      exact hcreated hj
    rw [hother hne]
    exact h.created j hj
  · exact h.createdNodup
  · exact h.registered
  · exact h.le
  · intro j hj
    rw [htypes]
    exact h.type j hj
  · rw [htypes]
    exact h.idle
  · exact fun _ _ => ⟨hreg, hcreated⟩
  · intro hidle
    exact absurd ((htypes s.current).symm.trans hidle) htype
  · rw [show (s.setState s.current state).current = s.current from rfl, hself]
    rcases hnew with rfl | rfl | rfl <;> decide

lemma leave (h : RrOk cpu s) (th : Thread) (hold : (s.threads s.current).state = .kernel)
    (htype : (s.threads s.current).type ≠ .idle) (hdead : th.state = .dead) (hth : th.type ≠ .idle)
    (hqueues : t.rQueues = s.rQueues) (hcount : t.count = s.count)
    (huser : t.scheduler.uRunnable = s.scheduler.uRunnable)
    (hkernel : t.scheduler.kRunnable = s.scheduler.kRunnable)
    (hthreads : t.threads = Function.update s.threads s.current th)
    (hregistered : t.registered = s.registered.erase s.current) (hcreated : t.created = s.created)
    (hcurrent : t.current = s.current) : RrOk cpu t := by
  have hnot : s.current ∉ s.queued := by
    apply h.not_queued <;> rw [hold] <;> decide
  obtain ⟨hreg, hnotCreated⟩ := h.current htype (by rw [hold]; decide)
  have hqueued : t.queued = s.queued := by rw [RrState.queued, hqueues, RrState.queued]
  have hself : t.threads s.current = th := by rw [hthreads, Function.update_self]
  have hother : ∀ {j}, j ≠ s.current → t.threads j = s.threads j := by
    intro j hj
    rw [hthreads, Function.update_of_ne hj]
  have hmem : ∀ {j}, j ∈ t.registered → j ≠ s.current ∧ j ∈ s.registered := by
    intro j hj
    rw [hregistered] at hj
    exact h.registered.mem_erase_iff.mp hj
  have hidle : cpu.threadIdle ≠ s.current := by
    intro heq
    exact h.idle.1 (heq ▸ hreg)
  constructor
  · exact h.accounts.congr hcount hqueues huser hkernel
  · rw [hqueued]
    exact h.nodup
  · intro j hj
    rw [hqueued] at hj
    have hne : j ≠ s.current := by
      rintro rfl
      exact hnot hj
    rw [hother hne, hcreated, hregistered, h.registered.mem_erase_iff]
    exact ⟨⟨hne, (h.queued j hj).1⟩, (h.queued j hj).2⟩
  · intro j hj hnotj
    obtain ⟨hne, hold'⟩ := hmem hj
    rw [hother hne, hqueued, hcurrent]
    exact h.added j hold' (hcreated ▸ hnotj)
  · intro j hj
    rw [hcreated] at hj
    have hne : j ≠ s.current := by
      rintro rfl
      exact hnotCreated hj
    rw [hother hne, hregistered, h.registered.mem_erase_iff]
    exact ⟨⟨hne, (h.created j hj).1⟩, (h.created j hj).2⟩
  · exact hcreated ▸ h.createdNodup
  · rw [hregistered]
    exact h.registered.erase _
  · rw [hregistered]
    exact List.length_erase_le.trans h.le
  · intro j hj
    obtain ⟨hne, hold'⟩ := hmem hj
    rw [hother hne]
    exact h.type j hold'
  · refine ⟨fun hj => h.idle.1 (hmem hj).2, ?_⟩
    rw [hother hidle]
    exact h.idle.2
  · intro _ hstate
    rw [hcurrent, hself] at hstate
    exact absurd hdead hstate
  · intro hidleType
    rw [hcurrent, hself] at hidleType
    exact absurd hidleType hth
  · rw [hcurrent, hself, hdead]
    decide

lemma register (h : RrOk cpu s) {th : Thread} (hnew : i ∉ s.registered) (hcurrent : i ≠ s.current)
    (hidle : i ≠ cpu.threadIdle) (htype : th.type ≠ .idle)
    (hroom : s.registered.length < cpu.schedThreadsNr) :
    RrOk cpu { s.setThread i { th with state := .create } with
      registered := i :: s.registered
      created := i :: s.created } := by
  have hother : ∀ {j}, j ≠ i →
      Function.update s.threads i { th with state := .create } j = s.threads j :=
    fun hj => Function.update_of_ne hj _ _
  constructor
  · exact h.accounts.congr rfl rfl rfl rfl
  · exact h.nodup
  · intro j hj
    obtain ⟨hreg, hcreated, hstate⟩ := h.queued j hj
    have hne : j ≠ i := by
      rintro rfl
      exact hnew hreg
    simp only [setThread_threads, hother hne, List.mem_cons, hne, false_or]
    exact ⟨hreg, hcreated, hstate⟩
  · intro j hj hnotj
    have hne : j ≠ i := by
      rintro rfl
      exact hnotj List.mem_cons_self
    simp only [List.mem_cons, hne, false_or] at hj hnotj
    simp only [setThread_threads, hother hne]
    exact h.added j hj hnotj
  · intro j hj
    by_cases hji : j = i
    · subst hji
      exact ⟨List.mem_cons_self, by simp⟩
    · simp only [List.mem_cons, hji, false_or] at hj
      simp only [setThread_threads, hother hji]
      exact ⟨List.mem_cons_of_mem _ (h.created j hj).1, (h.created j hj).2⟩
  · exact List.nodup_cons.mpr ⟨fun hi => hnew (h.created i hi).1, h.createdNodup⟩
  · exact List.nodup_cons.mpr ⟨hnew, h.registered⟩
  · exact hroom
  · intro j hj
    by_cases hji : j = i
    · subst hji
      simpa using htype
    · simp only [List.mem_cons, hji, false_or] at hj
      simp only [setThread_threads, hother hji]
      exact h.type j hj
  · simp only [setThread_threads, hother hidle.symm, List.mem_cons, hidle.symm, false_or]
    exact h.idle
  · intro htypeCurrent hstate
    simp only [RrState.setThread, hother hcurrent.symm] at htypeCurrent hstate
    obtain ⟨hreg, hnotCreated⟩ := h.current htypeCurrent hstate
    refine ⟨List.mem_cons_of_mem _ hreg, ?_⟩
    simp only [RrState.setThread, List.mem_cons, hcurrent.symm, false_or]
    exact hnotCreated
  · intro htypeCurrent
    simp only [RrState.setThread, hother hcurrent.symm] at htypeCurrent ⊢
    exact h.asleep htypeCurrent
  · simp only [RrState.setThread, hother hcurrent.symm]
    exact h.begun

lemma enqueue (h : RrOk cpu s) (th : Thread) (first : Bool) (hreg : i ∈ s.registered)
    (hnot : i ∉ s.queued) (htype : th.type = (s.threads i).type)
    (hstate : th.state = .create ∨ th.state = .ready) (hbegun : i = s.current → th.state = .ready) :
    RrOk cpu { (s.setThread i th).enqueue i first with created := s.created.erase i } := by
  have hacc : Accounts ((s.setThread i th).enqueue i first) :=
    (h.accounts.congr (t := s.setThread i th) rfl rfl rfl rfl).enqueue (h.room hreg hnot)
  refine h.link (i := i) queued_enqueue (hacc.congr rfl rfl rfl rfl) hreg hnot ?_ ?_ ?_ ?_ ?_ rfl ?_
  · intro j hj
    simp [hj]
  · intro j
    by_cases hj : j = i
    · simp [hj, htype]
    · simp [hj]
  · simpa using hstate
  · simpa using hbegun
  · simp [RrState.setThread]
  · simp [RrState.setThread]

lemma wakeup (h : RrOk cpu s) (hreg : i ∈ s.registered)
    (hstate : (s.threads i).state = .wait ∨ (s.threads i).state = .ready) :
    RrOk cpu (rrWakeup s i) := by
  rcases hstate with hwait | hready
  · have hnot : i ∉ s.queued := by
      apply h.not_queued <;> rw [hwait] <;> decide
    have hcreated : i ∉ s.created := by
      intro hi
      have hstate := (h.created i hi).2
      rw [hwait] at hstate
      cases hstate
    have hlink := h.enqueue { s.threads i with state := .ready } false hreg hnot rfl
      (.inr rfl) fun _ => rfl
    have hready : (s.threads i).state ≠ .ready := by
      rw [hwait]
      decide
    have hkeep : { (s.setState i .ready).enqueue i false with created := s.created.erase i } =
        (s.setState i .ready).enqueue i false := by
      rw [List.erase_of_not_mem hcreated]
      have hsame : ((s.setState i .ready).enqueue i false).created = s.created := by
        simp [RrState.setState, RrState.setThread]
      rw [← hsame]
    rw [rrWakeup, if_neg hready]
    change RrOk cpu { (s.setState i .ready).enqueue i false with created := s.created.erase i } at hlink
    rw [hkeep] at hlink
    simp only
    split_ifs
    · exact hlink.congr (.setThread rfl rfl) (hlink.accounts.congr rfl rfl rfl rfl) (List.Perm.refl _)
    · exact hlink
  · rw [rrWakeup, if_pos hready]
    exact h

/-- `rr_add_created` links the thread, and changes nothing else that is told here. -/
lemma addCreated_same : Same (s.enqueue i false) (rrAddCreated s i) ∧
    (rrAddCreated s i).rQueues = (s.enqueue i false).rQueues ∧
    (rrAddCreated s i).count = (s.enqueue i false).count ∧
    (rrAddCreated s i).scheduler.uRunnable = (s.enqueue i false).scheduler.uRunnable ∧
    (rrAddCreated s i).scheduler.kRunnable = (s.enqueue i false).scheduler.kRunnable := by
  have hset : ∀ {u : RrState ι} {th : Thread}, u.threads = (s.enqueue i false).threads →
      u.current = (s.enqueue i false).current → u.registered = (s.enqueue i false).registered →
      u.created = (s.enqueue i false).created → th.type = (u.threads i).type →
      th.state = (u.threads i).state → Same (s.enqueue i false) (u.setThread i th) := by
    intro u th hthreads hcurrent hregistered hcreated htype hstate
    have hsame : Same (s.enqueue i false) u :=
      ⟨fun j => by rw [hthreads], fun j => by rw [hthreads], hcurrent, hregistered, hcreated⟩
    exact hsame.trans (.setThread htype hstate)
  simp only [rrAddCreated]
  split_ifs
  · exact ⟨⟨fun _ => rfl, fun _ => rfl, rfl, rfl, rfl⟩, rfl, rfl, rfl, rfl⟩
  · exact ⟨hset rfl rfl rfl rfl rfl rfl, rfl, rfl, rfl, rfl⟩
  · exact ⟨hset rfl rfl rfl rfl rfl rfl, rfl, rfl, rfl, rfl⟩

lemma addCreated (h : RrOk cpu s) {state : ThreadState} (hi : i ∈ s.created)
    (hstate : state = .create ∨ state = .ready) :
    RrOk cpu { rrAddCreated (s.setState i state) i with created := s.created.erase i } := by
  have hreg := (h.created i hi).1
  have hnot : i ∉ s.queued := fun hq => (h.queued i hq).2.1 hi
  have hne : i ≠ s.current := by
    rintro rfl
    exact h.begun (h.created _ hi).2
  have hlink := h.enqueue { s.threads i with state } false hreg hnot rfl hstate
    fun heq => absurd heq hne
  obtain ⟨hsame, hqueues, hcount, huser, hkernel⟩ := addCreated_same (s := s.setState i state) (i := i)
  refine hlink.congr ⟨hsame.type, hsame.state, hsame.current, hsame.registered, rfl⟩
    (hlink.accounts.congr hcount hqueues huser hkernel) ?_
  simp only [RrState.queued, hqueues]
  exact List.Perm.refl _

lemma requeue (h : RrOk cpu s) (husr : (s.threads s.current).state ≠ .usr) :
    RrOk cpu (rrRequeue s) ∧
      (((rrRequeue s).threads (rrRequeue s).current).state = .usr ∨
        ((rrRequeue s).threads (rrRequeue s).current).state = .kernel →
        ((rrRequeue s).threads (rrRequeue s).current).type = .idle) ∧
      ((rrRequeue s).queued = [] → rrRequeue s = s) := by
  by_cases hrun : (s.threads s.current).type ≠ .idle ∧ (s.threads s.current).state = .kernel
  · obtain ⟨htype, hstate⟩ := hrun
    obtain ⟨hreg, hcreated⟩ := h.current htype (by rw [hstate]; decide)
    have hnot : s.current ∉ s.queued := by
      apply h.not_queued <;> rw [hstate] <;> decide
    have heq : ∃ (th : Thread) (first : Bool), th.type = (s.threads s.current).type ∧
        th.state = .ready ∧ rrRequeue s = (s.enqueue s.current first).setThread s.current th := by
      simp only [rrRequeue]
      rw [if_pos ⟨htype, hstate⟩]
      refine ⟨_, _, ?_, ?_, rfl⟩ <;> split_ifs <;> rfl
    obtain ⟨th, first, hthType, hthState, heq⟩ := heq
    have hacc : Accounts (s.enqueue s.current first) := h.accounts.enqueue (h.room hreg hnot)
    rw [heq]
    refine ⟨h.link (i := s.current) queued_enqueue (hacc.congr rfl rfl rfl rfl) hreg hnot ?_ ?_ ?_ ?_ ?_
      ?_ ?_, ?_, ?_⟩
    · intro j hj
      simp [hj]
    · intro j
      by_cases hj : j = s.current
      · simp [hj, hthType]
      · simp [hj]
    · simp [hthState]
    · simp [hthState]
    · simp [RrState.setThread]
    · simp [RrState.setThread, List.erase_of_not_mem hcreated]
    · simp [RrState.setThread]
    · simp [RrState.setThread, hthState]
    · intro hnil
      have hmem : s.current ∈ (s.enqueue s.current first).queued :=
        queued_enqueue.mem_iff.mpr List.mem_cons_self
      rw [setThread_queued] at hnil
      rw [hnil] at hmem
      cases hmem
  · have hsame : rrRequeue s = s := by
      simp only [rrRequeue]
      rw [if_neg hrun]
    rw [hsame]
    refine ⟨h, fun hstate => ?_, fun _ => rfl⟩
    by_contra htype
    exact hrun ⟨htype, hstate.resolve_left husr⟩

/-- The thread that is taken from its queue runs, where the current one does not run any more. -/
lemma run_elected {v : RrState ι} {next : ι} {state : ThreadState} (h : RrOk cpu s)
    (hrunning : ∀ {j}, j ∈ s.registered → j = s.current →
      ¬((s.threads j).state = .usr ∨ (s.threads j).state = .kernel))
    (hacc : Accounts v) (hperm : s.queued.Perm (next :: v.queued)) (hregistered : v.registered = s.registered)
    (hcreated : v.created = s.created)
    (hthreads : v.threads =
      Function.update s.threads next { s.threads next with forcedYield := false })
    (hrun : state = .usr ∨ state = .kernel) :
    RrOk cpu { v.setState next state with current := next } := by
  have hlinked : next ∈ s.queued := hperm.mem_iff.mpr List.mem_cons_self
  obtain ⟨hreg, hnotCreated, -⟩ := h.queued next hlinked
  have hnodup : (next :: v.queued).Nodup := hperm.nodup_iff.mp h.nodup
  have hnot : next ∉ v.queued := (List.nodup_cons.mp hnodup).1
  have hmem : ∀ {j}, j ≠ next → (j ∈ v.queued ↔ j ∈ s.queued) := by
    intro j hj
    rw [hperm.mem_iff, List.mem_cons, or_iff_right hj]
  have hself : ((v.setState next state).threads next).state = state := by
    simp [RrState.setState]
  have hother : ∀ {j}, j ≠ next → (v.setState next state).threads j = s.threads j := by
    intro j hj
    simp only [RrState.setState, setThread_threads, Function.update_of_ne hj, hthreads]
  have htypes : ∀ j, ((v.setState next state).threads j).type = (s.threads j).type := by
    intro j
    by_cases hj : j = next
    · simp [RrState.setState, hj, hthreads]
    · rw [hother hj]
  constructor
  · exact hacc.congr rfl rfl rfl rfl
  · exact (List.nodup_cons.mp hnodup).2
  · intro j hj
    have hne : j ≠ next := by
      rintro rfl
      exact hnot hj
    have hold := h.queued j ((hmem hne).mp hj)
    rw [← hregistered, ← hcreated, ← hother hne] at hold
    exact hold
  · intro j hj hnotj
    by_cases hji : j = next
    · subst hji
      have hnew := hrun
      rw [← hself] at hnew
      exact .inr (.inr ⟨rfl, hnew⟩)
    · have hold := h.added j (hregistered ▸ hj) (hcreated ▸ hnotj)
      rcases hold with hq | hwait | ⟨hc, hr⟩
      · exact .inl ((hmem hji).mpr hq)
      · refine .inr (.inl ?_)
        rw [← hother hji] at hwait
        exact hwait
      · exact absurd hr (hrunning (hregistered ▸ hj) hc)
  · intro j hj
    have hj' : j ∈ s.created := hcreated ▸ hj
    have hne : j ≠ next := by
      rintro rfl
      exact hnotCreated hj'
    have hold := h.created j hj'
    rw [← hregistered, ← hother hne] at hold
    exact hold
  · exact hcreated.symm ▸ h.createdNodup
  · exact hregistered.symm ▸ h.registered
  · exact hregistered.symm ▸ h.le
  · intro j hj
    have hold := h.type j (hregistered ▸ hj)
    rw [← htypes] at hold
    exact hold
  · have hold := h.idle
    rw [← hregistered, ← htypes] at hold
    exact hold
  · intro _ _
    have hold : next ∈ v.registered ∧ next ∉ v.created := by
      rw [hregistered, hcreated]
      exact ⟨hreg, hnotCreated⟩
    exact hold
  · intro hidle
    exact absurd ((htypes next).symm.trans hidle) (h.type next hreg)
  · have hnew : state ≠ .create := by
      rcases hrun with rfl | rfl <;> decide
    rw [← hself] at hnew
    exact hnew

/-- The idle thread runs when no thread is linked. -/
lemma run_idle (h : RrOk cpu s)
    (hrunning : ∀ {j}, j ∈ s.registered → j = s.current →
      ¬((s.threads j).state = .usr ∨ (s.threads j).state = .kernel))
    (hnil : s.queued = []) :
    RrOk cpu { s.setState cpu.threadIdle .kernel with current := cpu.threadIdle } := by
  have hother : ∀ {j}, j ∈ s.registered →
      (s.setState cpu.threadIdle .kernel).threads j = s.threads j := by
    intro j hj
    have hne : j ≠ cpu.threadIdle := by
      rintro rfl
      exact h.idle.1 hj
    simp only [RrState.setState, setThread_threads, Function.update_of_ne hne]
  have hidle : ((s.setState cpu.threadIdle .kernel).threads cpu.threadIdle).type = .idle := by
    simp [RrState.setState, h.idle.2]
  constructor
  · exact h.accounts.congr rfl rfl rfl rfl
  · exact h.nodup
  · intro j hj
    have hempty : j ∈ s.queued := hj
    rw [hnil] at hempty
    cases hempty
  · intro j hj hnotj
    rcases h.added j hj hnotj with hq | hwait | ⟨hc, hr⟩
    · rw [hnil] at hq
      cases hq
    · refine .inr (.inl ?_)
      rw [← hother hj] at hwait
      exact hwait
    · exact absurd hr (hrunning hj hc)
  · intro j hj
    have hold := h.created j hj
    rw [← hother hold.1] at hold
    exact hold
  · exact h.createdNodup
  · exact h.registered
  · exact h.le
  · intro j hj
    have hold := h.type j hj
    rw [← hother hj] at hold
    exact hold
  · exact ⟨h.idle.1, hidle⟩
  · intro htype
    exact absurd hidle htype
  · intro _
    simp [RrState.setState]
  · simp [RrState.setState]

lemma run {u : RrState ι} {elected : Option ι} (h : RrOk cpu s)
    (hcurrent : (s.threads s.current).state = .usr ∨ (s.threads s.current).state = .kernel →
      (s.threads s.current).type = .idle)
    (htake : rrTake s = some (u, elected)) {state : ThreadState}
    (hstate : state = .usr ∧ elected ≠ none ∨ state = .kernel) :
    RrOk cpu { u.setState (elected.getD cpu.threadIdle) state with
      current := elected.getD cpu.threadIdle } := by
  have hrunning : ∀ {j}, j ∈ s.registered → j = s.current →
      ¬((s.threads j).state = .usr ∨ (s.threads j).state = .kernel) := by
    rintro j hj rfl hrun
    exact h.type _ hj (hcurrent hrun)
  rcases h.accounts.take h.length_lt with
    ⟨next, v, hnext, hacc, hperm, -, hregistered, hcreated, hthreads⟩ | ⟨hnil, hnone⟩
  · obtain ⟨rfl, rfl⟩ : v = u ∧ some next = elected := by
      simpa using hnext.symm.trans htake
    exact h.run_elected hrunning hacc hperm hregistered hcreated hthreads (hstate.imp_left And.left)
  · obtain ⟨rfl, rfl⟩ : s = u ∧ none = elected := by
      simpa using hnone.symm.trans htake
    obtain rfl : state = .kernel := hstate.resolve_left fun husr => husr.2 rfl
    exact h.run_idle hrunning hnil

lemma schedule (h : RrOk cpu s) (husr : (s.threads s.current).state ≠ .usr)
    (hstep : Rr.schedule cpu s = some t) : RrOk cpu t := by
  obtain ⟨hrequeue, hcurrent, -⟩ := h.requeue husr
  simp only [Rr.schedule, Option.map_eq_some_iff] at hstep
  obtain ⟨⟨u, elected⟩, htake, rfl⟩ := hstep
  refine hrequeue.run hcurrent htake ?_
  cases elected with
  | some next =>
    split_ifs
    · exact .inl ⟨rfl, by simp⟩
    · exact .inr rfl
  | none =>
    rcases hrequeue.accounts.take hrequeue.length_lt with ⟨next, v, hnext, -⟩ | ⟨-, hnone⟩
    · have hsome := hnext.symm.trans htake
      simp at hsome
    · obtain ⟨rfl, -⟩ : rrRequeue s = u ∧ True := by
        simpa using hnone.symm.trans htake
      refine .inr (if_neg ?_)
      rintro ⟨-, -, htype⟩
      have hidle := hrequeue.idle.2
      rw [show (rrRequeue s).threads cpu.threadIdle =
        (rrRequeue s).threads (Option.getD none cpu.threadIdle) from rfl, htype] at hidle
      cases hidle

omit [DecidableEq ι] in
lemma start (h : Booted cpu s) : RrOk cpu s := by
  have hqueued : s.queued = [] := by rw [RrState.queued, h.rQueues]; rfl
  have hnone : ∀ {i}, i ∉ s.registered := by
    intro i hi
    rw [h.registered] at hi
    cases hi
  constructor
  · refine ⟨?_, ?_, ?_, ?_, ?_⟩ <;> simp [h.count, h.rQueues, h.scheduler]
  · simp [hqueued]
  · simp [hqueued]
  · exact fun i hi => absurd hi hnone
  · simp [h.created]
  · simp [h.created]
  · simp [h.registered]
  · simp [h.registered]
  · exact fun i hi => absurd hi hnone
  · exact ⟨hnone, h.type⟩
  · intro htype
    rw [h.current] at htype
    exact absurd h.type htype
  · intro _
    rw [h.current, h.state]
  · rw [h.current, h.state]
    decide

omit [DecidableEq ι] in
lemma of_when {ok : Prop} [Decidable ok] {next : RrState ι} (h : Rr.when ok next = some t) :
    ok ∧ next = t := by
  unfold Rr.when at h
  split_ifs at h with hok
  exact ⟨hok, Option.some.inj h⟩

lemma step (h : RrOk cpu s) {e : RrEvent ι} (hstep : rrStep cpu s e = some t) : RrOk cpu t := by
  cases e with
  | register i th =>
    obtain ⟨⟨hnew, hcurrent, hidle, htype, hroom⟩, rfl⟩ := of_when hstep
    exact h.register hnew hcurrent hidle htype hroom
  | addCreated i =>
    obtain ⟨hi, rfl⟩ := of_when hstep
    exact h.addCreated hi (.inl rfl)
  | add i =>
    obtain ⟨hi, rfl⟩ := of_when hstep
    exact h.addCreated hi (.inr rfl)
  | wakeup i =>
    obtain ⟨⟨hreg, hstate⟩, rfl⟩ := of_when hstep
    exact h.wakeup hreg hstate
  | sleep =>
    obtain ⟨⟨hstate, htype⟩, rfl⟩ := of_when hstep
    exact h.setCurrent (.inr hstate) htype (.inl rfl)
  | exit =>
    obtain ⟨⟨hstate, htype⟩, rfl⟩ := of_when hstep
    refine h.leave { s.threads s.current with state := .dead } hstate htype rfl htype
      ?_ ?_ ?_ ?_ ?_ ?_ ?_ ?_ <;> simp only [rrExit] <;> split_ifs <;> rfl
  | remove =>
    obtain ⟨⟨hstate, htype⟩, rfl⟩ := of_when hstep
    exact h.leave { s.threads s.current with type := .kthread, state := .dead } hstate
      (by rw [htype]; decide) rfl (by decide : Sched.ThreadType.kthread ≠ .idle) rfl rfl rfl rfl rfl rfl
      rfl rfl
  | elect =>
    simp only [rrStep] at hstep
    split_ifs at hstep with husr
    exact h.schedule husr hstep
  | clock balance =>
    obtain rfl := Option.some.inj hstep
    obtain ⟨hacc, hperm, hsame⟩ := h.accounts.clock h.length_lt balance
    exact h.congr hsame hacc hperm
  | syscall =>
    obtain ⟨hstate, rfl⟩ := of_when hstep
    refine h.setCurrent (.inl hstate) (fun hidle => ?_) (.inr (.inr rfl))
    have hkernel := h.asleep hidle
    rw [hstate] at hkernel
    cases hkernel
  | sysret =>
    obtain ⟨⟨hstate, htype⟩, rfl⟩ := of_when hstep
    exact h.setCurrent (.inr hstate) (by rw [htype]; decide) (.inr (.inl rfl))
  | setFlags i exported migrationEnabled =>
    obtain rfl := Option.some.inj hstep
    exact h.congr (.setThread rfl rfl) (h.accounts.congr rfl rfl rfl rfl) (List.Perm.refl _)

end RrOk

/-- In every state between calls the counters are the lengths of the queues, no thread is linked
twice and none that runs is linked: a running thread that went to sleep can be woken, and is linked,
before another one is elected. An election finds a thread unless all the threads that were added
sleep, and never takes one out of an empty list. -/
theorem run_queues_accounted {cpu : RrCpu ι} {s : RrState ι} (h : (rrMachine cpu).Reachable s) :
    s.count = s.rQueues.kthreads.length + s.rQueues.runnable.length + s.rQueues.migrate.length ∧
      s.rQueues.uRunnable = s.rQueues.runnable.length ∧
      s.rQueues.mRunnable = s.rQueues.migrate.length ∧
      s.scheduler.kRunnable = s.rQueues.kthreads.length ∧
      s.scheduler.uRunnable = s.rQueues.runnable.length + s.rQueues.migrate.length ∧
      (s.rQueues.kthreads ++ (s.rQueues.runnable ++ s.rQueues.migrate)).Nodup ∧
      (∀ i, (s.threads i).state = .usr ∨ (s.threads i).state = .kernel →
        i ∉ s.rQueues.kthreads ++ (s.rQueues.runnable ++ s.rQueues.migrate)) ∧
      (s.current ∈ s.rQueues.kthreads ++ (s.rQueues.runnable ++ s.rQueues.migrate) →
        (s.threads s.current).state = .ready) ∧
      ((s.threads s.current).state ≠ .usr → ∃ t elected,
        rrElectBalancing s = some (t, elected) ∧
          (elected = none → ∀ i ∈ s.registered, i ∉ s.created → (s.threads i).state = .wait)) := by
  have hs : RrOk cpu s := h.invariant (fun _ => .start) fun _ _ _ hi hstep => hi.step hstep
  refine ⟨hs.accounts.count, hs.accounts.runnable, hs.accounts.migrate, hs.accounts.kthreads,
    hs.accounts.users, hs.nodup, fun i hrun hi => ?_, fun hi => ?_, fun husr => ?_⟩
  · rcases (hs.queued i hi).2.2 with hstate | hstate <;> simp [hstate] at hrun
  · exact (hs.queued _ hi).2.2.resolve_left hs.begun
  obtain ⟨hrequeue, hcurrent, hsame⟩ := hs.requeue husr
  rcases hrequeue.accounts.take hrequeue.length_lt with ⟨next, u, htake, -⟩ | ⟨hnil, htake⟩
  · exact ⟨u, some next, htake, fun hnone => by simp at hnone⟩
  · refine ⟨_, none, htake, fun _ i hi hnot => ?_⟩
    have heq := hsame hnil
    rw [heq] at hnil hcurrent
    rcases hs.added i hi hnot with hq | hwait | ⟨rfl, hrun⟩
    · rw [hnil] at hq
      cases hq
    · exact hwait
    · exact absurd (hcurrent hrun) (hs.type _ hi)

def bootCpu : RrCpu ℕ := ⟨0, 32, by decide⟩

def bootThread : Thread := ⟨.idle, .kernel, 0, 0, false, false, true, false⟩

def bootState : RrState ℕ := ⟨fun _ => bootThread, 0, 0, ⟨0, 0, [], [], []⟩, ⟨0, 0, 0, 0⟩, [], []⟩

/-- Two user threads are added; the first runs, balancing moves the second, and a kernel thread is
woken after it slept. -/
def bootEvents : List (RrEvent ℕ) :=
  [.register 1 { bootThread with type := .pthread, migrationEnabled := false }, .addCreated 1,
    .register 2 { bootThread with type := .pthread }, .register 3 { bootThread with type := .kthread },
    .addCreated 3, .elect, .sleep, .elect, .addCreated 2, .clock true, .wakeup 3]

def bootLast : RrState ℕ := ((rrMachine bootCpu).run bootState bootEvents).getD bootState

lemma bootLast_reachable : (rrMachine bootCpu).Reachable bootLast := by
  have hsome : ((rrMachine bootCpu).run bootState bootEvents).isSome = true := by decide +kernel
  refine Machine.Reachable.run (s := bootState)
    (.init ⟨rfl, rfl, rfl, rfl, rfl, ⟨rfl, rfl⟩, rfl, rfl⟩) bootEvents ?_
  rw [bootLast, ← Option.some_get hsome, Option.getD_some]

theorem run_queues_accounted_boot :
    bootLast.rQueues.kthreads = [3] ∧ bootLast.rQueues.migrate = [2] ∧ bootLast.count = 2 := by
  have hkthreads : bootLast.rQueues.kthreads = [3] := by decide +kernel
  have hrunnable : bootLast.rQueues.runnable = [] := by decide +kernel
  have hmigrate : bootLast.rQueues.migrate = [2] := by decide +kernel
  refine ⟨hkthreads, hmigrate, ?_⟩
  rw [(run_queues_accounted bootLast_reachable).1, hkthreads, hrunnable, hmigrate]
  rfl

/-- A thread that was woken before another one is elected is linked while it runs. -/
theorem woken_thread_linked : ¬∀ s : RrState ℕ, (rrMachine bootCpu).Reachable s →
    s.current ∉ s.rQueues.kthreads ++ (s.rQueues.runnable ++ s.rQueues.migrate) := by
  intro hall
  have hrun : ∃ s, (rrMachine bootCpu).run bootState
      [.register 1 { bootThread with type := .pthread }, .addCreated 1, .elect, .syscall, .sleep,
        .wakeup 1] = some s ∧ s.current = 1 ∧ s.rQueues.runnable = [1] := by
    refine ⟨_, rfl, ?_, ?_⟩ <;> decide +kernel
  obtain ⟨s, hs, hcurrent, hrunnable⟩ := hrun
  have hreach : (rrMachine bootCpu).Reachable s :=
    Machine.Reachable.run (.init ⟨rfl, rfl, rfl, rfl, rfl, ⟨rfl, rfl⟩, rfl, rfl⟩) _ hs
  refine hall s hreach ?_
  rw [hcurrent, hrunnable]
  simp

end Almos.Rr
