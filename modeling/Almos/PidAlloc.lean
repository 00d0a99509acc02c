import Mathlib
import Almos.Machine

/-!
# Process identifiers

`task_pid_alloc` scans the table of tasks from the last identifier it gave and goes around once. The
lock of the manager makes an allocation one step.
-/
namespace Almos.Pid

/-- An entry of `tm_tbl`: `NULL`, `TASK_PID_BUSY` or a task. -/
inductive PidEntry
  | null
  | busy
  | task
deriving DecidableEq

structure TasksManager where
  lastPid : ℕ
  tbl : ℕ → PidEntry

/-- The loop of `task_pid_alloc` and the place where it stops; `none` if the rounds do not suffice. -/
def pidScan (maxNr : ℕ) (tbl : ℕ → PidEntry) : ℕ → ℕ → Bool → Option ℕ
  | 0, _, _ => none
  | rounds + 1, pid, overlap =>
    if tbl pid = .null then some pid
    else if pid + 1 = maxNr then
      if overlap = true then some 0 else pidScan maxNr tbl rounds 0 true
    else pidScan maxNr tbl rounds (pid + 1) overlap

/-- `task_pid_alloc`, for `CONFIG_TASK_MAX_NR` tasks; without a pid the error is `EAGAIN`. -/
def taskPidAlloc (maxNr rounds : ℕ) (m : TasksManager) : Option (TasksManager × Option ℕ) :=
  (pidScan maxNr m.tbl rounds m.lastPid false).map fun pid =>
    if m.tbl pid = .null then ({ lastPid := pid, tbl := Function.update m.tbl pid .busy }, some pid)
    else ({ m with lastPid := pid }, none)

/-- `task_manager_init` -/
def taskManagerInit : TasksManager where
  lastPid := 1
  tbl pid := if pid = 0 then .task else .null

section Scan
variable {maxNr : ℕ}

/-- A turn ends at the first free entry; without one, the first turn goes on with the second. -/
lemma pidScan_turn (tbl : ℕ → PidEntry) (rounds : ℕ) (overlap : Bool) {pid : ℕ}
    (hpid : pid < maxNr) :
    (∃ stop, pidScan maxNr tbl (maxNr - pid + rounds) pid overlap = some stop ∧ pid ≤ stop ∧
        stop < maxNr ∧ tbl stop = .null ∧ ∀ q, pid ≤ q → q < stop → tbl q ≠ .null) ∨
      (pidScan maxNr tbl (maxNr - pid + rounds) pid overlap =
          if overlap = true then some 0 else pidScan maxNr tbl rounds 0 true) ∧
        ∀ q, pid ≤ q → q < maxNr → tbl q ≠ .null := by
  induction hleft : maxNr - pid generalizing pid with
  | zero => omega
  | succ left ih =>
    rw [Nat.succ_add, pidScan]
    by_cases hnull : tbl pid = .null
    · rw [if_pos hnull]
      exact .inl ⟨pid, rfl, le_rfl, hpid, hnull, fun q hle hlt => by omega⟩
    · rw [if_neg hnull]
      have hsplit : ∀ q, pid ≤ q → q = pid ∨ pid + 1 ≤ q := by omega
      by_cases hlast : pid + 1 = maxNr
      · obtain rfl : left = 0 := by omega
        rw [if_pos hlast, Nat.zero_add]
        refine .inr ⟨rfl, fun q hle hlt => ?_⟩
        obtain rfl : q = pid := by omega
        exact hnull
      · rw [if_neg hlast]
        rcases @ih (pid + 1) (by omega) (by omega) with
          ⟨stop, hscan, hle, hlt, hfree, hbusy⟩ | ⟨hscan, hbusy⟩
        · refine .inl ⟨stop, hscan, by omega, hlt, hfree, fun q hq hqs => ?_⟩
          rcases hsplit q hq with rfl | hq'
          · exact hnull
          · exact hbusy q hq' hqs
        · refine .inr ⟨hscan, fun q hq hqs => ?_⟩
          rcases hsplit q hq with rfl | hq'
          · exact hnull
          · exact hbusy q hq' hqs

end Scan

/-- The entry is the first free one in the cyclic order from the last pid. -/
def FirstFree (maxNr : ℕ) (m : TasksManager) (pid : ℕ) : Prop :=
  m.tbl pid = .null ∧ ∃ k < maxNr, pid = (m.lastPid + k) % maxNr ∧
    ∀ i < k, m.tbl ((m.lastPid + i) % maxNr) ≠ .null

structure AllocExact (maxNr : ℕ) (m t : TasksManager) (pid : Option ℕ) : Prop where
  lastPid : t.lastPid < maxNr
  fails : pid = none ↔ ∀ q < maxNr, m.tbl q ≠ .null
  unchanged : pid = none → t.tbl = m.tbl
  first : ∀ p, pid = some p → p < maxNr ∧ FirstFree maxNr m p ∧ t.tbl = Function.update m.tbl p .busy

variable {maxNr : ℕ} {m : TasksManager}

lemma pidScan_spec (h : m.lastPid < maxNr) {rounds : ℕ} (hrounds : 2 * maxNr ≤ rounds) :
    (∃ pid < maxNr, pidScan maxNr m.tbl rounds m.lastPid false = some pid ∧ FirstFree maxNr m pid) ∨
      pidScan maxNr m.tbl rounds m.lastPid false = some 0 ∧ ∀ q < maxNr, m.tbl q ≠ .null := by
  obtain ⟨rest, rfl⟩ : ∃ rest, rounds = maxNr - m.lastPid + (maxNr + rest) :=
    ⟨rounds - (maxNr - m.lastPid) - maxNr, by omega⟩
  have hbelow : ∀ i, m.lastPid + i < maxNr → (m.lastPid + i) % maxNr = m.lastPid + i := fun i hi =>
    Nat.mod_eq_of_lt hi
  rcases pidScan_turn m.tbl (maxNr + rest) false h with
    ⟨stop, hscan, hle, hlt, hfree, hbusy⟩ | ⟨hscan, hhigh⟩
  · refine .inl ⟨stop, hlt, hscan, hfree, stop - m.lastPid, by omega, ?_, fun i hi => ?_⟩
    · rw [hbelow _ (by omega)]
      omega
    · rw [hbelow i (by omega)]
      exact hbusy _ (by omega) (by omega)
  · rw [hscan, if_neg (by simp)]
    rcases pidScan_turn m.tbl rest true (Nat.zero_lt_of_lt h) with
      ⟨stop, hscan', -, hlt, hfree, hlow⟩ | ⟨hscan', hlow⟩
    · -- the second turn stops below the start of the first
      have hstop : stop < m.lastPid := by
        by_contra hge
        exact hhigh stop (by omega) hlt hfree
      refine .inl ⟨stop, hlt, hscan', hfree, maxNr - m.lastPid + stop, by omega, ?_, fun i hi => ?_⟩
      · have hsum : m.lastPid + (maxNr - m.lastPid + stop) = stop + maxNr := by omega
        rw [hsum, Nat.add_mod_right, Nat.mod_eq_of_lt hlt]
      · by_cases hwrap : m.lastPid + i < maxNr
        · rw [hbelow i hwrap]
          exact hhigh _ (by omega) hwrap
        · have hsum : m.lastPid + i = (m.lastPid + i - maxNr) + maxNr := by omega
          rw [hsum, Nat.add_mod_right, Nat.mod_eq_of_lt (by omega)]
          exact hlow _ (by omega) (by omega)
    · exact .inr ⟨hscan', fun q hq => hlow q (by omega) hq⟩

lemma taskPidAlloc_spec (h : m.lastPid < maxNr) {rounds : ℕ} (hrounds : 2 * maxNr ≤ rounds) :
    ∃ t pid, taskPidAlloc maxNr rounds m = some (t, pid) ∧ AllocExact maxNr m t pid := by
  unfold taskPidAlloc
  rcases pidScan_spec h hrounds with ⟨pid, hlt, hscan, hfirst⟩ | ⟨hscan, hfull⟩
  · rw [hscan, Option.map_some, if_pos hfirst.1]
    refine ⟨_, _, rfl, hlt, ?_, by simp, ?_⟩
    · exact iff_of_false (by simp) fun hfull => hfull pid hlt hfirst.1
    · rintro p ⟨⟩
      exact ⟨hlt, hfirst, rfl⟩
  · rw [hscan, Option.map_some, if_neg (hfull 0 (by omega))]
    exact ⟨_, _, rfl, by simp only; omega, iff_of_true rfl hfull, fun _ => rfl, by simp⟩

structure PidState where
  manager : TasksManager
  live : List ℕ

/-- A task gets a pid, its descriptor is entered, and its pid is released by `task_destroy` or the
failure exits of `task_create`. -/
inductive PidEvent
  | alloc
  | enter (pid : ℕ)
  | release (pid : ℕ)

def pidStep (maxNr : ℕ) (s : PidState) : PidEvent → Option PidState
  | .alloc => (taskPidAlloc maxNr (2 * maxNr) s.manager).map fun (m, pid) =>
      { manager := m, live := s.live ++ pid.toList }
  | .enter pid =>
      if pid ∈ s.live then
        some { s with manager :=
          { s.manager with tbl := Function.update s.manager.tbl pid .task } }
      else none
  | .release pid =>
      if pid ∈ s.live then
        some {
          manager := { s.manager with tbl := Function.update s.manager.tbl pid .null }
          live := s.live.erase pid }
      else none

/-- A table in use, with the pids of its live tasks. -/
structure PidOk (maxNr : ℕ) (s : PidState) : Prop where
  lastPid : s.manager.lastPid < maxNr
  nodup : s.live.Nodup
  taken : ∀ pid ∈ s.live, pid < maxNr ∧ s.manager.tbl pid ≠ .null

def pidMachine (maxNr : ℕ) : Machine PidState PidEvent where
  init := PidOk maxNr
  step := pidStep maxNr

lemma taskManagerInit_ok (h : 1 < maxNr) : PidOk maxNr ⟨taskManagerInit, [0]⟩ := by
  refine ⟨h, by simp, fun pid hpid => ?_⟩
  obtain rfl := List.mem_singleton.mp hpid
  exact ⟨by omega, by simp [taskManagerInit]⟩

lemma PidOk.step {s t : PidState} {e : PidEvent} (h : PidOk maxNr s)
    (hstep : pidStep maxNr s e = some t) : PidOk maxNr t := by
  cases e with
  | alloc =>
    obtain ⟨m, pid, halloc, hexact⟩ := taskPidAlloc_spec h.lastPid le_rfl
    simp only [pidStep, halloc, Option.map_some, Option.some.injEq] at hstep
    subst hstep
    refine ⟨hexact.lastPid, ?_, ?_⟩
    · cases pid with
      | none => simpa using h.nodup
      | some p =>
        obtain ⟨-, hfirst, -⟩ := hexact.first p rfl
        have hnew : p ∉ s.live := fun hp => (h.taken p hp).2 hfirst.1
        simpa [List.nodup_append, h.nodup] using fun q hq => ne_of_mem_of_not_mem hq hnew
    · intro q hq
      cases pid with
      | none =>
        rw [hexact.unchanged rfl]
        exact h.taken q (by simpa using hq)
      | some p =>
        obtain ⟨hlt, -, htbl⟩ := hexact.first p rfl
        rw [htbl]
        rcases eq_or_ne q p with rfl | hne
        · exact ⟨hlt, by simp⟩
        · rw [Function.update_of_ne hne]
          exact h.taken q (by simpa [hne] using hq)
  | enter pid =>
    simp only [pidStep] at hstep
    split_ifs at hstep with hlive
    obtain rfl := Option.some.inj hstep
    refine ⟨h.lastPid, h.nodup, fun q hq => ⟨(h.taken q hq).1, ?_⟩⟩
    rcases eq_or_ne q pid with rfl | hne
    · simp
    · simpa [hne] using (h.taken q hq).2
  | release pid =>
    simp only [pidStep] at hstep
    split_ifs at hstep with hlive
    obtain rfl := Option.some.inj hstep
    refine ⟨h.lastPid, h.nodup.erase pid, fun q hq => ?_⟩
    obtain ⟨hne, hq⟩ := (h.nodup.mem_erase_iff).mp hq
    exact ⟨(h.taken q hq).1, by simpa [hne] using (h.taken q hq).2⟩

/-- Whatever was allocated and released from whatever table, the live tasks have different pids and
the next allocation returns the first free pid in cyclic order, if there is one. -/
theorem pid_alloc_exact {s : PidState} (h : (pidMachine maxNr).Reachable s) :
    s.live.Nodup ∧ ∃ t pid, taskPidAlloc maxNr (2 * maxNr) s.manager = some (t, pid) ∧
      AllocExact maxNr s.manager t pid := by
  have hok : PidOk maxNr s := h.invariant (I := PidOk maxNr) (fun _ hs => hs) fun _ _ _ hs hstep => hs.step hstep
  exact ⟨hok.nodup, taskPidAlloc_spec hok.lastPid le_rfl⟩

/-- A table of four with one pid released: the search goes around and gives it again. -/
theorem pid_alloc_exact_released : ∃ s t, (pidMachine 4).Reachable s ∧ s.live = [0, 1, 3] ∧
    taskPidAlloc 4 8 s.manager = some (t, some 2) ∧ AllocExact 4 s.manager t (some 2) := by
  have hrun : ((pidMachine 4).run ⟨taskManagerInit, [0]⟩
      [.alloc, .enter 1, .alloc, .alloc, .release 2]).map (fun s =>
        decide (s.live = [0, 1, 3] ∧ (taskPidAlloc 4 8 s.manager).map Prod.snd = some (some 2))) =
      some true := by decide
  obtain ⟨s, hs, hvalues⟩ := Option.map_eq_some_iff.mp hrun
  obtain ⟨hlive, hpid⟩ := of_decide_eq_true hvalues
  have hreach : (pidMachine 4).Reachable s :=
    .run (.init (taskManagerInit_ok (by decide))) _ hs
  obtain ⟨t, pid, halloc, hexact⟩ := (pid_alloc_exact hreach).2
  obtain rfl : pid = some 2 := by simpa [halloc] using hpid
  exact ⟨s, t, hreach, hlive, halloc, hexact⟩

end Almos.Pid
