import Mathlib
import Almos.Kfifo
import Almos.Ring

/-!
# The kernel FIFO without contention

The operations on the FIFO one after another, against a queue that keeps one slot of the table empty.
-/
namespace Almos.KfifoQueue

inductive Err
  | eagain
  | ebusy
deriving DecidableEq

structure Kfifo (α : Type*) where
  wridx : ℕ
  rdidx : ℕ
  size : ℕ
  tbl : ℕ → α

/-- The `threshold` of `multi_put` and `multi_get`. -/
def threshold : ℕ := 10000

variable {α : Type*}

/-- `kfifo_init`, with a table that holds `tbl`. -/
def kfifoInit (size : ℕ) (tbl : ℕ → α) : Kfifo α := ⟨0, 0, size, tbl⟩

def kfifoIsEmpty (kfifo : Kfifo α) : Bool := kfifo.rdidx = kfifo.wridx

def kfifoIsFull (kfifo : Kfifo α) : Bool := kfifo.wridx = (kfifo.rdidx + 1) % kfifo.size

def singlePut (kfifo : Kfifo α) (val : α) : Kfifo α × Except Err Unit :=
  if (kfifo.wridx + 1) % kfifo.size = kfifo.rdidx then (kfifo, .error .eagain)
  else
    ({ kfifo with
      tbl := Function.update kfifo.tbl kfifo.wridx val
      wridx := (kfifo.wridx + 1) % kfifo.size }, .ok ())

def singleGet (kfifo : Kfifo α) : Kfifo α × Except Err α :=
  if kfifo.rdidx = kfifo.wridx then (kfifo, .error .eagain)
  else ({ kfifo with rdidx := (kfifo.rdidx + 1) % kfifo.size }, .ok (kfifo.tbl kfifo.rdidx))

/-- `cpu_atomic_cas`, with the word it leaves. -/
def cpuAtomicCas (word old new : ℕ) : ℕ × Bool := if word = old then (new, true) else (word, false)

/-- The loop of `multi_put` from a count of the tries on; `none` if the rounds do not suffice. -/
def multiPut (val : α) : ℕ → ℕ → Kfifo α → Option (Kfifo α × Except Err Unit)
  | 0, _, _ => none
  | rounds + 1, cntr, kfifo =>
    let wridx := kfifo.wridx
    if (wridx + 1) % kfifo.size = kfifo.rdidx then some (kfifo, .error .eagain)
    else
      let (word, isAtomic) := cpuAtomicCas kfifo.wridx wridx ((wridx + 1) % kfifo.size)
      let kfifo := { kfifo with wridx := word }
      if cntr = threshold then some (kfifo, .error .ebusy)
      else if isAtomic = false then multiPut val rounds (cntr + 1) kfifo
      else some ({ kfifo with tbl := Function.update kfifo.tbl wridx val }, .ok ())

/-- The loop of `multi_get` from a count of the tries on; `none` if the rounds do not suffice. -/
def multiGet : ℕ → ℕ → Kfifo α → Option (Kfifo α × Except Err α)
  | 0, _, _ => none
  | rounds + 1, cntr, kfifo =>
    let rdidx := kfifo.rdidx
    if rdidx = kfifo.wridx then some (kfifo, .error .eagain)
    else
      let val := kfifo.tbl rdidx
      let (word, isAtomic) := cpuAtomicCas kfifo.rdidx rdidx ((rdidx + 1) % kfifo.size)
      let kfifo := { kfifo with rdidx := word }
      if cntr = threshold then some (kfifo, .error .ebusy)
      else if isAtomic = false then multiGet rounds (cntr + 1) kfifo
      else some (kfifo, .ok val)

/-- An operation, with whether it is the one for many writers or many readers. -/
inductive Op (α : Type*)
  | put (multi : Bool) (val : α)
  | get (multi : Bool)

inductive Result (α : Type*)
  | put (result : Except Err Unit)
  | get (result : Except Err α)

def step (kfifo : Kfifo α) : Op α → Option (Kfifo α × Result α)
  | .put false val => let (kfifo, r) := singlePut kfifo val; some (kfifo, .put r)
  | .put true val => (multiPut val (threshold + 1) 0 kfifo).map fun (kfifo, r) => (kfifo, .put r)
  | .get false => let (kfifo, r) := singleGet kfifo; some (kfifo, .get r)
  | .get true => (multiGet (threshold + 1) 0 kfifo).map fun (kfifo, r) => (kfifo, .get r)

def run (kfifo : Kfifo α) : List (Op α) → Option (Kfifo α × List (Result α))
  | [] => some (kfifo, [])
  | op :: ops => do
    let (kfifo, r) ← step kfifo op
    let (kfifo, rs) ← run kfifo ops
    some (kfifo, r :: rs)

/-- The queue of a capacity: a put fails exactly if it is full, and a get exactly if it is empty. -/
def queueStep (capacity : ℕ) (q : List α) : Op α → List α × Result α
  | .put _ val =>
    if q.length = capacity then (q, .put (.error .eagain)) else (q ++ [val], .put (.ok ()))
  | .get _ =>
    match q with
    | [] => ([], .get (.error .eagain))
    | val :: q => (q, .get (.ok val))

def queueRun (capacity : ℕ) (q : List α) : List (Op α) → List α × List (Result α)
  | [] => (q, [])
  | op :: ops =>
    let (q, r) := queueStep capacity q op
    let (q, rs) := queueRun capacity q ops
    (q, r :: rs)

/-- The FIFO has the values of the queue, behind one another from `rdidx` on. -/
structure Refines (size : ℕ) (kfifo : Kfifo α) (q : List α) : Prop where
  size_eq : kfifo.size = size
  rdidx : kfifo.rdidx < size
  length : q.length < size
  wridx : kfifo.wridx = (kfifo.rdidx + q.length) % size
  holds : Ring.Holds size kfifo.tbl kfifo.rdidx q

variable {size : ℕ} {kfifo : Kfifo α} {q : List α}

lemma kfifoInit_refines (hsize : 2 ≤ size) (tbl : ℕ → α) : Refines size (kfifoInit size tbl) [] :=
  ⟨rfl, by simp only [kfifoInit]; omega, by simp only [List.length_nil]; omega,
    by simp [kfifoInit], .nil⟩

/-- One slot is left exactly if the next index of the writer is that of the reader. -/
lemma Refines.full_iff (h : Refines size kfifo q) :
    (kfifo.wridx + 1) % kfifo.size = kfifo.rdidx ↔ q.length = size - 1 := by
  have hlength := h.length
  have hrdidx : (kfifo.rdidx + 0) % size = kfifo.rdidx := Nat.mod_eq_of_lt h.rdidx
  rw [h.wridx, h.size_eq, Nat.mod_add_mod, Nat.add_assoc]
  rcases Nat.lt_or_ge (q.length + 1) size with hlt | hge
  · rw [← hrdidx, Nat.add_zero, Nat.mod_add_mod, ← Nat.add_zero kfifo.rdidx, Nat.add_assoc,
      Nat.zero_add, Ring.add_mod_inj hlt (by omega)]
    omega
  · have hturn : q.length + 1 = size := by omega
    rw [hturn, Nat.add_mod_right, Nat.mod_eq_of_lt h.rdidx]
    exact iff_of_true rfl (by omega)

lemma Refines.isEmpty_iff (h : Refines size kfifo q) : kfifo.rdidx = kfifo.wridx ↔ q = [] := by
  have hrdidx : (kfifo.rdidx + 0) % size = kfifo.rdidx := Nat.mod_eq_of_lt h.rdidx
  have hlength := h.length
  rw [← List.length_eq_zero_iff, h.wridx]
  nth_rewrite 1 [← hrdidx]
  rw [Ring.add_mod_inj (by omega) hlength, eq_comm]

lemma Refines.isFull_iff (h : Refines size kfifo q) (hsize : 2 ≤ size) :
    kfifoIsFull kfifo = true ↔ q.length = 1 := by
  rw [kfifoIsFull, decide_eq_true_iff, h.wridx, h.size_eq, Ring.add_mod_inj h.length (by omega)]

lemma Refines.put (h : Refines size kfifo q) (hroom : q.length ≠ size - 1) (val : α) :
    Refines size { kfifo with
      tbl := Function.update kfifo.tbl kfifo.wridx val
      wridx := (kfifo.wridx + 1) % kfifo.size } (q ++ [val]) := by
  have hlength := h.length
  refine ⟨h.size_eq, h.rdidx, ?_, ?_, ?_⟩
  · simp only [List.length_append, List.length_singleton]
    omega
  · simp only [List.length_append, List.length_singleton, h.size_eq, h.wridx, Nat.mod_add_mod,
      Nat.add_assoc]
  · simp only [h.wridx]
    exact h.holds.push hlength val

lemma Refines.get {val : α} (h : Refines size kfifo (val :: q)) :
    kfifo.tbl kfifo.rdidx = val ∧
      Refines size { kfifo with rdidx := (kfifo.rdidx + 1) % kfifo.size } q := by
  have hlength := h.length
  have hhead := h.holds.head
  rw [Nat.mod_eq_of_lt h.rdidx] at hhead
  refine ⟨hhead, h.size_eq, ?_, ?_, ?_, ?_⟩
  · simp only [h.size_eq]
    exact Nat.mod_lt _ (by omega)
  · simp only [List.length_cons] at hlength
    omega
  · simp only [h.wridx, h.size_eq, List.length_cons, Nat.mod_add_mod]
    congr 1
    omega
  · simp only [h.size_eq]
    exact Ring.holds_mod.mpr h.holds.tail

lemma multiPut_eq (kfifo : Kfifo α) (val : α) :
    multiPut val (threshold + 1) 0 kfifo = some (singlePut kfifo val) := by
  have hcntr : 0 ≠ threshold := by decide
  rw [multiPut, singlePut]
  by_cases hfull : (kfifo.wridx + 1) % kfifo.size = kfifo.rdidx
  · simp [hfull]
  · simp [hfull, cpuAtomicCas, hcntr]

lemma multiGet_eq (kfifo : Kfifo α) :
    multiGet (threshold + 1) 0 kfifo = some (singleGet kfifo) := by
  have hcntr : 0 ≠ threshold := by decide
  rw [multiGet, singleGet]
  by_cases hempty : kfifo.rdidx = kfifo.wridx
  · simp [hempty]
  · simp [hempty, cpuAtomicCas, hcntr]

lemma Refines.step (h : Refines size kfifo q) (op : Op α) :
    ∃ t, KfifoQueue.step kfifo op = some (t, (queueStep (size - 1) q op).2) ∧
      Refines size t (queueStep (size - 1) q op).1 := by
  cases op with
  | put multi val =>
    have hstep : KfifoQueue.step kfifo (.put multi val) =
        some ((singlePut kfifo val).1, .put (singlePut kfifo val).2) := by
      cases multi with
      | false => rfl
      | true => rw [KfifoQueue.step, multiPut_eq, Option.map_some]
    rw [hstep, singlePut, queueStep]
    by_cases hfull : q.length = size - 1
    · rw [if_pos (h.full_iff.mpr hfull), if_pos hfull]
      exact ⟨_, rfl, h⟩
    · rw [if_neg (h.full_iff.not.mpr hfull), if_neg hfull]
      exact ⟨_, rfl, h.put hfull val⟩
  | get multi =>
    have hstep : KfifoQueue.step kfifo (.get multi) =
        some ((singleGet kfifo).1, .get (singleGet kfifo).2) := by
      cases multi with
      | false => rfl
      | true => rw [KfifoQueue.step, multiGet_eq, Option.map_some]
    rw [hstep, singleGet]
    cases q with
    | nil =>
      rw [if_pos (h.isEmpty_iff.mpr rfl)]
      exact ⟨_, rfl, h⟩
    | cons val q =>
      obtain ⟨hval, hget⟩ := h.get
      rw [if_neg (h.isEmpty_iff.not.mpr (by simp)), hval]
      exact ⟨_, rfl, hget⟩

lemma Refines.run (h : Refines size kfifo q) (ops : List (Op α)) :
    ∃ t, KfifoQueue.run kfifo ops = some (t, (queueRun (size - 1) q ops).2) ∧
      Refines size t (queueRun (size - 1) q ops).1 := by
  induction ops generalizing kfifo q with
  | nil => exact ⟨kfifo, rfl, h⟩
  | cons op ops ih =>
    obtain ⟨t, hstep, ht⟩ := h.step op
    obtain ⟨u, hrun, hu⟩ := ih ht
    exact ⟨u, by simp [KfifoQueue.run, hstep, hrun, queueRun], hu⟩

section Alone
variable {ι : Type*} [DecidableEq ι] {s : Kfifo.Fifo ι α} {i : ι}

/-- The FIFO whose accesses are made one by one. -/
def words (size : ℕ) (s : Kfifo.Fifo ι α) : Kfifo α := ⟨s.wridx, s.rdidx, size, s.tbl⟩

/-- What a put that ends adds to the values accepted. -/
def accepts (i : ι) (val : α) : Except Err Unit → List (ι × α)
  | .ok () => [(i, val)]
  | .error _ => []

/-- The accesses of a thread in `multi_put` that no other one comes between, and whose conditional
store goes through. -/
abbrev PutAlone (size : ℕ) (i : ι) : Kfifo.Fifo ι α → Kfifo.Fifo ι α → Prop :=
  Relation.ReflTransGen fun s t => Kfifo.multiPut size s i true = some t

/-- Alone, a thread leaves the FIFO and the answer of the loop of `multi_put`. -/
theorem multiPut_alone (size : ℕ) {val : α} (hpc : s.writer i = .readWridx val 0) :
    ∃ t result, PutAlone size i s t ∧ t.writer i = .idle ∧
      t.accepted = s.accepted ++ accepts i val result ∧
      multiPut val (threshold + 1) 0 (words size s) = some (words size t, result) := by
  have hcntr : (0 : ℕ) ≠ Kfifo.threshold := by decide
  have hread : Kfifo.multiPut size s i true = some (s.goto i (.readRdidx val 0 s.wridx)) := by
    simp [Kfifo.multiPut, hpc]
  rw [multiPut_eq, singlePut]
  obtain ⟨u, hu⟩ : ∃ u, u = s.goto i (.readRdidx val 0 s.wridx) := ⟨_, rfl⟩
  rw [← hu] at hread
  have hrun : PutAlone size i s u := .single hread
  by_cases hfull : (s.wridx + 1) % size = s.rdidx
  · have hend : Kfifo.multiPut size u i true = some (u.goto i .idle) := by
      simp [Kfifo.multiPut, hu, Kfifo.Fifo.goto, hfull]
    refine ⟨u.goto i .idle, .error .eagain, hrun.tail hend,
      Kfifo.Fifo.goto_writer_self _ _ _, ?_, ?_⟩
    · simp [hu, Kfifo.Fifo.goto, accepts]
    · simp [words, hu, Kfifo.Fifo.goto, hfull]
  · have hcas : Kfifo.multiPut size u i true = some (u.goto i (.cas val 0 s.wridx)) := by
      simp [Kfifo.multiPut, hu, Kfifo.Fifo.goto, hfull]
    obtain ⟨v, hv⟩ : ∃ v, v = u.goto i (.cas val 0 s.wridx) := ⟨_, rfl⟩
    rw [← hv] at hcas
    obtain ⟨w, hw⟩ : ∃ w, w = { v with
      wridx := (s.wridx + 1) % size, reserved := v.reserved ++ [(i, val)] }.goto i
        (.store val s.wridx v.reserved.length) := ⟨_, rfl⟩
    have hwpc : w.writer i = .store val s.wridx v.reserved.length := by
      rw [hw, Kfifo.Fifo.goto_writer_self]
    have hmove : Kfifo.multiPut size v i true = some w := by
      simp [Kfifo.multiPut, hw, hv, hu, Kfifo.Fifo.goto, hcntr]
    have hstore : Kfifo.multiPut size w i true = some ({ w with
        tbl := Function.update w.tbl s.wridx val
        accepted := w.accepted ++ [(i, val)] }.goto i .idle) := by
      simp [Kfifo.multiPut, hwpc]
    refine ⟨_, .ok (), ((hrun.tail hcas).tail hmove).tail hstore,
      Kfifo.Fifo.goto_writer_self _ _ _, ?_, ?_⟩
    · simp [hw, hv, hu, Kfifo.Fifo.goto, accepts]
    · simp [words, hw, hv, hu, Kfifo.Fifo.goto, hfull]

end Alone

/-- The FIFO returns what the queue of one value less than its size returns, and is afterwards found
empty or full exactly if the queue is. -/
def QueueExact (size : ℕ) (tbl : ℕ → α) (ops : List (Op α)) : Prop :=
  ∃ t, run (kfifoInit size tbl) ops = some (t, (queueRun (size - 1) [] ops).2) ∧
    (kfifoIsEmpty t = true ↔ (queueRun (size - 1) [] ops).1 = []) ∧
    (kfifoIsFull t = true ↔ (queueRun (size - 1) [] ops).1.length = size - 1)

/-- The FIFO is the queue exactly where a full queue holds one value, or the queue neither holds one
value nor is full. -/
theorem kfifo_bounded_queue (hsize : 2 ≤ size) (tbl : ℕ → α) (ops : List (Op α)) :
    QueueExact size tbl ops ↔ size = 2 ∨
      (queueRun (size - 1) [] ops).1.length ≠ 1 ∧
        (queueRun (size - 1) [] ops).1.length ≠ size - 1 := by
  obtain ⟨t, hrun, ht⟩ := (kfifoInit_refines hsize tbl).run ops
  have hempty : kfifoIsEmpty t = true ↔ (queueRun (size - 1) [] ops).1 = [] := by
    rw [kfifoIsEmpty, decide_eq_true_iff]
    exact ht.isEmpty_iff
  have hfull := ht.isFull_iff hsize
  constructor
  · rintro ⟨u, hu, -, hexact⟩
    obtain rfl : t = u := by
      rw [hrun, Option.some.injEq, Prod.mk.injEq] at hu
      exact hu.1
    rw [hfull] at hexact
    omega
  · intro hcond
    refine ⟨t, hrun, hempty, ?_⟩
    rw [hfull]
    omega

/-- Two of three values are left. -/
theorem kfifo_bounded_queue_two :
    QueueExact 4 (fun _ => 0) [.put false 7, .put true 8, .put false 9, .get true] :=
  (kfifo_bounded_queue (by decide) _ _).mpr (.inr (by decide))

/-- With one of two values stored, `kfifo_isFull` is true. -/
theorem one_value_is_full : ¬ QueueExact 3 (fun _ => 0) [.put false 7] := by
  rintro ⟨t, hrun, -, hfull⟩
  have hsome : run (kfifoInit 3 fun _ => 0) [.put false 7] =
      some ({ kfifoInit 3 (fun _ => 0) with
        tbl := Function.update (fun _ => 0) 0 7, wridx := 1 }, [.put (.ok ())]) := rfl
  rw [hsome, Option.some.injEq, Prod.mk.injEq] at hrun
  rw [← hrun.1] at hfull
  exact absurd (hfull.mp rfl) (by decide)

end Almos.KfifoQueue
