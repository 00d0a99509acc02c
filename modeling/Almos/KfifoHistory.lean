import Mathlib
import Almos.Kfifo

/-!
# What the FIFO delivers

The slot of a put is reserved before its value is there, the test for a full FIFO is made before
the slot is reserved, and a compare-and-swap that succeeds at the last try is reported as a failure.
In runs where a get meets no slot that still waits for its value, no writer moves `wridx` when the
FIFO has become full meanwhile, and no last try succeeds, the FIFO delivers what was put.
-/
namespace Almos.Kfifo

def WriterPc.held {α : Type*} : WriterPc α → Option (α × ℕ × ℕ)
  | .store val wridx place => some (val, wridx, place)
  | _ => none

def WriterPc.storing {α : Type*} [DecidableEq α] (val : α) (pc : WriterPc α) : Bool :=
  match pc.held with
  | some (v, _, _) => decide (v = val)
  | none => false

variable {ι α : Type*} [DecidableEq ι] [DecidableEq α] {size : ℕ} {s t : Fifo ι α}

/-- What the reader knows at each place: it alone moves `rdidx`, and the slot it has read was
stored. -/
def ReaderOk (s : Fifo ι α) : ReaderPc α → Prop
  | .idle | .readRdidx _ _ => True
  | .readWridx _ _ rdidx => rdidx = s.rdidx
  | .readTbl _ _ rdidx => rdidx = s.rdidx ∧ s.delivered.length < s.reserved.length
  | .moveRdidx _ _ rdidx val => rdidx = s.rdidx ∧
      (∃ i, s.reserved[s.delivered.length]? = some (i, val)) ∧
      ∀ i v w, (s.writer i).held ≠ some (v, w, s.delivered.length)

structure FifoOk (size : ℕ) (s : Fifo ι α) : Prop where
  wridx : s.wridx = s.reserved.length % size
  rdidx : s.rdidx = s.delivered.length % size
  room : s.reserved.length < s.delivered.length + size
  order : s.delivered <+: s.reserved.map Prod.snd
  pending : ∀ i v w k, (s.writer i).held = some (v, w, k) →
    w = k % size ∧ s.delivered.length ≤ k ∧ s.reserved[k]? = some (i, v)
  stored : ∀ k i v, s.delivered.length ≤ k → s.reserved[k]? = some (i, v) →
    s.tbl (k % size) = v ∨ ∃ w, (s.writer i).held = some (v, w, k)
  counted : ∀ i v, s.accepted.count (i, v) + ((s.writer i).storing v).toNat =
    s.reserved.count (i, v)
  reader : ReaderOk s s.reader

/-- Two positions less than a lap apart are at the same slot only when they are the same. -/
lemma place_unique {d k l : ℕ} (hk : d ≤ k) (hk' : k < d + size) (hl : d ≤ l) (hl' : l < d + size)
    (h : k % size = l % size) : k = l := by
  have hmod : k - d ≡ l - d [MOD size] := by
    apply Nat.ModEq.add_right_cancel' d
    rw [Nat.sub_add_cancel hk, Nat.sub_add_cancel hl]
    exact h
  have heq : k - d = l - d := hmod.eq_of_lt_of_lt (by omega) (by omega)
  omega

namespace FifoOk

lemma le (h : FifoOk size s) : s.delivered.length ≤ s.reserved.length := by
  have hle := h.order.length_le
  rwa [List.length_map] at hle

lemma place_lt (h : FifoOk size s) {k : ℕ} {x : ι × α} (hk : s.reserved[k]? = some x) :
    k < s.delivered.length + size := by
  have hroom := h.room
  obtain ⟨hlt, -⟩ := List.getElem?_eq_some_iff.mp hk
  omega

/-- The reserved slot at `rdidx` has its value, or its writer has yet to store it. -/
lemma head_eq (h : FifoOk size s) (hlt : s.delivered.length < s.reserved.length)
    (hstored : ∀ i v w k, (s.writer i).held = some (v, w, k) → w ≠ s.rdidx) :
    (∃ i, s.reserved[s.delivered.length]? = some (i, s.tbl s.rdidx)) ∧
      ∀ i v w, (s.writer i).held ≠ some (v, w, s.delivered.length) := by
  have hnone : ∀ i v w, (s.writer i).held ≠ some (v, w, s.delivered.length) := by
    intro i v w hheld
    apply hstored i v w _ hheld
    rw [(h.pending i v w _ hheld).1, h.rdidx]
  refine ⟨?_, hnone⟩
  obtain ⟨⟨i, v⟩, hx⟩ : ∃ x, s.reserved[s.delivered.length]? = some x :=
    ⟨_, List.getElem?_eq_getElem hlt⟩
  rcases h.stored _ i v le_rfl hx with htbl | ⟨w, hheld⟩
  · rw [← h.rdidx] at htbl
    exact ⟨i, by rw [hx, htbl]⟩
  · exact absurd hheld (hnone i v w)

lemma goto (h : FifoOk size s) {i : ι} {pc : WriterPc α} (hpc : pc.held = none)
    (hold : (s.writer i).held = none) : FifoOk size (s.goto i pc) := by
  have hheld : ∀ j, ((s.goto i pc).writer j).held = (s.writer j).held := by
    intro j
    by_cases hj : j = i
    · subst hj
      rw [Fifo.goto_writer_self, hpc, hold]
    · rw [Fifo.goto_writer_of_ne s hj]
  have hstoring : ∀ j v, ((s.goto i pc).writer j).storing v = (s.writer j).storing v := by
    intro j v
    rw [WriterPc.storing, WriterPc.storing, hheld]
  refine ⟨h.wridx, h.rdidx, h.room, h.order, ?_, ?_, ?_, ?_⟩
  · intro j v w k hj
    rw [hheld] at hj
    exact h.pending j v w k hj
  · intro k j v hk hx
    simp only [hheld]
    exact h.stored k j v hk hx
  · intro j v
    rw [hstoring]
    exact h.counted j v
  · have hreader := h.reader
    have hsame : (s.goto i pc).reader = s.reader := rfl
    rw [hsame]
    cases hr : s.reader with
    | moveRdidx multi cntr rdidx val =>
      rw [hr] at hreader
      obtain ⟨hrdidx, hval, hnone⟩ := hreader
      refine ⟨hrdidx, hval, fun j v w hj => hnone j v w ?_⟩
      rwa [hheld] at hj
    | idle | readRdidx | readWridx | readTbl =>
      rw [hr] at hreader
      exact hreader

lemma gotoReader (h : FifoOk size s) {pc : ReaderPc α} (hpc : ReaderOk s pc) :
    FifoOk size (s.gotoReader pc) :=
  ⟨h.wridx, h.rdidx, h.room, h.order, h.pending, h.stored, h.counted, hpc⟩

lemma reserve (h : FifoOk size s) {i : ι} {val : α} (hold : (s.writer i).held = none)
    (hroom : (s.wridx + 1) % size ≠ s.rdidx) :
    FifoOk size ({ s with
      wridx := (s.wridx + 1) % size
      reserved := s.reserved ++ [(i, val)] }.goto i (.store val s.wridx s.reserved.length)) := by
  have hle := h.le
  have hkeep : ∀ {k : ℕ} {x : ι × α}, s.reserved[k]? = some x →
      (s.reserved ++ [(i, val)])[k]? = some x := by
    intro k x hk
    obtain ⟨hlt, -⟩ := List.getElem?_eq_some_iff.mp hk
    rw [List.getElem?_append_left hlt, hk]
  have hother : ∀ {j : ι} {y : α × ℕ × ℕ}, (s.writer j).held = some y → j ≠ i := by
    rintro j y hj rfl
    rw [hold] at hj
    cases hj
  constructor
  · show (s.wridx + 1) % size = (s.reserved ++ [(i, val)]).length % size
    rw [h.wridx, List.length_append, List.length_singleton, Nat.mod_add_mod]
  · exact h.rdidx
  · show (s.reserved ++ [(i, val)]).length < s.delivered.length + size
    rw [List.length_append, List.length_singleton]
    have hlt := h.room
    by_contra hfull
    apply hroom
    have heq : s.reserved.length + 1 = s.delivered.length + size := by omega
    rw [h.wridx, h.rdidx, Nat.mod_add_mod, heq, Nat.add_mod_right]
  · show s.delivered <+: (s.reserved ++ [(i, val)]).map Prod.snd
    rw [List.map_append]
    exact h.order.trans (List.prefix_append _ _)
  · intro j v w k hj
    by_cases hji : j = i
    · subst hji
      rw [Fifo.goto_writer_self] at hj
      cases hj
      refine ⟨h.wridx, hle, ?_⟩
      show (s.reserved ++ [(j, val)])[s.reserved.length]? = some (j, val)
      rw [List.getElem?_append_right le_rfl, Nat.sub_self, List.getElem?_cons_zero]
    · rw [Fifo.goto_writer_of_ne _ hji] at hj
      obtain ⟨hw, hd, hx⟩ := h.pending j v w k hj
      exact ⟨hw, hd, hkeep hx⟩
  · intro k j v hk hx
    have hx' : (s.reserved ++ [(i, val)])[k]? = some (j, v) := hx
    have hlt : k < s.reserved.length + 1 := by
      obtain ⟨hlt, -⟩ := List.getElem?_eq_some_iff.mp hx'
      rwa [List.length_append, List.length_singleton] at hlt
    by_cases hlast : k < s.reserved.length
    · rw [List.getElem?_append_left hlast] at hx'
      rcases h.stored k j v hk hx' with htbl | ⟨w, hj⟩
      · exact .inl htbl
      · exact .inr ⟨w, by rw [Fifo.goto_writer_of_ne _ (hother hj)]; exact hj⟩
    · obtain rfl : k = s.reserved.length := by omega
      rw [List.getElem?_append_right le_rfl, Nat.sub_self, List.getElem?_cons_zero] at hx'
      cases hx'
      exact .inr ⟨s.wridx, by rw [Fifo.goto_writer_self]; rfl⟩
  · intro j v
    have hcount := h.counted j v
    show s.accepted.count (j, v) + _ = (s.reserved ++ [(i, val)]).count (j, v)
    rw [List.count_append, ← hcount, List.count_singleton]
    by_cases hji : j = i
    · subst hji
      have hnot : (s.writer j).storing v = false := by rw [WriterPc.storing, hold]
      rw [Fifo.goto_writer_self, hnot]
      by_cases hv : val = v
      · simp [WriterPc.storing, WriterPc.held, hv]
      · simp [WriterPc.storing, WriterPc.held, hv]
    · have hne : (i, val) ≠ (j, v) := fun heq => hji (congrArg Prod.fst heq).symm
      rw [Fifo.goto_writer_of_ne _ hji]
      simp [hne]
  · have hreader := h.reader
    show ReaderOk _ s.reader
    cases hr : s.reader with
    | idle => trivial
    | readRdidx multi cntr => trivial
    | readWridx multi cntr rdidx =>
      rw [hr] at hreader
      exact hreader
    | readTbl multi cntr rdidx =>
      rw [hr] at hreader
      refine ⟨hreader.1, ?_⟩
      show s.delivered.length < (s.reserved ++ [(i, val)]).length
      rw [List.length_append]
      exact Nat.lt_add_right _ hreader.2
    | moveRdidx multi cntr rdidx v =>
      rw [hr] at hreader
      obtain ⟨hrdidx, ⟨j, hx⟩, hnone⟩ := hreader
      refine ⟨hrdidx, ⟨j, hkeep hx⟩, fun j v w hj => ?_⟩
      by_cases hji : j = i
      · subst hji
        rw [Fifo.goto_writer_self] at hj
        obtain ⟨hlt, -⟩ := List.getElem?_eq_some_iff.mp hx
        have heq : s.reserved.length = s.delivered.length := by
          simp only [WriterPc.held, Option.some.injEq, Prod.mk.injEq] at hj
          exact hj.2.2
        omega
      · rw [Fifo.goto_writer_of_ne _ hji] at hj
        exact hnone j v w hj

lemma store (h : FifoOk size s) {i : ι} {val : α} {wridx place : ℕ}
    (hheld : s.writer i = .store val wridx place) :
    FifoOk size ({ s with
      tbl := Function.update s.tbl wridx val
      accepted := s.accepted ++ [(i, val)] }.goto i .idle) := by
  have hmine : (s.writer i).held = some (val, wridx, place) := by rw [hheld, WriterPc.held]
  obtain ⟨hw, hd, hx⟩ := h.pending i val wridx place hmine
  have hsub : ∀ {j : ι} {y : α × ℕ × ℕ},
      (({ s with
        tbl := Function.update s.tbl wridx val
        accepted := s.accepted ++ [(i, val)] }.goto i WriterPc.idle).writer j).held = some y →
      (s.writer j).held = some y := by
    intro j y hj
    by_cases hji : j = i
    · subst hji
      rw [Fifo.goto_writer_self] at hj
      cases hj
    · rwa [Fifo.goto_writer_of_ne _ hji] at hj
  refine ⟨h.wridx, h.rdidx, h.room, h.order, fun j v w k hj => h.pending j v w k (hsub hj), ?_, ?_,
    ?_⟩
  · intro k j v hk hx'
    have hx' : s.reserved[k]? = some (j, v) := hx'
    show Function.update s.tbl wridx val (k % size) = v ∨ _
    by_cases hslot : k % size = wridx
    · obtain rfl : k = place :=
        place_unique hk (h.place_lt hx') hd (h.place_lt hx) (hslot.trans hw)
      rw [hx] at hx'
      cases hx'
      rw [hslot, Function.update_self]
      exact .inl rfl
    · rw [Function.update_of_ne hslot]
      rcases h.stored k j v hk hx' with htbl | ⟨w, hj⟩
      · exact .inl htbl
      · have hji : j ≠ i := by
          rintro rfl
          rw [hmine] at hj
          cases hj
          exact hslot hw.symm
        exact .inr ⟨w, by rw [Fifo.goto_writer_of_ne _ hji]; exact hj⟩
  · intro j v
    have hcount := h.counted j v
    show (s.accepted ++ [(i, val)]).count (j, v) + _ = s.reserved.count (j, v)
    rw [List.count_append, ← hcount, List.count_singleton]
    by_cases hji : j = i
    · subst hji
      rw [Fifo.goto_writer_self]
      by_cases hv : val = v
      · simp [WriterPc.storing, WriterPc.held, hheld, hv]
      · simp [WriterPc.storing, WriterPc.held, hheld, hv]
    · have hne : (i, val) ≠ (j, v) := fun heq => hji (congrArg Prod.fst heq).symm
      rw [Fifo.goto_writer_of_ne _ hji]
      simp [hne]
  · have hreader := h.reader
    show ReaderOk _ s.reader
    cases hr : s.reader with
    | moveRdidx multi cntr rdidx v =>
      rw [hr] at hreader
      obtain ⟨hrdidx, hval, hnone⟩ := hreader
      exact ⟨hrdidx, hval, fun j v w hj => hnone j v w (hsub hj)⟩
    | idle | readRdidx | readWridx | readTbl =>
      rw [hr] at hreader
      exact hreader

lemma deliver (h : FifoOk size s) {multi : Bool} {cntr rdidx : ℕ} {val : α}
    (hr : s.reader = .moveRdidx multi cntr rdidx val) :
    FifoOk size ((s.deliver size rdidx val).gotoReader .idle) := by
  have hreader := h.reader
  rw [hr] at hreader
  obtain ⟨rfl, ⟨i, hx⟩, hnone⟩ := hreader
  have hlen : (s.delivered ++ [val]).length = s.delivered.length + 1 := by
    rw [List.length_append, List.length_singleton]
  refine ⟨h.wridx, ?_, ?_, ?_, ?_, ?_, h.counted, trivial⟩
  · show (s.rdidx + 1) % size = (s.delivered ++ [val]).length % size
    rw [hlen, h.rdidx, Nat.mod_add_mod]
  · show s.reserved.length < (s.delivered ++ [val]).length + size
    have hroom := h.room
    omega
  · show s.delivered ++ [val] <+: s.reserved.map Prod.snd
    obtain ⟨rest, hrest⟩ := h.order
    have hval : (s.delivered ++ rest)[s.delivered.length]? = some val := by
      rw [hrest, List.getElem?_map, hx, Option.map_some]
    rw [List.getElem?_append_right le_rfl, Nat.sub_self] at hval
    cases rest with
    | nil => cases hval
    | cons v rest =>
      cases hval
      exact ⟨rest, by rw [← hrest, List.append_assoc, List.singleton_append]⟩
  · intro j v w k hj
    obtain ⟨hw, hd, hx'⟩ := h.pending j v w k hj
    have hne : k ≠ s.delivered.length := by
      rintro rfl
      exact hnone j v w hj
    refine ⟨hw, ?_, hx'⟩
    show (s.delivered ++ [val]).length ≤ k
    omega
  · intro k j v hk hx'
    have hk' : (s.delivered ++ [val]).length ≤ k := hk
    exact h.stored k j v (by omega) hx'

end FifoOk

/-- The condition on a step. A writer whose compare-and-swap is about to succeed finds a free slot
still, and it is not its last try; a get that is about to read a slot finds no put that has
reserved it and not stored its value. -/
def Careful (size : ℕ) (s : Fifo ι α) : FifoEvent ι α → Prop
  | .put _ _ | .get _ => True
  | .write i sc =>
      match s.writer i with
      | .cas _ cntr wridx => s.wridx = wridx ∧ sc = true →
          (wridx + 1) % size ≠ s.rdidx ∧ cntr ≠ threshold
      | _ => True
  | .read sc =>
      match s.reader with
      | .readTbl _ _ rdidx => ∀ i val wridx place, s.writer i = .store val wridx place →
          wridx ≠ rdidx
      | .moveRdidx true cntr rdidx _ => s.rdidx = rdidx ∧ sc = true → cntr ≠ threshold
      | _ => True

lemma Initial.fifoOk (hsize : 2 ≤ size) (h : Initial s) : FifoOk size s := by
  have hheld : ∀ i, (s.writer i).held = none := by
    intro i
    rw [h.writer i]
    rfl
  constructor
  · rw [h.wridx, h.reserved, List.length_nil, Nat.zero_mod]
  · rw [h.rdidx, h.delivered, List.length_nil, Nat.zero_mod]
  · rw [h.reserved, h.delivered, List.length_nil]
    omega
  · rw [h.delivered]
    exact List.nil_prefix
  · intro i v w k hi
    rw [hheld i] at hi
    cases hi
  · intro k i v _ hx
    rw [h.reserved] at hx
    cases hx
  · intro i v
    rw [h.accepted, h.reserved, WriterPc.storing, hheld i]
    rfl
  · rw [h.reader]
    trivial

lemma FifoOk.write (h : FifoOk size s) {i : ι} {sc : Bool} (hguard : Careful size s (.write i sc))
    (hstep : multiPut size s i sc = some t) : FifoOk size t := by
  rw [multiPut] at hstep
  rw [Careful] at hguard
  cases hpc : s.writer i with
  | idle =>
    rw [hpc] at hstep
    cases hstep
  | readWridx val cntr =>
    rw [hpc] at hstep
    cases hstep
    exact h.goto rfl (by rw [hpc]; rfl)
  | readRdidx val cntr wridx =>
    simp only [hpc] at hstep
    split_ifs at hstep
    · cases hstep
      exact h.goto rfl (by rw [hpc]; rfl)
    · cases hstep
      exact h.goto rfl (by rw [hpc]; rfl)
  | cas val cntr wridx =>
    simp only [hpc] at hstep hguard
    have hold : (s.writer i).held = none := by
      rw [hpc]
      rfl
    split_ifs at hstep with hcas hlast hlast
    · exact absurd hlast (hguard hcas).2
    · cases hstep
      have hroom := (hguard hcas).1
      obtain ⟨rfl, -⟩ := hcas
      exact h.reserve hold hroom
    · cases hstep
      exact h.goto rfl hold
    · cases hstep
      exact h.goto rfl hold
  | store val wridx place =>
    simp only [hpc] at hstep
    cases hstep
    exact h.store hpc

lemma FifoOk.read (h : FifoOk size s) {sc : Bool} (hguard : Careful size s (.read sc))
    (hstep : getAccess size s sc = some t) : FifoOk size t := by
  rw [getAccess] at hstep
  rw [Careful] at hguard
  have hreader := h.reader
  cases hpc : s.reader with
  | idle =>
    rw [hpc] at hstep
    cases hstep
  | readRdidx multi cntr =>
    rw [hpc] at hstep
    cases hstep
    exact h.gotoReader rfl
  | readWridx multi cntr rdidx =>
    simp only [hpc] at hstep hreader
    split_ifs at hstep with hempty
    · cases hstep
      exact h.gotoReader trivial
    · cases hstep
      refine h.gotoReader ⟨hreader, ?_⟩
      have hle := h.le
      by_contra hnot
      apply hempty
      have hlen : s.delivered.length = s.reserved.length := by omega
      rw [hreader, h.rdidx, h.wridx, hlen]
  | readTbl multi cntr rdidx =>
    simp only [hpc] at hstep hreader hguard
    cases hstep
    obtain ⟨rfl, hlt⟩ := hreader
    have hstored : ∀ i v w k, (s.writer i).held = some (v, w, k) → w ≠ s.rdidx := by
      intro i v w k hheld
      cases hi : s.writer i with
      | store val wridx place =>
        have hne := hguard i val wridx place hi
        rw [hi] at hheld
        cases hheld
        exact hne
      | idle | readWridx | readRdidx | cas =>
        rw [hi] at hheld
        cases hheld
    obtain ⟨hval, hnone⟩ := h.head_eq hlt hstored
    exact h.gotoReader ⟨rfl, hval, hnone⟩
  | moveRdidx multi cntr rdidx val =>
    cases multi with
    | false =>
      simp only [hpc] at hstep
      cases hstep
      exact h.deliver hpc
    | true =>
      simp only [hpc] at hstep hguard
      split_ifs at hstep with hcas hlast hlast
      · exact absurd hlast (hguard hcas)
      · cases hstep
        exact h.deliver hpc
      · cases hstep
        exact h.gotoReader trivial
      · cases hstep
        exact h.gotoReader trivial

lemma FifoOk.step (h : FifoOk size s) {e : FifoEvent ι α} (hguard : Careful size s e)
    (hstep : fifoStep size s e = some t) : FifoOk size t := by
  cases e with
  | put i val =>
    rw [fifoStep] at hstep
    cases hpc : s.writer i with
    | idle =>
      rw [hpc] at hstep
      cases hstep
      exact h.goto rfl (by rw [hpc]; rfl)
    | readWridx | readRdidx | cas | store =>
      rw [hpc] at hstep
      cases hstep
  | write i sc => exact h.write hguard hstep
  | get multi =>
    rw [fifoStep] at hstep
    cases hpc : s.reader with
    | idle =>
      rw [hpc] at hstep
      cases hstep
      exact h.gotoReader trivial
    | readRdidx | readWridx | readTbl | moveRdidx =>
      rw [hpc] at hstep
      cases hstep
  | read sc => exact h.read hguard hstep

/-- In every run of such steps the values delivered are those of the first slots reserved, in their
order; no slot that still waits for its value was delivered or is about to be; a put that returned
0 has its own slot. When no put is under way all of them did, and when the FIFO is empty then, each
was delivered. -/
theorem fifo_exact (hsize : 2 ≤ size) (h : (fifoMachine ι α size).Reach (Careful size) s) :
    s.delivered <+: s.reserved.map Prod.snd ∧
    (∀ i val wridx place, s.writer i = .store val wridx place →
      s.reserved[place]? = some (i, val) ∧ s.delivered.length ≤ place ∧
        ∀ multi cntr rdidx v, s.reader = .moveRdidx multi cntr rdidx v →
          s.delivered.length < place) ∧
    (∀ multi cntr rdidx v, s.reader = .moveRdidx multi cntr rdidx v →
      ∃ i, s.reserved[s.delivered.length]? = some (i, v)) ∧
    s.accepted.Subperm s.reserved ∧
    ((∀ i, s.writer i = .idle) → s.accepted.Perm s.reserved ∧
      (s.rdidx = s.wridx → s.delivered = s.reserved.map Prod.snd)) := by
  have hok : FifoOk size s :=
    h.invariant (fun _ => Initial.fifoOk hsize) fun _ _ _ hs hguard => hs.step hguard
  have hreader := hok.reader
  refine ⟨hok.order, ?_, ?_, ?_, ?_⟩
  · intro i val wridx place hi
    have hheld : (s.writer i).held = some (val, wridx, place) := by rw [hi, WriterPc.held]
    obtain ⟨-, hle, hx⟩ := hok.pending i val wridx place hheld
    refine ⟨hx, hle, fun multi cntr rdidx v hr => ?_⟩
    rw [hr] at hreader
    have hne : s.delivered.length ≠ place := by
      rintro rfl
      exact hreader.2.2 i val wridx hheld
    omega
  · intro multi cntr rdidx v hr
    rw [hr] at hreader
    exact hreader.2.1
  · rw [List.subperm_ext_iff]
    rintro ⟨i, v⟩ -
    have hcount := hok.counted i v
    omega
  · intro hidle
    constructor
    · rw [List.perm_iff_count]
      rintro ⟨i, v⟩
      have hcount := hok.counted i v
      have hnot : (s.writer i).storing v = false := by rw [hidle i]; rfl
      rwa [hnot, Bool.toNat_false, Nat.add_zero] at hcount
    · intro hempty
      rw [hok.rdidx, hok.wridx] at hempty
      have hlen : s.delivered.length = s.reserved.length :=
        place_unique le_rfl (by omega) hok.le hok.room hempty
      apply hok.order.eq_of_length
      rw [List.length_map, hlen]

def started : Fifo Unit ℕ where
  wridx := 0
  rdidx := 0
  tbl _ := 0
  writer _ := .idle
  reader := .idle
  reserved := []
  accepted := []
  delivered := []

lemma started_initial : Initial started := ⟨rfl, rfl, fun _ => rfl, rfl, rfl, rfl, rfl⟩

/-- A value is put and then got. -/
theorem fifo_exact_one : ∃ s : Fifo Unit ℕ, (fifoMachine Unit ℕ 2).Reach (Careful 2) s ∧
    s.accepted = [((), 7)] ∧ s.delivered = s.reserved.map Prod.snd ∧ s.accepted.Perm s.reserved := by
  have hput : (fifoMachine Unit ℕ 2).Reach (Careful 2) _ :=
    .step (e := .put () 7) (.init started_initial) trivial rfl
  have hwridx : (fifoMachine Unit ℕ 2).Reach (Careful 2) _ :=
    .step (e := .write () true) hput trivial rfl
  have hrdidx : (fifoMachine Unit ℕ 2).Reach (Careful 2) _ :=
    .step (e := .write () true) hwridx trivial rfl
  have hcas : (fifoMachine Unit ℕ 2).Reach (Careful 2) _ :=
    .step (e := .write () true) hrdidx (fun _ => ⟨by decide, by decide⟩) rfl
  have hstore : (fifoMachine Unit ℕ 2).Reach (Careful 2) _ :=
    .step (e := .write () true) hcas trivial rfl
  have hget : (fifoMachine Unit ℕ 2).Reach (Careful 2) _ :=
    .step (e := .get false) hstore trivial rfl
  have hread : (fifoMachine Unit ℕ 2).Reach (Careful 2) _ :=
    .step (e := .read true) hget trivial rfl
  have htest : (fifoMachine Unit ℕ 2).Reach (Careful 2) _ :=
    .step (e := .read true) hread trivial rfl
  have hslot : (fifoMachine Unit ℕ 2).Reach (Careful 2) _ :=
    .step (e := .read true) htest (fun _ _ _ _ hheld => by cases hheld) rfl
  have hdone : (fifoMachine Unit ℕ 2).Reach (Careful 2) _ :=
    .step (e := .read true) hslot trivial rfl
  have hidle := (fifo_exact le_rfl hdone).2.2.2.2 fun _ => rfl
  exact ⟨_, hdone, rfl, hidle.2 rfl, hidle.1⟩

/-- The slot is reserved and not yet stored when the reader takes it: the get returns what the slot
held before. -/
theorem unstored_slot_delivered : ∃ s : Fifo Unit ℕ, (fifoMachine Unit ℕ 2).Reachable s ∧
    s.reserved = [((), 7)] ∧ s.writer () = .store 7 0 0 ∧ s.delivered = [0] ∧
    ¬s.delivered <+: s.reserved.map Prod.snd := by
  have hrun : (fifoMachine Unit ℕ 2).Reachable _ :=
    Machine.Reachable.run (.init started_initial)
      [.put () 7, .write () true, .write () true, .write () true,
        .get false, .read true, .read true, .read true, .read true] rfl
  exact ⟨_, hrun, rfl, rfl, rfl, by decide⟩

end Almos.Kfifo
