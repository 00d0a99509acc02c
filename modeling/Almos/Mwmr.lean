import Mathlib
import Almos.Machine
import Almos.Ring

/-!
# The MWMR FIFO

A circular buffer of bytes with the count of the stored ones. The counters are 32-bit words; `segment`
has the positions of the buffer that a transfer accesses, in the order of the bytes.
-/
namespace Almos.Mwmr
variable {α : Type*}

/-- `struct fifomwmr_s` -/
structure FifoMwmr (α : Type*) where
  status : ℕ
  readPtr : ℕ
  writePtr : ℕ
  length : ℕ
  data : ℕ → α

/-- The bytes that `mwmr_init` allocates for the data. -/
def dataSize (item length : ℕ) : ℕ := 4 * item * length % 2 ^ 32

/-- `mwmr_init`, where the memory holds `data`. -/
def mwmrInit (item length : ℕ) (data : ℕ → α) : FifoMwmr α :=
  ⟨0, 0, 0, length * item % 2 ^ 32, data⟩

/-- The positions of a transfer of `num` bytes; the two sizes of a transfer around the end are of the
type `int`. -/
def segment (length ptr num : ℕ) : List ℕ :=
  if (ptr + num) % 2 ^ 32 ≤ length then (List.range num).map (ptr + ·)
  else
    let size1 : ℤ := ((length : ℤ) - ptr).bmod (2 ^ 32)
    let size2 : ℤ := ((num : ℤ) - size1).bmod (2 ^ 32)
    (List.range size1.toNat).map (ptr + ·) ++ List.range size2.toNat

/-- The `rnum` of a read. -/
def readNum (fifo : FifoMwmr α) (size : ℕ) : ℕ := if fifo.status < size then fifo.status else size

/-- The `wnum` of a write. -/
def writeNum (fifo : FifoMwmr α) (size : ℕ) : ℕ :=
  let freeSpace := (fifo.length + 2 ^ 32 - fifo.status) % 2 ^ 32
  if freeSpace < size then freeSpace else size

/-- `mwmr_read`, with the bytes it delivers -/
def mwmrRead (fifo : FifoMwmr α) (size : ℕ) : FifoMwmr α × List α :=
  let rnum := readNum fifo size
  if rnum = 0 then (fifo, [])
  else
    ({ fifo with
      status := (fifo.status + 2 ^ 32 - rnum) % 2 ^ 32
      readPtr := (fifo.readPtr + rnum) % 2 ^ 32 % fifo.length },
    (segment fifo.length fifo.readPtr rnum).map fifo.data)

def store (data : ℕ → α) (positions : List ℕ) (bytes : List α) : ℕ → α :=
  (positions.zip bytes).foldl (fun data w => Function.update data w.1 w.2) data

/-- `mwmr_write` of a buffer, with the number of bytes it accepts -/
def mwmrWrite (fifo : FifoMwmr α) (buff : List α) : FifoMwmr α × ℕ :=
  let wnum := writeNum fifo buff.length
  if wnum = 0 then (fifo, 0)
  else
    ({ fifo with
      status := (fifo.status + wnum) % 2 ^ 32
      writePtr := (fifo.writePtr + wnum) % 2 ^ 32 % fifo.length
      data := store fifo.data (segment fifo.length fifo.writePtr wnum) buff }, wnum)

/-- The FIFO with the bytes accepted and delivered so far. -/
structure State (α : Type*) where
  fifo : FifoMwmr α
  accepted : List α
  delivered : List α

inductive Event (α : Type*)
  | write (buff : List α)
  | read (size : ℕ)

def mwmrStep (s : State α) : Event α → Option (State α)
  | .write buff =>
      if buff.length < 2 ^ 31 then
        let r := mwmrWrite s.fifo buff
        some { s with fifo := r.1, accepted := s.accepted ++ buff.take r.2 }
      else none
  | .read size =>
      if size < 2 ^ 31 then
        let r := mwmrRead s.fifo size
        some { s with fifo := r.1, delivered := s.delivered ++ r.2 }
      else none

def mwmrMachine (item length : ℕ) (data : ℕ → α) : Machine (State α) (Event α) where
  init s := s = ⟨mwmrInit item length data, [], []⟩
  step := mwmrStep

def State.stored (s : State α) : ℕ := s.accepted.length - s.delivered.length

/-- What is delivered is what was accepted first; a write accepts what fits, a read delivers what is
stored, and both stay in the buffer. -/
structure ByteQueue (item length : ℕ) (s : State α) : Prop where
  order : s.delivered <+: s.accepted
  write : ∀ buff : List α, buff.length < 2 ^ 31 →
    (mwmrWrite s.fifo buff).2 = min buff.length (item * length - s.stored)
  read : ∀ size < 2 ^ 31, (mwmrRead s.fifo size).2.length = min size s.stored
  writeInside : ∀ size < 2 ^ 31,
    ∀ p ∈ segment s.fifo.length s.fifo.writePtr (writeNum s.fifo size), p < dataSize item length
  readInside : ∀ size < 2 ^ 31,
    ∀ p ∈ segment s.fifo.length s.fifo.readPtr (readNum s.fifo size), p < dataSize item length

section Transfer
variable {length ptr num n : ℕ}

lemma segment_eq (hlength : length < 2 ^ 31) (hptr : ptr < length) (hnum : num ≤ length) :
    segment length ptr num = (List.range num).map fun i => (ptr + i) % length := by
  have hsum : (ptr + num) % 2 ^ 32 = ptr + num := Nat.mod_eq_of_lt (by omega)
  unfold segment
  rw [hsum]
  split_ifs with hle
  · refine List.map_congr_left fun i hi => ?_
    rw [List.mem_range] at hi
    exact (Nat.mod_eq_of_lt (by omega)).symm
  · have hsize1 : ((length : ℤ) - ptr).bmod (2 ^ 32) = ((length - ptr : ℕ) : ℤ) := by
      rw [Int.bmod_eq_of_le] <;> omega
    have hsize2 : ((num : ℤ) - ((length - ptr : ℕ) : ℤ)).bmod (2 ^ 32) =
        ((num - (length - ptr) : ℕ) : ℤ) := by
      rw [Int.bmod_eq_of_le] <;> omega
    have hnumEq : num = (length - ptr) + (num - (length - ptr)) := by omega
    simp only [hsize1, hsize2, Int.toNat_natCast]
    conv_rhs => rw [hnumEq, List.range_add, List.map_append, List.map_map]
    congr 1
    · refine List.map_congr_left fun i hi => ?_
      rw [List.mem_range] at hi
      exact (Nat.mod_eq_of_lt (by omega)).symm
    · nth_rewrite 1 [← List.map_id (List.range (num - (length - ptr)))]
      refine List.map_congr_left fun i hi => ?_
      rw [List.mem_range] at hi
      have hplace : ptr + (length - ptr + i) = i + length := by omega
      simp only [id_eq, Function.comp_apply, hplace, Nat.add_mod_right]
      exact (Nat.mod_eq_of_lt (by omega)).symm

lemma segment_lt (hlength : length < 2 ^ 31) (hptr : ptr < length) (hnum : num ≤ length) {p : ℕ}
    (hp : p ∈ segment length ptr num) : p < length := by
  rw [segment_eq hlength hptr hnum] at hp
  obtain ⟨i, -, rfl⟩ := List.mem_map.mp hp
  exact Nat.mod_lt _ (by omega)

lemma store_of_notMem {positions : List ℕ} {p : ℕ} (data : ℕ → α) (bytes : List α)
    (hp : p ∉ positions) : store data positions bytes p = data p := by
  unfold store
  induction positions generalizing data bytes with
  | nil => rfl
  | cons q positions ih =>
    cases bytes with
    | nil => rfl
    | cons b bytes =>
      rw [List.mem_cons, not_or] at hp
      rw [List.zip_cons_cons, List.foldl_cons, ih _ _ hp.2, Function.update_of_ne hp.1]

lemma store_getElem {positions : List ℕ} (data : ℕ → α) (bytes : List α) (hnodup : positions.Nodup)
    {i : ℕ} (hi : i < positions.length) (hb : i < bytes.length) :
    store data positions bytes positions[i] = bytes[i] := by
  induction positions generalizing data bytes i with
  | nil => exact absurd hi (Nat.not_lt_zero i)
  | cons q positions ih =>
    cases bytes with
    | nil => exact absurd hb (Nat.not_lt_zero i)
    | cons b bytes =>
      rw [List.nodup_cons] at hnodup
      have hstep : store data (q :: positions) (b :: bytes) =
          store (Function.update data q b) positions bytes := rfl
      rw [hstep]
      cases i with
      | zero =>
        rw [List.getElem_cons_zero, List.getElem_cons_zero, store_of_notMem _ _ hnodup.1,
          Function.update_self]
      | succ i => exact ih _ _ hnodup.2 _ _

/-- Bytes stored around the end of a buffer are there from the first position on. -/
lemma holds_store {size : ℕ} (data : ℕ → α) (bytes : List α) (ptr : ℕ) (hn : n ≤ size) :
    Ring.Holds size (store data ((List.range n).map fun i => (ptr + i) % size) bytes) ptr
      (bytes.take n) := by
  intro i hi
  rw [List.length_take] at hi
  have hnodup : ((List.range n).map fun i => (ptr + i) % size).Nodup := by
    refine List.Nodup.map_on (fun j hj k hk heq => ?_) List.nodup_range
    rw [List.mem_range] at hj hk
    exact (Ring.add_mod_inj (by omega) (by omega)).mp heq
  have hstore := store_getElem data bytes hnodup (i := i)
    (by rw [List.length_map, List.length_range]; omega) (by omega)
  rw [List.getElem_map, List.getElem_range] at hstore
  rw [hstore, List.getElem_take]

end Transfer

structure Refines (length : ℕ) (s : State α) (q : List α) : Prop where
  length_eq : s.fifo.length = length
  accepted : s.accepted = s.delivered ++ q
  status : s.fifo.status = q.length
  room : q.length ≤ length
  readPtr : s.fifo.readPtr < length ∨ length = 0 ∧ s.fifo.readPtr = 0
  writePtr : s.fifo.writePtr = (s.fifo.readPtr + q.length) % length
  holds : Ring.Holds length s.fifo.data s.fifo.readPtr q

variable {item length : ℕ} {s : State α} {q : List α}

lemma Refines.stored (h : Refines length s q) : s.stored = q.length := by
  rw [State.stored, h.accepted, List.length_append, Nat.add_sub_cancel_left]

lemma Refines.readNum (h : Refines length s q) (size : ℕ) :
    readNum s.fifo size = min size q.length := by
  rw [Mwmr.readNum, h.status]
  split_ifs <;> omega

lemma Refines.writeNum (hlength : length < 2 ^ 31) (h : Refines length s q) (size : ℕ) :
    writeNum s.fifo size = min size (length - q.length) := by
  have hroom := h.room
  have hfree : (length + 2 ^ 32 - q.length) % 2 ^ 32 = length - q.length := by
    have hsum : length + 2 ^ 32 - q.length = (length - q.length) + 2 ^ 32 := by omega
    rw [hsum, Nat.add_mod_right, Nat.mod_eq_of_lt (by omega)]
  rw [Mwmr.writeNum, h.status, h.length_eq]
  simp only [hfree]
  split_ifs <;> omega

lemma Refines.write (hlength : length < 2 ^ 31) (h : Refines length s q) (buff : List α) :
    (mwmrWrite s.fifo buff).2 = min buff.length (length - q.length) ∧
      Refines length
        { s with fifo := (mwmrWrite s.fifo buff).1
                 accepted := s.accepted ++ buff.take (mwmrWrite s.fifo buff).2 }
        (q ++ buff.take (length - q.length)) := by
  have hroom := h.room
  have hstatus := h.status
  have htake : buff.take (min buff.length (length - q.length)) = buff.take (length - q.length) := by
    rw [List.take_eq_take_iff]
    omega
  have hwnum := h.writeNum hlength buff.length
  rcases Nat.eq_zero_or_pos (min buff.length (length - q.length)) with hzero | hpos
  · have hwrite : mwmrWrite s.fifo buff = (s.fifo, 0) := by
      simp [mwmrWrite, hwnum, hzero]
    rw [hzero, List.take_zero] at htake
    rw [hwrite, ← htake, hzero]
    refine ⟨rfl, h.length_eq, ?_, ?_, ?_, h.readPtr, ?_, ?_⟩
    · simpa using h.accepted
    · simpa using hstatus
    · simpa using hroom
    · simpa using h.writePtr
    · simpa using h.holds
  · have hnz : min buff.length (length - q.length) ≠ 0 := hpos.ne'
    have hreadPtr := h.readPtr.resolve_right (by omega)
    have hwritePtr := h.writePtr
    have hwlt : s.fifo.writePtr < length := by
      rw [hwritePtr]
      exact Nat.mod_lt _ (by omega)
    have hwrite : mwmrWrite s.fifo buff =
        ({ s.fifo with
          status := (s.fifo.status + min buff.length (length - q.length)) % 2 ^ 32
          writePtr := (s.fifo.writePtr + min buff.length (length - q.length)) % 2 ^ 32 % length
          data := store s.fifo.data (segment length s.fifo.writePtr
            (min buff.length (length - q.length))) buff },
          min buff.length (length - q.length)) := by
      simp only [mwmrWrite, hwnum, hnz, if_false, h.length_eq]
    have hseg : segment length s.fifo.writePtr (min buff.length (length - q.length)) =
        (List.range (min buff.length (length - q.length))).map fun i =>
          (s.fifo.writePtr + i) % length := segment_eq hlength hwlt (by omega)
    rw [hwrite]
    refine ⟨rfl, h.length_eq, ?_, ?_, ?_, .inl hreadPtr, ?_, ?_⟩
    · rw [htake, h.accepted, List.append_assoc]
    · simp only [List.length_append, List.length_take, hstatus]
      rw [Nat.mod_eq_of_lt (by omega)]
      omega
    · rw [List.length_append, List.length_take]
      omega
    · simp only [List.length_append, List.length_take, hwritePtr]
      rw [Nat.mod_eq_of_lt (a := _ % length + _) (b := 2 ^ 32), Nat.mod_add_mod, Nat.add_assoc]
      · congr 2
        omega
      · have := Nat.mod_lt (s.fifo.readPtr + q.length) (y := length) (by omega)
        omega
    · -- the new bytes are behind the stored ones
      change Ring.Holds length (store s.fifo.data (segment length s.fifo.writePtr
        (min buff.length (length - q.length))) buff) s.fifo.readPtr _
      rw [hseg]
      refine h.holds.append (fun i hi => ?_) ?_
      · refine store_of_notMem _ _ fun hmem => ?_
        obtain ⟨k, hk, heq⟩ := List.mem_map.mp hmem
        rw [List.mem_range] at hk
        rw [hwritePtr, Nat.mod_add_mod, Nat.add_assoc,
          Ring.add_mod_inj (by omega) (by omega)] at heq
        omega
      · have hnew := holds_store s.fifo.data buff s.fifo.writePtr
          (show min buff.length (length - q.length) ≤ length by omega)
        rw [htake] at hnew
        rw [← Ring.holds_mod, ← hwritePtr]
        exact hnew

lemma Refines.read (hlength : length < 2 ^ 31) (h : Refines length s q) (size : ℕ) :
    (mwmrRead s.fifo size).2 = q.take size ∧
      Refines length
        { s with fifo := (mwmrRead s.fifo size).1
                 delivered := s.delivered ++ (mwmrRead s.fifo size).2 }
        (q.drop size) := by
  have hroom := h.room
  have hrnum := h.readNum size
  rcases Nat.eq_zero_or_pos (min size q.length) with hzero | hpos
  · have hread : mwmrRead s.fifo size = (s.fifo, []) := by
      simp [mwmrRead, hrnum, hzero]
    have htake : q.take size = [] := by
      rw [← List.length_eq_zero_iff, List.length_take, hzero]
    have hdrop : q.drop size = q := by
      have hsplit := List.take_append_drop size q
      rwa [htake, List.nil_append] at hsplit
    rw [hread, htake, hdrop, List.append_nil]
    exact ⟨rfl, h⟩
  · have hnz : min size q.length ≠ 0 := hpos.ne'
    have hreadPtr := h.readPtr.resolve_right (by omega)
    have hbytes : (segment length s.fifo.readPtr (min size q.length)).map s.fifo.data =
        q.take size := by
      rw [segment_eq hlength hreadPtr ((min_le_right _ _).trans hroom), List.map_map]
      refine List.ext_getElem ?_ fun i hi hi' => ?_
      · rw [List.length_map, List.length_range, List.length_take]
      · rw [List.length_take] at hi'
        rw [List.getElem_map, List.getElem_range, List.getElem_take]
        exact h.holds i (by omega)
    have hstatus : (q.length + 2 ^ 32 - min size q.length) % 2 ^ 32 = q.length - size := by
      have hsum : q.length + 2 ^ 32 - min size q.length = (q.length - size) + 2 ^ 32 := by omega
      rw [hsum, Nat.add_mod_right, Nat.mod_eq_of_lt (by omega)]
    have hptr : (s.fifo.readPtr + min size q.length) % 2 ^ 32 = s.fifo.readPtr + min size q.length :=
      Nat.mod_eq_of_lt (by omega)
    have hread : mwmrRead s.fifo size =
        ({ s.fifo with
          status := q.length - size
          readPtr := (s.fifo.readPtr + min size q.length) % length }, q.take size) := by
      simp only [mwmrRead, hrnum, hnz, if_false, h.length_eq, h.status, hstatus, hptr, hbytes]
    rw [hread]
    refine ⟨rfl, h.length_eq, ?_, ?_, ?_, .inl ?_, ?_, ?_⟩
    · rw [h.accepted, List.append_assoc, List.take_append_drop]
    · rw [List.length_drop]
    · rw [List.length_drop]
      omega
    · exact Nat.mod_lt _ (by omega)
    · simp only [List.length_drop, Nat.mod_add_mod]
      rw [h.writePtr]
      congr 1
      omega
    · rw [Ring.holds_mod]
      rcases Nat.le_total size q.length with hle | hge
      · rw [min_eq_left hle]
        exact h.holds.drop size
      · rw [List.drop_of_length_le hge]
        exact .nil

lemma Refines.step (hlength : length < 2 ^ 31) (h : Refines length s q) {e : Event α} {t : State α}
    (hstep : mwmrStep s e = some t) : ∃ r, Refines length t r := by
  cases e with
  | write buff =>
    simp only [mwmrStep] at hstep
    split_ifs at hstep
    obtain rfl := Option.some.inj hstep
    exact ⟨_, (h.write hlength buff).2⟩
  | read size =>
    simp only [mwmrStep] at hstep
    split_ifs at hstep
    obtain rfl := Option.some.inj hstep
    exact ⟨_, (h.read hlength size).2⟩

lemma Refines.byteQueue (hlength : item * length < 2 ^ 31)
    (hsize : item * length ≤ dataSize item length) (h : Refines (item * length) s q) :
    ByteQueue item length s := by
  have hroom := h.room
  refine ⟨⟨q, h.accepted.symm⟩, fun buff _ => ?_, fun size _ => ?_, fun size _ p hp => ?_,
    fun size _ p hp => ?_⟩
  · rw [(h.write hlength buff).1, h.stored]
  · rw [(h.read hlength size).1, h.stored, List.length_take]
  · rw [h.length_eq, h.writeNum hlength] at hp
    rcases h.readPtr with hlt | ⟨hzero, hread⟩
    · have hwlt : s.fifo.writePtr < item * length := by
        rw [h.writePtr]
        exact Nat.mod_lt _ (by omega)
      exact (segment_lt hlength hwlt (by omega) hp).trans_le hsize
    · have hempty : q.length = 0 := by omega
      simp [h.writePtr, hread, hzero, hempty, segment] at hp
  · rw [h.length_eq, h.readNum] at hp
    rcases h.readPtr with hlt | ⟨hzero, hread⟩
    · exact (segment_lt hlength hlt (by omega) hp).trans_le hsize
    · have hempty : q.length = 0 := by omega
      simp [hread, hzero, hempty, segment] at hp

section Small

lemma mwmrWrite_one (hlength : s.fifo.length < 2 ^ 32) (hroom : s.fifo.status < s.fifo.length)
    (hptr : s.fifo.writePtr < s.fifo.length) (b : α) :
    ∃ data, mwmrWrite s.fifo [b] = ({ s.fifo with
      status := s.fifo.status + 1
      writePtr := (s.fifo.writePtr + 1) % s.fifo.length
      data }, 1) := by
  have hfree : (s.fifo.length + 2 ^ 32 - s.fifo.status) % 2 ^ 32 =
      s.fifo.length - s.fifo.status := by
    have hsum : s.fifo.length + 2 ^ 32 - s.fifo.status =
        (s.fifo.length - s.fifo.status) + 2 ^ 32 := by omega
    rw [hsum, Nat.add_mod_right, Nat.mod_eq_of_lt (by omega)]
  have hwnum : writeNum s.fifo 1 = 1 := by
    rw [writeNum]
    simp only [hfree]
    rw [if_neg (by omega)]
  have hstatus : (s.fifo.status + 1) % 2 ^ 32 = s.fifo.status + 1 := Nat.mod_eq_of_lt (by omega)
  have hwptr : (s.fifo.writePtr + 1) % 2 ^ 32 = s.fifo.writePtr + 1 := Nat.mod_eq_of_lt (by omega)
  refine ⟨store s.fifo.data (segment s.fifo.length s.fifo.writePtr 1) [b], ?_⟩
  simp only [mwmrWrite, List.length_singleton, hwnum, one_ne_zero, if_false, hstatus, hwptr]

lemma mwmrRead_one (hlength : s.fifo.length < 2 ^ 32) (hstored : s.fifo.status = 1)
    (hptr : s.fifo.readPtr < s.fifo.length) :
    ∃ bytes, mwmrRead s.fifo 1 = ({ s.fifo with
      status := 0
      readPtr := (s.fifo.readPtr + 1) % s.fifo.length }, bytes) := by
  have hrnum : readNum s.fifo 1 = 1 := by
    rw [readNum, if_neg (by omega)]
  have hrptr : (s.fifo.readPtr + 1) % 2 ^ 32 = s.fifo.readPtr + 1 := Nat.mod_eq_of_lt (by omega)
  refine ⟨(segment s.fifo.length s.fifo.readPtr 1).map s.fifo.data, ?_⟩
  simp only [mwmrRead, hrnum, one_ne_zero, if_false, hrptr, hstored, Nat.add_sub_cancel_left,
    Nat.mod_self]

lemma reachable_filled (item length : ℕ) (data : ℕ → α) (hpos : 0 < length * item % 2 ^ 32) {k : ℕ}
    (hk : k ≤ length * item % 2 ^ 32) :
    ∃ s, (mwmrMachine item length data).Reachable s ∧ s.fifo.length = length * item % 2 ^ 32 ∧
      s.fifo.status = k ∧ s.fifo.writePtr = k % (length * item % 2 ^ 32) ∧
      s.accepted.length = k ∧ s.delivered = [] := by
  have hlt : length * item % 2 ^ 32 < 2 ^ 32 := Nat.mod_lt _ (by positivity)
  induction k with
  | zero => exact ⟨_, .init rfl, rfl, rfl, (Nat.zero_mod _).symm, rfl, rfl⟩
  | succ k ih =>
    obtain ⟨s, hreach, hlength, hstatus, hptr, haccepted, hdelivered⟩ := ih (by omega)
    obtain ⟨data', hwrite⟩ := mwmrWrite_one (s := s) (by omega) (by omega)
      (by rw [hptr, hlength]; exact Nat.mod_lt _ hpos) (data 0)
    refine ⟨_, hreach.step (e := .write [data 0]) trivial rfl, ?_⟩
    rw [hwrite]
    refine ⟨hlength, ?_, ?_, ?_, hdelivered⟩
    · simp only [hstatus]
    · simp only [hptr, hlength, Nat.mod_add_mod]
    · simp only [List.take_succ_cons, List.take_zero, List.length_append, List.length_singleton,
        haccepted]

/-- Byte after byte through the empty FIFO, the pointers reach every position. -/
lemma reachable_moved (item length : ℕ) (data : ℕ → α) (hpos : 0 < length * item % 2 ^ 32) (k : ℕ) :
    ∃ s, (mwmrMachine item length data).Reachable s ∧ s.fifo.length = length * item % 2 ^ 32 ∧
      s.fifo.status = 0 ∧ s.fifo.writePtr = k % (length * item % 2 ^ 32) ∧
      s.fifo.readPtr = k % (length * item % 2 ^ 32) := by
  have hlt : length * item % 2 ^ 32 < 2 ^ 32 := Nat.mod_lt _ (by positivity)
  induction k with
  | zero => exact ⟨_, .init rfl, rfl, rfl, (Nat.zero_mod _).symm, (Nat.zero_mod _).symm⟩
  | succ k ih =>
    obtain ⟨s, hreach, hlength, hstatus, hwptr, hrptr⟩ := ih
    have hmod := Nat.mod_lt k hpos
    obtain ⟨data', hwrite⟩ := mwmrWrite_one (s := s) (by omega) (by omega) (by omega) (data 0)
    have hwritten : (mwmrMachine item length data).Reachable
        { s with
          fifo := { s.fifo with
            status := s.fifo.status + 1
            writePtr := (s.fifo.writePtr + 1) % s.fifo.length
            data := data' }
          accepted := s.accepted ++ [data 0].take 1 } :=
      hreach.step (e := .write [data 0]) trivial (by
        simp only [mwmrMachine, mwmrStep, hwrite]
        rfl)
    obtain ⟨bytes, hread⟩ := mwmrRead_one (s := { s with
          fifo := { s.fifo with
            status := s.fifo.status + 1
            writePtr := (s.fifo.writePtr + 1) % s.fifo.length
            data := data' }
          accepted := s.accepted ++ [data 0].take 1 }) (by simp only; omega)
      (by simp only; omega) (by simp only; omega)
    refine ⟨_, hwritten.step (e := .read 1) trivial rfl, ?_⟩
    rw [hread]
    refine ⟨hlength, rfl, ?_, ?_⟩
    · simp only [hwptr, hlength, Nat.mod_add_mod]
    · simp only [hrptr, hlength, Nat.mod_add_mod]

lemma writeNum_of_free {size : ℕ} (hstatus : s.fifo.status ≤ s.fifo.length)
    (hlength : s.fifo.length < 2 ^ 32) :
    writeNum s.fifo size = min size (s.fifo.length - s.fifo.status) := by
  have hfree : (s.fifo.length + 2 ^ 32 - s.fifo.status) % 2 ^ 32 =
      s.fifo.length - s.fifo.status := by
    rcases Nat.eq_zero_or_pos s.fifo.status with hzero | hpos
    · rw [hzero, Nat.sub_zero, Nat.add_mod_right, Nat.mod_eq_of_lt hlength, Nat.sub_zero]
    · have hsum : s.fifo.length + 2 ^ 32 - s.fifo.status =
          (s.fifo.length - s.fifo.status) + 2 ^ 32 := by omega
      rw [hsum, Nat.add_mod_right, Nat.mod_eq_of_lt (by omega)]
  rw [writeNum]
  simp only [hfree]
  split_ifs <;> omega

lemma not_byteQueue_of_wrapped (h : 2 ^ 32 ≤ item * length) (data : ℕ → α) :
    ∃ s, (mwmrMachine item length data).Reachable s ∧ ¬ ByteQueue item length s := by
  have hlt : length * item % 2 ^ 32 < 2 ^ 32 := Nat.mod_lt _ (by positivity)
  obtain ⟨s, hreach, hlength, hstatus, haccepted, hdelivered⟩ :
      ∃ s, (mwmrMachine item length data).Reachable s ∧ s.fifo.length = length * item % 2 ^ 32 ∧
        s.fifo.status = length * item % 2 ^ 32 ∧ s.accepted.length = length * item % 2 ^ 32 ∧
        s.delivered = [] := by
    rcases Nat.eq_zero_or_pos (length * item % 2 ^ 32) with hzero | hpos
    · exact ⟨_, .init rfl, rfl, hzero.symm, hzero.symm, rfl⟩
    · obtain ⟨s, hreach, hlength, hstatus, -, haccepted, hdelivered⟩ :=
        reachable_filled item length data hpos le_rfl
      exact ⟨s, hreach, hlength, hstatus, haccepted, hdelivered⟩
  refine ⟨s, hreach, fun hqueue => ?_⟩
  have hwrite := hqueue.write [data 0] (by simp)
  have hwnum : writeNum s.fifo 1 = 0 := by
    rw [writeNum_of_free (by omega) (by omega)]
    omega
  simp only [mwmrWrite, List.length_singleton, hwnum, if_true, State.stored, haccepted, hdelivered,
    List.length_nil] at hwrite
  omega

/-- The size of the buffer does not fit in a word, and fewer bytes are allocated than the length. -/
lemma not_byteQueue_of_short (h : item * length < 2 ^ 32) (hsize : dataSize item length < item * length)
    (data : ℕ → α) :
    ∃ s, (mwmrMachine item length data).Reachable s ∧ ¬ ByteQueue item length s := by
  have hlengthEq : length * item % 2 ^ 32 = item * length := by
    rw [Nat.mul_comm, Nat.mod_eq_of_lt h]
  obtain ⟨s, hreach, hlength, hstatus, hptr, -, -⟩ :=
    reachable_filled item length data (k := dataSize item length) (by omega) (by omega)
  rw [hlengthEq] at hlength hptr
  rw [Nat.mod_eq_of_lt hsize] at hptr
  refine ⟨s, hreach, fun hqueue => ?_⟩
  have hwnum : writeNum s.fifo 1 = 1 := by
    rw [writeNum_of_free (by omega) (by omega)]
    omega
  have hmem : dataSize item length ∈ segment s.fifo.length s.fifo.writePtr (writeNum s.fifo 1) := by
    rw [hwnum, hlength, hptr, segment, if_pos ((Nat.mod_le _ _).trans hsize)]
    simp
  exact lt_irrefl _ (hqueue.writeInside 1 (by simp) _ hmem)

/-- The end of a transfer does not fit in a word, and the bytes go behind the buffer. -/
lemma not_byteQueue_of_long (hlow : 2 ^ 31 + 1 < item * length) (h : item * length < 2 ^ 32)
    (data : ℕ → α) :
    ∃ s, (mwmrMachine item length data).Reachable s ∧ ¬ ByteQueue item length s := by
  have hlengthEq : length * item % 2 ^ 32 = item * length := by
    rw [Nat.mul_comm, Nat.mod_eq_of_lt h]
  obtain ⟨s, hreach, hlength, hstatus, hptr, -⟩ :=
    reachable_moved item length data (by omega) (2 ^ 31 + 1)
  rw [hlengthEq] at hlength hptr
  rw [Nat.mod_eq_of_lt hlow] at hptr
  refine ⟨s, hreach, fun hqueue => ?_⟩
  have hwnum : writeNum s.fifo (2 ^ 31 - 1) = 2 ^ 31 - 1 := by
    rw [writeNum_of_free (by omega) (by omega)]
    omega
  have hmem : 2 ^ 32 - 1 ∈
      segment s.fifo.length s.fifo.writePtr (writeNum s.fifo (2 ^ 31 - 1)) := by
    have hwrap : (2 ^ 31 + 1 + (2 ^ 31 - 1)) % 2 ^ 32 = 0 := by norm_num
    rw [hwnum, hlength, hptr, segment, hwrap, if_pos (Nat.zero_le _), List.mem_map]
    exact ⟨2 ^ 31 - 2, List.mem_range.mpr (by norm_num), by norm_num⟩
  have hinside := hqueue.writeInside (2 ^ 31 - 1) (by norm_num) _ hmem
  have hsize : dataSize item length < 2 ^ 32 := Nat.mod_lt _ (by positivity)
  omega

end Small

/-- The FIFO of an item size and a length is a queue of bytes, whatever is written and read, exactly
if there are less than `2 ^ 30` bytes, or less than `2 ^ 31` and enough of them after the overflow of
the size of the buffer. -/
theorem mwmr_byte_queue (item length : ℕ) (data : ℕ → α) :
    (∀ s, (mwmrMachine item length data).Reachable s → ByteQueue item length s) ↔
      item * length < 2 ^ 30 ∨ 2 ^ 32 ≤ 3 * (item * length) ∧ item * length < 2 ^ 31 := by
  have hsize : dataSize item length = 4 * (item * length) % 2 ^ 32 := by
    rw [dataSize, Nat.mul_assoc]
  constructor
  · intro h
    by_contra hcond
    obtain ⟨s, hreach, hnot⟩ :
        ∃ s, (mwmrMachine item length data).Reachable s ∧ ¬ ByteQueue item length s := by
      rcases Nat.lt_or_ge (item * length) (2 ^ 32) with hlt | hge
      · rcases Nat.lt_or_ge (dataSize item length) (item * length) with hshort | hlong
        · exact not_byteQueue_of_short hlt hshort data
        · exact not_byteQueue_of_long (by omega) hlt data
      · exact not_byteQueue_of_wrapped hge data
    exact hnot (h s hreach)
  · intro hcond s hreach
    have hlength : item * length < 2 ^ 31 := by omega
    have hinv : ∃ q, Refines (item * length) s q := by
      refine hreach.invariant (I := fun s => ∃ q, Refines (item * length) s q) ?_ ?_
      · rintro s rfl
        refine ⟨[], ?_, rfl, rfl, Nat.zero_le _, ?_, (Nat.zero_mod _).symm, .nil⟩
        · simp only [mwmrInit]
          rw [Nat.mul_comm, Nat.mod_eq_of_lt (by omega)]
        · rcases Nat.eq_zero_or_pos (item * length) with hzero | hpos
          · exact .inr ⟨hzero, rfl⟩
          · exact .inl hpos
      · rintro s e t ⟨q, hq⟩ hstep
        exact hq.step hlength hstep
    obtain ⟨q, hq⟩ := hinv
    exact hq.byteQueue hlength (by omega)

/-- A buffer of four bytes for a length of `2 ^ 30 + 1` bytes. -/
theorem five_bytes_in_four : ¬ ∀ s, (mwmrMachine 1 (2 ^ 30 + 1) fun _ => 0).Reachable s →
    ByteQueue 1 (2 ^ 30 + 1) s := by
  intro h
  have hinside := (h _ (.init rfl)).writeInside 5 (by norm_num) 4
    (by simp [mwmrInit, writeNum, segment])
  simp [dataSize] at hinside

end Almos.Mwmr
