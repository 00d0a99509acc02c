import Mathlib
import Almos.Spinlock

/-!
# Exclusion by the spinlock

The word counts the readers, with the top bit when a writer waits for them, until a reader that finds
the word negative stores 0: that is right only for the last of the readers.
-/
namespace Almos.Spinlock
open Threads
variable {ι : Type*} [Fintype ι] {s t : SpinState ι}

lemma toInt_neg_iff (val : BitVec 32) : val.toInt < 0 ↔ 2 ^ 31 ≤ val.toNat := by
  have hlt := val.isLt
  rw [BitVec.toInt_eq_toNat_cond]
  split_ifs <;> omega

lemma toInt_pos_iff (val : BitVec 32) : 0 < val.toInt ↔ 0 < val.toNat ∧ val.toNat < 2 ^ 31 := by
  have hlt := val.isLt
  rw [BitVec.toInt_eq_toNat_cond]
  split_ifs <;> omega

lemma toNat_mark {val : BitVec 32} (hlt : val.toNat < 2 ^ 31) :
    (val ||| slWriter).toNat = 2 ^ 31 + val.toNat := by
  have hor : 2 ^ 31 * 1 ||| val.toNat = 2 ^ 31 * 1 + val.toNat :=
    (Nat.two_pow_add_eq_or_of_lt hlt 1).symm
  rw [BitVec.toNat_or, Nat.or_comm]
  exact hor

/-- The word with `r` readers, `w` writers and `l` threads inside `spinlock_lock`. -/
inductive WordOk (val r w l : ℕ) : Prop
  | readers (hw : w = 0) (hval : val = r)
  | marked (hw : w = 0) (hr : r < 2 ^ 31) (hval : val = 2 ^ 31 + r) (hl : 0 < l)
  | writer (hw : w = 1) (hr : r = 0) (hval : val = 2 ^ 32 - 1)

def PcOk : SpinPc → Prop
  | .lockMark val => 0 < val.toInt
  | .rdlockCas val | .tryrdlockCas val => 0 ≤ val.toInt
  | .unlockAdd mode => mode = .read
  | _ => True

structure SpinOk (s : SpinState ι) : Prop where
  word : WordOk s.val.toNat (count (SpinPc.holds .read) s.pc) (count (SpinPc.holds .write) s.pc)
    (count SpinPc.waits s.pc)
  pcs : ∀ i, PcOk (s.pc i)

lemma SpinOk.free (h : SpinOk s) (hval : s.val = 0) : count (SpinPc.holds .read) s.pc = 0 ∧
    count (SpinPc.holds .write) s.pc = 0 := by
  have hzero : s.val.toNat = 0 := by rw [hval]; rfl
  cases h.word with
  | readers hw hr => exact ⟨by omega, hw⟩
  | marked hw hr hval hl => omega
  | writer hw hr hval => omega

lemma SpinOk.negative (h : SpinOk s) {i : ι} (hpc : (s.pc i).holds .write = true) :
    s.val.toInt < 0 := by
  have hpos : 0 < count (SpinPc.holds .write) s.pc := count_pos hpc
  rw [toInt_neg_iff]
  cases h.word with
  | readers hw hval => omega
  | marked hw hr hval hl => omega
  | writer hw hr hval => omega

lemma SpinOk.init (hval : s.val = 0) (hidle : ∀ i, s.pc i = .idle) : SpinOk s := by
  constructor
  · apply WordOk.readers
    · apply count_eq_zero
      intro i
      rw [hidle i]
      rfl
    · rw [hval, count_eq_zero]
      · rfl
      · intro i
        rw [hidle i]
        rfl
  · intro i
    rw [hidle i]
    trivial

variable [DecidableEq ι]

lemma SpinOk.move {i : ι} {val : BitVec 32} {pc : SpinPc} (h : SpinOk s) (hpc : PcOk pc)
    (hword : ∀ n r w l, val.toNat = n →
      r + ((s.pc i).holds .read).toNat = count (SpinPc.holds .read) s.pc + (pc.holds .read).toNat →
      w + ((s.pc i).holds .write).toNat =
        count (SpinPc.holds .write) s.pc + (pc.holds .write).toNat →
      l + (s.pc i).waits.toNat = count SpinPc.waits s.pc + pc.waits.toNat → WordOk n r w l) :
    SpinOk ({ s with val }.goto i pc) := by
  constructor
  · exact hword _ _ _ _ rfl (count_update _ _ _ _) (count_update _ _ _ _) (count_update _ _ _ _)
  · intro j
    rcases eq_or_ne j i with rfl | hne
    · simpa [SpinState.goto] using hpc
    · simpa [SpinState.goto, hne] using h.pcs j

lemma SpinOk.goto {i : ι} {old pc : SpinPc} (h : SpinOk s) (hat : s.pc i = old) (hpc : PcOk pc)
    (hread : pc.holds .read = old.holds .read) (hwrite : pc.holds .write = old.holds .write)
    (hwait : old.waits = true → pc.waits = true) : SpinOk (s.goto i pc) := by
  subst hat
  have hmove : SpinOk ({ s with val := s.val }.goto i pc) := by
    refine h.move hpc fun n r w l hn hr hw hl => ?_
    subst hn
    rw [hread] at hr
    rw [hwrite] at hw
    obtain rfl := Nat.add_right_cancel hr
    obtain rfl := Nat.add_right_cancel hw
    have hle : count SpinPc.waits s.pc ≤ l := by
      cases hold : (s.pc i).waits with
      | false =>
        rw [hold, Bool.toNat_false] at hl
        omega
      | true =>
        rw [hold, hwait hold] at hl
        omega
    cases h.word with
    | readers hw hval => exact .readers hw hval
    | marked hw hr hval hl => exact .marked hw hr hval (by omega)
    | writer hw hr hval => exact .writer hw hr hval
  exact hmove

/-- The lock is taken for writing, or the thread goes on with the word as it was. -/
lemma SpinOk.take_write {i : ι} {sc : Bool} {old again : SpinPc} (h : SpinOk s)
    (hat : s.pc i = old) (hread : old.holds .read = false) (hwrite : old.holds .write = false)
    (hagain : SpinOk (s.goto i again)) : SpinOk (s.cas i 0 (-1) sc (.held .write) again) := by
  subst hat
  unfold SpinState.cas cpuAtomicCas
  by_cases hdone : s.val = 0 ∧ sc = true
  · rw [if_pos hdone]
    obtain ⟨hr, hw⟩ := h.free hdone.1
    refine h.move trivial fun n r w l hn hr' hw' _ => ?_
    subst hn
    rw [hread] at hr'
    rw [hwrite] at hw'
    have hr0 : r = count (SpinPc.holds .read) s.pc := hr'
    have hw0 : w = count (SpinPc.holds .write) s.pc + 1 := hw'
    exact .writer (by omega) (by omega) rfl
  · rw [if_neg hdone]
    exact hagain

/-- The lock is taken for reading, or the thread goes on with the word as it was. -/
lemma SpinOk.take_read {i : ι} {val : BitVec 32} {sc : Bool} {old again : SpinPc} (h : SpinOk s)
    (hat : s.pc i = old) (hread : old.holds .read = false) (hwrite : old.holds .write = false)
    (hpos : 0 ≤ val.toInt) (hagain : SpinOk (s.goto i again)) :
    SpinOk (s.cas i val (val + 1) sc (.held .read) again) := by
  subst hat
  unfold SpinState.cas cpuAtomicCas
  by_cases hdone : s.val = val ∧ sc = true
  · rw [if_pos hdone]
    obtain ⟨rfl, -⟩ := hdone
    have hsign : s.val.toNat < 2 ^ 31 := by
      have hneg := toInt_neg_iff s.val
      omega
    refine h.move trivial fun n r w l hn hr' hw' _ => ?_
    rw [hread] at hr'
    rw [hwrite] at hw'
    have hr : r = count (SpinPc.holds .read) s.pc + 1 := hr'
    have hw : w = count (SpinPc.holds .write) s.pc := hw'
    have hadd : (s.val + 1).toNat = s.val.toNat + 1 := by
      rw [BitVec.toNat_add]
      exact Nat.mod_eq_of_lt (by simp; omega)
    rw [hadd] at hn
    cases h.word with
    | readers hw0 hval => exact .readers (by omega) (by omega)
    | marked hw0 hr0 hval hl => omega
    | writer hw0 hr0 hval => omega
  · rw [if_neg hdone]
    exact hagain

lemma SpinOk.mark {i : ι} {val : BitVec 32} {sc : Bool} (h : SpinOk s)
    (hpc : s.pc i = .lockMark val) :
    SpinOk (s.cas i val (val ||| slWriter) sc .lockRead .lockRead) := by
  have hpos : 0 < val.toInt := by
    have hat := h.pcs i
    rwa [hpc] at hat
  obtain ⟨hlow, hhigh⟩ := (toInt_pos_iff val).mp hpos
  unfold SpinState.cas cpuAtomicCas
  by_cases hdone : s.val = val ∧ sc = true
  · rw [if_pos hdone]
    obtain ⟨rfl, -⟩ := hdone
    refine h.move trivial fun n r w l hn hr' hw' hl' => ?_
    rw [hpc] at hr' hw' hl'
    have hr : r = count (SpinPc.holds .read) s.pc := hr'
    have hw : w = count (SpinPc.holds .write) s.pc := hw'
    have hl : 0 < l := by
      have hwaits : 0 < count SpinPc.waits s.pc := count_pos (by rw [hpc]; rfl)
      have heq : l + 1 = count SpinPc.waits s.pc + 1 := hl'
      omega
    rw [toNat_mark hhigh] at hn
    cases h.word with
    | readers hw0 hval =>
      apply WordOk.marked
      · omega
      · omega
      · omega
      · exact hl
    | marked hw0 hr0 hval hl => omega
    | writer hw0 hr0 hval => omega
  · rw [if_neg hdone]
    exact h.goto hpc trivial rfl rfl fun _ => rfl

lemma SpinOk.store {i : ι} {mode : Mode} (h : SpinOk s) (hpc : s.pc i = .unlockStore mode)
    (hlast : mode = .read → ∀ j, j ≠ i → (s.pc j).holds .read = false) :
    SpinOk ({ s with val := 0 }.goto i .idle) := by
  refine h.move trivial fun n r w l hn hr' hw' _ => ?_
  rw [hpc] at hr' hw'
  have hzero : n = 0 := hn.symm
  cases mode with
  | read =>
    have hone : count (SpinPc.holds .read) s.pc ≤ 1 := count_le_one (hlast rfl)
    have hr : r + 1 = count (SpinPc.holds .read) s.pc := hr'
    have hw : w = count (SpinPc.holds .write) s.pc := hw'
    cases h.word with
    | readers hw0 hval => exact .readers (by omega) (by omega)
    | marked hw0 hr0 hval hl => exact .readers (by omega) (by omega)
    | writer hw0 hr0 hval => omega
  | write =>
    have hr : r = count (SpinPc.holds .read) s.pc := hr'
    have hw : w + 1 = count (SpinPc.holds .write) s.pc := hw'
    cases h.word with
    | readers hw0 hval => omega
    | marked hw0 hr0 hval hl => omega
    | writer hw0 hr0 hval => exact .readers (by omega) (by omega)

lemma SpinOk.add {i : ι} {mode : Mode} (h : SpinOk s) (hpc : s.pc i = .unlockAdd mode) :
    SpinOk ({ s with val := s.val - 1 }.goto i .idle) := by
  obtain rfl : mode = .read := by
    have hat := h.pcs i
    rwa [hpc] at hat
  refine h.move trivial fun n r w l hn hr' hw' hl' => ?_
  rw [hpc] at hr' hw' hl'
  have hr : r + 1 = count (SpinPc.holds .read) s.pc := hr'
  have hw : w = count (SpinPc.holds .write) s.pc := hw'
  have hl : l = count SpinPc.waits s.pc := hl'
  have hsub : 0 < s.val.toNat → n = s.val.toNat - 1 := by
    intro hpos
    rw [← hn]
    bv_omega
  clear hn
  cases h.word with
  | readers hw0 hval => exact .readers (by omega) (by omega)
  | marked hw0 hr0 hval hl0 =>
    apply WordOk.marked
    · omega
    · omega
    · omega
    · omega
  | writer hw0 hr0 hval => omega

/-- A reader that found the word negative stores 0 only when no other reader has the lock. -/
def LastReaderStores (s : SpinState ι) : SpinEvent ι → Prop
  | .access i _ => s.pc i = .unlockStore .read → ∀ j, j ≠ i → (s.pc j).holds .read = false
  | _ => True

instance (s : SpinState ι) (e : SpinEvent ι) : Decidable (LastReaderStores s e) :=
  match e with
  | .access _ _ => inferInstanceAs (Decidable (_ → _))
  | .spinlockLock _ | .spinlockRdlock _ | .spinlockTrylock _ | .spinlockTryrdlock _
  | .spinlockUnlock _ => inferInstanceAs (Decidable True)

lemma SpinOk.access {i : ι} {sc : Bool} (h : SpinOk s) (hlast : LastReaderStores s (.access i sc))
    (hstep : access s i sc = some t) : SpinOk t := by
  have hat := h.pcs i
  unfold Spinlock.access at hstep
  cases hpc : s.pc i with
  | idle =>
    rw [hpc] at hstep
    cases hstep
  | held mode =>
    rw [hpc] at hstep
    cases hstep
  | lockRead =>
    rw [hpc] at hstep
    dsimp only at hstep
    split_ifs at hstep with hpos hzero
    · cases hstep
      exact h.goto hpc hpos rfl rfl fun _ => rfl
    · cases hstep
      exact h.goto hpc trivial rfl rfl fun _ => rfl
    · cases hstep
      exact h.goto hpc trivial rfl rfl fun _ => rfl
  | lockMark val =>
    rw [hpc] at hstep
    cases hstep
    exact h.mark hpc
  | lockCas =>
    rw [hpc] at hstep
    cases hstep
    exact h.take_write hpc rfl rfl
      (h.goto hpc trivial rfl rfl fun _ => rfl)
  | rdlockRead =>
    rw [hpc] at hstep
    dsimp only at hstep
    split_ifs at hstep with hneg
    · cases hstep
      exact h.goto hpc trivial rfl rfl id
    · cases hstep
      exact h.goto hpc (not_lt.mp hneg) rfl rfl id
  | rdlockCas val =>
    rw [hpc] at hstep hat
    cases hstep
    exact h.take_read hpc rfl rfl hat
      (h.goto hpc trivial rfl rfl id)
  | trylockRead =>
    rw [hpc] at hstep
    dsimp only at hstep
    split_ifs at hstep with hzero
    · cases hstep
      exact h.goto hpc trivial rfl rfl id
    · cases hstep
      exact h.goto hpc trivial rfl rfl id
  | trylockCas =>
    rw [hpc] at hstep
    cases hstep
    exact h.take_write hpc rfl rfl
      (h.goto hpc trivial rfl rfl id)
  | tryrdlockRead =>
    rw [hpc] at hstep
    dsimp only at hstep
    split_ifs at hstep with hpos
    · cases hstep
      exact h.goto hpc hpos rfl rfl id
    · cases hstep
      exact h.goto hpc trivial rfl rfl id
  | tryrdlockCas val =>
    rw [hpc] at hstep hat
    cases hstep
    exact h.take_read hpc rfl rfl hat
      (h.goto hpc trivial rfl rfl id)
  | unlockRead mode =>
    rw [hpc] at hstep
    dsimp only at hstep
    split_ifs at hstep with hneg
    · cases hstep
      exact h.goto hpc trivial rfl rfl id
    · cases hstep
      cases mode with
      | write => exact absurd (h.negative (by rw [hpc]; rfl)) hneg
      | read => exact h.goto hpc rfl rfl rfl id
  | unlockStore mode =>
    rw [hpc] at hstep
    cases hstep
    refine h.store hpc fun hmode => hlast ?_
    rw [hpc, hmode]
  | unlockAdd mode =>
    rw [hpc] at hstep
    cases hstep
    exact h.add hpc

lemma SpinOk.enter {i : ι} (h : SpinOk s) (pc : SpinPc) (hpc : PcOk pc)
    (hread : pc.holds .read = false) (hwrite : pc.holds .write = false)
    (hstep : enter s i pc = some t) : SpinOk t := by
  unfold Spinlock.enter at hstep
  split_ifs at hstep with hidle
  cases hstep
  exact h.goto hidle hpc hread hwrite fun hwaits => by cases hwaits

lemma SpinOk.step {e : SpinEvent ι} (h : SpinOk s) (hlast : LastReaderStores s e)
    (hstep : spinStep s e = some t) : SpinOk t := by
  cases e with
  | spinlockLock i => exact SpinOk.enter h .lockRead trivial rfl rfl hstep
  | spinlockRdlock i => exact SpinOk.enter h .rdlockRead trivial rfl rfl hstep
  | spinlockTrylock i => exact SpinOk.enter h .trylockRead trivial rfl rfl hstep
  | spinlockTryrdlock i => exact SpinOk.enter h .tryrdlockRead trivial rfl rfl hstep
  | spinlockUnlock i =>
    simp only [spinStep] at hstep
    split at hstep
    · next mode hpc =>
      cases hstep
      exact h.goto hpc trivial rfl rfl id
    · cases hstep
  | access i sc => exact h.access hlast hstep

/-- In every run in which only a last reader stores 0: while a thread has the lock for writing no
other has it, and when all threads are outside the word is 0. -/
theorem spinlock_excludes (h : (spinMachine ι).Reach LastReaderStores s) :
    (∀ i, (s.pc i).holds .write = true → ∀ j, j ≠ i →
      (s.pc j).holds .read = false ∧ (s.pc j).holds .write = false) ∧
    ((∀ i, s.pc i = .idle) → s.val = 0) := by
  have hok : SpinOk s := h.invariant (fun _ hinit => .init hinit.1 hinit.2)
    fun _ _ _ hs hlast hstep => hs.step hlast hstep
  constructor
  · intro i hi j hne
    have hwpos : 0 < count (SpinPc.holds .write) s.pc := count_pos hi
    constructor
    · by_contra hj
      have hrpos : 0 < count (SpinPc.holds .read) s.pc := count_pos (Bool.not_eq_false _ ▸ hj)
      cases hok.word with
      | readers hw hval => omega
      | marked hw hr hval hl => omega
      | writer hw hr hval => omega
    · by_contra hj
      have htwo : 2 ≤ count (SpinPc.holds .write) s.pc :=
        two_le_count hne (Bool.not_eq_false _ ▸ hj) hi
      cases hok.word with
      | readers hw hval => omega
      | marked hw hr hval hl => omega
      | writer hw hr hval => omega
  · intro hidle
    have hnone : ∀ kind : SpinPc → Bool, kind .idle = false → count kind s.pc = 0 := by
      intro kind hkind
      apply count_eq_zero
      intro i
      rw [hidle i, hkind]
    have hr := hnone (SpinPc.holds .read) rfl
    have hw := hnone (SpinPc.holds .write) rfl
    have hl := hnone SpinPc.waits rfl
    cases hok.word with
    | readers hw0 hval => exact BitVec.eq_of_toNat_eq (hval.trans hr)
    | marked hw0 hr0 hval hl0 => omega
    | writer hw0 hr0 hval => omega

def freeLock (n : ℕ) : SpinState (Fin n) := ⟨0, fun _ => .idle⟩

lemma freeLock_init (n : ℕ) : (spinMachine (Fin n)).init (freeLock n) := ⟨rfl, fun _ => rfl⟩

/-- Threads 0 and 1 read; thread 2 waits to write when thread 1, the last reader, stores 0, and gets
the lock. -/
theorem spinlock_excludes_writer : ∃ s : SpinState (Fin 3),
    (spinMachine (Fin 3)).Reach LastReaderStores s ∧ (s.pc 2).holds .write = true ∧
      ∀ j, j ≠ 2 → (s.pc j).holds .read = false ∧ (s.pc j).holds .write = false := by
  let events : List (SpinEvent (Fin 3)) :=
    [.spinlockRdlock 0, .access 0 true, .access 0 true, .spinlockRdlock 1, .access 1 true,
      .access 1 true, .spinlockUnlock 0, .access 0 true, .access 0 true, .spinlockLock 2,
      .access 2 true, .access 2 true, .spinlockUnlock 1, .access 1 true, .access 1 true,
      .access 2 true, .access 2 true]
  have hholds : (((spinMachine (Fin 3)).restrict fun s e => decide (LastReaderStores s e)).run
      (freeLock 3) events).map (fun s => (s.pc 2).holds .write) = some true := by decide +kernel
  obtain ⟨s, hs, hwrite⟩ := Option.map_eq_some_iff.mp hholds
  have hreach := Machine.Reach.of_run (fun _ _ => of_decide_eq_true) (freeLock_init 3) hs
  exact ⟨s, hreach, hwrite, (spinlock_excludes hreach).1 2 hwrite⟩

/-- Threads 0 and 1 read and thread 2 waits to write, with the top bit set, when thread 0 unlocks:
the word is 0 while thread 1 still reads, and thread 2 gets the lock. -/
theorem writer_beside_reader : ∃ s : SpinState (Fin 3), (spinMachine (Fin 3)).Reachable s ∧
    s.pc 1 = .held .read ∧ s.pc 2 = .held .write := by
  let events : List (SpinEvent (Fin 3)) :=
    [.spinlockRdlock 0, .access 0 true, .access 0 true, .spinlockRdlock 1, .access 1 true,
      .access 1 true, .spinlockLock 2, .access 2 true, .access 2 true, .spinlockUnlock 0,
      .access 0 true, .access 0 true, .access 2 true, .access 2 true]
  have hplaces : ((spinMachine (Fin 3)).run (freeLock 3) events).map (fun s => (s.pc 1, s.pc 2)) =
      some (.held .read, .held .write) := by decide +kernel
  obtain ⟨s, hs, hpc⟩ := Option.map_eq_some_iff.mp hplaces
  rw [Prod.mk.injEq] at hpc
  exact ⟨s, Machine.Reachable.run (.init (freeLock_init 3)) events hs, hpc.1, hpc.2⟩

end Almos.Spinlock
