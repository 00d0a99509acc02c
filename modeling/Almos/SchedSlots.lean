import Mathlib
import Almos.Bits
import Almos.Machine

/-!
# The slots of the scheduler

Each registered thread of a CPU has a slot, by its `ltid`, with two ports for events. A set bit of the
bitmap is a free slot, and `next` is where the search for one starts.
-/
namespace Almos.SchedSlots
open Bits

/-- `struct sched_db_s` -/
structure SchedDb where
  bitmap : Bitmap
  next : ℕ
  ports : ℕ → ℕ → ℕ

/-- The database of `sched_init`, for `SCHED_THREADS_NR` threads. -/
def schedInit (threadsNr : ℕ) : SchedDb where
  bitmap := bitmapSetRange (fun _ => 0) 0 threadsNr
  next := 0
  ports _ _ := 0

/-- `sched_register`, with the `ltid` of the thread; without one the error is `ERANGE`. -/
def schedRegister (threadsNr : ℕ) (db : SchedDb) : SchedDb × Option ℕ :=
  let next := if threadsNr ≤ db.next then 0 else db.next
  match bitmapFfs2 db.bitmap next (threadsNr / 8) with
  | some index => ({ db with bitmap := bitmapClear db.bitmap index, next := index + 1 }, some index)
  | none => ({ db with next }, none)

/-- `sched_unregister` -/
def schedUnregister (db : SchedDb) (ltid : ℕ) : SchedDb where
  bitmap := bitmapSet db.bitmap ltid
  next := if ltid < db.next then ltid else db.next
  ports := Function.update db.ports ltid fun _ => 0

/-- The database of a CPU and the `ltid` of its registered threads. -/
structure State (ι : Type*) where
  db : SchedDb
  ltid : ι → Option ℕ

inductive Event (ι : Type*)
  | register (thread : ι)
  | unregister (thread : ι)
  | send (thread : ι) (port event : ℕ)

variable {ι : Type*} [DecidableEq ι]

/-- A thread registers once and unregisters at its end; in between events are written to its ports. -/
def slotStep (threadsNr : ℕ) (s : State ι) : Event ι → Option (State ι)
  | .register thread =>
      if s.ltid thread = none then
        let (db, index) := schedRegister threadsNr s.db
        some { db, ltid := Function.update s.ltid thread index }
      else none
  | .unregister thread =>
      (s.ltid thread).map fun ltid =>
        { db := schedUnregister s.db ltid, ltid := Function.update s.ltid thread none }
  | .send thread port event =>
      (s.ltid thread).map fun ltid =>
        { s with db := { s.db with
          ports := Function.update s.db.ports ltid
            (Function.update (s.db.ports ltid) port event) } }

def slotMachine (ι : Type*) [DecidableEq ι] (threadsNr : ℕ) : Machine (State ι) (Event ι) where
  init s := s.db = schedInit threadsNr ∧ s.ltid = fun _ => none
  step := slotStep threadsNr

def Free (ltid : ι → Option ℕ) (k : ℕ) : Prop := ∀ i, ltid i ≠ some k

/-- The registered threads have the slots that are not free, the search starts at or below the first
free slot, and the ports of the free slots are empty. -/
structure SlotsOk (threadsNr : ℕ) (s : State ι) : Prop where
  lt : ∀ i k, s.ltid i = some k → k < threadsNr
  inj : ∀ i j k, s.ltid i = some k → s.ltid j = some k → i = j
  bitmap : ∀ k < threadsNr, bitmapState s.db.bitmap k = true ↔ Free s.ltid k
  next : s.db.next ≤ threadsNr ∧ ∀ k < threadsNr, Free s.ltid k → s.db.next ≤ k
  ports : ∀ k < threadsNr, Free s.ltid k → ∀ port, s.db.ports k port = 0

variable {threadsNr : ℕ} {s t : State ι}

omit [DecidableEq ι] in
lemma schedRegister_spec (hnr : 32 ∣ threadsNr) (h : SlotsOk threadsNr s) :
    (∃ k < threadsNr, Free s.ltid k ∧ (∀ j < k, ¬ Free s.ltid j) ∧
      schedRegister threadsNr s.db =
        ({ s.db with bitmap := bitmapClear s.db.bitmap k, next := k + 1 }, some k)) ∨
    (∀ k < threadsNr, ¬ Free s.ltid k) ∧
      ∃ next ≤ threadsNr, schedRegister threadsNr s.db = ({ s.db with next }, none) := by
  set next := if threadsNr ≤ s.db.next then 0 else s.db.next with hnext
  -- the slots below the start of the search are taken
  have hbelow : ∀ k < threadsNr, Free s.ltid k → next ≤ k := by
    intro k hk hfree
    have hle := h.next.2 k hk hfree
    rw [hnext]
    split_ifs
    · exact Nat.zero_le k
    · exact hle
  have hbytes : threadsNr / 8 * 8 = threadsNr := Nat.div_mul_cancel ((by decide : 8 ∣ 32).trans hnr)
  rcases Nat.eq_zero_or_pos threadsNr with hzero | hpos
  · subst hzero
    have hfind : bitmapFfs2 s.db.bitmap next (0 / 8) = none := by
      simp [hnext, bitmapFfs2, scanWords]
    refine .inr ⟨fun k hk => absurd hk (Nat.not_lt_zero k), next, by simp [hnext], ?_⟩
    simp only [schedRegister, ← hnext, hfind]
  · have hlt : next < threadsNr / 8 * 8 := by
      rw [hbytes, hnext]
      split_ifs <;> omega
    have hspec := bitmapFfs2_spec s.db.bitmap hlt (hbytes.symm ▸ hnr)
    rw [hbytes] at hspec
    cases hfind : bitmapFfs2 s.db.bitmap next (threadsNr / 8) with
    | none =>
      rw [hfind] at hspec
      refine .inr ⟨fun k hk hfree => ?_, next, by omega, by simp only [schedRegister, ← hnext, hfind]⟩
      have hset := hspec k (hbelow k hk hfree) hk
      rw [(h.bitmap k hk).mpr hfree] at hset
      cases hset
    | some k =>
      rw [hfind] at hspec
      obtain ⟨-, hk, hset, hclear⟩ := hspec
      refine .inl ⟨k, hk, (h.bitmap k hk).mp hset, fun j hj hfree => ?_,
        by simp only [schedRegister, ← hnext, hfind]⟩
      have hjnr : j < threadsNr := hj.trans hk
      have hunset := hclear j (hbelow j hjnr hfree) hj
      rw [(h.bitmap j hjnr).mpr hfree] at hunset
      cases hunset

lemma free_update_of_ne {i : ι} {k m : ℕ} (hnone : s.ltid i = none) (hne : m ≠ k) :
    Free (Function.update s.ltid i (some k)) m ↔ Free s.ltid m := by
  refine forall_congr' fun j => ?_
  rcases eq_or_ne j i with rfl | hj
  · simp [hnone, hne.symm]
  · simp [hj]

lemma SlotsOk.register {i : ι} (hnr : 32 ∣ threadsNr) (h : SlotsOk threadsNr s)
    (hnone : s.ltid i = none) :
    SlotsOk threadsNr ⟨(schedRegister threadsNr s.db).1,
      Function.update s.ltid i (schedRegister threadsNr s.db).2⟩ := by
  rcases schedRegister_spec hnr h with ⟨k, hk, hfree, hfirst, hreg⟩ | ⟨hfull, next, hle, hreg⟩
  · rw [hreg]
    have hother : ∀ j m, Function.update s.ltid i (some k) j = some m →
        j = i ∧ m = k ∨ j ≠ i ∧ m ≠ k ∧ s.ltid j = some m := by
      intro j m hj
      rcases eq_or_ne j i with rfl | hji
      · rw [Function.update_self, Option.some.injEq] at hj
        exact .inl ⟨rfl, hj.symm⟩
      · rw [Function.update_of_ne hji] at hj
        refine .inr ⟨hji, ?_, hj⟩
        rintro rfl
        exact hfree j hj
    have htaken : ¬ Free (Function.update s.ltid i (some k)) k := fun hf =>
      hf i (Function.update_self _ _ _)
    refine ⟨fun j m hj => ?_, fun j l m hj hl => ?_, fun m hm => ?_, ⟨hk, fun m hm hf => ?_⟩,
      fun m hm hf port => ?_⟩
    · rcases hother j m hj with ⟨-, rfl⟩ | ⟨-, -, hjs⟩
      · exact hk
      · exact h.lt j m hjs
    · rcases hother j m hj with ⟨rfl, rfl⟩ | ⟨-, hmk, hjs⟩
      · rcases hother l m hl with ⟨rfl, -⟩ | ⟨-, hmk, -⟩
        · rfl
        · exact absurd rfl hmk
      · rcases hother l m hl with ⟨-, rfl⟩ | ⟨-, -, hls⟩
        · exact absurd rfl hmk
        · exact h.inj j l m hjs hls
    · rw [bitmapState_bitmapClear]
      rcases eq_or_ne m k with rfl | hmk
      · simpa using htaken
      · rw [free_update_of_ne hnone hmk, ← h.bitmap m hm]
        simp [hmk]
    · have hmk : m ≠ k := by
        rintro rfl
        exact htaken hf
      have hfm := (free_update_of_ne hnone hmk).mp hf
      have hle : k ≤ m := by
        by_contra hlt
        exact hfirst m (by omega) hfm
      simp only
      omega
    · have hmk : m ≠ k := by
        rintro rfl
        exact htaken hf
      exact h.ports m hm ((free_update_of_ne hnone hmk).mp hf) port
  · have hsame : Function.update s.ltid i none = s.ltid := by
      rw [← hnone, Function.update_eq_self]
    rw [hreg]
    simp only [hsame]
    exact ⟨h.lt, h.inj, h.bitmap, ⟨hle, fun k hk hfree => absurd hfree (hfull k hk)⟩, h.ports⟩

lemma SlotsOk.unregister {i : ι} {k : ℕ} (h : SlotsOk threadsNr s) (hsome : s.ltid i = some k) :
    SlotsOk threadsNr ⟨schedUnregister s.db k, Function.update s.ltid i none⟩ := by
  have hold : ∀ j m, Function.update s.ltid i none j = some m → j ≠ i ∧ s.ltid j = some m := by
    intro j m hj
    rcases eq_or_ne j i with rfl | hji
    · simp at hj
    · exact ⟨hji, by rwa [Function.update_of_ne hji] at hj⟩
  have hfree : ∀ m, Free (Function.update s.ltid i none) m ↔
      m = k ∨ Free s.ltid m := by
    intro m
    constructor
    · intro hf
      rcases eq_or_ne m k with rfl | hmk
      · exact .inl rfl
      · refine .inr fun j hj => ?_
        rcases eq_or_ne j i with rfl | hji
        · exact hmk (Option.some.inj (hj.symm.trans hsome))
        · exact hf j (by rwa [Function.update_of_ne hji])
    · rintro (rfl | hf) j hj
      · obtain ⟨hji, hjs⟩ := hold j m hj
        exact hji (h.inj j i m hjs hsome)
      · exact hf j (hold j m hj).2
  refine ⟨fun j m hj => h.lt j m (hold j m hj).2,
    fun j l m hj hl => h.inj j l m (hold j m hj).2 (hold l m hl).2, fun m hm => ?_, ⟨?_, ?_⟩, ?_⟩
  · rw [hfree, ← h.bitmap m hm]
    simp [schedUnregister, or_comm]
  · have hle := h.next.1
    have hk := h.lt i k hsome
    simp only [schedUnregister]
    split_ifs <;> omega
  · intro m hm hf
    simp only [schedUnregister]
    rcases (hfree m).mp hf with rfl | hf
    · split_ifs <;> omega
    · have hle := h.next.2 m hm hf
      split_ifs <;> omega
  · intro m hm hf port
    simp only [schedUnregister]
    rcases eq_or_ne m k with rfl | hmk
    · simp
    · rw [Function.update_of_ne hmk]
      exact h.ports m hm (((hfree m).mp hf).resolve_left hmk) port

lemma SlotsOk.step {e : Event ι} (hnr : 32 ∣ threadsNr) (h : SlotsOk threadsNr s)
    (hstep : slotStep threadsNr s e = some t) : SlotsOk threadsNr t := by
  cases e with
  | register i =>
    simp only [slotStep] at hstep
    split_ifs at hstep with hnone
    obtain rfl := Option.some.inj hstep
    exact h.register hnr hnone
  | unregister i =>
    obtain ⟨k, hsome, rfl⟩ := Option.map_eq_some_iff.mp hstep
    exact h.unregister hsome
  | send i port event =>
    obtain ⟨k, hsome, rfl⟩ := Option.map_eq_some_iff.mp hstep
    refine ⟨h.lt, h.inj, h.bitmap, h.next, fun m hm hf p => ?_⟩
    have hmk : m ≠ k := by
      rintro rfl
      exact hf i hsome
    simpa [hmk] using h.ports m hm hf p

/-- After any registrations, ends of threads and events, the registered threads have different slots,
a registration fails exactly if all slots are taken, the search starts at or below the first free
slot, and the slot a thread gets has empty ports. -/
theorem sched_slots_exact (hnr : 32 ∣ threadsNr) (h : (slotMachine ι threadsNr).Reachable s) :
    (∀ i j k, s.ltid i = some k → k < threadsNr ∧ (s.ltid j = some k → i = j)) ∧
      ((schedRegister threadsNr s.db).2 = none ↔ ∀ k < threadsNr, ∃ i, s.ltid i = some k) ∧
      (s.db.next ≤ threadsNr ∧ ∀ k < threadsNr, Free s.ltid k → s.db.next ≤ k) ∧
      ∀ k, (schedRegister threadsNr s.db).2 = some k → k < threadsNr ∧ Free s.ltid k ∧
        ∀ port, (schedRegister threadsNr s.db).1.ports k port = 0 := by
  have hok : SlotsOk threadsNr s := by
    refine h.invariant (I := SlotsOk threadsNr) (fun s hinit => ?_) fun s e t hs hstep =>
      hs.step hnr hstep
    obtain ⟨hdb, hltid⟩ := hinit
    have hfree : ∀ k, Free s.ltid k := fun k i => by simp [hltid]
    refine ⟨by simp [hltid], by simp [hltid], fun k hk => ?_, ?_, ?_⟩
    · simp [hdb, schedInit, bitmapState_bitmapSetRange, hk, hfree k]
    · simp [hdb, schedInit]
    · simp [hdb, schedInit]
  have htaken : ∀ k, ¬ Free s.ltid k ↔ ∃ i, s.ltid i = some k := fun k => by simp [Free]
  refine ⟨fun i j k hi => ⟨hok.lt i k hi, hok.inj i j k hi⟩, ?_, hok.next, ?_⟩
  · rcases schedRegister_spec hnr hok with ⟨k, hk, hfree, -, hreg⟩ | ⟨hfull, next, -, hreg⟩
    · rw [hreg]
      exact iff_of_false (by simp) fun hall => (htaken k).mpr (hall k hk) hfree
    · rw [hreg]
      exact iff_of_true rfl fun k hk => (htaken k).mp (hfull k hk)
  · rcases schedRegister_spec hnr hok with ⟨k, hk, hfree, -, hreg⟩ | ⟨-, next, -, hreg⟩
    · rw [hreg]
      rintro m ⟨⟩
      exact ⟨hk, hfree, hok.ports k hk hfree⟩
    · rw [hreg]
      simp

def fullTable : List (Event ℕ) :=
  (List.range 33).map .register ++ [.send 5 1 7, .unregister 5]

/-- In a full table the slot of a thread that has ended is given next, and is empty. -/
theorem sched_slots_exact_full : ∃ s, (slotMachine ℕ 32).run ⟨schedInit 32, fun _ => none⟩ fullTable = some s ∧
    s.ltid 31 = some 31 ∧ s.ltid 32 = none ∧ (schedRegister 32 s.db).2 = some 5 ∧ Free s.ltid 5 ∧
      ∀ port, (schedRegister 32 s.db).1.ports 5 port = 0 := by
  have hrun : ((slotMachine ℕ 32).run ⟨schedInit 32, fun _ => none⟩ fullTable).map (fun s =>
      (s.ltid 31, s.ltid 32, (schedRegister 32 s.db).2)) = some (some 31, none, some 5) := by
    decide +kernel
  obtain ⟨s, hs, hvalues⟩ := Option.map_eq_some_iff.mp hrun
  simp only [Prod.mk.injEq] at hvalues
  obtain ⟨hlast, hnone, hnext⟩ := hvalues
  obtain ⟨-, -, -, hempty⟩ := sched_slots_exact (by decide) (.run (.init ⟨rfl, rfl⟩) fullTable hs)
  exact ⟨s, hs, hlast, hnone, hnext, (hempty 5 hnext).2⟩

end Almos.SchedSlots
