import Almos.SpinBarrier

/-!
# The spinning barriers

`mcs_barrier_wait` of the kernel and the process-private `pthread_barrier_wait` of the thread
library differ in the code of the last participant. `flag` stands for the two tickets and for
`state`; cache operations are left out.
-/
namespace Almos.SpinningBarriers
open SpinBarrier

/-- The writes of the last participant in `mcs_barrier_wait`, in order. -/
inductive McsRelease
  | phase
  | cntr
  | next
  | current

/-- `ticket` for phase 0 and else `ticket2` -/
def ticketOf (phase : ℕ) : ℕ := if phase = 0 then 0 else 1

def mcsBarrierWait : Release McsRelease where
  flagOf := ticketOf
  first := .phase
  step phase ptr
    | .phase => ({ ptr with phase := otherPhase phase }, some .cntr)
    | .cntr => ({ ptr with cntr := ptr.val }, some .next)
    | .next => ({ ptr with flag := Function.update ptr.flag (ticketOf (otherPhase phase)) 0 }, some .current)
    | .current => ({ ptr with flag := Function.update ptr.flag (ticketOf phase) 1 }, none)

/-- The accesses of the last participant in `pthread_barrier_wait`, in order; the arguments are
what it read of `barrier->phase`. -/
inductive PthreadRelease
  | cntr
  | readPhase
  | phase (read : ℕ)
  | readNext
  | next (read : ℕ)
  | current

def pthreadBarrierWait : Release PthreadRelease where
  flagOf := id
  first := .cntr
  step phase barrier
    | .cntr => ({ barrier with cntr := barrier.val }, some .readPhase)
    | .readPhase => (barrier, some (.phase barrier.phase))
    | .phase read => ({ barrier with phase := otherPhase read }, some .readNext)
    | .readNext => (barrier, some (.next barrier.phase))
    | .next read => ({ barrier with flag := Function.update barrier.flag read 0 }, some .current)
    | .current => ({ barrier with flag := Function.update barrier.flag phase 1 }, none)

lemma ticketOf_lt {phase : ℕ} (h : phase < 2) : ticketOf phase = phase := by
  unfold ticketOf
  split_ifs <;> omega

lemma otherPhase_lt (phase : ℕ) : otherPhase phase < 2 := by
  unfold otherPhase
  omega

lemma otherPhase_ne (phase : ℕ) : otherPhase phase ≠ phase := by
  unfold otherPhase
  omega

/-- What holds before each write of `mcs_barrier_wait`. -/
def McsStage (p : ℕ) (b : Barrier) (r : McsRelease) : Prop :=
  b.flag p = 0 ∧
    match r with
    | .phase => True
    | .cntr => b.phase = otherPhase p
    | .next => b.phase = otherPhase p ∧ b.cntr = b.val
    | .current => b.phase = otherPhase p ∧ b.cntr = b.val ∧ b.flag (otherPhase p) = 0

lemma mcs_correct : Correct mcsBarrierWait McsStage := by
  refine ⟨fun p hp => ticketOf_lt hp, fun p b _ _ hflag => ⟨hflag, trivial⟩, fun p b r h => h.1,
    ?_, ?_⟩
  · rintro p b r b' r' hp ⟨hflag, hrest⟩ hstep
    have hne := otherPhase_ne p
    have hnext := ticketOf_lt (otherPhase_lt p)
    cases r with
    | phase =>
      obtain ⟨rfl, rfl⟩ := by simpa [mcsBarrierWait] using hstep
      exact ⟨rfl, hflag, rfl⟩
    | cntr =>
      obtain ⟨rfl, rfl⟩ := by simpa [mcsBarrierWait] using hstep
      exact ⟨rfl, hflag, hrest, rfl⟩
    | next =>
      obtain ⟨rfl, rfl⟩ := by simpa [mcsBarrierWait] using hstep
      refine ⟨rfl, ?_, hrest.1, hrest.2, ?_⟩
      · simp [hnext, Ne.symm hne, hflag]
      · simp [hnext]
    | current => simp [mcsBarrierWait] at hstep
  · rintro p b r b' hp ⟨hflag, hrest⟩ hstep
    have hne := otherPhase_ne p
    cases r with
    | phase => simp [mcsBarrierWait] at hstep
    | cntr => simp [mcsBarrierWait] at hstep
    | next => simp [mcsBarrierWait] at hstep
    | current =>
      obtain rfl : _ = b' := by simpa [mcsBarrierWait] using hstep
      obtain ⟨hphase, hcntr, hlow⟩ := hrest
      refine ⟨rfl, hphase, hcntr, ?_, ?_⟩
      · simp [ticketOf_lt hp, hne, hlow]
      · simp [ticketOf_lt hp]

/-- What holds before each access of `pthread_barrier_wait`. -/
def PthreadStage (p : ℕ) (b : Barrier) (r : PthreadRelease) : Prop :=
  b.flag p = 0 ∧
    match r with
    | .cntr => b.phase = p
    | .readPhase => b.phase = p ∧ b.cntr = b.val
    | .phase read => read = p ∧ b.cntr = b.val
    | .readNext => b.phase = otherPhase p ∧ b.cntr = b.val
    | .next read => read = otherPhase p ∧ b.phase = otherPhase p ∧ b.cntr = b.val
    | .current => b.phase = otherPhase p ∧ b.cntr = b.val ∧ b.flag (otherPhase p) = 0

lemma pthread_correct : Correct pthreadBarrierWait PthreadStage := by
  refine ⟨fun p _ => rfl, fun p b _ hphase hflag => ⟨hflag, hphase⟩, fun p b r h => h.1, ?_, ?_⟩
  · rintro p b r b' r' hp ⟨hflag, hrest⟩ hstep
    have hne := otherPhase_ne p
    cases r with
    | cntr =>
      obtain ⟨rfl, rfl⟩ := by simpa [pthreadBarrierWait] using hstep
      exact ⟨rfl, hflag, hrest, rfl⟩
    | readPhase =>
      obtain ⟨rfl, rfl⟩ := by simpa [pthreadBarrierWait] using hstep
      exact ⟨rfl, hflag, hrest⟩
    | phase read =>
      obtain ⟨rfl, rfl⟩ := by simpa [pthreadBarrierWait] using hstep
      exact ⟨rfl, hflag, by rw [← hrest.1], hrest.2⟩
    | readNext =>
      obtain ⟨rfl, rfl⟩ := by simpa [pthreadBarrierWait] using hstep
      exact ⟨rfl, hflag, hrest.1, hrest⟩
    | next read =>
      obtain ⟨rfl, rfl⟩ := by simpa [pthreadBarrierWait] using hstep
      obtain ⟨rfl, hphase, hcntr⟩ := hrest
      refine ⟨rfl, ?_, hphase, hcntr, ?_⟩
      · simp [Ne.symm hne, hflag]
      · simp
    | current => simp [pthreadBarrierWait] at hstep
  · rintro p b r b' hp ⟨hflag, hrest⟩ hstep
    have hne := otherPhase_ne p
    cases r with
    | cntr => simp [pthreadBarrierWait] at hstep
    | readPhase => simp [pthreadBarrierWait] at hstep
    | phase read => simp [pthreadBarrierWait] at hstep
    | readNext => simp [pthreadBarrierWait] at hstep
    | next read => simp [pthreadBarrierWait] at hstep
    | current =>
      obtain rfl : _ = b' := by simpa [pthreadBarrierWait] using hstep
      obtain ⟨hphase, hcntr, hlow⟩ := hrest
      refine ⟨rfl, hphase, hcntr, ?_, ?_⟩
      · simp [hne, hlow]
      · simp

/-- Both barriers, for every number of participants. -/
theorem spinning_barriers (ι : Type*) [Fintype ι] [DecidableEq ι] [Nonempty ι] :
    (∀ s : State ι McsRelease, (machine mcsBarrierWait).Reachable s →
      RoundsOk mcsBarrierWait s) ∧
    ∀ s : State ι PthreadRelease, (machine pthreadBarrierWait).Reachable s →
      RoundsOk pthreadBarrierWait s :=
  ⟨fun _ hs => rounds_ok mcs_correct hs, fun _ hs => rounds_ok pthread_correct hs⟩

def twoParticipants (ρ : Type*) : State Bool ρ :=
  ⟨initBarrier 2, fun _ => .idle, fun _ => 0, fun _ => 0, fun _ => []⟩

/-- A round of two participants, of which the second arrives last and makes `n` steps then. -/
def oneRound (n : ℕ) : List Bool := [false, true, false, true] ++ List.replicate n true ++ [false]

/-- In both barriers two participants complete a round, of which one is the serial one. -/
theorem spinning_barriers_two :
    (∃ s, (machine mcsBarrierWait).run (twoParticipants _) (oneRound 4) = some s ∧
      (∀ i, s.entered i = 1 ∧ s.left i = 1) ∧ s.serial 0 = [true] ∧ RoundsOk mcsBarrierWait s) ∧
    ∃ s, (machine pthreadBarrierWait).run (twoParticipants _) (oneRound 6) = some s ∧
      (∀ i, s.entered i = 1 ∧ s.left i = 1) ∧ s.serial 0 = [true] ∧
        RoundsOk pthreadBarrierWait s := by
  obtain ⟨hmcs, hpthread⟩ := spinning_barriers Bool
  refine ⟨⟨_, rfl, by decide, rfl, hmcs _ ?_⟩, ⟨_, rfl, by decide, rfl, hpthread _ ?_⟩⟩
  · exact .run (.init rfl) (oneRound 4) rfl
  · exact .run (.init rfl) (oneRound 6) rfl

end Almos.SpinningBarriers
