import Almos.Machine

/-!
# Spinning barriers with two flags

A barrier of participants that spin on a flag. The flag is one of two, chosen by the phase read
on entry; the last participant to arrive runs the release code, which rearms the counter, turns
the phase and raises the flag. `Correct` says what that code must do; the rounds are then kept
apart whatever the order of steps.
-/
namespace Almos.SpinBarrier

structure Barrier where
  val : ℕ
  cntr : ℕ
  phase : ℕ
  flag : ℕ → ℕ

/-- `~phase & 1` -/
def otherPhase (phase : ℕ) : ℕ := 1 - phase % 2

structure Release (ρ : Type*) where
  flagOf : ℕ → ℕ
  first : ρ
  step : ℕ → Barrier → ρ → Barrier × Option ρ

inductive Pc (ρ : Type*)
  | idle
  | add (phase : ℕ)
  | spin (phase : ℕ)
  | release (phase : ℕ) (r : ρ)

/-- The barrier, and for each participant how many waits it entered and left. `serial n` are the
participants that ran the release code in their wait number `n`. -/
structure State (ι ρ : Type*) where
  barrier : Barrier
  pc : ι → Pc ρ
  entered : ι → ℕ
  left : ι → ℕ
  serial : ℕ → List ι

variable {ι ρ : Type*} [DecidableEq ι]

def State.leave (s : State ι ρ) (i : ι) : State ι ρ :=
  { s with pc := Function.update s.pc i .idle, left := Function.update s.left i (s.left i + 1) }

def step (prog : Release ρ) (s : State ι ρ) (i : ι) : State ι ρ :=
  match s.pc i with
  | .idle =>
      { s with
        pc := Function.update s.pc i (.add s.barrier.phase)
        entered := Function.update s.entered i (s.entered i + 1) }
  | .add phase =>
      let order := s.barrier.cntr
      { s with
        barrier := { s.barrier with cntr := order - 1 }
        pc := Function.update s.pc i
          (if order = 1 then .release phase prog.first else .spin phase) }
  | .spin phase => if s.barrier.flag (prog.flagOf phase) = 0 then s else s.leave i
  | .release phase r =>
      match prog.step phase s.barrier r with
      | (barrier, some r) =>
          { s with barrier := barrier, pc := Function.update s.pc i (.release phase r) }
      | (barrier, none) =>
          { s with
            barrier := barrier
            serial := Function.update s.serial (s.left i) (i :: s.serial (s.left i)) }.leave i

def initBarrier (count : ℕ) : Barrier := ⟨count, count, 0, fun _ => 0⟩

/-- Exactly as many participants as the barrier counts. -/
def machine [Fintype ι] (prog : Release ρ) : Machine (State ι ρ) ι where
  init s := s = ⟨initBarrier (Fintype.card ι), fun _ => .idle, fun _ => 0, fun _ => 0, fun _ => []⟩
  step s i := some (step prog s i)

def Pc.phase? : Pc ρ → Option ℕ
  | .idle => none
  | .add phase => some phase
  | .spin phase => some phase
  | .release phase _ => some phase

/-- The rounds are kept apart, a raised flag stays raised for those that wait for it, and one
participant of each round runs the release code. -/
structure RoundsOk (prog : Release ρ) (s : State ι ρ) : Prop where
  together : ∀ i j, s.left i ≤ s.entered j
  raised : ∀ i j phase, (s.pc i).phase? = some phase → s.barrier.flag (prog.flagOf phase) ≠ 0 →
    (step prog s j).left i = s.left i → (step prog s j).barrier.flag (prog.flagOf phase) ≠ 0
  serial_le : ∀ n, (s.serial n).length ≤ 1
  serial_eq : ∀ i n, n < s.left i → (s.serial n).length = 1

/-- The release code keeps the flag of its phase low until its last step, which leaves the
barrier ready for the other phase. -/
structure Correct (prog : Release ρ) (Stage : ℕ → Barrier → ρ → Prop) : Prop where
  flagOf : ∀ p < 2, prog.flagOf p = p
  first : ∀ p b, p < 2 → b.phase = p → b.flag p = 0 → Stage p b prog.first
  low : ∀ p b r, Stage p b r → b.flag p = 0
  next : ∀ p b r b' r', p < 2 → Stage p b r → prog.step p b r = (b', some r') →
    b'.val = b.val ∧ Stage p b' r'
  last : ∀ p b r b', p < 2 → Stage p b r → prog.step p b r = (b', none) →
    b'.val = b.val ∧ b'.phase = otherPhase p ∧ b'.cntr = b.val ∧ b'.flag (otherPhase p) = 0 ∧ b'.flag p = 1

/-- The participants that wait for the release of round `n`. -/
def Waits (s : State ι ρ) (n : ℕ) (i : ι) : Prop := s.left i = n ∧ ∃ phase, s.pc i = .spin phase

/-- Where a participant can be in round `n`: it has left all rounds before, or it spins on a
flag that was raised. -/
def Member (s : State ι ρ) (n : ℕ) (i : ι) : Prop :=
  match s.pc i with
  | .idle => s.left i = n
  | .add phase => s.left i = n ∧ phase = n % 2
  | .spin phase => phase = s.left i % 2 ∧
      (s.left i = n ∨ s.left i + 1 = n ∧ s.barrier.flag phase = 1)
  | .release phase _ => s.left i = n ∧ phase = n % 2

def Idle : Pc ρ → Prop
  | .idle => True
  | _ => False

/-- Round `n` is the first that was not released. -/
structure Inv [Fintype ι] (Stage : ℕ → Barrier → ρ → Prop) (n : ℕ) (s : State ι ρ) : Prop where
  val : s.barrier.val = Fintype.card ι
  member : ∀ i, Member s n i
  entered : ∀ i, s.entered i = s.left i ∧ s.pc i = .idle ∨
    s.entered i = s.left i + 1 ∧ s.pc i ≠ .idle
  gathering : (∀ i phase r, s.pc i ≠ .release phase r) →
    s.barrier.phase = n % 2 ∧ s.barrier.flag (n % 2) = 0 ∧ 1 ≤ s.barrier.cntr ∧
      ∃ w : Finset ι, (∀ i, i ∈ w ↔ Waits s n i) ∧ s.barrier.cntr + w.card = Fintype.card ι
  releasing : ∀ j phase r, s.pc j = .release phase r →
    Stage phase s.barrier r ∧ ∀ i, i ≠ j → Waits s n i
  serial : ∀ k, (s.serial k).length = if k < n then 1 else 0

variable [Fintype ι] {Stage : ℕ → Barrier → ρ → Prop} {prog : Release ρ} {n : ℕ} {s : State ι ρ}
  {i j : ι} {phase : ℕ} {r : ρ}

lemma inv_init [Nonempty ι] (h : (machine prog).init s) : Inv Stage 0 s := by
  obtain rfl : s = _ := h
  refine ⟨rfl, fun _ => rfl, fun _ => .inl ⟨rfl, rfl⟩, fun _ => ?_, by simp, by simp⟩
  refine ⟨rfl, rfl, Fintype.card_pos, ∅, ?_, rfl⟩
  simp [Waits]

omit [DecidableEq ι] in
lemma Inv.not_releasing (h : Inv Stage n s) (hi : ∀ phase, s.pc i ≠ .spin phase)
    (hi' : ∀ phase r, s.pc i ≠ .release phase r) : ∀ j phase r, s.pc j ≠ .release phase r := by
  intro j phase r hj
  have hne : i ≠ j := by
    rintro rfl
    exact hi' _ _ hj
  obtain ⟨-, phase', hspin⟩ := (h.releasing j phase r hj).2 i hne
  exact hi phase' hspin

omit [DecidableEq ι] in
lemma Inv.low (h : Inv Stage n s) (hc : Correct prog Stage) : s.barrier.flag (n % 2) = 0 := by
  by_cases hany : ∃ j phase r, s.pc j = .release phase r
  · obtain ⟨j, phase, r, hj⟩ := hany
    have hmember := h.member j
    simp only [Member, hj] at hmember
    rw [← hmember.2]
    exact hc.low phase _ r (h.releasing j phase r hj).1
  · exact (h.gathering fun j phase r hj => hany ⟨j, phase, r, hj⟩).2.1

omit [DecidableEq ι] [Fintype ι] in
/-- A change of one participant that does not touch the flags keeps the place of the others. -/
lemma Member.congr {s t : State ι ρ} (h : Member s n i) (hpc : t.pc i = s.pc i)
    (hleft : t.left i = s.left i) (hflag : t.barrier.flag = s.barrier.flag) : Member t n i := by
  unfold Member at h ⊢
  rw [hpc, hleft, hflag]
  exact h

omit [DecidableEq ι] [Fintype ι] in
lemma Waits.congr {s t : State ι ρ} (hpc : t.pc i = s.pc i) (hleft : t.left i = s.left i) :
    Waits t n i ↔ Waits s n i := by
  unfold Waits
  rw [hpc, hleft]

lemma Inv.enter (h : Inv Stage n s) (hi : s.pc i = .idle) : Inv Stage n (step prog s i) := by
  have hnot := h.not_releasing (i := i) (by simp [hi]) (by simp [hi])
  obtain ⟨hphase, hflag, hcntr, w, hw, hcard⟩ := h.gathering hnot
  have hleft : s.left i = n := by simpa [Member, hi] using h.member i
  obtain ⟨t, ht⟩ : ∃ t, step prog s i = t := ⟨_, rfl⟩
  have hstep : step prog s i = { s with
      pc := Function.update s.pc i (.add s.barrier.phase)
      entered := Function.update s.entered i (s.entered i + 1) } := by
    simp [step, hi]
  rw [hstep] at ht ⊢
  rw [ht]
  have hself : t.pc i = .add s.barrier.phase := by simp [← ht]
  have hother : ∀ j, j ≠ i → t.pc j = s.pc j ∧ t.entered j = s.entered j := by
    intro j hj
    simp [← ht, hj]
  have hentered : t.entered i = s.entered i + 1 := by simp [← ht]
  have hsame : t.left = s.left ∧ t.barrier = s.barrier ∧ t.serial = s.serial := by
    simp [← ht]
  obtain ⟨hleft', hbarrier, hserial⟩ := hsame
  refine ⟨by rw [hbarrier]; exact h.val, ?_, ?_, ?_, ?_, by rw [hserial]; exact h.serial⟩
  · intro j
    by_cases hj : j = i
    · subst hj
      simp only [Member, hself, hleft', hleft, hphase, and_self]
    · exact (h.member j).congr (hother j hj).1 (by rw [hleft']) (by rw [hbarrier])
  · intro j
    by_cases hj : j = i
    · subst hj
      right
      obtain ⟨heq, -⟩ | ⟨-, hne⟩ := h.entered j
      · rw [hentered, hleft', heq, hself]
        simp
      · exact absurd hi hne
    · rw [(hother j hj).1, (hother j hj).2, hleft']
      exact h.entered j
  · intro _
    rw [hbarrier]
    refine ⟨hphase, hflag, hcntr, w, ?_, hcard⟩
    intro j
    rw [hw]
    by_cases hj : j = i
    · subst hj
      simp [Waits, hself, hi]
    · exact (Waits.congr (hother j hj).1 (by rw [hleft'])).symm
  · intro j phase r hj
    by_cases hji : j = i
    · subst hji
      simp [hself] at hj
    · rw [(hother j hji).1] at hj
      exact absurd hj (hnot j phase r)

/-- A participant that read the phase counts itself; the last one begins the release code. -/
lemma Inv.arrive (h : Inv Stage n s) (hc : Correct prog Stage) (hi : s.pc i = .add phase) :
    Inv Stage n (step prog s i) := by
  have hnot := h.not_releasing (i := i) (by simp [hi]) (by simp [hi])
  obtain ⟨hphase, hflag, hcntr, w, hw, hcard⟩ := h.gathering hnot
  obtain ⟨hleft, rfl⟩ : s.left i = n ∧ phase = n % 2 := by simpa [Member, hi] using h.member i
  have hiw : i ∉ w := by
    rw [hw]
    simp [Waits, hi]
  obtain ⟨pc, hpc⟩ : ∃ pc : Pc ρ, (if s.barrier.cntr = 1 then .release (n % 2) prog.first
      else .spin (n % 2)) = pc := ⟨_, rfl⟩
  obtain ⟨t, ht⟩ : ∃ t, step prog s i = t := ⟨_, rfl⟩
  have hstep : step prog s i = { s with
      barrier := { s.barrier with cntr := s.barrier.cntr - 1 }
      pc := Function.update s.pc i pc } := by
    simp [step, hi, hpc]
  rw [hstep] at ht ⊢
  rw [ht]
  have hself : t.pc i = pc := by simp [← ht]
  have hother : ∀ j, j ≠ i → t.pc j = s.pc j := by
    intro j hj
    simp [← ht, hj]
  have hsame : t.left = s.left ∧ t.entered = s.entered ∧ t.serial = s.serial ∧
      t.barrier = { s.barrier with cntr := s.barrier.cntr - 1 } := by
    simp [← ht]
  obtain ⟨hleft', hentered, hserial, hbarrier⟩ := hsame
  refine ⟨by rw [hbarrier]; exact h.val, ?_, ?_, ?_, ?_, by rw [hserial]; exact h.serial⟩
  · intro j
    by_cases hj : j = i
    · subst hj
      unfold Member
      rw [hself, ← hpc, hleft', hleft]
      split_ifs <;> simp
    · exact (h.member j).congr (hother j hj) (by rw [hleft']) (by rw [hbarrier])
  · intro j
    rw [hentered, hleft']
    by_cases hj : j = i
    · subst hj
      right
      obtain ⟨-, hidle⟩ | ⟨heq, -⟩ := h.entered j
      · simp [hi] at hidle
      · refine ⟨heq, ?_⟩
        rw [hself, ← hpc]
        split_ifs <;> simp
    · rw [hother j hj]
      exact h.entered j
  · intro hnone
    have hmore : s.barrier.cntr ≠ 1 := by
      intro hone
      rw [if_pos hone] at hpc
      exact hnone i _ _ (hself.trans hpc.symm)
    rw [if_neg hmore] at hpc
    rw [hbarrier]
    refine ⟨hphase, hflag, by simp only; omega, insert i w, ?_, ?_⟩
    · intro j
      rw [Finset.mem_insert, hw]
      by_cases hj : j = i
      · subst hj
        simp [Waits, hself, ← hpc, hleft', hleft]
      · rw [Waits.congr (hother j hj) (by rw [hleft'])]
        simp [hj]
    · rw [Finset.card_insert_of_notMem hiw]
      simp only
      omega
  · intro j phase r hj
    have hji : j = i := by
      by_contra hne
      rw [hother j hne] at hj
      exact hnot j phase r hj
    subst hji
    have hone : s.barrier.cntr = 1 := by
      by_contra hmore
      rw [hself, ← hpc, if_neg hmore] at hj
      simp at hj
    rw [hself, ← hpc, if_pos hone] at hj
    obtain ⟨rfl, rfl⟩ : n % 2 = phase ∧ prog.first = r := by simpa using hj
    refine ⟨hc.first _ _ (by omega) ?_ ?_, ?_⟩
    · rw [hbarrier]
      exact hphase
    · rw [hbarrier]
      exact hflag
    · -- all the others have arrived
      intro k hk
      rw [Waits.congr (hother k hk) (by rw [hleft']), ← hw]
      by_contra hout
      have htwo : ({j, k} : Finset ι) ⊆ wᶜ := by
        intro x hx
        rw [Finset.mem_compl]
        obtain rfl | rfl : x = j ∨ x = k := by simpa using hx
        · exact hiw
        · exact hout
      have hle := Finset.card_le_card htwo
      rw [Finset.card_pair (Ne.symm hk), Finset.card_compl] at hle
      omega

lemma Inv.leave (h : Inv Stage n s) (hc : Correct prog Stage) (hi : s.pc i = .spin phase)
    (hflag : s.barrier.flag phase ≠ 0) : Inv Stage n (s.leave i) := by
  obtain ⟨hphase, hrest⟩ : phase = s.left i % 2 ∧
      (s.left i = n ∨ s.left i + 1 = n ∧ s.barrier.flag phase = 1) := by
    simpa [Member, hi] using h.member i
  have hleft : s.left i + 1 = n := by
    obtain heq | ⟨heq, -⟩ := hrest
    · rw [hphase, heq] at hflag
      exact absurd (h.low hc) hflag
    · exact heq
  have hnot : ∀ j phase r, s.pc j ≠ .release phase r := by
    intro j phase' r hj
    have hne : i ≠ j := by
      rintro rfl
      rw [hi] at hj
      simp at hj
    have := ((h.releasing j phase' r hj).2 i hne).1
    omega
  obtain ⟨hphase', hlow, hcntr, w, hw, hcard⟩ := h.gathering hnot
  obtain ⟨t, ht⟩ : ∃ t, s.leave i = t := ⟨_, rfl⟩
  have hself : t.pc i = .idle ∧ t.left i = s.left i + 1 := by simp [← ht, State.leave]
  have hother : ∀ j, j ≠ i → t.pc j = s.pc j ∧ t.left j = s.left j := by
    intro j hj
    simp [← ht, State.leave, hj]
  have hsame : t.entered = s.entered ∧ t.serial = s.serial ∧ t.barrier = s.barrier := by
    simp [← ht, State.leave]
  obtain ⟨hentered, hserial, hbarrier⟩ := hsame
  rw [ht]
  refine ⟨by rw [hbarrier]; exact h.val, ?_, ?_, ?_, ?_, by rw [hserial]; exact h.serial⟩
  · intro j
    by_cases hj : j = i
    · subst hj
      simp only [Member, hself.1, hself.2, hleft]
    · exact (h.member j).congr (hother j hj).1 (hother j hj).2 (by rw [hbarrier])
  · intro j
    rw [hentered]
    by_cases hj : j = i
    · subst hj
      left
      obtain ⟨-, hidle⟩ | ⟨heq, -⟩ := h.entered j
      · simp [hi] at hidle
      · exact ⟨by rw [heq, hself.2], hself.1⟩
    · rw [(hother j hj).1, (hother j hj).2]
      exact h.entered j
  · intro _
    rw [hbarrier]
    refine ⟨hphase', hlow, hcntr, w, ?_, hcard⟩
    intro j
    rw [hw]
    by_cases hj : j = i
    · subst hj
      have hnow : ¬Waits s n j := fun hwait => by
        have := hwait.1
        omega
      exact iff_of_false hnow (by simp [Waits, hself.1])
    · exact (Waits.congr (hother j hj).1 (hother j hj).2).symm
  · intro j phase' r hj
    by_cases hji : j = i
    · subst hji
      simp [hself.1] at hj
    · rw [(hother j hji).1] at hj
      exact absurd hj (hnot j phase' r)

lemma Inv.release_next (h : Inv Stage n s) (hc : Correct prog Stage)
    (hi : s.pc i = .release phase r) {b : Barrier} {r' : ρ}
    (hstep : prog.step phase s.barrier r = (b, some r')) :
    Inv Stage n { s with barrier := b, pc := Function.update s.pc i (.release phase r') } := by
  obtain ⟨hstage, hwaits⟩ := h.releasing i phase r hi
  obtain ⟨hleft, hphase⟩ : s.left i = n ∧ phase = n % 2 := by
    simpa [Member, hi] using h.member i
  obtain ⟨hval, hstage'⟩ := hc.next phase _ r b r' (by omega) hstage hstep
  refine ⟨hval.trans h.val, ?_, ?_, ?_, ?_, h.serial⟩
  · intro j
    by_cases hj : j = i
    · subst hj
      simp only [Member, Function.update_self]
      exact ⟨hleft, hphase⟩
    · obtain ⟨hl, phase', hspin⟩ := hwaits j hj
      have hmember := h.member j
      simp only [Member, hspin] at hmember
      simp only [Member, Function.update_of_ne hj, hspin]
      exact ⟨hmember.1, .inl hl⟩
  · intro j
    by_cases hj : j = i
    · subst hj
      right
      obtain ⟨-, hidle⟩ | ⟨heq, -⟩ := h.entered j
      · simp [hi] at hidle
      · exact ⟨heq, by simp⟩
    · simp only [Function.update_of_ne hj]
      exact h.entered j
  · intro hnone
    exact absurd (Function.update_self i _ s.pc) (hnone i phase r')
  · intro j phase' r'' hj
    by_cases hji : j = i
    · subst hji
      obtain ⟨rfl, rfl⟩ : phase = phase' ∧ r' = r'' := by simpa using hj
      refine ⟨hstage', fun k hk => ?_⟩
      obtain ⟨hl, hspin⟩ := hwaits k hk
      exact ⟨hl, by simpa [hk] using hspin⟩
    · simp only [Function.update_of_ne hji] at hj
      obtain ⟨-, phase'', hspin⟩ := hwaits j hji
      rw [hspin] at hj
      simp at hj

lemma Inv.release_last (h : Inv Stage n s) (hc : Correct prog Stage)
    (hi : s.pc i = .release phase r) {b : Barrier}
    (hstep : prog.step phase s.barrier r = (b, none)) :
    Inv Stage (n + 1) ({ s with
      barrier := b
      serial := Function.update s.serial (s.left i) (i :: s.serial (s.left i)) }.leave i) := by
  obtain ⟨hstage, hwaits⟩ := h.releasing i phase r hi
  obtain ⟨hleft, hphase⟩ : s.left i = n ∧ phase = n % 2 := by
    simpa [Member, hi] using h.member i
  obtain ⟨hval, hphase', hcntr, hlow, hraised⟩ := hc.last phase _ r b (by omega) hstage hstep
  have hother : otherPhase phase = (n + 1) % 2 := by
    unfold otherPhase
    omega
  rw [hother] at hphase' hlow
  have hpos : 0 < Fintype.card ι := Fintype.card_pos_iff.mpr ⟨i⟩
  unfold State.leave
  simp only [hleft]
  refine ⟨hval.trans h.val, ?_, ?_, ?_, ?_, ?_⟩
  · intro j
    by_cases hj : j = i
    · subst hj
      simp [Member]
    · obtain ⟨hl, phase'', hspin⟩ := hwaits j hj
      have hmember := h.member j
      simp only [Member, hspin] at hmember
      simp only [Member, Function.update_of_ne hj, hspin]
      refine ⟨hmember.1, .inr ⟨by omega, ?_⟩⟩
      rw [hmember.1, hl, ← hphase]
      exact hraised
  · intro j
    by_cases hj : j = i
    · subst hj
      left
      obtain ⟨-, hidle⟩ | ⟨heq, -⟩ := h.entered j
      · simp [hi] at hidle
      · simp [heq, hleft]
    · simp only [Function.update_of_ne hj]
      exact h.entered j
  · intro _
    refine ⟨hphase', hlow, by simp only [hcntr, h.val]; omega, ∅, ?_, by simp [hcntr, h.val]⟩
    intro j
    by_cases hj : j = i
    · subst hj
      simp [Waits]
    · have := (hwaits j hj).1
      simp only [Waits, Function.update_of_ne hj, Finset.notMem_empty, false_iff]
      omega
  · intro j phase'' r'' hj
    by_cases hji : j = i
    · subst hji
      simp at hj
    · simp only [Function.update_of_ne hji] at hj
      obtain ⟨-, phase₁, hspin⟩ := hwaits j hji
      rw [hspin] at hj
      simp at hj
  · intro k
    have hserial := h.serial k
    by_cases hk : k = n
    · subst hk
      simp only [Function.update_self, List.length_cons]
      simp only [lt_irrefl, if_false] at hserial
      simp [hserial]
    · simp only [Function.update_of_ne hk, hserial]
      have hiff : k < n ↔ k < n + 1 := by omega
      simp only [hiff]

lemma Inv.step (h : Inv Stage n s) (hc : Correct prog Stage) (i : ι) :
    ∃ n', Inv Stage n' (SpinBarrier.step prog s i) := by
  cases hi : s.pc i with
  | idle => exact ⟨n, h.enter hi⟩
  | add phase => exact ⟨n, h.arrive hc hi⟩
  | spin phase =>
    have hphase : phase < 2 := by
      have hmember := h.member i
      simp only [Member, hi] at hmember
      omega
    simp only [SpinBarrier.step, hi, hc.flagOf phase hphase]
    split_ifs with hflag
    · exact ⟨n, h⟩
    · exact ⟨n, h.leave hc hi hflag⟩
  | release phase r =>
    obtain ⟨b, o, hstep⟩ : ∃ b o, prog.step phase s.barrier r = (b, o) := ⟨_, _, rfl⟩
    cases o with
    | none =>
      refine ⟨n + 1, ?_⟩
      simp only [SpinBarrier.step, hi, hstep]
      exact h.release_last hc hi hstep
    | some r' =>
      refine ⟨n, ?_⟩
      simp only [SpinBarrier.step, hi, hstep]
      exact h.release_next hc hi hstep

omit [DecidableEq ι] in
lemma Inv.together (h : Inv Stage n s) (i j : ι) : s.left i ≤ s.entered j := by
  have hi : s.left i ≤ n := by
    have hmember := h.member i
    unfold Member at hmember
    split at hmember <;> omega
  have hj : n ≤ s.entered j := by
    have hmember := h.member j
    obtain ⟨heq, hidle⟩ | ⟨heq, -⟩ := h.entered j
    · simp only [Member, hidle] at hmember
      omega
    · unfold Member at hmember
      split at hmember <;> omega
  omega

lemma Inv.raised (h : Inv Stage n s) (hc : Correct prog Stage)
    (hi : (s.pc i).phase? = some phase) (hflag : s.barrier.flag (prog.flagOf phase) ≠ 0)
    (j : ι) : (SpinBarrier.step prog s j).barrier.flag = s.barrier.flag := by
  have hlow := h.low hc
  -- a participant that sees its flag raised spins in the round before
  obtain ⟨hspin, hleft⟩ : s.pc i = .spin phase ∧ s.left i + 1 = n := by
    have hmember := h.member i
    cases hpc : s.pc i with
    | idle => simp [hpc, Pc.phase?] at hi
    | add p =>
      obtain rfl : p = phase := by simpa [hpc, Pc.phase?] using hi
      simp only [Member, hpc] at hmember
      rw [hmember.2, hc.flagOf _ (by omega)] at hflag
      exact absurd hlow hflag
    | spin p =>
      obtain rfl : p = phase := by simpa [hpc, Pc.phase?] using hi
      simp only [Member, hpc] at hmember
      obtain ⟨hp, heq | ⟨heq, -⟩⟩ := hmember
      · rw [hp, heq, hc.flagOf _ (by omega)] at hflag
        exact absurd hlow hflag
      · exact ⟨rfl, heq⟩
    | release p r =>
      obtain rfl : p = phase := by simpa [hpc, Pc.phase?] using hi
      simp only [Member, hpc] at hmember
      rw [hmember.2, hc.flagOf _ (by omega)] at hflag
      exact absurd hlow hflag
  cases hj : s.pc j with
  | idle => simp [SpinBarrier.step, hj]
  | add p => simp [SpinBarrier.step, hj]
  | spin p =>
    simp only [SpinBarrier.step, hj]
    split_ifs <;> rfl
  | release p r =>
    have hne : i ≠ j := by
      rintro rfl
      rw [hspin] at hj
      simp at hj
    have := ((h.releasing j p r hj).2 i hne).1
    omega

lemma Inv.roundsOk (h : Inv Stage n s) (hc : Correct prog Stage) : RoundsOk prog s := by
  refine ⟨h.together, ?_, ?_, ?_⟩
  · intro i j phase hi hflag _
    rw [h.raised hc hi hflag j]
    exact hflag
  · intro k
    rw [h.serial k]
    split_ifs <;> simp
  · intro i k hk
    have hi : s.left i ≤ n := by
      have hmember := h.member i
      unfold Member at hmember
      split at hmember <;> omega
    rw [h.serial k, if_pos (by omega)]

/-- Correct release code keeps the rounds apart, for any number of participants and of waits and
for every order of steps. -/
theorem rounds_ok [Nonempty ι] (hc : Correct prog Stage) (hs : (machine prog).Reachable s) :
    RoundsOk prog s := by
  obtain ⟨n, h⟩ : ∃ n, Inv Stage n s := by
    refine Machine.Reachable.invariant (I := fun s => ∃ n, Inv Stage n s)
      (fun s h => ⟨0, inv_init h⟩) ?_ hs
    rintro s i t ⟨n, hinv⟩ hstep
    obtain rfl := Option.some.inj hstep
    exact hinv.step hc i
  exact h.roundsOk hc

end Almos.SpinBarrier
