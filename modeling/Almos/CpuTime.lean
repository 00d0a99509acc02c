import Almos.Word

/-!
# The time of a CPU

The cycles and the ticks of a CPU are rebuilt, at each clock, from a cycle counter of 32 bits. The
count of the cycles is kept whole, and the code sees it modulo the width of a word.
-/
namespace Almos.CpuTime
open Finset Word

def growth (width : ℕ) (value : ℕ → ℕ) (n : ℕ) : ℕ :=
  ∑ i ∈ range n, (((value (i + 1) : ℤ) - value i) % 2 ^ width).toNat

lemma growth_eq_sum {width n : ℕ} {value part : ℕ → ℕ}
    (hnext : ∀ i < n, value (i + 1) = (value i + part i) % 2 ^ width)
    (hpart : ∀ i < n, part i < 2 ^ width) : growth width value n = ∑ i ∈ range n, part i := by
  refine sum_congr rfl fun i hi => ?_
  have hlt := mem_range.mp hi
  rw [hnext i hlt]
  push_cast
  rw [Int.emod_sub_emod, add_sub_cancel_left,
    Int.emod_eq_of_lt (Int.natCast_nonneg _) (by exact_mod_cast hpart i hlt), Int.toNat_natCast]

lemma sum_div_mul_add_sum_mod (part : ℕ → ℕ) (period n : ℕ) :
    (∑ i ∈ range n, part i / period) * period + ∑ i ∈ range n, part i % period =
      ∑ i ∈ range n, part i := by
  rw [sum_mul, ← sum_add_distrib]
  exact sum_congr rfl fun i _ => Nat.div_add_mod' (part i) period

lemma abs_sum_div_sub_le_one_iff {part : ℕ → ℕ} {period n : ℕ} (hperiod : 1 ≤ period) :
    |((∑ i ∈ range n, part i / period : ℕ) : ℚ) - (∑ i ∈ range n, part i : ℕ) / period| ≤ 1 ↔
      ∑ i ∈ range n, part i % period ≤ period := by
  have hpos : (0 : ℚ) < period := by exact_mod_cast hperiod
  have hsum := sum_div_mul_add_sum_mod part period n
  obtain ⟨units, hunits⟩ : ∃ u, ∑ i ∈ range n, part i / period = u := ⟨_, rfl⟩
  obtain ⟨dropped, hdropped⟩ : ∃ d, ∑ i ∈ range n, part i % period = d := ⟨_, rfl⟩
  rw [hunits, hdropped] at hsum
  rw [hunits, hdropped, ← hsum]
  have hdiff : (units : ℚ) - ((units * period + dropped : ℕ) : ℚ) / period =
      -((dropped : ℚ) / period) := by
    push_cast
    field_simp
    ring
  have hnonneg : (0 : ℚ) ≤ dropped / period := by positivity
  rw [hdiff, abs_neg, abs_of_nonneg hnonneg, div_le_one hpos]
  exact_mod_cast Iff.rfl

/-- `UINT32_MAX` -/
def uint32Max : ℕ := 2 ^ 32 - 1

def add64 (a b : ℕ) : ℕ := (a + b) % 2 ^ 64

structure Cpu where
  cycles : ℕ
  tmstmp : ℕ
  ticksNr : ℕ
  ticksPeriod : ℕ
  ticksCount : ℕ
  usage : ℕ
  busyPercent : ℕ
  /-- The ticks of the idle thread. -/
  idleTicksNr : ℕ

def cpuTimeStamp (count : ℕ) : ℕ := count % 2 ^ 32

def elapsed (tmStmp tmNow : ℕ) : ℕ :=
  if tmNow < tmStmp then wadd (wsub uint32Max tmStmp) tmNow else wsub tmNow tmStmp

def cpuTimeUpdate (cpu : Cpu) (count : ℕ) : Cpu :=
  let tmNow := cpuTimeStamp count
  let elapsed := elapsed cpu.tmstmp tmNow
  let ticksNr := elapsed / cpu.ticksPeriod
  { cpu with
    tmstmp := tmNow
    cycles := add64 cpu.cycles elapsed
    ticksNr := wadd cpu.ticksNr ticksNr
    ticksCount := wadd cpu.ticksCount ticksNr }

def cpuTimeReset (cpu : Cpu) (count : ℕ) : Cpu :=
  { cpuTimeUpdate cpu count with ticksCount := 0, usage := 0, busyPercent := 0, idleTicksNr := 100 }

def cpuClock (cpu : Cpu) (count : ℕ) : Cpu × ℕ :=
  let cpu := cpuTimeUpdate cpu count
  (cpu, cpu.ticksNr)

inductive Call
  | clock (count : ℕ)
  | reset (count : ℕ)

namespace Call

def count : Call → ℕ
  | .clock count => count
  | .reset count => count

def isReset : Call → Bool
  | .clock _ => false
  | .reset _ => true

def run (cpu : Cpu) : Call → Cpu
  | .clock count => (cpuClock cpu count).1
  | .reset count => cpuTimeReset cpu count

end Call

/-- Calls at counts that do not go back, each before the counter comes around to the last one. -/
structure Calls where
  call : ℕ → Call
  mono : ∀ i, (call i).count ≤ (call (i + 1)).count
  near : ∀ i, (call (i + 1)).count - (call i).count < 2 ^ 32

def Calls.count (calls : Calls) (i : ℕ) : ℕ := (calls.call i).count

def after (cpu : Cpu) (calls : Calls) : ℕ → Cpu
  | 0 => (calls.call 0).run cpu
  | n + 1 => (calls.call (n + 1)).run (after cpu calls n)

/-- Since the first call, the cycles are those that elapsed, and the ticks are at most one away from
their quotient by the period. -/
structure NoDrift (cpu : Cpu) (calls : Calls) (n : ℕ) : Prop where
  cycles : growth 64 (fun i => (after cpu calls i).cycles) n = calls.count n - calls.count 0
  ticksNr : |(growth 32 (fun i => (after cpu calls i).ticksNr) n : ℚ) -
    (calls.count n - calls.count 0 : ℕ) / cpu.ticksPeriod| ≤ 1
  ticksCount : (∀ i < n, (calls.call (i + 1)).isReset = false) →
    |(growth 32 (fun i => (after cpu calls i).ticksCount) n : ℚ) -
      (calls.count n - calls.count 0 : ℕ) / cpu.ticksPeriod| ≤ 1

variable {cpu : Cpu} {calls : Calls}

lemma elapsed_lt (tmStmp tmNow : ℕ) : elapsed tmStmp tmNow < 2 ^ 32 := by
  unfold elapsed
  split
  · exact wadd_lt _ _
  · exact wsub_lt _ _

lemma elapsed_add_wrap {count next : ℕ} (hle : count ≤ next) (hnear : next - count < 2 ^ 32) :
    elapsed (cpuTimeStamp count) (cpuTimeStamp next) + (next / 2 ^ 32 - count / 2 ^ 32) =
      next - count := by
  unfold elapsed cpuTimeStamp uint32Max wadd wsub
  split <;> omega

namespace Call

lemma run_tmstmp (cpu : Cpu) (call : Call) : (call.run cpu).tmstmp = cpuTimeStamp call.count := by
  cases call <;> rfl

lemma run_ticksPeriod (cpu : Cpu) (call : Call) : (call.run cpu).ticksPeriod = cpu.ticksPeriod := by
  cases call <;> rfl

lemma run_cycles (cpu : Cpu) (call : Call) : (call.run cpu).cycles =
    (cpu.cycles + elapsed cpu.tmstmp (cpuTimeStamp call.count)) % 2 ^ 64 := by
  cases call <;> rfl

lemma run_ticksNr (cpu : Cpu) (call : Call) : (call.run cpu).ticksNr =
    (cpu.ticksNr + elapsed cpu.tmstmp (cpuTimeStamp call.count) / cpu.ticksPeriod) % 2 ^ 32 := by
  cases call <;> rfl

lemma run_ticksCount (cpu : Cpu) {call : Call} (h : call.isReset = false) :
    (call.run cpu).ticksCount =
      (cpu.ticksCount + elapsed cpu.tmstmp (cpuTimeStamp call.count) / cpu.ticksPeriod) % 2 ^ 32 := by
  cases call with
  | clock count => rfl
  | reset count => cases h

end Call

lemma after_tmstmp (n : ℕ) : (after cpu calls n).tmstmp = cpuTimeStamp (calls.count n) := by
  cases n <;> exact Call.run_tmstmp _ _

lemma after_ticksPeriod (n : ℕ) : (after cpu calls n).ticksPeriod = cpu.ticksPeriod := by
  induction n with
  | zero => exact Call.run_ticksPeriod _ _
  | succ n ih => exact (Call.run_ticksPeriod _ _).trans ih

def Calls.part (calls : Calls) (i : ℕ) : ℕ :=
  elapsed (cpuTimeStamp (calls.count i)) (cpuTimeStamp (calls.count (i + 1)))

lemma growth_cycles (n : ℕ) :
    growth 64 (fun i => (after cpu calls i).cycles) n = ∑ i ∈ range n, calls.part i := by
  refine growth_eq_sum (fun i _ => ?_) fun i _ => (elapsed_lt _ _).trans (by decide)
  have hrun := Call.run_cycles (after cpu calls i) (calls.call (i + 1))
  rwa [after_tmstmp] at hrun

lemma part_div_lt (calls : Calls) (period i : ℕ) : calls.part i / period < 2 ^ 32 :=
  (Nat.div_le_self _ _).trans_lt (elapsed_lt _ _)

lemma growth_ticksNr (n : ℕ) : growth 32 (fun i => (after cpu calls i).ticksNr) n =
    ∑ i ∈ range n, calls.part i / cpu.ticksPeriod := by
  refine growth_eq_sum (fun i _ => ?_) fun i _ => part_div_lt calls _ i
  have hrun := Call.run_ticksNr (after cpu calls i) (calls.call (i + 1))
  rwa [after_tmstmp, after_ticksPeriod] at hrun

lemma growth_ticksCount {n : ℕ} (h : ∀ i < n, (calls.call (i + 1)).isReset = false) :
    growth 32 (fun i => (after cpu calls i).ticksCount) n =
      ∑ i ∈ range n, calls.part i / cpu.ticksPeriod := by
  refine growth_eq_sum (fun i hi => ?_) fun i _ => part_div_lt calls _ i
  have hrun := Call.run_ticksCount (after cpu calls i) (h i hi)
  rwa [after_tmstmp, after_ticksPeriod] at hrun

lemma Calls.monotone (calls : Calls) : Monotone calls.count := monotone_nat_of_le_succ calls.mono

lemma sum_part_add_wraps (calls : Calls) (n : ℕ) :
    ∑ i ∈ range n, calls.part i + (calls.count n / 2 ^ 32 - calls.count 0 / 2 ^ 32) =
      calls.count n - calls.count 0 := by
  induction n with
  | zero => simp
  | succ n ih =>
    have hlast := elapsed_add_wrap (calls.mono n) (calls.near n)
    have hfirst : calls.count 0 ≤ calls.count n := calls.monotone (Nat.zero_le n)
    have hnext : calls.count n ≤ calls.count (n + 1) := calls.mono n
    have hblockFirst := Nat.div_le_div_right (c := 2 ^ 32) hfirst
    have hblockNext := Nat.div_le_div_right (c := 2 ^ 32) hnext
    rw [sum_range_succ]
    change calls.part n + (calls.count (n + 1) / 2 ^ 32 - calls.count n / 2 ^ 32) =
      calls.count (n + 1) - calls.count n at hlast
    omega

lemma part_eq {n i : ℕ} (hblock : calls.count n / 2 ^ 32 = calls.count 0 / 2 ^ 32) (hi : i < n) :
    calls.part i = calls.count (i + 1) - calls.count i := by
  have hpart := elapsed_add_wrap (calls.mono i) (calls.near i)
  change calls.part i + (calls.count (i + 1) / 2 ^ 32 - calls.count i / 2 ^ 32) =
    calls.count (i + 1) - calls.count i at hpart
  have hlow := Nat.div_le_div_right (c := 2 ^ 32) (calls.monotone (Nat.zero_le i))
  have hhigh := Nat.div_le_div_right (c := 2 ^ 32) (calls.monotone (Nat.succ_le_of_lt hi))
  have hsame : calls.count (i + 1) / 2 ^ 32 - calls.count i / 2 ^ 32 = 0 := by
    change calls.count (i + 1) / 2 ^ 32 ≤ _ at hhigh
    omega
  rwa [hsame, Nat.add_zero] at hpart

lemma cycles_iff (cpu : Cpu) (calls : Calls) (n : ℕ) :
    growth 64 (fun i => (after cpu calls i).cycles) n = calls.count n - calls.count 0 ↔
      calls.count n / 2 ^ 32 = calls.count 0 / 2 ^ 32 := by
  have hsum := sum_part_add_wraps calls n
  have hblock := Nat.div_le_div_right (c := 2 ^ 32) (calls.monotone (Nat.zero_le n))
  rw [growth_cycles]
  omega

/-- The cycles do not drift as long as the counter does not come around, and the ticks as long as
the rests that the calls drop make up no more than a period. -/
theorem cpu_time_no_drift_iff (cpu : Cpu) (hperiod : 1 ≤ cpu.ticksPeriod) (calls : Calls) (n : ℕ) :
    NoDrift cpu calls n ↔ calls.count n / 2 ^ 32 = calls.count 0 / 2 ^ 32 ∧
      ∑ i ∈ range n, (calls.count (i + 1) - calls.count i) % cpu.ticksPeriod ≤ cpu.ticksPeriod := by
  have hwhole : calls.count n / 2 ^ 32 = calls.count 0 / 2 ^ 32 →
      calls.count n - calls.count 0 = ∑ i ∈ range n, calls.part i ∧
        ∑ i ∈ range n, (calls.count (i + 1) - calls.count i) % cpu.ticksPeriod =
          ∑ i ∈ range n, calls.part i % cpu.ticksPeriod := by
    intro hblock
    have hcycles := (cycles_iff cpu calls n).mpr hblock
    rw [growth_cycles] at hcycles
    refine ⟨hcycles.symm, sum_congr rfl fun i hi => ?_⟩
    rw [part_eq hblock (mem_range.mp hi)]
  constructor
  · intro h
    have hblock := (cycles_iff cpu calls n).mp h.cycles
    obtain ⟨hcount, hdropped⟩ := hwhole hblock
    have hticks := h.ticksNr
    rw [growth_ticksNr, hcount, abs_sum_div_sub_le_one_iff hperiod] at hticks
    exact ⟨hblock, hdropped ▸ hticks⟩
  · rintro ⟨hblock, hticks⟩
    obtain ⟨hcount, hdropped⟩ := hwhole hblock
    rw [hdropped, ← abs_sum_div_sub_le_one_iff hperiod] at hticks
    constructor
    case cycles => exact (cycles_iff cpu calls n).mpr hblock
    case ticksNr => rwa [growth_ticksNr, hcount]
    case ticksCount =>
      intro hreset
      rwa [growth_ticksCount hreset, hcount]

def every (first distance : ℕ) (h : distance < 2 ^ 32) : Calls where
  call i := .clock (first + distance * i)
  mono i := by
    change first + distance * i ≤ first + distance * (i + 1)
    rw [Nat.mul_succ]
    omega
  near i := by
    change first + distance * (i + 1) - (first + distance * i) < 2 ^ 32
    rw [Nat.mul_succ]
    omega

/-- `CPU_CLOCK_TICK` -/
def cpuClockTick : ℕ := 1000000

/-- The time after `cpu_init`. -/
def booted : Cpu where
  cycles := 0
  tmstmp := 0
  ticksNr := 0
  ticksPeriod := cpuClockTick
  ticksCount := 0
  usage := 0
  busyPercent := 0
  idleTicksNr := 0

theorem cpu_time_no_drift_halves :
    (1 ≤ booted.ticksPeriod) ∧ NoDrift booted (every 0 1500000 (by decide)) 2 :=
  ⟨by decide, (cpu_time_no_drift_iff booted (by decide) _ 2).mpr ⟨by decide, by decide⟩⟩

/-- A cycle is lost when the counter comes around, and two clocks drop the rest of a period each. -/
theorem cpu_time_drifts :
    growth 64 (fun i => (after booted (every (2 ^ 32 - 1) 1 (by decide)) i).cycles) 1 = 0 ∧
      ¬NoDrift booted (every (2 ^ 32 - 1) 1 (by decide)) 1 ∧
      growth 32 (fun i => (after booted (every 0 1999999 (by decide)) i).ticksNr) 2 = 2 ∧
      ¬NoDrift booted (every 0 1999999 (by decide)) 2 := by
  have hwrap : growth 64 (fun i => (after booted (every (2 ^ 32 - 1) 1 (by decide)) i).cycles) 1 =
      0 := by
    rw [growth_cycles]
    decide
  have hticks : growth 32 (fun i => (after booted (every 0 1999999 (by decide)) i).ticksNr) 2 =
      2 := by
    rw [growth_ticksNr]
    decide
  refine ⟨hwrap, fun h => ?_, hticks, fun h => ?_⟩
  · have hcycles := h.cycles
    rw [hwrap] at hcycles
    exact absurd hcycles (by decide)
  · have hnear := h.ticksNr
    rw [hticks] at hnear
    have hcount : (every 0 1999999 (by decide)).count 2 - (every 0 1999999 (by decide)).count 0 =
        3999998 := by decide
    rw [hcount] at hnear
    norm_num [booted, cpuClockTick] at hnear

end Almos.CpuTime
