import Almos.CircularList
import Almos.Machine
import Almos.Word

/-!
# Alarms

The alarm manager of one CPU, with the list of the alarms that wait. Both calls run with interrupts
off. The count of ticks is kept whole, and the code sees it modulo the width of a word.
-/
namespace Almos.Alarms
open Word

/-- `MSEC_PER_TICK` -/
def msecPerTick : ℕ := 1

/-- The root of the list is `none`. `waited` are the infos of the calls, with the tick and the time
of each, and `sent` the events with the ticks at which they were sent. -/
structure AlarmState where
  links : Links (Option ℕ)
  tmWakeup : ℕ → ℕ
  ticks : ℕ
  waited : List ℕ
  start : ℕ → ℕ
  msec : ℕ → ℕ
  sent : List (ℕ × ℕ)

/-- `cpu_get_ticks` -/
def AlarmState.ticksNr (s : AlarmState) : ℕ := s.ticks % 2 ^ 32

/-- The product of a word with `MSEC_PER_TICK`. -/
def toMsec (ticksNr : ℕ) : ℕ := ticksNr * msecPerTick % 2 ^ 32

/-- The loop of `alarm_wait`: the node behind which the alarm goes. -/
def place (links : Links (Option ℕ)) (tmWakeup : ℕ → ℕ) (wakeup : ℕ) :
    ℕ → Option ℕ → Option ℕ → Option (Option ℕ)
  | 0, _, _ => none
  | _ + 1, none, _ => some (links.pred none)
  | left + 1, some current, ptr =>
      if wakeup ≤ tmWakeup current then some (links.pred (some current))
      else place links tmWakeup wakeup left ptr (links.next ptr)

def alarmWait (s : AlarmState) (info msec : ℕ) : Option AlarmState :=
  let wakeup := wadd (toMsec s.ticksNr) msec
  let s := { s with tmWakeup := Function.update s.tmWakeup info wakeup }
  let first := s.links.next none
  if first = none then some { s with links := s.links.add none (some info) }
  else
    (place s.links s.tmWakeup wakeup (s.waited.length + 1) first (s.links.next first)).map
      fun node => { s with links := s.links.add node (some info) }

/-- The loop of `alarm_clock`. -/
def clockLoop (tmMsec : ℕ) : ℕ → AlarmState → Option ℕ → Option ℕ → Option AlarmState
  | 0, _, _, _ => none
  | _ + 1, s, none, _ => some s
  | left + 1, s, some info, ptr =>
      if tmMsec < s.tmWakeup info then some s
      else
        let s := { s with links := s.links.unlink (some info), sent := s.sent ++ [(info, s.ticks)] }
        clockLoop tmMsec left s ptr (s.links.next ptr)

def alarmClock (s : AlarmState) (ticksNr : ℕ) : Option AlarmState :=
  let first := s.links.next none
  clockLoop (toMsec ticksNr) (s.waited.length + 1) s first (s.links.next first)

inductive Event
  | wait (info msec : ℕ)
  | clock

def step (s : AlarmState) : Event → Option AlarmState
  | .wait info msec =>
      if info ∉ s.waited ∧ msec < 2 ^ 31 then
        (alarmWait s info msec).map fun t => { t with
          waited := s.waited ++ [info]
          start := Function.update s.start info s.ticks
          msec := Function.update s.msec info msec }
      else none
  | .clock =>
      let s := { s with ticks := s.ticks + 1 }
      alarmClock s s.ticksNr

/-- `alarm_manager_init`, at any tick. -/
structure Start (s : AlarmState) : Prop where
  links : ∃ m : Links (Option ℕ), s.links = m.rootInit none
  waited : s.waited = []
  sent : s.sent = []

def machine : Machine AlarmState Event where
  init := Start
  step := step

def elapsed (s : AlarmState) (info tick : ℕ) : ℕ := (tick - s.start info) * msecPerTick

def due (s : AlarmState) (info : ℕ) : ℕ := s.start info * msecPerTick + s.msec info

structure FirstDue (s : AlarmState) (info tick : ℕ) : Prop where
  after : s.start info < tick
  reached : s.msec info ≤ elapsed s info tick
  first : ∀ tick', s.start info < tick' → tick' < tick → elapsed s info tick' < s.msec info

def Queued (s : AlarmState) (info : ℕ) : Prop :=
  ∃ q : List ℕ, s.links.IsRing none (q.map some) ∧ info ∈ q

/-- Each alarm waits until its time has elapsed, and is sent once at the first tick then; the alarms
are sent in the order in which they are due. -/
structure OnTime (s : AlarmState) : Prop where
  each : ∀ info ∈ s.waited,
    (Queued s info ∧ (∀ tick, (info, tick) ∉ s.sent) ∧
        ∀ tick, s.start info < tick → tick ≤ s.ticks → elapsed s info tick < s.msec info) ∨
      ¬Queued s info ∧ ∃ tick, s.sent.filter (fun p => p.1 = info) = [(info, tick)] ∧
        tick ≤ s.ticks ∧ FirstDue s info tick
  order : s.sent.Pairwise fun a b => due s a.1 ≤ due s b.1

/-- The sum of a wakeup does not wrap around; at the last tick of a word it does, unless the alarm is
due at once. -/
def Guard (s : AlarmState) : Event → Prop
  | .wait _ msec =>
      if toMsec s.ticksNr + 1 = 2 ^ 32 then msec ≠ 0 else toMsec s.ticksNr + msec < 2 ^ 32
  | .clock => True

variable {s t : AlarmState} {q : List ℕ} {links : Links (Option ℕ)}

lemma place_spec (tmWakeup : ℕ → ℕ) (wakeup : ℕ) : ∀ (q before : List ℕ) (left : ℕ),
    links.IsRing none ((before ++ q).map some) → q.length < left →
      place links tmWakeup wakeup left ((q.map some).headD none)
        (links.next ((q.map some).headD none)) = some
          (((before ++ q.takeWhile fun i => ¬wakeup ≤ tmWakeup i).map some).getLastD none) := by
  intro q
  induction q with
  | nil =>
    intro before left hring hleft
    obtain ⟨left, rfl⟩ : ∃ n, left = n + 1 := ⟨left - 1, by omega⟩
    rw [List.append_nil] at hring
    simp only [List.map_nil, List.headD_nil, List.takeWhile_nil, List.append_nil, place,
      hring.linked.pred_eq]
  | cons i q ih =>
    intro before left hring hleft
    rw [List.length_cons] at hleft
    obtain ⟨left, rfl⟩ : ∃ n, left = n + 1 := ⟨left - 1, by omega⟩
    have hsegments := hring.linked
    rw [List.map_append, List.map_cons, Links.segment_append] at hsegments
    simp only [List.map_cons, List.headD_cons, place]
    by_cases hle : wakeup ≤ tmWakeup i
    · rw [if_pos hle, hsegments.1.pred_eq]
      simp [hle]
    · rw [if_neg hle, hsegments.2.next_eq]
      have hring' : links.IsRing none (((before ++ [i]) ++ q).map some) := by simpa using hring
      rw [ih (before ++ [i]) left hring' (by omega), List.takeWhile_cons_of_pos (by simpa using hle),
        List.append_assoc]
      rfl

lemma alarmWait_spec (hring : s.links.IsRing none (q.map some)) (hlength : q.length ≤ s.waited.length)
    {info : ℕ} (hnew : info ∉ q) (msec : ℕ) :
    ∃ links, alarmWait s info msec = some { s with
        tmWakeup := Function.update s.tmWakeup info (wadd (toMsec s.ticksNr) msec)
        links := links } ∧
      links.IsRing none ((q.orderedInsert (fun i j =>
        Function.update s.tmWakeup info (wadd (toMsec s.ticksNr) msec) i ≤
          Function.update s.tmWakeup info (wadd (toMsec s.ticksNr) msec) j) info).map some) := by
  obtain ⟨w, hw⟩ : ∃ w, wadd (toMsec s.ticksNr) msec = w := ⟨_, rfl⟩
  obtain ⟨W, hW⟩ : ∃ W, Function.update s.tmWakeup info w = W := ⟨_, rfl⟩
  have hWinfo : W info = w := by
    rw [← hW, Function.update_self]
  have hsome : some info ∉ none :: q.map some := by simp [hnew]
  rw [hw, hW, List.orderedInsert_eq_take_drop, hWinfo]
  by_cases hempty : s.links.next none = none
  · have hnil : q = [] := by
      rw [hring.linked.next_eq] at hempty
      cases q with
      | nil => rfl
      | cons i q => cases hempty
    subst hnil
    refine ⟨s.links.add none (some info), ?_, hring.add_root hsome⟩
    simp only [alarmWait, hw, hW, if_pos hempty]
  · have hfirst : s.links.next none = (q.map some).headD none := hring.linked.next_eq
    have hplace := place_spec W w q [] (s.waited.length + 1) hring (by omega)
    rw [← hfirst, List.nil_append] at hplace
    refine ⟨s.links.add (((q.takeWhile fun i => ¬w ≤ W i).map some).getLastD none) (some info),
      ?_, ?_⟩
    · simp only [alarmWait, hw, hW, if_neg hempty, hplace]
      rfl
    · have hsplit : q.map some = (q.takeWhile fun i => ¬w ≤ W i).map some ++
          (q.dropWhile fun i => ¬w ≤ W i).map some := by
        rw [← List.map_append, List.takeWhile_append_dropWhile]
      rw [hsplit] at hring hsome
      rw [List.map_append, List.map_cons]
      exact hring.add_last hsome

lemma clockLoop_spec {tmMsec : ℕ} : ∀ (q : List ℕ) (left : ℕ) (s : AlarmState),
    s.links.IsRing none (q.map some) → q.length < left →
      ∃ links, clockLoop tmMsec left s ((q.map some).headD none)
          (s.links.next ((q.map some).headD none)) = some { s with
            links := links
            sent := s.sent ++ (q.takeWhile fun i => s.tmWakeup i ≤ tmMsec).map fun i => (i, s.ticks) } ∧
        links.IsRing none ((q.dropWhile fun i => s.tmWakeup i ≤ tmMsec).map some) := by
  intro q
  induction q with
  | nil =>
    intro left s hring hleft
    obtain ⟨left, rfl⟩ : ∃ n, left = n + 1 := ⟨left - 1, by omega⟩
    exact ⟨s.links, by simp [clockLoop], hring⟩
  | cons i q ih =>
    intro left s hring hleft
    rw [List.length_cons] at hleft
    obtain ⟨left, rfl⟩ : ∃ n, left = n + 1 := ⟨left - 1, by omega⟩
    simp only [List.map_cons, List.headD_cons, clockLoop]
    by_cases hlt : tmMsec < s.tmWakeup i
    · have htake : (i :: q).takeWhile (fun i => decide (s.tmWakeup i ≤ tmMsec)) = [] :=
        List.takeWhile_cons_of_neg (by simpa using hlt)
      have hdrop : (i :: q).dropWhile (fun i => decide (s.tmWakeup i ≤ tmMsec)) = i :: q :=
        List.dropWhile_cons_of_neg (by simpa using hlt)
      rw [if_pos hlt, htake, hdrop]
      exact ⟨s.links, by simp, hring⟩
    · have htake : (i :: q).takeWhile (fun i => decide (s.tmWakeup i ≤ tmMsec)) =
          i :: q.takeWhile (fun i => decide (s.tmWakeup i ≤ tmMsec)) :=
        List.takeWhile_cons_of_pos (by simpa using hlt)
      have hdrop : (i :: q).dropWhile (fun i => decide (s.tmWakeup i ≤ tmMsec)) =
          q.dropWhile (fun i => decide (s.tmWakeup i ≤ tmMsec)) :=
        List.dropWhile_cons_of_pos (by simpa using hlt)
      rw [if_neg hlt, htake, hdrop, hring.linked.2.next_eq]
      obtain ⟨links, hloop, hring'⟩ := ih left
        { s with links := s.links.unlink (some i), sent := s.sent ++ [(i, s.ticks)] }
        hring.unlink_first (by omega)
      refine ⟨links, hloop.trans ?_, hring'⟩
      simp

lemma alarmClock_spec (hring : s.links.IsRing none (q.map some))
    (hlength : q.length ≤ s.waited.length) (ticksNr : ℕ) :
    ∃ links, alarmClock s ticksNr = some { s with
        links := links
        sent := s.sent ++ (q.takeWhile fun i => s.tmWakeup i ≤ toMsec ticksNr).map
          fun i => (i, s.ticks) } ∧
      links.IsRing none ((q.dropWhile fun i => s.tmWakeup i ≤ toMsec ticksNr).map some) := by
  unfold alarmClock
  simp only
  rw [hring.linked.next_eq]
  exact clockLoop_spec q _ s hring (by omega)

lemma filter_fst_eq {i tick : ℕ} {l : List (ℕ × ℕ)} (hnodup : (l.map Prod.fst).Nodup)
    (hmem : (i, tick) ∈ l) : l.filter (fun p => p.1 = i) = [(i, tick)] := by
  induction l with
  | nil => cases hmem
  | cons p l ih =>
    rw [List.map_cons, List.nodup_cons] at hnodup
    cases List.mem_cons.mp hmem with
    | inl heq =>
      subst heq
      have hrest : l.filter (fun p => p.1 = i) = [] := by
        refine List.filter_eq_nil_iff.mpr ?_
        intro p hp heq
        exact hnodup.1 (List.mem_map.mpr ⟨p, hp, of_decide_eq_true heq⟩)
      rw [List.filter_cons_of_pos (by simp), hrest]
    | inr hl =>
      have hne : p.1 ≠ i := fun heq => hnodup.1 (heq ▸ List.mem_map_of_mem (f := Prod.fst) hl)
      rw [List.filter_cons_of_neg (by simpa using hne), ih hnodup.2 hl]

/-- The queue is sorted, and all that wait in it are due before the ticks wrap around again. -/
structure Ok (s : AlarmState) (q : List ℕ) : Prop where
  ring : s.links.IsRing none (q.map some)
  perm : (q ++ s.sent.map Prod.fst).Perm s.waited
  nodup : s.waited.Nodup
  wakeup : ∀ i ∈ q, s.tmWakeup i = due s i % 2 ^ 32
  block : ∀ i ∈ q, due s i / 2 ^ 32 = (s.ticks + 1) / 2 ^ 32
  sorted : q.Pairwise fun i j => s.tmWakeup i ≤ s.tmWakeup j
  start_le : ∀ i ∈ q, s.start i ≤ s.ticks
  waiting : ∀ i ∈ q, due s i ≤ s.ticks → s.start i = s.ticks
  tick_le : ∀ p ∈ s.sent, p.2 ≤ s.ticks
  firstDue : ∀ p ∈ s.sent, FirstDue s p.1 p.2
  order : s.sent.Pairwise fun a b => due s a.1 ≤ due s b.1

lemma FirstDue.congr {i tick : ℕ} (h : FirstDue s i tick) (hstart : t.start i = s.start i)
    (hmsec : t.msec i = s.msec i) : FirstDue t i tick := by
  obtain ⟨hafter, hreached, hfirst⟩ := h
  constructor
  · rwa [hstart]
  · rwa [elapsed, hstart, hmsec]
  · simpa only [elapsed, hstart, hmsec] using hfirst

lemma due_congr {i : ℕ} (hstart : t.start i = s.start i) (hmsec : t.msec i = s.msec i) :
    due t i = due s i := by
  rw [due, due, hstart, hmsec]

lemma due_le_of_elapsed {i tick : ℕ} (hstart : s.start i ≤ tick) (h : s.msec i ≤ elapsed s i tick) :
    due s i ≤ tick := by
  simp only [elapsed, due, msecPerTick] at h ⊢
  omega

lemma FirstDue.due_le {i tick : ℕ} (h : FirstDue s i tick) : due s i ≤ tick :=
  due_le_of_elapsed h.after.le h.reached

/-- What a call of `alarm_wait` leaves but for the links. -/
structure Waits (s : AlarmState) (info msec : ℕ) (t : AlarmState) : Prop where
  sent : t.sent = s.sent
  ticks : t.ticks = s.ticks
  waited : t.waited = s.waited ++ [info]
  start_self : t.start info = s.ticks
  msec_self : t.msec info = msec
  wakeup_self : t.tmWakeup info = (s.ticks + msec) % 2 ^ 32
  start : ∀ i ≠ info, t.start i = s.start i
  msec : ∀ i ≠ info, t.msec i = s.msec i
  wakeup : ∀ i ≠ info, t.tmWakeup i = s.tmWakeup i

lemma step_wait (hring : s.links.IsRing none (q.map some)) (hlength : q.length ≤ s.waited.length)
    {info msec : ℕ} (hnew : info ∉ s.waited) (hnotq : info ∉ q) (hmsec : msec < 2 ^ 31) :
    ∃ t, step s (.wait info msec) = some t ∧ Waits s info msec t ∧ t.links.IsRing none
      ((q.orderedInsert (fun i j => t.tmWakeup i ≤ t.tmWakeup j) info).map some) := by
  obtain ⟨links, hwait, hring'⟩ := alarmWait_spec hring hlength hnotq msec
  refine ⟨{ s with
    tmWakeup := Function.update s.tmWakeup info (wadd (toMsec s.ticksNr) msec)
    links := links
    waited := s.waited ++ [info]
    start := Function.update s.start info s.ticks
    msec := Function.update s.msec info msec }, ?_, ?_, hring'⟩
  · simp only [step, if_pos (And.intro hnew hmsec), hwait, Option.map_some]
  constructor
  case sent => rfl
  case ticks => rfl
  case waited => rfl
  case start_self => exact Function.update_self ..
  case msec_self => exact Function.update_self ..
  case wakeup_self =>
    refine (Function.update_self ..).trans ?_
    simp only [wadd, toMsec, AlarmState.ticksNr, msecPerTick]
    omega
  case start => exact fun i hne => Function.update_of_ne hne ..
  case msec => exact fun i hne => Function.update_of_ne hne ..
  case wakeup => exact fun i hne => Function.update_of_ne hne ..

namespace Waits
variable {info msec : ℕ} (h : Waits s info msec t)
include h

lemma due_self : due t info = s.ticks + msec := by
  rw [due, h.start_self, h.msec_self, msecPerTick, Nat.mul_one]

lemma due_eq {i : ℕ} (hne : i ≠ info) : due t i = due s i := due_congr (h.start i hne) (h.msec i hne)

end Waits

lemma block_of_guard {info msec : ℕ} (hguard : Guard s (.wait info msec)) (hmsec : msec < 2 ^ 31) :
    (s.ticks + msec) / 2 ^ 32 = (s.ticks + 1) / 2 ^ 32 := by
  have hnow : toMsec s.ticksNr = s.ticks % 2 ^ 32 := by
    simp only [toMsec, AlarmState.ticksNr, msecPerTick]
    omega
  simp only [Guard, hnow] at hguard
  by_cases hlast : s.ticks % 2 ^ 32 + 1 = 2 ^ 32
  · rw [if_pos hlast] at hguard
    omega
  · rw [if_neg hlast] at hguard
    omega

structure Clocks (s : AlarmState) (now : List ℕ) (t : AlarmState) : Prop where
  sent : t.sent = s.sent ++ now.map fun i => (i, s.ticks + 1)
  ticks : t.ticks = s.ticks + 1
  waited : t.waited = s.waited
  start : ∀ i, t.start i = s.start i
  msec : ∀ i, t.msec i = s.msec i
  wakeup : t.tmWakeup = s.tmWakeup

def reached (s : AlarmState) (i : ℕ) : Bool :=
  s.tmWakeup i ≤ toMsec ((s.ticks + 1) % 2 ^ 32)

lemma step_clock (hring : s.links.IsRing none (q.map some)) (hlength : q.length ≤ s.waited.length) :
    ∃ t, step s .clock = some t ∧ Clocks s (q.takeWhile (reached s)) t ∧
      t.links.IsRing none ((q.dropWhile (reached s)).map some) := by
  have hring' : ({ s with ticks := s.ticks + 1 } : AlarmState).links.IsRing none (q.map some) := hring
  obtain ⟨links, hclock, hlater⟩ := alarmClock_spec hring' hlength ((s.ticks + 1) % 2 ^ 32)
  exact ⟨_, hclock, ⟨rfl, rfl, rfl, fun _ => rfl, fun _ => rfl, rfl⟩, hlater⟩

namespace Ok
variable (hok : Ok s q)
include hok

lemma length_le : q.length ≤ s.waited.length := by
  have hlength := hok.perm.length_eq
  rw [List.length_append] at hlength
  omega

lemma mem_waited {i : ℕ} (hi : i ∈ q) : i ∈ s.waited :=
  hok.perm.mem_iff.mp (List.mem_append_left _ hi)

lemma sent_mem_waited {p : ℕ × ℕ} (hp : p ∈ s.sent) : p.1 ∈ s.waited :=
  hok.perm.mem_iff.mp (List.mem_append_right _ (List.mem_map_of_mem hp))

lemma disjoint {i tick : ℕ} (hi : i ∈ q) : (i, tick) ∉ s.sent := by
  have hnodup := List.nodup_append.mp (hok.perm.nodup_iff.mpr hok.nodup)
  exact fun hmem => hnodup.2.2 i hi i (List.mem_map_of_mem (f := Prod.fst) hmem) rfl

lemma due_sorted : q.Pairwise fun i j => due s i ≤ due s j := by
  refine hok.sorted.imp_of_mem ?_
  intro i j hi hj hle
  rw [hok.wakeup i hi, hok.wakeup j hj] at hle
  have hblocki := hok.block i hi
  have hblockj := hok.block j hj
  omega

lemma wakeup_le_iff {i : ℕ} (hi : i ∈ q) :
    s.tmWakeup i ≤ toMsec ((s.ticks + 1) % 2 ^ 32) ↔ due s i ≤ s.ticks + 1 := by
  have hblock := hok.block i hi
  rw [hok.wakeup i hi, toMsec, msecPerTick]
  omega

/-- A call of `alarm_wait` keeps the queue in order, unless the sum of its wakeup wraps around. -/
lemma wait {info msec : ℕ} (hguard : Guard s (.wait info msec)) (hnew : info ∉ s.waited)
    (hmsec : msec < 2 ^ 31) : ∃ t q', step s (.wait info msec) = some t ∧ Ok t q' := by
  have hnotq : info ∉ q := fun hi => hnew (hok.mem_waited hi)
  obtain ⟨t, hstep, hwait, hring⟩ := step_wait hok.ring hok.length_le hnew hnotq hmsec
  have hne : ∀ i ∈ s.waited, i ≠ info := fun i hi heq => hnew (heq ▸ hi)
  have hmem : ∀ i ∈ q.orderedInsert (fun i j => t.tmWakeup i ≤ t.tmWakeup j) info,
      i = info ∨ i ∈ q := fun i hi => (List.mem_orderedInsert _).mp hi
  refine ⟨t, q.orderedInsert (fun i j => t.tmWakeup i ≤ t.tmWakeup j) info, hstep, ?_⟩
  constructor
  case ring => exact hring
  case perm =>
    rw [hwait.sent, hwait.waited]
    have hfront := (List.perm_orderedInsert (fun i j => t.tmWakeup i ≤ t.tmWakeup j) info
      q).append_right (s.sent.map Prod.fst)
    exact (hfront.trans (hok.perm.cons info)).trans (List.perm_append_singleton info s.waited).symm
  case nodup =>
    rw [hwait.waited]
    refine List.nodup_append.mpr ⟨hok.nodup, List.nodup_singleton _, ?_⟩
    intro i hi j hj
    rw [List.mem_singleton.mp hj]
    exact hne i hi
  case wakeup =>
    intro i hi
    cases hmem i hi with
    | inl heq => rw [heq, hwait.wakeup_self, hwait.due_self]
    | inr hi =>
      have hnei := hne i (hok.mem_waited hi)
      rw [hwait.wakeup i hnei, hwait.due_eq hnei, hok.wakeup i hi]
  case block =>
    intro i hi
    rw [hwait.ticks]
    cases hmem i hi with
    | inl heq =>
      rw [heq, hwait.due_self]
      exact block_of_guard hguard hmsec
    | inr hi => rw [hwait.due_eq (hne i (hok.mem_waited hi)), hok.block i hi]
  case sorted =>
    have htotal : Std.Total fun i j => t.tmWakeup i ≤ t.tmWakeup j :=
      ⟨fun i j => le_total (t.tmWakeup i) (t.tmWakeup j)⟩
    have htrans : IsTrans ℕ fun i j => t.tmWakeup i ≤ t.tmWakeup j := ⟨fun i j k => le_trans⟩
    refine List.Pairwise.orderedInsert (r := fun i j => t.tmWakeup i ≤ t.tmWakeup j) info q ?_
    refine hok.sorted.imp_of_mem ?_
    intro i j hi hj hle
    rwa [hwait.wakeup i (hne i (hok.mem_waited hi)), hwait.wakeup j (hne j (hok.mem_waited hj))]
  case start_le =>
    intro i hi
    rw [hwait.ticks]
    cases hmem i hi with
    | inl heq => rw [heq, hwait.start_self]
    | inr hi =>
      rw [hwait.start i (hne i (hok.mem_waited hi))]
      exact hok.start_le i hi
  case waiting =>
    intro i hi hdue
    rw [hwait.ticks] at hdue ⊢
    cases hmem i hi with
    | inl heq => rw [heq, hwait.start_self]
    | inr hi =>
      have hnei := hne i (hok.mem_waited hi)
      rw [hwait.due_eq hnei] at hdue
      rw [hwait.start i hnei]
      exact hok.waiting i hi hdue
  case tick_le =>
    rw [hwait.sent, hwait.ticks]
    exact hok.tick_le
  case firstDue =>
    intro p hp
    rw [hwait.sent] at hp
    have hnep := hne p.1 (hok.sent_mem_waited hp)
    exact (hok.firstDue p hp).congr (hwait.start _ hnep) (hwait.msec _ hnep)
  case order =>
    rw [hwait.sent]
    refine hok.order.imp_of_mem ?_
    intro a b ha hb hle
    rwa [hwait.due_eq (hne _ (hok.sent_mem_waited ha)),
      hwait.due_eq (hne _ (hok.sent_mem_waited hb))]

lemma ticks_le_due {i : ℕ} (hi : i ∈ q) : s.ticks ≤ due s i := by
  by_contra hlt
  have hstart := hok.waiting i hi (by omega)
  rw [due, msecPerTick] at hlt
  omega

lemma elapsed_lt {i tick : ℕ} (hi : i ∈ q) (hafter : s.start i < tick) (hle : tick ≤ s.ticks) :
    elapsed s i tick < s.msec i := by
  by_contra hge
  have hdue := due_le_of_elapsed hafter.le (not_lt.mp hge)
  have hstart := hok.waiting i hi (hdue.trans hle)
  omega

lemma firstDue_now {i : ℕ} (hi : i ∈ q) (hdue : due s i ≤ s.ticks + 1) :
    FirstDue s i (s.ticks + 1) where
  after := Nat.lt_succ_of_le (hok.start_le i hi)
  reached := by
    simp only [elapsed, Alarms.due, msecPerTick] at hdue ⊢
    omega
  first tick' hafter hlt := hok.elapsed_lt hi hafter (Nat.le_of_lt_succ hlt)

lemma takeWhile_due {i : ℕ} (hi : i ∈ q.takeWhile (reached s)) : due s i ≤ s.ticks + 1 := by
  have hmem := (List.takeWhile_sublist _).subset hi
  have hreached : reached s i = true := List.mem_takeWhile_imp hi
  exact (hok.wakeup_le_iff hmem).mp (of_decide_eq_true hreached)

lemma dropWhile_due {i : ℕ} (hi : i ∈ q.dropWhile (reached s)) : s.ticks + 1 < due s i := by
  have hsorted := hok.due_sorted.sublist (List.dropWhile_sublist (reached s))
  obtain ⟨j, later, hlater⟩ := List.exists_cons_of_ne_nil (List.ne_nil_of_mem hi)
  have hj : s.ticks + 1 < due s j := by
    have hmem : j ∈ q := (List.dropWhile_sublist (reached s)).subset (by simp [hlater])
    have hhead : ¬(reached s j = true) := by
      have hnot := List.head_dropWhile_not (reached s) (List.ne_nil_of_mem hi)
      simpa only [hlater, List.head_cons, Bool.not_eq_true] using hnot
    rw [reached, decide_eq_true_eq, hok.wakeup_le_iff hmem] at hhead
    omega
  rw [hlater] at hi hsorted
  cases List.mem_cons.mp hi with
  | inl heq => rwa [heq]
  | inr hi =>
    have hpair := (List.pairwise_cons.mp hsorted).1 i hi
    omega

lemma clock : ∃ t q', step s .clock = some t ∧ Ok t q' := by
  obtain ⟨t, hstep, hclock, hring⟩ := step_clock hok.ring hok.length_le
  have hnow : ∀ i ∈ q.takeWhile (reached s), i ∈ q := fun i hi =>
    (List.takeWhile_sublist _).subset hi
  have hlater : ∀ i ∈ q.dropWhile (reached s), i ∈ q := fun i hi =>
    (List.dropWhile_sublist _).subset hi
  have hdue : ∀ i, due t i = due s i := fun i => due_congr (hclock.start i) (hclock.msec i)
  refine ⟨t, q.dropWhile (reached s), hstep, ?_⟩
  constructor
  case ring => exact hring
  case perm =>
    rw [hclock.sent, hclock.waited, List.map_append, List.map_map]
    have hfst : (q.takeWhile (reached s)).map (Prod.fst ∘ fun i => (i, s.ticks + 1)) =
        q.takeWhile (reached s) := List.map_id _
    have hperm := hok.perm
    rw [← List.takeWhile_append_dropWhile (p := reached s) (l := q)] at hperm
    rw [hfst, ← List.append_assoc]
    refine List.Perm.trans ?_ hperm
    exact List.perm_append_comm.trans (List.append_assoc .. ▸ List.Perm.refl _)
  case nodup =>
    rw [hclock.waited]
    exact hok.nodup
  case wakeup =>
    intro i hi
    rw [hclock.wakeup, hdue]
    exact hok.wakeup i (hlater i hi)
  case block =>
    intro i hi
    rw [hdue, hclock.ticks]
    have hblock := hok.block i (hlater i hi)
    have hlt := hok.dropWhile_due hi
    omega
  case sorted =>
    rw [hclock.wakeup]
    exact hok.sorted.sublist (List.dropWhile_sublist _)
  case start_le =>
    intro i hi
    rw [hclock.start, hclock.ticks]
    exact (hok.start_le i (hlater i hi)).trans (Nat.le_succ _)
  case waiting =>
    intro i hi hle
    rw [hdue, hclock.ticks] at hle
    exact absurd hle (hok.dropWhile_due hi).not_ge
  case tick_le =>
    intro p hp
    rw [hclock.sent] at hp
    rw [hclock.ticks]
    cases List.mem_append.mp hp with
    | inl hold => exact (hok.tick_le p hold).trans (Nat.le_succ _)
    | inr hnew =>
      obtain ⟨i, _, rfl⟩ := List.mem_map.mp hnew
      exact le_rfl
  case firstDue =>
    intro p hp
    rw [hclock.sent] at hp
    cases List.mem_append.mp hp with
    | inl hold => exact (hok.firstDue p hold).congr (hclock.start _) (hclock.msec _)
    | inr hnew =>
      obtain ⟨i, hi, rfl⟩ := List.mem_map.mp hnew
      exact (hok.firstDue_now (hnow i hi) (hok.takeWhile_due hi)).congr (hclock.start _)
        (hclock.msec _)
  case order =>
    rw [hclock.sent]
    simp only [hdue]
    refine List.pairwise_append.mpr ⟨hok.order, ?_, ?_⟩
    · exact List.pairwise_map.mpr (hok.due_sorted.sublist (List.takeWhile_sublist _))
    · intro a ha b hb
      obtain ⟨i, hi, rfl⟩ := List.mem_map.mp hb
      have hdueOld := (hok.firstDue a ha).due_le
      have htick := hok.tick_le a ha
      have hdueNow := hok.ticks_le_due (hnow i hi)
      exact (hdueOld.trans htick).trans hdueNow

lemma queued_iff {i : ℕ} : Queued s i ↔ i ∈ q := by
  constructor
  · rintro ⟨q', hring, hi⟩
    have heq : q' = q := List.map_injective_iff.mpr (Option.some_injective ℕ) (hring.unique hok.ring)
    exact heq ▸ hi
  · exact fun hi => ⟨q, hok.ring, hi⟩

lemma onTime : OnTime s where
  each i hi := by
    cases List.mem_append.mp (hok.perm.mem_iff.mpr hi) with
    | inl hq =>
      exact Or.inl ⟨hok.queued_iff.mpr hq, fun tick => hok.disjoint hq,
        fun tick => hok.elapsed_lt hq⟩
    | inr hsent =>
      obtain ⟨⟨_, tick⟩, hp, rfl⟩ := List.mem_map.mp hsent
      refine Or.inr ⟨fun hqueued => hok.disjoint (hok.queued_iff.mp hqueued) hp, tick, ?_,
        hok.tick_le _ hp, hok.firstDue _ hp⟩
      have hnodup := (List.nodup_append.mp (hok.perm.nodup_iff.mpr hok.nodup)).2.1
      exact filter_fst_eq hnodup hp
  order := hok.order

end Ok

lemma ok_of_start (h : Start s) : Ok s [] := by
  obtain ⟨m, hm⟩ := h.links
  constructor <;> simp [h.sent, h.waited, hm, Links.isRing_rootInit]

lemma ok_of_reach (h : machine.Reach Guard s) : ∃ q, Ok s q := by
  refine Machine.Reach.invariant (I := fun s => ∃ q, Ok s q)
    (fun s hs => ⟨[], ok_of_start hs⟩) ?_ h
  rintro s e t ⟨q, hok⟩ hguard hstep
  have hstep : step s e = some t := hstep
  cases e with
  | wait info msec =>
    by_cases hcall : info ∉ s.waited ∧ msec < 2 ^ 31
    · obtain ⟨u, q', hu, hok'⟩ := hok.wait hguard hcall.1 hcall.2
      obtain rfl := Option.some.inj (hu.symm.trans hstep)
      exact ⟨q', hok'⟩
    · simp only [step, if_neg hcall, reduceCtorEq] at hstep
  | clock =>
    obtain ⟨u, q', hu, hok'⟩ := hok.clock
    obtain rfl := Option.some.inj (hu.symm.trans hstep)
    exact ⟨q', hok'⟩

/-! ### Alarms that fire when they are due -/

theorem alarms_on_time (h : machine.Reach Guard s) :
    OnTime s ∧ (∃ t, machine.step s .clock = some t) ∧
      ∀ info msec, info ∉ s.waited → msec < 2 ^ 31 →
        ∃ t, machine.step s (.wait info msec) = some t := by
  obtain ⟨q, hok⟩ := ok_of_reach h
  refine ⟨hok.onTime, ?_, ?_⟩
  · obtain ⟨t, _, ht, _⟩ := hok.clock
    exact ⟨t, ht⟩
  · intro info msec hnew hmsec
    have hnotq : info ∉ q := fun hi => hnew (hok.mem_waited hi)
    obtain ⟨links, hwait, _⟩ := alarmWait_spec hok.ring hok.length_le hnotq msec
    have hcall : machine.step s (.wait info msec) = (alarmWait s info msec).map _ :=
      if_pos (And.intro hnew hmsec)
    rw [hcall, hwait]
    exact ⟨_, rfl⟩

instance : DecidablePred (Guard s) := fun e => by
  cases e <;> unfold Guard <;> infer_instance

def idle (ticks : ℕ) : AlarmState where
  links := Links.rootInit ⟨id, id⟩ none
  tmWakeup _ := 0
  ticks := ticks
  waited := []
  start _ := 0
  msec _ := 0
  sent := []

lemma start_idle (ticks : ℕ) : Start (idle ticks) := ⟨⟨_, rfl⟩, rfl, rfl⟩

theorem alarms_on_time_order : ∃ s : AlarmState,
    machine.run (idle 5) [.wait 0 3, .wait 1 2, .wait 2 2, .clock, .clock, .clock] = some s ∧
      s.sent = [(2, 7), (1, 7), (0, 8)] ∧ OnTime s := by
  obtain ⟨s, hs⟩ : ∃ s, (machine.restrict fun s e => decide (Guard s e)).run (idle 5)
      [.wait 0 3, .wait 1 2, .wait 2 2, .clock, .clock, .clock] = some s := ⟨_, rfl⟩
  have hreach : machine.Reach Guard s :=
    (Machine.Reachable.run (.init (start_idle 5)) _ hs).of_restrict fun s e => of_decide_eq_true
  refine ⟨s, hs, ?_, (alarms_on_time hreach).1⟩
  obtain rfl := Option.some.inj hs
  rfl

/-- The sum of the wakeup wraps around, and the next call of the clock sends the alarm. -/
theorem wrapped_wakeup_early : ∃ s : AlarmState,
    machine.run (idle (2 ^ 32 - 10)) [.wait 0 20, .clock] = some s ∧ machine.Reachable s ∧
      s.sent = [(0, 2 ^ 32 - 9)] ∧ ¬OnTime s := by
  obtain ⟨s, hs⟩ : ∃ s, machine.run (idle (2 ^ 32 - 10)) [.wait 0 20, .clock] = some s := ⟨_, rfl⟩
  have hreach : machine.Reachable s := .run (.init (start_idle _)) _ hs
  obtain rfl := Option.some.inj hs
  refine ⟨_, hs, hreach, rfl, ?_⟩
  intro hon
  cases hon.each 0 (List.mem_singleton_self 0) with
  | inl hqueued => exact hqueued.2.1 (2 ^ 32 - 9) (List.mem_singleton_self _)
  | inr hsent =>
    obtain ⟨_, tick, hfilter, _, hfirst⟩ := hsent
    have htick : tick = 2 ^ 32 - 9 := by
      cases hfilter
      rfl
    have hreached := hfirst.reached
    rw [htick] at hreached
    exact absurd hreached (by decide)

end Almos.Alarms
