import Almos.Machine

/-!
# The local event listener

Events wait in one list for each priority. `local_event_listner_notify` walks the priorities
upwards and runs handlers; while a handler runs, it and the interrupts may send more events.
`prioNr` is the number of priorities. Remote listeners are left out.
-/
namespace Almos.EventListner

structure Event where
  id : ℕ
  prio : ℕ
  deriving DecidableEq

structure EventList where
  count : ℕ
  root : List Event

structure Listner where
  count : ℕ
  pending : Bool
  prio : ℕ
  tbl : ℕ → EventList

/-- `event_listner_init` of a local listener; it leaves the count of events delivered. -/
def eventListnerInit (count : ℕ) : Listner := ⟨count, false, 0, fun _ => ⟨0, []⟩⟩

def localEventSend (el : Listner) (event : Event) (isFIFO : Bool) : Listner :=
  let list := el.tbl event.prio
  let root := if isFIFO then list.root ++ [event] else event :: list.root
  { el with
    tbl := Function.update el.tbl event.prio ⟨list.count + 1, root⟩
    prio := if el.pending = false ∨ event.prio < el.prio then event.prio else el.prio
    pending := true }

/-- Where `local_event_listner_notify` is: not running, before the tests of its outer and of its
inner loop, or in a handler. The arguments are its local variables. -/
inductive Notify
  | idle
  | outer (startPrio currentPrio count : ℕ)
  | inner (startPrio currentPrio count : ℕ)
  | handler (startPrio currentPrio count : ℕ)
  deriving DecidableEq

/-- The listener with its history: the events sent, those whose handler was invoked, and of the
latest notification those present at its start and those it delivered. -/
structure State where
  el : Listner
  notify : Notify
  sent : List Event
  delivered : List Event
  present : List Event
  served : List Event

def queued (prioNr : ℕ) (tbl : ℕ → EventList) : List Event :=
  (List.range prioNr).flatMap fun p => (tbl p).root

/-- The entry of `local_event_listner_notify`. -/
def startNotify (prioNr : ℕ) (s : State) : Option State :=
  if s.notify = .idle ∧ s.el.pending = true then
    some { s with
      el := { s.el with pending := false, prio := s.el.prio + 1 }
      notify := .outer s.el.prio s.el.prio 0
      present := queued prioNr s.el.tbl
      served := [] }
  else none

/-- The steps of its loops. An assertion stops on an empty list with a count. -/
def advance (prioNr : ℕ) (s : State) : Option State :=
  match s.notify with
  | .idle => none
  | .outer startPrio currentPrio count =>
      if currentPrio < prioNr then
        if s.el.prio ≤ startPrio then
          some { s with
            el := { s.el with prio := s.el.prio + 1 }
            notify := .inner s.el.prio s.el.prio count }
        else some { s with notify := .inner startPrio currentPrio count }
      else some { s with el := { s.el with count := s.el.count + count }, notify := .idle }
  | .inner startPrio currentPrio count =>
      let list := s.el.tbl currentPrio
      if list.count = 0 then some { s with notify := .outer startPrio (currentPrio + 1) count }
      else
        match list.root with
        | [] => none
        | event :: root =>
            some { s with
              el := { s.el with tbl := Function.update s.el.tbl currentPrio ⟨list.count - 1, root⟩ }
              notify := .handler startPrio currentPrio count
              delivered := event :: s.delivered
              served := event :: s.served }
  | .handler startPrio currentPrio count =>
      some { s with notify := .inner startPrio currentPrio (count + 1) }

inductive Step
  | send (event : Event) (isFIFO : Bool)
  | notify
  | advance

def enabled : Notify → Bool
  | .idle => true
  | .handler _ _ _ => true
  | _ => false

def step (prioNr : ℕ) (s : State) : Step → Option State
  | .send event isFIFO =>
      if enabled s.notify ∧ event.prio < prioNr ∧ event ∉ queued prioNr s.el.tbl then
        some { s with el := localEventSend s.el event isFIFO, sent := event :: s.sent }
      else none
  | .notify => startNotify prioNr s
  | .advance => advance prioNr s

def machine (prioNr : ℕ) : Machine State Step where
  init s := ∃ count, s = ⟨eventListnerInit count, .idle, [], [], [], []⟩
  step := step prioNr

variable {prioNr p q : ℕ} {tbl : ℕ → EventList} {list : EventList} {e : Event} {s t : State}

lemma queued_succ (n : ℕ) (tbl : ℕ → EventList) :
    queued (n + 1) tbl = queued n tbl ++ (tbl n).root := by
  simp [queued, List.range_succ]

lemma mem_queued : e ∈ queued prioNr tbl ↔ ∃ p < prioNr, e ∈ (tbl p).root := by
  simp [queued]

lemma queued_update_of_le (h : prioNr ≤ p) :
    queued prioNr (Function.update tbl p list) = queued prioNr tbl := by
  induction prioNr with
  | zero => rfl
  | succ n ih =>
    rw [queued_succ, queued_succ, ih (by omega), Function.update_of_ne (by omega)]

lemma count_queued_update (tbl : ℕ → EventList) (list : EventList) (e : Event) (h : p < prioNr) :
    (queued prioNr (Function.update tbl p list)).count e + (tbl p).root.count e =
      (queued prioNr tbl).count e + list.root.count e := by
  induction prioNr with
  | zero => simp at h
  | succ n ih =>
    rw [queued_succ, queued_succ, List.count_append, List.count_append]
    by_cases hp : p = n
    · subst hp
      rw [queued_update_of_le le_rfl, Function.update_self]
      omega
    · have hrest := ih (by omega)
      rw [Function.update_of_ne (Ne.symm hp)]
      omega

def reached (prioNr : ℕ) : Notify → ℕ
  | .idle => prioNr
  | .outer _ currentPrio _ => currentPrio
  | .inner _ currentPrio _ => currentPrio
  | .handler _ currentPrio _ => currentPrio

def Ordered : Notify → Prop
  | .idle => True
  | .outer startPrio currentPrio _ => startPrio ≤ currentPrio
  | .inner startPrio currentPrio _ => startPrio ≤ currentPrio
  | .handler startPrio currentPrio _ => startPrio ≤ currentPrio

/-- An event at a priority already passed is announced by the flag and by `el->prio`. -/
structure Inv (prioNr : ℕ) (s : State) : Prop where
  counts : ∀ p, (s.el.tbl p).count = (s.el.tbl p).root.length
  range : ∀ p, prioNr ≤ p → (s.el.tbl p).root = []
  ordered : Ordered s.notify
  passed : ∀ p, (s.el.tbl p).root ≠ [] →
    reached prioNr s.notify ≤ p ∨ s.el.pending = true ∧ s.el.prio ≤ p
  present : ∀ e ∈ s.present, e ∈ s.served ∨
    ∃ p, reached prioNr s.notify ≤ p ∧ e ∈ (s.el.tbl p).root
  account : ∀ e, s.delivered.count e + (queued prioNr s.el.tbl).count e = s.sent.count e

lemma inv_init (h : (machine prioNr).init s) : Inv prioNr s := by
  obtain ⟨count, rfl⟩ := h
  refine ⟨by simp [eventListnerInit], by simp [eventListnerInit], trivial,
    by simp [eventListnerInit], by simp, ?_⟩
  intro e
  have hnone : (queued prioNr fun _ => (⟨0, []⟩ : EventList)) = [] := by
    simp [queued, List.flatMap_eq_nil_iff]
  simp [eventListnerInit, hnone]

lemma Inv.send (h : Inv prioNr s) (hprio : e.prio < prioNr) (isFIFO : Bool) :
    Inv prioNr { s with el := localEventSend s.el e isFIFO, sent := e :: s.sent } := by
  obtain ⟨root, hroot, hlength, hmem, hcount⟩ : ∃ root,
      (if isFIFO then (s.el.tbl e.prio).root ++ [e] else e :: (s.el.tbl e.prio).root) = root ∧
        root.length = (s.el.tbl e.prio).root.length + 1 ∧
          (∀ x ∈ (s.el.tbl e.prio).root, x ∈ root) ∧
            ∀ x, root.count x = (s.el.tbl e.prio).root.count x + [e].count x := by
    cases isFIFO with
    | true => exact ⟨_, rfl, by simp, by simp +contextual, by simp [List.count_append]⟩
    | false =>
      refine ⟨_, rfl, by simp, by simp +contextual, ?_⟩
      intro x
      simp only [Bool.false_eq_true, if_false]
      rw [← List.singleton_append, List.count_append]
      omega
  obtain ⟨tbl, htbl⟩ : ∃ tbl, Function.update s.el.tbl e.prio
      ⟨(s.el.tbl e.prio).count + 1, root⟩ = tbl := ⟨_, rfl⟩
  have hself : tbl e.prio = ⟨(s.el.tbl e.prio).count + 1, root⟩ := by simp [← htbl]
  have hother : ∀ p, p ≠ e.prio → tbl p = s.el.tbl p := by
    intro p hp
    simp [← htbl, hp]
  have hsend : localEventSend s.el e isFIFO = { s.el with
      tbl := tbl
      prio := if s.el.pending = false ∨ e.prio < s.el.prio then e.prio else s.el.prio
      pending := true } := by
    simp only [localEventSend, hroot, htbl]
  rw [hsend]
  refine ⟨?_, ?_, h.ordered, ?_, ?_, ?_⟩
  · intro p
    by_cases hp : p = e.prio
    · subst hp
      simp only [hself, hlength, h.counts]
    · simp only [hother p hp]
      exact h.counts p
  · intro p hp
    simp only [hother p (by omega)]
    exact h.range p hp
  · intro p hne
    by_cases hp : p = e.prio
    · right
      refine ⟨rfl, ?_⟩
      simp only [hp]
      split_ifs <;> omega
    · simp only [hother p hp] at hne
      obtain hle | ⟨hpending, hle⟩ := h.passed p hne
      · exact .inl hle
      · right
        refine ⟨rfl, ?_⟩
        simp only [hpending, Bool.true_eq_false, false_or]
        split_ifs <;> omega
  · intro x hx
    obtain hserved | ⟨p, hle, hin⟩ := h.present x hx
    · exact .inl hserved
    · refine .inr ⟨p, hle, ?_⟩
      by_cases hp : p = e.prio
      · subst hp
        simp only [hself]
        exact hmem x hin
      · simp only [hother p hp]
        exact hin
  · intro x
    have hupdate := count_queued_update s.el.tbl ⟨(s.el.tbl e.prio).count + 1, root⟩ x hprio
    have hold := h.account x
    rw [htbl] at hupdate
    simp only [hcount] at hupdate
    rw [← List.singleton_append, List.count_append]
    change s.delivered.count x + (queued prioNr tbl).count x = _
    omega

lemma Inv.startNotify (h : Inv prioNr s) (hstep : EventListner.startNotify prioNr s = some t) :
    Inv prioNr t := by
  unfold EventListner.startNotify at hstep
  split_ifs at hstep with hguard
  obtain ⟨hidle, hpending⟩ := hguard
  obtain rfl := Option.some.inj hstep
  -- all events waiting are at `el->prio` or above
  have hlow : ∀ p, (s.el.tbl p).root ≠ [] → s.el.prio ≤ p := by
    intro p hne
    have hpassed := h.passed p hne
    rw [hidle] at hpassed
    obtain hle | ⟨-, hle⟩ := hpassed
    · exact absurd (h.range p hle) hne
    · exact hle
  refine ⟨h.counts, h.range, le_rfl, fun p hne => .inl (hlow p hne), ?_, h.account⟩
  intro e he
  obtain ⟨p, -, hin⟩ := mem_queued.mp he
  exact .inr ⟨p, hlow p (List.ne_nil_of_mem hin), hin⟩

lemma Inv.outer (h : Inv prioNr s) {startPrio currentPrio count : ℕ}
    (hat : s.notify = .outer startPrio currentPrio count)
    (hstep : EventListner.advance prioNr s = some t) : Inv prioNr t := by
  have hordered := h.ordered
  have hpassed := h.passed
  have hpresent := h.present
  rw [hat] at hordered hpassed hpresent
  simp only [Ordered, reached] at hordered hpassed hpresent
  simp only [EventListner.advance, hat] at hstep
  split_ifs at hstep with hlt hback
  · obtain rfl := Option.some.inj hstep
    -- the walk starts again at a priority to which events were sent
    have hlow : ∀ p, (s.el.tbl p).root ≠ [] → s.el.prio ≤ p := by
      intro p hne
      obtain hle | ⟨-, hle⟩ := hpassed p hne
      · omega
      · exact hle
    refine ⟨h.counts, h.range, le_rfl, fun p hne => .inl (hlow p hne), ?_, h.account⟩
    intro e he
    obtain hserved | ⟨p, -, hin⟩ := hpresent e he
    · exact .inl hserved
    · exact .inr ⟨p, hlow p (List.ne_nil_of_mem hin), hin⟩
  · obtain rfl := Option.some.inj hstep
    exact ⟨h.counts, h.range, hordered, hpassed, hpresent, h.account⟩
  · obtain rfl := Option.some.inj hstep
    have hend : prioNr ≤ currentPrio := Nat.le_of_not_lt hlt
    refine ⟨h.counts, h.range, trivial, ?_, ?_, h.account⟩
    · intro p hne
      obtain hle | hright := hpassed p hne
      · exact .inl (hend.trans hle)
      · exact .inr hright
    · intro e he
      obtain hserved | ⟨p, hle, hin⟩ := hpresent e he
      · exact .inl hserved
      · exact .inr ⟨p, hend.trans hle, hin⟩

lemma Inv.inner (h : Inv prioNr s) {startPrio currentPrio count : ℕ}
    (hat : s.notify = .inner startPrio currentPrio count)
    (hstep : EventListner.advance prioNr s = some t) : Inv prioNr t := by
  have hordered := h.ordered
  have hpassed := h.passed
  have hpresent := h.present
  rw [hat] at hordered hpassed hpresent
  simp only [Ordered, reached] at hordered hpassed hpresent
  simp only [EventListner.advance, hat] at hstep
  split_ifs at hstep with hzero
  · obtain rfl := Option.some.inj hstep
    have hnil : (s.el.tbl currentPrio).root = [] := by
      rw [h.counts] at hzero
      exact List.length_eq_zero_iff.mp hzero
    have hne : ∀ p, (s.el.tbl p).root ≠ [] → p ≠ currentPrio := by
      rintro p hp rfl
      exact hp hnil
    refine ⟨h.counts, h.range, ?_, ?_, ?_, h.account⟩
    · change startPrio ≤ currentPrio + 1
      omega
    · intro p hp
      have hpc := hne p hp
      obtain hle | hright := hpassed p hp
      · left
        change currentPrio + 1 ≤ p
        omega
      · exact .inr hright
    · intro e he
      obtain hserved | ⟨p, hle, hin⟩ := hpresent e he
      · exact .inl hserved
      · have hpc := hne p (List.ne_nil_of_mem hin)
        refine .inr ⟨p, ?_, hin⟩
        change currentPrio + 1 ≤ p
        omega
  · cases hroot : (s.el.tbl currentPrio).root with
    | nil => simp [hroot] at hstep
    | cons event root =>
      simp only [hroot] at hstep
      obtain rfl := Option.some.inj hstep
      obtain ⟨tbl, htbl⟩ : ∃ tbl, Function.update s.el.tbl currentPrio
          ⟨(s.el.tbl currentPrio).count - 1, root⟩ = tbl := ⟨_, rfl⟩
      have hself : tbl currentPrio = ⟨(s.el.tbl currentPrio).count - 1, root⟩ := by simp [← htbl]
      have hother : ∀ p, p ≠ currentPrio → tbl p = s.el.tbl p := by
        intro p hp
        simp [← htbl, hp]
      have hrange : currentPrio < prioNr := by
        by_contra hge
        have := h.range currentPrio (Nat.le_of_not_lt hge)
        simp [hroot] at this
      rw [htbl]
      refine ⟨?_, ?_, hordered, ?_, ?_, ?_⟩
      · intro p
        by_cases hp : p = currentPrio
        · subst hp
          have hlength := h.counts p
          rw [hroot, List.length_cons] at hlength
          simp only [hself]
          omega
        · simp only [hother p hp]
          exact h.counts p
      · intro p hp
        simp only [hother p (by omega)]
        exact h.range p hp
      · intro p hp
        by_cases hpc : p = currentPrio
        · left
          exact hpc.ge
        · simp only [hother p hpc] at hp
          exact hpassed p hp
      · intro e he
        obtain hserved | ⟨p, hle, hin⟩ := hpresent e he
        · exact .inl (List.mem_cons_of_mem _ hserved)
        · by_cases hpc : p = currentPrio
          · subst hpc
            rw [hroot] at hin
            obtain rfl | hrest := List.mem_cons.mp hin
            · exact .inl (List.mem_cons_self ..)
            · refine .inr ⟨p, hle, ?_⟩
              simp only [hself]
              exact hrest
          · refine .inr ⟨p, hle, ?_⟩
            simp only [hother p hpc]
            exact hin
      · intro e
        have hupdate := count_queued_update s.el.tbl
          ⟨(s.el.tbl currentPrio).count - 1, root⟩ e hrange
        have hold := h.account e
        rw [htbl, hroot, ← List.singleton_append, List.count_append] at hupdate
        simp only at hupdate
        change (event :: s.delivered).count e + (queued prioNr tbl).count e = s.sent.count e
        rw [← List.singleton_append, List.count_append]
        omega

lemma Inv.advance (h : Inv prioNr s) (hstep : EventListner.advance prioNr s = some t) :
    Inv prioNr t := by
  cases hat : s.notify with
  | idle => simp [EventListner.advance, hat] at hstep
  | outer startPrio currentPrio count => exact h.outer hat hstep
  | inner startPrio currentPrio count => exact h.inner hat hstep
  | handler startPrio currentPrio count =>
    have hordered := h.ordered
    have hpassed := h.passed
    have hpresent := h.present
    rw [hat] at hordered hpassed hpresent
    simp only [EventListner.advance, hat] at hstep
    obtain rfl := Option.some.inj hstep
    exact ⟨h.counts, h.range, hordered, hpassed, hpresent, h.account⟩

lemma Inv.step (h : Inv prioNr s) {a : Step} (hstep : EventListner.step prioNr s a = some t) :
    Inv prioNr t := by
  cases a with
  | send event isFIFO =>
    simp only [EventListner.step] at hstep
    split_ifs at hstep with hguard
    obtain rfl := Option.some.inj hstep
    exact h.send hguard.2.1 isFIFO
  | notify => exact h.startNotify hstep
  | advance => exact h.advance hstep

lemma Inv.advances (h : Inv prioNr s) (hnot : s.notify ≠ .idle) :
    ∃ t, EventListner.advance prioNr s = some t := by
  cases hat : s.notify with
  | idle => exact absurd hat hnot
  | outer startPrio currentPrio count =>
    simp only [EventListner.advance, hat]
    split_ifs <;> exact ⟨_, rfl⟩
  | inner startPrio currentPrio count =>
    cases hroot : (s.el.tbl currentPrio).root with
    | nil =>
      have hzero := h.counts currentPrio
      rw [hroot] at hzero
      simp [EventListner.advance, hat, hzero]
    | cons event root =>
      simp only [EventListner.advance, hat, hroot]
      split_ifs <;> exact ⟨_, rfl⟩
  | handler startPrio currentPrio count => exact ⟨_, by simp [EventListner.advance, hat]; rfl⟩

/-- In every state: between notifications, an event that waits is announced, and the latest
notification delivered what was there at its start. Counts are lengths, no handler is invoked
more often than its event was sent, and no assertion fails. -/
theorem listner_never_strands (prioNr : ℕ) (s : State) (hs : (machine prioNr).Reachable s) :
    (s.notify = .idle → ∀ p, (s.el.tbl p).root ≠ [] → s.el.pending = true ∧ s.el.prio ≤ p) ∧
      (∀ p, (s.el.tbl p).count = (s.el.tbl p).root.length) ∧
      (∀ e, s.delivered.count e ≤ s.sent.count e) ∧
      (s.notify = .idle → ∀ e ∈ s.present, e ∈ s.served) ∧
      (s.notify ≠ .idle → ∃ t, (machine prioNr).step s .advance = some t) := by
  have h : Inv prioNr s :=
    Machine.Reachable.invariant (fun _ => inv_init) (fun _ _ _ h hstep => h.step hstep) hs
  refine ⟨?_, h.counts, ?_, ?_, h.advances⟩
  · intro hidle p hne
    have hpassed := h.passed p hne
    rw [hidle] at hpassed
    obtain hle | hright := hpassed
    · exact absurd (h.range p hle) hne
    · exact hright
  · intro e
    have := h.account e
    omega
  · intro hidle e he
    have hpresent := h.present e he
    rw [hidle] at hpresent
    obtain hserved | ⟨p, hle, hin⟩ := hpresent
    · exact hserved
    · rw [h.range p hle] at hin
      simp at hin

/-- A handler of the last priority sends an event of priority 0, which waits after the
notification. -/
theorem listner_never_strands_nested : ∃ s, (machine 2).run ⟨eventListnerInit 0, .idle, [], [], [], []⟩
    [.send ⟨0, 1⟩ true, .notify, .advance, .advance, .send ⟨1, 0⟩ true, .advance, .advance, .advance] = some s ∧
      s.notify = .idle ∧ s.delivered = [⟨0, 1⟩] ∧
      (s.notify = .idle → ∀ p, (s.el.tbl p).root ≠ [] → s.el.pending = true ∧ s.el.prio ≤ p) ∧
      (∀ p, (s.el.tbl p).count = (s.el.tbl p).root.length) ∧
      (∀ e, s.delivered.count e ≤ s.sent.count e) ∧
      (s.notify = .idle → ∀ e ∈ s.present, e ∈ s.served) ∧
      (s.notify ≠ .idle → ∃ t, (machine 2).step s .advance = some t) := by
  obtain ⟨s, hs, hnotify, hdelivered⟩ : ∃ s, (machine 2).run
      ⟨eventListnerInit 0, .idle, [], [], [], []⟩ [.send ⟨0, 1⟩ true, .notify, .advance, .advance,
        .send ⟨1, 0⟩ true, .advance, .advance, .advance] = some s ∧ s.notify = .idle ∧
          s.delivered = [⟨0, 1⟩] :=
    ⟨_, rfl, rfl, rfl⟩
  exact ⟨s, hs, hnotify, hdelivered,
    listner_never_strands 2 s (Machine.Reachable.run (.init ⟨0, rfl⟩) _ hs)⟩

end Almos.EventListner
