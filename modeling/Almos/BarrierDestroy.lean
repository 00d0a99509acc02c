import Mathlib
import Almos.Machine
import Almos.SoftBarrier
import Almos.Spinlock

/-!
# Making and destroying software barriers

Calls of `barrier_wait` that follow one another, each up to its sleep or its return. `word` is the
union of the threads a private barrier still waits for and of the lock of a shared one. Record `k % 512` of
page `k / 512` of the table is entry `k` here.
-/
namespace Almos.BarrierLife

/-- `BARRIER_ID` -/
def barrierId : ℕ := 0xCFA5B1A3

/-- `BARRIER_WQDB_NR` -/
def wqdbNr : ℕ := 4

def wqdbSize : ℕ := 512

inductive BarrierOperation
  | initPrivate
  | wait
  | destroy
  | initShared
  deriving DecidableEq

inductive BarrierErr
  | einval
  | enomem
  | ebusy
  deriving DecidableEq

/-- `struct barrier_s`, as far as these calls use it. -/
structure BarrierObj (ι : Type*) where
  word : ℤ
  signature : ℕ
  owner : Option ℕ
  count : ℕ
  index : ℕ
  wqdb : ℕ → Option ι
  pagesTbl : ℕ → ℕ

structure Outcome (ι : Type*) where
  err : Option BarrierErr
  barrier : BarrierObj ι
  allocated : List ℕ
  freed : List ℕ

/-- The allocation loop from `i` on: the round that failed, if any, the table and the pages allocated. -/
def allocLoop (alloc : ℕ → Option ℕ) : ℕ → ℕ → (ℕ → ℕ) → Option ℕ × (ℕ → ℕ) × List ℕ
  | 0, _, tbl => (none, tbl, [])
  | left + 1, i, tbl =>
      match alloc i with
      | none => (some i, tbl, [])
      | some page =>
          let (err, tbl, pages) := allocLoop alloc left (i + 1) (Function.update tbl i page)
          (err, tbl, page :: pages)

/-- `barrier_init` on the memory `mem`; the pages are zeroed. -/
def barrierInit {ι : Type*} (mem : BarrierObj ι) (currentTask threadsLimit : ℕ) (alloc : ℕ → Option ℕ)
    (count : ℕ) (scope : BarrierOperation) : Outcome ι :=
  if count = 0 then ⟨some .einval, mem, [], []⟩
  else if wqdbNr * wqdbSize < threadsLimit then ⟨some .enomem, mem, [], []⟩
  else if wqdbNr * wqdbSize < count then ⟨some .enomem, mem, [], []⟩
  else
    let barrier :=
      if scope = .initPrivate then { mem with owner := some currentTask, word := count }
      else { mem with owner := none, word := 0, index := 0 }
    match allocLoop alloc wqdbNr 0 mem.pagesTbl with
    | (some err, tbl, pages) =>
        ⟨some .enomem, { barrier with pagesTbl := tbl }, pages, (List.range err).map tbl⟩
    | (none, tbl, pages) =>
        ⟨none, { barrier with
          pagesTbl := tbl, wqdb := fun _ => none, count := count, signature := barrierId }, pages, []⟩

def barrierDestroy {ι : Type*} (barrier : BarrierObj ι) (currentTask : ℕ) : Outcome ι :=
  if barrier.signature ≠ barrierId then ⟨some .einval, barrier, [], []⟩
  else if barrier.owner ≠ none ∧ barrier.owner ≠ some currentTask then ⟨some .einval, barrier, [], []⟩
  else
    let cntr : ℤ := match barrier.owner with
      | none => barrier.index
      | some _ => barrier.word
    if cntr ≠ 0 then ⟨some .ebusy, barrier, [], []⟩
    else ⟨none, { barrier with signature := 0 }, [], (List.range wqdbNr).map barrier.pagesTbl⟩

/-- A call of `barrier_wait`: refused, the last of its phase with the threads it wakes, or asleep. -/
inductive Waited (ι : Type*)
  | einval
  | serial (woken : List ι)
  | sleeps

/-- `barrier_do_broadcast` over the entries: those left in the table and the threads woken. -/
def broadcast {ι : Type*} (count : ℕ) : List ℕ → ℕ → (ℕ → Option ι) → (ℕ → Option ι) × List ι
  | [], _, wqdb => (wqdb, [])
  | i :: rest, ticket, wqdb =>
      if ticket < count - 1 then
        match wqdb i with
        | none => broadcast count rest ticket wqdb
        | some listner =>
            let (wqdb, woken) := broadcast count rest (ticket + 1) (Function.update wqdb i none)
            (wqdb, listner :: woken)
      else (wqdb, [])

/-- What follows the ticket: the last thread clears its entry, resets the barrier and wakes the others. -/
def afterTicket {ι : Type*} (barrier reset : BarrierObj ι) (index : ℕ) (ticket : ℤ) :
    BarrierObj ι × Waited ι :=
  if ticket = 1 then
    let (wqdb, woken) := broadcast barrier.count (List.range (wqdbNr * wqdbSize)) 0
      (Function.update barrier.wqdb index none)
    ({ reset with wqdb := wqdb }, .serial woken)
  else ({ barrier with word := Spinlock.unlockWord barrier.word }, .sleeps)

variable {ι : Type*} (task order : ι → ℕ)

def barrierWait (barrier : BarrierObj ι) (this : ι) : BarrierObj ι × Waited ι :=
  if barrier.signature ≠ barrierId ∨
      barrier.owner ≠ none ∧ barrier.owner ≠ some (task this) then (barrier, .einval)
  else
    match barrier.owner with
    | none =>
        let index := barrier.index
        let ticket : ℤ := barrier.count - index
        let barrier := { barrier with
          word := -1, index := index + 1, wqdb := Function.update barrier.wqdb index (some this) }
        afterTicket barrier { barrier with index := 0, word := Spinlock.unlockWord barrier.word } index ticket
    | some _ =>
        let index := order this
        let ticket := barrier.word
        let barrier := { barrier with
          word := ticket - 1, wqdb := Function.update barrier.wqdb index (some this) }
        afterTicket barrier { barrier with word := barrier.count } index ticket

structure State (ι : Type*) where
  barrier : BarrierObj ι
  waiting : List ι

/-- A thread that does not wait calls `barrier_wait`. -/
def step [DecidableEq ι] (s : State ι) (this : ι) : Option (State ι) :=
  if this ∈ s.waiting then none
  else
    match barrierWait task order s.barrier this with
    | (barrier, .einval) => some ⟨barrier, s.waiting⟩
    | (barrier, .serial woken) => some ⟨barrier, s.waiting.filter (· ∉ woken)⟩
    | (barrier, .sleeps) => some ⟨barrier, this :: s.waiting⟩

def machine [DecidableEq ι] (barrier : BarrierObj ι) : Machine (State ι) ι where
  init s := s = ⟨barrier, []⟩
  step := step task order

/-- The threads of a task have different orders, below the limit of the task. -/
structure Orders (currentTask threadsLimit : ℕ) : Prop where
  inj : ∀ t u, task t = currentTask → task u = currentTask → order t = order u → t = u
  lt : ∀ t, task t = currentTask → order t < threadsLimit

/-- A call of `barrier_destroy` is refused just when a thread waits; else the pages allocated are freed. -/
def DestroysRight (allocated : List ℕ) (s : State ι) (currentTask : ℕ) : Prop :=
  let out := barrierDestroy s.barrier currentTask
  (out.err = some .ebusy ↔ s.waiting ≠ []) ∧
    (out.err ≠ some .ebusy → out.err = none ∧ out.freed = allocated)

/-- The barrier is shared; or a thread waits, and more than half of the count is not used up or the count
is odd. -/
def CountsWaiters (s : State ι) : Prop :=
  s.barrier.owner = none ∨
    s.waiting ≠ [] ∧ (s.barrier.count % 2 = 1 ∨ 2 * s.waiting.length < s.barrier.count)

lemma allocLoop_spec (alloc : ℕ → Option ℕ) (left i : ℕ) (tbl : ℕ → ℕ) {err : Option ℕ} {tbl' : ℕ → ℕ}
    {pages : List ℕ} (h : allocLoop alloc left i tbl = (err, tbl', pages)) :
    (∀ k < i, tbl' k = tbl k) ∧ pages = (List.range' i pages.length).map tbl' ∧
      (∀ e, err = some e → e = i + pages.length) ∧ (err = none → pages.length = left) := by
  induction left generalizing i tbl pages with
  | zero =>
    obtain ⟨rfl, rfl, rfl⟩ := by simpa [allocLoop] using h
    simp
  | succ left ih =>
    rw [allocLoop] at h
    cases halloc : alloc i with
    | none =>
      obtain ⟨rfl, rfl, rfl⟩ := by simpa [halloc] using h
      simp
    | some page =>
      rw [halloc] at h
      rcases hrest : allocLoop alloc left (i + 1) (Function.update tbl i page) with ⟨e, t, ps⟩
      simp only [hrest, Prod.mk.injEq] at h
      obtain ⟨rfl, rfl, rfl⟩ := h
      obtain ⟨hkeep, hpages, herr, hnone⟩ := ih (i + 1) (Function.update tbl i page) hrest
      have hpage : t i = page := by rw [hkeep i (Nat.lt_succ_self i), Function.update_self]
      refine ⟨fun k hk => ?_, ?_, fun x hx => ?_, fun hx => ?_⟩
      · rw [hkeep k (by omega), Function.update_of_ne (by omega)]
      · rw [List.length_cons, List.range'_succ, List.map_cons, hpage, ← hpages]
      · rw [herr x hx, List.length_cons]
        omega
      · rw [List.length_cons, hnone hx]

lemma barrierInit_failure (mem : BarrierObj ι) (currentTask threadsLimit : ℕ) (alloc : ℕ → Option ℕ)
    (count : ℕ) (scope : BarrierOperation) :
    let out := barrierInit mem currentTask threadsLimit alloc count scope
    out.err ≠ none → out.freed = out.allocated := by
  intro out hfail
  revert hfail
  simp only [out, barrierInit]
  split_ifs
  · exact fun _ => rfl
  · exact fun _ => rfl
  · exact fun _ => rfl
  all_goals
    rcases hloop : allocLoop alloc wqdbNr 0 mem.pagesTbl with ⟨err, tbl, pages⟩
    obtain ⟨-, hpages, herr, -⟩ := allocLoop_spec alloc wqdbNr 0 mem.pagesTbl hloop
    cases err with
    | none => exact fun hfail => absurd rfl hfail
    | some e =>
      intro _
      have hlen := herr e rfl
      rw [Nat.zero_add] at hlen
      simp only [hlen, List.range_eq_range']
      exact hpages.symm

structure Fresh (currentTask threadsLimit count : ℕ) (scope : BarrierOperation) (allocated : List ℕ)
    (barrier : BarrierObj ι) : Prop where
  counts : barrier.count = count
  pos : 0 < count
  capacity : count ≤ wqdbNr * wqdbSize
  limit : threadsLimit ≤ wqdbNr * wqdbSize
  signature : barrier.signature = barrierId
  owner : barrier.owner = if scope = .initPrivate then some currentTask else none
  word : scope = .initPrivate → barrier.word = count
  index : scope ≠ .initPrivate → barrier.index = 0
  wqdb : ∀ i, barrier.wqdb i = none
  pages : (List.range wqdbNr).map barrier.pagesTbl = allocated

lemma barrierInit_success (mem : BarrierObj ι) (currentTask threadsLimit : ℕ) (alloc : ℕ → Option ℕ)
    (count : ℕ) (scope : BarrierOperation) :
    let out := barrierInit mem currentTask threadsLimit alloc count scope
    out.err = none → Fresh currentTask threadsLimit count scope out.allocated out.barrier := by
  intro out hok
  revert hok
  simp only [out, barrierInit]
  by_cases hzero : count = 0
  · rw [if_pos hzero]
    exact fun hok => absurd hok (Option.some_ne_none _)
  rw [if_neg hzero]
  by_cases hlimit : wqdbNr * wqdbSize < threadsLimit
  · rw [if_pos hlimit]
    exact fun hok => absurd hok (Option.some_ne_none _)
  rw [if_neg hlimit]
  by_cases hcapacity : wqdbNr * wqdbSize < count
  · rw [if_pos hcapacity]
    exact fun hok => absurd hok (Option.some_ne_none _)
  rw [if_neg hcapacity]
  rcases hloop : allocLoop alloc wqdbNr 0 mem.pagesTbl with ⟨err, tbl, pages⟩
  obtain ⟨-, hpages, -, hall⟩ := allocLoop_spec alloc wqdbNr 0 mem.pagesTbl hloop
  cases err with
  | some e => exact fun hok => absurd hok (Option.some_ne_none _)
  | none =>
    intro _
    have htable : (List.range wqdbNr).map tbl = pages := by
      rw [hall rfl] at hpages
      rw [List.range_eq_range', ← hpages]
    by_cases hscope : scope = .initPrivate
    · simp only [if_pos hscope]
      exact ⟨rfl, by omega, by omega, by omega, rfl, by rw [if_pos hscope], fun _ => rfl,
        fun h => absurd hscope h, fun _ => rfl, htable⟩
    · simp only [if_neg hscope]
      exact ⟨rfl, by omega, by omega, by omega, rfl, by rw [if_neg hscope], fun h => absurd h hscope,
        fun _ => rfl, fun _ => rfl, htable⟩

/-! ### The table of the waiting threads -/

structure TableOk (wqdb : ℕ → Option ι) (waiting : List ι) : Prop where
  mem : ∀ i t, wqdb i = some t → t ∈ waiting ∧ i < wqdbNr * wqdbSize
  entry : ∀ t ∈ waiting, ∃ i, wqdb i = some t
  inj : ∀ i j t, wqdb i = some t → wqdb j = some t → i = j

/-- While the tickets suffice, the broadcast empties the entries and wakes the threads in them. -/
lemma broadcast_spec {is : List ℕ} (hnodup : is.Nodup) (count ticket : ℕ) (wqdb : ℕ → Option ι)
    (h : ticket + (is.filterMap wqdb).length ≤ count - 1) {i : ℕ} {t : ι} :
    (i ∈ is → wqdb i = some t → t ∈ (broadcast count is ticket wqdb).2) ∧
      ((broadcast count is ticket wqdb).1 i = some t → wqdb i = some t ∧ i ∉ is) := by
  induction is generalizing ticket wqdb with
  | nil => exact ⟨fun hi => absurd hi List.not_mem_nil, fun hsome => ⟨hsome, List.not_mem_nil⟩⟩
  | cons k rest ih =>
    obtain ⟨hk, hrest⟩ := List.nodup_cons.mp hnodup
    rw [broadcast]
    by_cases hlt : ticket < count - 1
    · rw [if_pos hlt]
      cases hentry : wqdb k with
      | none =>
        rw [List.filterMap_cons_none hentry] at h
        obtain ⟨hwakes, hleft⟩ := ih hrest ticket wqdb h
        refine ⟨fun hi hsome => ?_, fun hsome => ?_⟩
        · rcases List.mem_cons.mp hi with rfl | hi
          · rw [hentry] at hsome
            cases hsome
          · exact hwakes hi hsome
        · obtain ⟨hold, hnot⟩ := hleft hsome
          refine ⟨hold, fun hi => ?_⟩
          rcases List.mem_cons.mp hi with rfl | hi
          · rw [hentry] at hold
            cases hold
          · exact hnot hi
      | some listner =>
        rw [List.filterMap_cons_some hentry, List.length_cons] at h
        have hother : ∀ j ∈ rest, Function.update wqdb k none j = wqdb j := fun j hj =>
          Function.update_of_ne (ne_of_mem_of_not_mem hj hk) _ _
        obtain ⟨hwakes, hleft⟩ := ih hrest (ticket + 1) (Function.update wqdb k none)
          (by rw [List.filterMap_congr hother]; omega)
        refine ⟨fun hi hsome => ?_, fun hsome => ?_⟩
        · rcases List.mem_cons.mp hi with rfl | hi
          · rw [hentry] at hsome
            rw [Option.some.inj hsome]
            exact List.mem_cons_self
          · exact List.mem_cons_of_mem _ (hwakes hi ((hother i hi).trans hsome))
        · obtain ⟨hold, hnot⟩ := hleft hsome
          have hne : i ≠ k := by
            rintro rfl
            rw [Function.update_self] at hold
            cases hold
          rw [Function.update_of_ne hne] at hold
          exact ⟨hold, fun hi => (List.mem_cons.mp hi).elim hne hnot⟩
    · rw [if_neg hlt]
      have hnil : (k :: rest).filterMap wqdb = [] := List.length_eq_zero_iff.mp (by omega)
      have hnone := List.filterMap_eq_nil_iff.mp hnil
      refine ⟨fun hi hsome => ?_, fun hsome => ⟨hsome, fun hi => ?_⟩⟩
      · rw [hnone i hi] at hsome
        cases hsome
      · simp only [hnone i hi] at hsome
        cases hsome

section table
variable {wqdb : ℕ → Option ι} {waiting : List ι}

lemma TableOk.empty (h : ∀ i, wqdb i = none) : TableOk wqdb [] where
  mem i t hsome := by
    rw [h i] at hsome
    cases hsome
  entry t ht := absurd ht List.not_mem_nil
  inj i j t hsome := by
    rw [h i] at hsome
    cases hsome

lemma TableOk.add (h : TableOk wqdb waiting) {index : ℕ} {this : ι} (hindex : index < wqdbNr * wqdbSize)
    (hempty : wqdb index = none) (hthis : this ∉ waiting) :
    TableOk (Function.update wqdb index (some this)) (this :: waiting) := by
  have hcases : ∀ {i t}, Function.update wqdb index (some this) i = some t →
      (i = index ∧ t = this) ∨ (i ≠ index ∧ wqdb i = some t) := by
    intro i t hsome
    rcases eq_or_ne i index with rfl | hne
    · rw [Function.update_self] at hsome
      exact .inl ⟨rfl, (Option.some.inj hsome).symm⟩
    · rw [Function.update_of_ne hne] at hsome
      exact .inr ⟨hne, hsome⟩
  refine ⟨fun i t hsome => ?_, fun t ht => ?_, fun i j t hi hj => ?_⟩
  · rcases hcases hsome with ⟨rfl, rfl⟩ | ⟨-, hold⟩
    · exact ⟨List.mem_cons_self, hindex⟩
    · exact ⟨List.mem_cons_of_mem _ (h.mem i t hold).1, (h.mem i t hold).2⟩
  · rcases List.mem_cons.mp ht with rfl | ht
    · exact ⟨index, Function.update_self _ _ _⟩
    · obtain ⟨i, hi⟩ := h.entry t ht
      refine ⟨i, ?_⟩
      rw [Function.update_of_ne ?_, hi]
      rintro rfl
      rw [hempty] at hi
      cases hi
  · rcases hcases hi with ⟨rfl, rfl⟩ | ⟨-, hi'⟩
    · rcases hcases hj with ⟨rfl, -⟩ | ⟨-, hj'⟩
      · rfl
      · exact absurd (h.mem j t hj').1 hthis
    · rcases hcases hj with ⟨rfl, rfl⟩ | ⟨-, hj'⟩
      · exact absurd (h.mem i t hi').1 hthis
      · exact h.inj i j t hi' hj'

lemma TableOk.length_le [DecidableEq ι] (h : TableOk wqdb waiting) :
    ((List.range (wqdbNr * wqdbSize)).filterMap wqdb).length ≤ waiting.length := by
  have hnodup : ((List.range (wqdbNr * wqdbSize)).filterMap wqdb).Nodup :=
    List.nodup_range.filterMap fun i j t hi hj => h.inj i j t hi hj
  refine (List.subperm_of_subset hnodup fun t ht => ?_).length_le
  obtain ⟨i, -, hi⟩ := List.mem_filterMap.mp ht
  exact (h.mem i t hi).1

lemma TableOk.broadcast [DecidableEq ι] (h : TableOk wqdb waiting) {count : ℕ}
    (hcount : waiting.length ≤ count - 1) :
    waiting.filter (· ∉ (BarrierLife.broadcast count (List.range (wqdbNr * wqdbSize)) 0 wqdb).2) = [] ∧
      ∀ i, (BarrierLife.broadcast count (List.range (wqdbNr * wqdbSize)) 0 wqdb).1 i = none := by
  have htickets : 0 + ((List.range (wqdbNr * wqdbSize)).filterMap wqdb).length ≤ count - 1 := by
    have := h.length_le
    omega
  constructor
  · refine List.filter_eq_nil_iff.mpr fun t ht => ?_
    obtain ⟨i, hi⟩ := h.entry t ht
    have hlt := (h.mem i t hi).2
    simpa using (broadcast_spec List.nodup_range count 0 wqdb htickets).1 (List.mem_range.mpr hlt) hi
  · intro i
    cases hleft : (BarrierLife.broadcast count (List.range (wqdbNr * wqdbSize)) 0 wqdb).1 i with
    | none => rfl
    | some t =>
      obtain ⟨hold, hnot⟩ := (broadcast_spec List.nodup_range count 0 wqdb htickets).2 hleft
      exact absurd (List.mem_range.mpr (h.mem i t hold).2) hnot

end table

/-! ### What the counters say about the waiting threads -/

/-- What the calls of `barrier_wait` leave as it was made. -/
structure Frame (currentTask count : ℕ) (scope : BarrierOperation) (allocated : List ℕ)
    (barrier : BarrierObj ι) : Prop where
  signature : barrier.signature = barrierId
  pages : (List.range wqdbNr).map barrier.pagesTbl = allocated
  counts : barrier.count = count
  owner : barrier.owner = if scope = .initPrivate then some currentTask else none

lemma Frame.update {currentTask count : ℕ} {scope : BarrierOperation} {allocated : List ℕ}
    {barrier : BarrierObj ι} (h : Frame currentTask count scope allocated barrier) (word : ℤ) (index : ℕ)
    (wqdb : ℕ → Option ι) :
    Frame currentTask count scope allocated
      { barrier with word := word, index := index, wqdb := wqdb } :=
  ⟨h.signature, h.pages, h.counts, h.owner⟩

/-- A shared barrier counts its waiting threads up; the word of a private one goes down twice for each, in
`barrier_wait` and with the lock that it shares it with. -/
structure Inv (task order : ι → ℕ) (currentTask count : ℕ) (scope : BarrierOperation) (allocated : List ℕ)
    (s : State ι) : Prop where
  table : TableOk s.barrier.wqdb s.waiting
  frame : Frame currentTask count scope allocated s.barrier
  shared : scope ≠ .initPrivate → s.barrier.index = s.waiting.length ∧ s.waiting.length < count ∧
    ∀ i t, s.barrier.wqdb i = some t → i < s.waiting.length
  exclusive : scope = .initPrivate →
    s.barrier.word = ((count - 2 * s.waiting.length : ℕ) : ℤ) ∧
    (count % 2 = 1 → 2 * s.waiting.length < count) ∧
    ∀ i t, s.barrier.wqdb i = some t → order t = i ∧ task t = currentTask

section run
variable {task order : ι → ℕ} {currentTask threadsLimit count : ℕ}
  {scope : BarrierOperation} {allocated : List ℕ} {s t : State ι} {this : ι}

lemma Inv.fresh {barrier : BarrierObj ι}
    (h : Fresh currentTask threadsLimit count scope allocated barrier) :
    Inv task order currentTask count scope allocated ⟨barrier, []⟩ := by
  have hnone : ∀ {i t}, barrier.wqdb i ≠ some t := fun {i t} hsome => by
    rw [h.wqdb i] at hsome
    cases hsome
  refine ⟨.empty h.wqdb, ⟨h.signature, h.pages, h.counts, h.owner⟩, fun hscope => ?_, fun hscope => ?_⟩
  · exact ⟨h.index hscope, h.pos, fun i t hsome => absurd hsome hnone⟩
  · refine ⟨h.word hscope, fun hodd => ?_, fun i t hsome => absurd hsome hnone⟩
    rw [List.length_nil]
    omega

lemma Inv.destroysRight_iff (h : Inv task order currentTask count scope allocated s) (hpos : 0 < count)
    {caller : ℕ} (hcaller : s.barrier.owner = none ∨ s.barrier.owner = some caller) :
    DestroysRight allocated s caller ↔ CountsWaiters s := by
  have hlen : s.waiting ≠ [] ↔ 0 < s.waiting.length := by
    rw [List.length_pos_iff]
  have hcount := h.frame.counts
  unfold DestroysRight CountsWaiters barrierDestroy
  rw [hlen, if_neg (not_not.mpr h.frame.signature)]
  by_cases hscope : scope = .initPrivate
  · have howner : s.barrier.owner = some currentTask := by rw [h.frame.owner, if_pos hscope]
    obtain ⟨hword, hodd, -⟩ := h.exclusive hscope
    have hallowed : ¬ (s.barrier.owner ≠ none ∧ s.barrier.owner ≠ some caller) := by
      rintro ⟨hne, hne'⟩
      exact hcaller.elim hne hne'
    rw [if_neg hallowed]
    simp only [howner]
    by_cases hbusy : s.barrier.word = 0
    · rw [if_neg (not_not.mpr hbusy)]
      refine iff_of_false (fun hright => ?_) ?_
      · exact absurd (hright.1.mpr (by omega)) (by simp)
      · rintro (hnone | ⟨-, hfew⟩)
        · exact absurd hnone (Option.some_ne_none _)
        · omega
    · rw [if_pos hbusy]
      simp only [true_iff, reduceCtorEq, false_or, ne_eq, not_true, false_implies, and_true]
      omega
  · have howner : s.barrier.owner = none := by rw [h.frame.owner, if_neg hscope]
    obtain ⟨hindex, -, -⟩ := h.shared hscope
    rw [if_neg (by simp [howner])]
    simp only [howner, hindex, true_or, iff_true]
    by_cases hbusy : s.waiting.length = 0
    · rw [if_neg (by omega)]
      refine ⟨iff_of_false (by simp) (by omega), fun _ => ⟨rfl, h.frame.pages⟩⟩
    · rw [if_pos (by omega)]
      exact ⟨iff_of_true rfl (by omega), fun hne => absurd rfl hne⟩

variable [DecidableEq ι]

lemma step_of_ticket {barrier reset : BarrierObj ι} {index : ℕ} {ticket : ℤ}
    (hthis : this ∉ s.waiting)
    (hwait : barrierWait task order s.barrier this = afterTicket barrier reset index ticket)
    (htable : TableOk s.barrier.wqdb s.waiting) (hindex : index < wqdbNr * wqdbSize)
    (hempty : s.barrier.wqdb index = none)
    (hwqdb : barrier.wqdb = Function.update s.barrier.wqdb index (some this))
    (hlast : ticket = 1 → s.waiting.length ≤ barrier.count - 1)
    (hstep : step task order s this = some t) :
    (ticket = 1 ∧ t.waiting = [] ∧ ∃ wqdb, t.barrier = { reset with wqdb := wqdb } ∧ ∀ i, wqdb i = none) ∨
      (ticket ≠ 1 ∧ t.waiting = this :: s.waiting ∧
        t.barrier = { barrier with word := Spinlock.unlockWord barrier.word } ∧
        TableOk t.barrier.wqdb t.waiting) := by
  rw [step, if_neg hthis, hwait, afterTicket] at hstep
  by_cases hticket : ticket = 1
  · have hclear : Function.update barrier.wqdb index none = s.barrier.wqdb := by
      rw [hwqdb, Function.update_idem, ← hempty, Function.update_eq_self]
    obtain ⟨hnil, hnone⟩ := htable.broadcast (hlast hticket)
    rw [if_pos hticket, hclear] at hstep
    rcases hcast : broadcast barrier.count (List.range (wqdbNr * wqdbSize)) 0 s.barrier.wqdb with
      ⟨wqdb, woken⟩
    rw [hcast] at hnil hnone hstep
    obtain rfl := Option.some.inj hstep
    exact .inl ⟨hticket, hnil, wqdb, rfl, hnone⟩
  · rw [if_neg hticket] at hstep
    obtain rfl := Option.some.inj hstep
    refine .inr ⟨hticket, rfl, rfl, ?_⟩
    simp only [hwqdb]
    exact htable.add hindex hempty hthis

lemma Inv.step_own (horders : Orders task order currentTask threadsLimit)
    (hlimit : threadsLimit ≤ wqdbNr * wqdbSize)
    (h : Inv task order currentTask count scope allocated s) (hscope : scope = .initPrivate)
    (htask : task this = currentTask) (hthis : this ∉ s.waiting)
    (hstep : BarrierLife.step task order s this = some t) :
    Inv task order currentTask count scope allocated t := by
  have howner : s.barrier.owner = some currentTask := by rw [h.frame.owner, if_pos hscope]
  obtain ⟨hword, hodd, horder⟩ := h.exclusive hscope
  have hwait : barrierWait task order s.barrier this =
      afterTicket { s.barrier with
          word := s.barrier.word - 1
          wqdb := Function.update s.barrier.wqdb (order this) (some this) }
        { s.barrier with
          word := s.barrier.count
          wqdb := Function.update s.barrier.wqdb (order this) (some this) }
        (order this) s.barrier.word := by
    rw [barrierWait, if_neg (by simp [h.frame.signature, howner, htask])]
    simp only [howner]
  have hempty : s.barrier.wqdb (order this) = none := by
    by_contra hne
    obtain ⟨u, hu⟩ := Option.ne_none_iff_exists'.mp hne
    obtain ⟨heq, hutask⟩ := horder _ u hu
    obtain rfl := horders.inj u this hutask htask heq
    exact hthis (h.table.mem _ u hu).1
  have hlt : order this < wqdbNr * wqdbSize := (horders.lt this htask).trans_le hlimit
  have hcount := h.frame.counts
  rcases step_of_ticket hthis hwait h.table hlt hempty rfl (by simp only; omega) hstep with
    ⟨-, hnil, wqdb, hbarrier, hnone⟩ | ⟨hticket, hcons, hbarrier, htable⟩
  · have hsome : ∀ {i u}, t.barrier.wqdb i ≠ some u := fun {i u} hsome => by
      rw [hbarrier] at hsome
      simp only [hnone i] at hsome
      cases hsome
    refine ⟨?_, ?_, fun hne => absurd hscope hne, fun _ => ⟨?_, fun hodd => ?_, ?_⟩⟩
    · rw [hnil, hbarrier]
      exact .empty hnone
    · rw [hbarrier]
      exact h.frame.update _ _ _
    · rw [hbarrier, hnil]
      simp only [hcount, List.length_nil]
      rfl
    · rw [hnil, List.length_nil]
      omega
    · exact fun i u hu => absurd hu hsome
  · refine ⟨htable, ?_, fun hne => absurd hscope hne, fun _ => ⟨?_, fun hodd' => ?_, ?_⟩⟩
    · rw [hbarrier]
      exact h.frame.update _ _ _
    · rw [hbarrier, hcons, List.length_cons]
      simp only [Spinlock.unlockWord]
      split <;> omega
    · have := hodd hodd'
      rw [hcons, List.length_cons]
      omega
    · intro i u hu
      rw [hbarrier] at hu
      simp only at hu
      rcases eq_or_ne i (order this) with rfl | hne
      · rw [Function.update_self] at hu
        obtain rfl := Option.some.inj hu
        exact ⟨rfl, htask⟩
      · rw [Function.update_of_ne hne] at hu
        exact horder i u hu

lemma Inv.step_refused (h : Inv task order currentTask count scope allocated s)
    (hscope : scope = .initPrivate) (htask : task this ≠ currentTask) (hthis : this ∉ s.waiting)
    (hstep : BarrierLife.step task order s this = some t) : t = s := by
  have howner : s.barrier.owner = some currentTask := by rw [h.frame.owner, if_pos hscope]
  have hwait : barrierWait task order s.barrier this = (s.barrier, .einval) := by
    rw [barrierWait, if_pos]
    refine .inr ⟨by simp [howner], ?_⟩
    rw [howner]
    exact fun heq => htask (Option.some.inj heq).symm
  rw [BarrierLife.step, if_neg hthis, hwait] at hstep
  exact (Option.some.inj hstep).symm

lemma Inv.step_shared (hcapacity : count ≤ wqdbNr * wqdbSize)
    (h : Inv task order currentTask count scope allocated s) (hscope : scope ≠ .initPrivate)
    (hthis : this ∉ s.waiting) (hstep : BarrierLife.step task order s this = some t) :
    Inv task order currentTask count scope allocated t := by
  have howner : s.barrier.owner = none := by rw [h.frame.owner, if_neg hscope]
  obtain ⟨hindex, hlen, hbelow⟩ := h.shared hscope
  have hwait : barrierWait task order s.barrier this =
      afterTicket { s.barrier with
          word := -1, index := s.barrier.index + 1
          wqdb := Function.update s.barrier.wqdb s.barrier.index (some this) }
        { s.barrier with
          word := Spinlock.unlockWord (-1), index := 0
          wqdb := Function.update s.barrier.wqdb s.barrier.index (some this) }
        s.barrier.index (s.barrier.count - s.barrier.index) := by
    rw [barrierWait, if_neg (by simp [h.frame.signature, howner])]
    simp only [howner]
  have hempty : s.barrier.wqdb s.barrier.index = none := by
    by_contra hne
    obtain ⟨u, hu⟩ := Option.ne_none_iff_exists'.mp hne
    have := hbelow _ u hu
    omega
  have hcount := h.frame.counts
  rcases step_of_ticket hthis hwait h.table (by omega) hempty rfl (by simp only; omega) hstep with
    ⟨-, hnil, wqdb, hbarrier, hnone⟩ | ⟨hticket, hcons, hbarrier, htable⟩
  · have hsome : ∀ {i u}, t.barrier.wqdb i ≠ some u := fun {i u} hsome => by
      rw [hbarrier] at hsome
      simp only [hnone i] at hsome
      cases hsome
    refine ⟨?_, ?_, fun _ => ⟨?_, ?_, ?_⟩, fun heq => absurd heq hscope⟩
    · rw [hnil, hbarrier]
      exact .empty hnone
    · rw [hbarrier]
      exact h.frame.update _ _ _
    · rw [hbarrier, hnil]
      rfl
    · rw [hnil, List.length_nil]
      omega
    · exact fun i u hu => absurd hu hsome
  · refine ⟨htable, ?_, fun _ => ⟨?_, ?_, ?_⟩, fun heq => absurd heq hscope⟩
    · rw [hbarrier]
      exact h.frame.update _ _ _
    · rw [hbarrier, hcons, List.length_cons]
      simp only
      omega
    · rw [hcons, List.length_cons]
      omega
    · intro i u hu
      rw [hbarrier] at hu
      simp only at hu
      rw [hcons, List.length_cons]
      rcases eq_or_ne i s.barrier.index with rfl | hne
      · omega
      · rw [Function.update_of_ne hne] at hu
        have := hbelow i u hu
        omega

lemma Inv.step (horders : Orders task order currentTask threadsLimit)
    (hlimit : threadsLimit ≤ wqdbNr * wqdbSize) (hcapacity : count ≤ wqdbNr * wqdbSize)
    (h : Inv task order currentTask count scope allocated s)
    (hstep : BarrierLife.step task order s this = some t) :
    Inv task order currentTask count scope allocated t := by
  have hthis : this ∉ s.waiting := fun hmem => by
    rw [BarrierLife.step, if_pos hmem] at hstep
    cases hstep
  by_cases hscope : scope = .initPrivate
  · by_cases htask : task this = currentTask
    · exact h.step_own horders hlimit hscope htask hthis hstep
    · exact h.step_refused hscope htask hthis hstep ▸ h
  · exact h.step_shared hcapacity hscope hthis hstep

end run

/-- A failed `barrier_init` has freed the pages it allocated. The calls of `barrier_destroy` on a barrier it
made are right, after any calls of `barrier_wait`, if and only if the counter read counts the waiting
threads. -/
theorem barrier_destroy_iff {ι : Type*} [DecidableEq ι] (task order : ι → ℕ) (mem : BarrierObj ι)
    (currentTask threadsLimit : ℕ) (horders : Orders task order currentTask threadsLimit)
    (alloc : ℕ → Option ℕ) (count : ℕ) (scope : BarrierOperation) :
    let out := barrierInit mem currentTask threadsLimit alloc count scope
    (out.err ≠ none → out.freed = out.allocated) ∧
      (out.err = none → ∀ s, (machine task order out.barrier).Reachable s → ∀ caller,
        s.barrier.owner = none ∨ s.barrier.owner = some caller →
          (DestroysRight out.allocated s caller ↔ CountsWaiters s)) := by
  intro out
  refine ⟨barrierInit_failure mem currentTask threadsLimit alloc count scope, ?_⟩
  intro hok s hs caller hcaller
  have hfresh := barrierInit_success mem currentTask threadsLimit alloc count scope hok
  have hinv : Inv task order currentTask count scope out.allocated s := by
    refine hs.invariant (fun s hinit => ?_) fun s this t h hstep => ?_
    · obtain rfl : s = ⟨out.barrier, []⟩ := hinit
      exact .fresh hfresh
    · exact h.step horders hfresh.limit hfresh.capacity hstep
  exact hinv.destroysRight_iff hfresh.pos hcaller

section Steps
open SoftBarrier (Barrier Place wqdbCapacity)
open SoftBarrier.State (goto setListner spinlockLock spinlockUnlock send returns returnSerial)
variable {ι : Type*} [DecidableEq ι] (task order : ι → ℕ) (this : ι)

/-- The barrier as the single steps see it. -/
def stepsOf (barrier : BarrierObj ι) : Barrier ι :=
  ⟨barrier.word, barrier.owner.isNone, barrier.count, barrier.index, barrier.wqdb⟩

/-- Steps of `this` alone lead from the first barrier and place to the second, and wake `woken`. -/
def Goes (woken : List ι) (before after : Barrier ι) (here there : Place ι) : Prop :=
  ∀ s : SoftBarrier.State ι, s.barrier = before → s.place this = here →
    ∃ t, Relation.ReflTransGen (fun s t => SoftBarrier.step order s this = some t) s t ∧
      t.barrier = after ∧ t.place this = there ∧
      ∀ u, t.woken u = true ↔ s.woken u = true ∨ u ∈ woken

variable {order this} {woken woken' : List ι} {b b' b'' : Barrier ι} {here there next : Place ι}

lemma Goes.trans (h : Goes order this woken b b' here there)
    (h' : Goes order this woken' b' b'' there next) :
    Goes order this (woken ++ woken') b b'' here next := by
  intro s hs hplace
  obtain ⟨t, hst, ht, htplace, htwoken⟩ := h s hs hplace
  obtain ⟨u, htu, hu, huplace, huwoken⟩ := h' t ht htplace
  refine ⟨u, hst.trans htu, hu, huplace, fun x => ?_⟩
  rw [huwoken, htwoken, List.mem_append, or_assoc]

lemma Goes.single (h : ∀ s : SoftBarrier.State ι, s.barrier = b → s.place this = here →
    ∃ t, SoftBarrier.step order s this = some t ∧ t.barrier = b' ∧ t.place this = there ∧
      ∀ u, t.woken u = true ↔ s.woken u = true ∨ u ∈ woken) :
    Goes order this woken b b' here there := by
  intro s hs hplace
  obtain ⟨t, hstep, ht⟩ := h s hs hplace
  exact ⟨t, .single hstep, ht⟩

/-- A step that wakes nobody -/
lemma Goes.silent (f : SoftBarrier.State ι → SoftBarrier.State ι)
    (hstep : ∀ s, s.barrier = b → s.place this = here → SoftBarrier.step order s this = some (f s))
    (hf : ∀ s, s.barrier = b →
      (f s).barrier = b' ∧ (f s).place this = there ∧ (f s).woken = s.woken) :
    Goes order this [] b b' here there := by
  refine .single fun s hs hplace => ?_
  obtain ⟨hbarrier, hthere, hwoken⟩ := hf s hs
  exact ⟨f s, hstep s hs hplace, hbarrier, hthere, fun u => by simp [hwoken]⟩

lemma Goes.goto (h : ∀ s : SoftBarrier.State ι, s.barrier = b → s.place this = here →
    SoftBarrier.step order s this = some ({ s with barrier := b' }.goto this there)) :
    Goes order this [] b b' here there :=
  .silent (fun s => { s with barrier := b' }.goto this there) h
    fun _ _ => ⟨rfl, Function.update_self .., rfl⟩

/-- The loop of the broadcast, by induction on the entries left -/
lemma goes_scan (b : Barrier ι) (left i ticket : ℕ) (wqdb : ℕ → Option ι)
    (hleft : i + left = wqdbCapacity) :
    Goes order this (broadcast b.count (List.range' i left) ticket wqdb).2 { b with wqdb := wqdb }
      { b with wqdb := (broadcast b.count (List.range' i left) ticket wqdb).1 } (.scan i ticket) .out := by
  have hdone : ∀ {i ticket wqdb}, ¬ (i < wqdbCapacity ∧ ticket < b.count - 1) →
      Goes order this [] { b with wqdb := wqdb } { b with wqdb := wqdb } (.scan i ticket) .out := by
    intro i ticket wqdb hend
    refine .silent (·.returnSerial this) (fun s hs hplace => ?_) fun s hs => ⟨hs, ?_, rfl⟩
    · simp only [SoftBarrier.step, hplace, hs, if_neg hend]
    · simp [returnSerial, returns, goto]
  induction left generalizing i ticket wqdb with
  | zero => exact hdone (by omega)
  | succ left ih =>
    rw [List.range'_succ, broadcast]
    by_cases hticket : ticket < b.count - 1
    · have hgo : i < wqdbCapacity ∧ ticket < b.count - 1 := ⟨by omega, hticket⟩
      rw [if_pos hticket]
      cases hentry : wqdb i with
      | none =>
        have hnext : Goes order this [] { b with wqdb := wqdb } { b with wqdb := wqdb }
            (.scan i ticket) (.scan (i + 1) ticket) := by
          refine .silent (·.goto this (.scan (i + 1) ticket)) (fun s hs hplace => ?_)
            fun s hs => ⟨hs, Function.update_self .., rfl⟩
          simp only [SoftBarrier.step, hplace, hs, if_pos hgo, hentry]
        exact hnext.trans (ih (i + 1) ticket wqdb (by omega))
      | some listner =>
        -- the entry is emptied before its thread is woken
        have hfound : Goes order this [] { b with wqdb := wqdb } { b with wqdb := wqdb }
            (.scan i ticket) (.found i ticket listner) := by
          refine .silent (·.goto this (.found i ticket listner)) (fun s hs hplace => ?_)
            fun s hs => ⟨hs, Function.update_self .., rfl⟩
          simp only [SoftBarrier.step, hplace, hs, if_pos hgo, hentry]
        have hempty : Goes order this [] { b with wqdb := wqdb }
            { b with wqdb := Function.update wqdb i none }
            (.found i ticket listner) (.send i ticket listner) := by
          refine .goto fun s hs hplace => ?_
          simp only [SoftBarrier.step, hplace, setListner, hs]
        have hsend : Goes order this [listner] { b with wqdb := Function.update wqdb i none }
            { b with wqdb := Function.update wqdb i none }
            (.send i ticket listner) (.scan (i + 1) (ticket + 1)) := by
          refine .single fun s hs hplace =>
            ⟨(s.send this listner).goto this (.scan (i + 1) (ticket + 1)), ?_, hs,
              Function.update_self .., fun u => ?_⟩
          · simp only [SoftBarrier.step, hplace]
          · rcases eq_or_ne u listner with rfl | hu
            · simp [goto, send]
            · simp [goto, send, hu]
        exact ((hfound.trans hempty).trans hsend).trans
          (ih (i + 1) (ticket + 1) (Function.update wqdb i none) (by omega))
    · rw [if_neg hticket]
      exact hdone fun h => hticket h.2

def Alone (order : ι → ℕ) (this : ι) (before : Barrier ι) (here : Place ι)
    (out : BarrierObj ι × Waited ι) : Prop :=
  match out.2 with
  | .einval => False
  | .serial woken => Goes order this woken before (stepsOf out.1) here .out
  | .sleeps => ∃ index, Goes order this [] before (stepsOf out.1) here (.sleep index)

lemma Alone.prepend {out : BarrierObj ι × Waited ι} (h : Goes order this [] b b' here there)
    (hrest : Alone order this b' there out) : Alone order this b here out := by
  obtain ⟨after, err | woken | -⟩ := out
  · exact hrest
  · exact h.trans hrest
  · obtain ⟨index, hrest⟩ := hrest
    exact ⟨index, h.trans hrest⟩

/-- From the ticket on; the steps of the last thread up to the broadcast leave `reset`. -/
lemma afterTicket_alone {barrier reset : BarrierObj ι} {index : ℕ} {ticket : ℤ}
    (hcount : reset.count = barrier.count)
    (hreset : Goes order this [] (stepsOf barrier)
      { stepsOf reset with wqdb := Function.update barrier.wqdb index none } (.clear index) (.scan 0 0)) :
    Alone order this (stepsOf barrier) (SoftBarrier.afterTicket index ticket)
      (afterTicket barrier reset index ticket) := by
  rw [SoftBarrier.afterTicket, afterTicket]
  by_cases hticket : ticket = 1
  · rw [if_pos hticket, if_pos hticket, ← hcount]
    have hscan : Goes order this _ _ _ _ _ := goes_scan (stepsOf reset) (wqdbNr * wqdbSize) 0 0
      (Function.update barrier.wqdb index none) rfl
    rw [← List.range_eq_range', show (stepsOf reset).count = reset.count from rfl] at hscan
    rcases hbroadcast : broadcast reset.count (List.range (wqdbNr * wqdbSize)) 0
      (Function.update barrier.wqdb index none) with ⟨wqdb, woken⟩
    rw [hbroadcast] at hscan
    exact hreset.trans hscan
  · rw [if_neg hticket, if_neg hticket]
    refine ⟨index, .silent (fun s => (s.spinlockUnlock this).goto this (.sleep index))
      (fun s hs hplace => ?_) fun s hs => ⟨?_, Function.update_self .., rfl⟩⟩
    · simp only [SoftBarrier.step, hplace]
    · simp [goto, spinlockUnlock, hs, stepsOf, Spinlock.unlockWord]

lemma goes_shared_store (count index : ℕ) (wqdb : ℕ → Option ι) :
    Goes order this [] ⟨0, true, count, index, wqdb⟩
      ⟨-1, true, count, index + 1, Function.update wqdb index (some this)⟩
      .out (SoftBarrier.afterTicket index (count - index)) := by
  have henter : Goes order this [] ⟨0, true, count, index, wqdb⟩ ⟨0, true, count, index, wqdb⟩
      .out .lock := by
    refine .silent (·.enter this .lock) (fun s hs hplace => ?_)
      fun s hs => ⟨hs, Function.update_self .., rfl⟩
    simp only [SoftBarrier.step, hplace, hs, if_true]
  have hacquire : Goes order this [] ⟨0, true, count, index, wqdb⟩ ⟨-1, true, count, index, wqdb⟩
      .lock .take := by
    refine .silent (fun s => (s.spinlockLock this).goto this .take) (fun s hs hplace => ?_)
      fun s hs => ⟨?_, Function.update_self .., rfl⟩
    · simp only [SoftBarrier.step, hplace, hs, if_true]
    · simp [goto, spinlockLock, hs]
  have htake : Goes order this [] ⟨-1, true, count, index, wqdb⟩ ⟨-1, true, count, index + 1, wqdb⟩
      .take (.store index (count - index)) :=
    .goto fun s hs hplace => by simp only [SoftBarrier.step, hplace, hs]
  refine ((henter.trans hacquire).trans htake).trans (.goto fun s hs hplace => ?_)
  simp only [SoftBarrier.step, hplace, setListner, hs, if_true]

lemma goes_shared_reset (count index i : ℕ) (wqdb : ℕ → Option ι) :
    Goes order this [] ⟨-1, true, count, index, wqdb⟩
      ⟨0, true, count, 0, Function.update wqdb i none⟩ (.clear i) (.scan 0 0) := by
  have hclear : Goes order this [] ⟨-1, true, count, index, wqdb⟩
      ⟨-1, true, count, index, Function.update wqdb i none⟩ (.clear i) (.reset i) :=
    .goto fun s hs hplace => by simp only [SoftBarrier.step, hplace, setListner, hs]
  have hreset : Goes order this [] ⟨-1, true, count, index, Function.update wqdb i none⟩
      ⟨-1, true, count, 0, Function.update wqdb i none⟩ (.reset i) .unlock :=
    .goto fun s hs hplace => by simp only [SoftBarrier.step, hplace, hs, if_true]
  refine (hclear.trans hreset).trans (.silent (fun s => (s.spinlockUnlock this).goto this (.scan 0 0))
    (fun s hs hplace => ?_) fun s hs => ⟨?_, Function.update_self .., rfl⟩)
  · simp only [SoftBarrier.step, hplace]
  · simp [goto, spinlockUnlock, hs]

lemma goes_private_store (word : ℤ) (count index : ℕ) (wqdb : ℕ → Option ι) :
    Goes order this [] ⟨word, false, count, index, wqdb⟩
      ⟨word - 1, false, count, index, Function.update wqdb (order this) (some this)⟩
      .out (SoftBarrier.afterTicket (order this) word) := by
  have henter : Goes order this [] ⟨word, false, count, index, wqdb⟩ ⟨word, false, count, index, wqdb⟩
      .out (.store (order this) 0) := by
    refine .silent (·.enter this (.store (order this) 0)) (fun s hs hplace => ?_)
      fun s hs => ⟨hs, Function.update_self .., rfl⟩
    simp only [SoftBarrier.step, hplace, hs, Bool.false_eq_true, if_false]
  have hstore : Goes order this [] ⟨word, false, count, index, wqdb⟩
      ⟨word, false, count, index, Function.update wqdb (order this) (some this)⟩
      (.store (order this) 0) (.count (order this)) :=
    .goto fun s hs hplace => by
      simp only [SoftBarrier.step, hplace, setListner, hs, Bool.false_eq_true, if_false]
  refine (henter.trans hstore).trans (.goto fun s hs hplace => ?_)
  simp only [SoftBarrier.step, hplace, hs]

lemma goes_private_reset (word : ℤ) (count index i : ℕ) (wqdb : ℕ → Option ι) :
    Goes order this [] ⟨word, false, count, index, wqdb⟩
      ⟨count, false, count, index, Function.update wqdb i none⟩ (.clear i) (.scan 0 0) := by
  have hclear : Goes order this [] ⟨word, false, count, index, wqdb⟩
      ⟨word, false, count, index, Function.update wqdb i none⟩ (.clear i) (.reset i) :=
    .goto fun s hs hplace => by simp only [SoftBarrier.step, hplace, setListner, hs]
  refine hclear.trans (.goto fun s hs hplace => ?_)
  simp only [SoftBarrier.step, hplace, hs, Bool.false_eq_true, if_false]

/-- A call of `barrier_wait` that meets a free lock is, run alone, the steps of its thread. -/
theorem barrierWait_alone {barrier : BarrierObj ι} (hsignature : barrier.signature = barrierId)
    (howner : barrier.owner = none ∨ barrier.owner = some (task this))
    (hlock : barrier.owner = none → barrier.word = 0) :
    Alone order this (stepsOf barrier) .out (barrierWait task order barrier this) := by
  have hgo : ¬ (barrier.signature ≠ barrierId ∨
      barrier.owner ≠ none ∧ barrier.owner ≠ some (task this)) := by grind
  rw [barrierWait, if_neg hgo]
  obtain ⟨word, signature, owner, count, index, wqdb, pagesTbl⟩ := barrier
  cases owner with
  | none =>
    obtain rfl : word = 0 := hlock rfl
    exact .prepend (goes_shared_store count index wqdb)
      (afterTicket_alone rfl (goes_shared_reset count (index + 1) index _))
  | some owner =>
    exact .prepend (goes_private_store word count index wqdb)
      (afterTicket_alone rfl (goes_private_reset (word - 1) count index (order this) _))

end Steps

def rawBarrier : BarrierObj (Fin 2) := ⟨0, 0, none, 0, 0, fun _ => none, fun _ => 0⟩

def twoThreads (scope : BarrierOperation) : Outcome (Fin 2) :=
  barrierInit rawBarrier 1 2 (fun i => some (100 + i)) 2 scope

lemma twoThreads_orders : Orders (fun _ : Fin 2 => 1) Fin.val 1 2 :=
  ⟨fun _ _ _ _ h => Fin.ext h, fun t _ => t.isLt⟩

/-- A private barrier for two threads can not be destroyed while no thread waits, and is destroyed while
one waits. -/
theorem barrier_destroy_private : (twoThreads .initPrivate).err = none ∧
    ¬ DestroysRight (twoThreads .initPrivate).allocated ⟨(twoThreads .initPrivate).barrier, []⟩ 1 ∧
    ∃ s, step (fun _ => 1) Fin.val ⟨(twoThreads .initPrivate).barrier, []⟩ 0 = some s ∧
      s.waiting = [0] ∧ ¬ DestroysRight (twoThreads .initPrivate).allocated s 1 := by
  refine ⟨rfl, fun hright => ?_, _, rfl, rfl, fun hright => ?_⟩
  · exact absurd rfl (hright.1.mp (by decide))
  · exact absurd (hright.1.mpr (by decide)) (by decide)

/-- A shared barrier with a waiting thread. -/
theorem barrier_destroy_shared : (twoThreads .initShared).err = none ∧
    ∃ s, (machine (fun _ => 1) Fin.val (twoThreads .initShared).barrier).run
        ⟨(twoThreads .initShared).barrier, []⟩ [0] = some s ∧ s.waiting = [0] ∧
      (DestroysRight (twoThreads .initShared).allocated s 1 ↔ CountsWaiters s) := by
  obtain ⟨s, hrun, hwaiting, howner⟩ : ∃ s,
      (machine (fun _ => 1) Fin.val (twoThreads .initShared).barrier).run
        ⟨(twoThreads .initShared).barrier, []⟩ [0] = some s ∧ s.waiting = [0] ∧
      s.barrier.owner = none := ⟨_, rfl, rfl, rfl⟩
  refine ⟨rfl, s, hrun, hwaiting, ?_⟩
  exact (barrier_destroy_iff (fun _ => 1) Fin.val rawBarrier 1 2 twoThreads_orders
    (fun i => some (100 + i)) 2 .initShared).2 rfl s
    (Machine.Reachable.run (.init rfl) _ hrun) 1 (.inl howner)

end Almos.BarrierLife
