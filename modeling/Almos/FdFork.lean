import Mathlib
import Almos.FdTable

/-!
# References to open files

The threads of some tasks open and close files and fork. An open reserves a descriptor, and sets it
when the file is open; a close gives the reference back first and releases the descriptor afterwards.
A fork under the lock of the descriptors is one step.
-/
namespace Almos.FdFork
open FdTable

/-- `CONFIG_TASK_FILE_MAX_NR` descriptors are in `tableCount` pages of `fdsPerTbl`. -/
def tableCount : ℕ := 2

def fdsPerTbl : ℕ := 1024

def fileMaxNr : ℕ := tableCount * fdsPerTbl

variable {φ : Type*} [DecidableEq φ]

/-- `task_fd_init`; what is behind the zeroed pages is `behind`. -/
def taskFdInit (behind : ℕ → Slot φ) : FdInfo φ :=
  ⟨0, 2, tableCount, fdsPerTbl, fun k i => if i < fdsPerTbl then .null else behind k⟩

/-- The tasks by their numbers and the files; `closing` has the descriptors between `vfs_close` and
`task_fd_put`. -/
structure State (φ : Type*) where
  taskNr : ℕ
  tasks : ℕ → FdInfo φ
  fCount : φ → ℤ
  isOpen : φ → Bool
  closing : List (ℕ × ℕ)

/-- A round of the loop of `task_fd_fork`: the counts and the tables of `dst`. The count of a slot that
is no file is a word somewhere else. -/
def forkSlot (src : FdInfo φ) (st : (φ → ℤ) × FdInfo φ) (i : ℕ) : (φ → ℤ) × FdInfo φ :=
  match src.lookup i with
  | .null => st
  | .reserved => (st.1, st.2.set i .reserved)
  | .file f => (Function.update st.1 f (st.1 f + 1), st.2.set i (.file f))

/-- `task_fd_fork` -/
def taskFdFork (fCount : φ → ℤ) (dst src : FdInfo φ) : (φ → ℤ) × FdInfo φ :=
  let st := (List.range (src.last + 1)).foldl (forkSlot src) (fCount, dst)
  (st.1, { st.2 with first := src.first, last := src.last })

namespace State

def setTask (s : State φ) (task : ℕ) (info : FdInfo φ) : State φ :=
  { s with tasks := Function.update s.tasks task info }

/-- `vfs_close`; the last reference frees the file. No file system fails to close. -/
def vfsClose (s : State φ) (f : φ) : State φ :=
  { s with
    fCount := Function.update s.fCount f (s.fCount f - 1)
    isOpen := if s.fCount f ≤ 1 then Function.update s.isOpen f false else s.isOpen }

end State

/-- The steps of the threads: `get`, then `set` with the opened file or `fail` without; `close`, then
`put`; `fork` of a new task. -/
inductive Event (φ : Type*)
  | get (task limit : ℕ)
  | set (task fd : ℕ) (f : φ)
  | fail (task fd : ℕ)
  | close (task fd : ℕ)
  | put (task fd : ℕ)
  | fork (src : ℕ) (behind : ℕ → Slot φ)

def State.slot (s : State φ) (task fd : ℕ) : Slot φ := (s.tasks task).lookup fd

def step (s : State φ) : Event φ → Option (State φ)
  | .get task limit =>
      if task < s.taskNr ∧ limit ≤ fileMaxNr then
        (taskFdGet (s.tasks task) limit).map fun r => s.setTask task r.1
      else none
  | .set task fd f =>
      if task < s.taskNr ∧ fd < fileMaxNr ∧ s.slot task fd = .reserved ∧ s.isOpen f = false then
        some { s.setTask task ((s.tasks task).set fd (.file f)) with
          fCount := Function.update s.fCount f 1
          isOpen := Function.update s.isOpen f true }
      else none
  | .fail task fd =>
      if task < s.taskNr ∧ fd < fileMaxNr ∧ s.slot task fd = .reserved then
        some (s.setTask task ((s.tasks task).put fd))
      else none
  | .close task fd =>
      if task < s.taskNr ∧ fd < fileMaxNr then
        match s.slot task fd with
        | .file f => some { s.vfsClose f with closing := (task, fd) :: s.closing }
        | _ => none
      else none
  | .put task fd =>
      if (task, fd) ∈ s.closing then
        some { s.setTask task ((s.tasks task).put fd) with closing := s.closing.erase (task, fd) }
      else none
  | .fork src behind =>
      if src < s.taskNr then
        let st := taskFdFork s.fCount (taskFdInit behind) (s.tasks src)
        some { s.setTask s.taskNr st.2 with taskNr := s.taskNr + 1, fCount := st.1 }
      else none

def machine (φ : Type*) [DecidableEq φ] : Machine (State φ) (Event φ) where
  init s := (∀ task, ∃ behind, s.tasks task = taskFdInit behind) ∧ (∀ f, s.isOpen f = false) ∧
    s.closing = []
  step := step

def ForkReal (s : State φ) (src : ℕ) : Prop :=
  ∀ fd ≤ (s.tasks src).last, s.slot src fd ≠ .null → ∃ f, s.slot src fd = .file f ∧ s.isOpen f = true

/-- No descriptor of the task is reserved, and none holds a file that its close has freed. -/
def ForkGuard (s : State φ) (src : ℕ) : Prop :=
  (∀ fd ≤ (s.tasks src).last, s.slot src fd ≠ .reserved) ∧
    ∀ fd f, (src, fd) ∈ s.closing → s.slot src fd = .file f → s.isOpen f = true

/-- Forks find no reserved descriptor and no freed file, no descriptor is closed twice at once, and
the scans for descriptors end in the table where they start. -/
def Guard (s : State φ) : Event φ → Prop
  | .get task limit => Fits (s.tasks task) limit
  | .close task fd => (task, fd) ∉ s.closing
  | .fork src _ => ForkGuard s src
  | _ => True

def State.places (s : State φ) : Finset (ℕ × ℕ) := Finset.range s.taskNr ×ˢ Finset.range fileMaxNr

def State.slots (s : State φ) (f : φ) : ℕ := {p ∈ s.places | s.slot p.1 p.2 = .file f}.card

def State.live (s : State φ) (f : φ) : ℕ :=
  {p ∈ s.places | s.slot p.1 p.2 = .file f ∧ p ∉ s.closing}.card

structure TaskOk (info : FdInfo φ) : Prop where
  infoOk : InfoOk tableCount fdsPerTbl info
  first : info.first ≤ info.last
  last : info.last < fileMaxNr
  free : ∀ fd, info.last < fd → fd < fileMaxNr → info.lookup fd = .null

/-- The count of an open file is the number of the slots that hold it and are not being closed. -/
structure Ok (s : State φ) : Prop where
  tasks : ∀ task < s.taskNr, TaskOk (s.tasks task)
  closing : ∀ p ∈ s.closing, p ∈ s.places ∧ ∃ f, s.slot p.1 p.2 = .file f
  nodup : s.closing.Nodup
  count : ∀ f, s.isOpen f = true → s.fCount f = s.live f ∧ 0 < s.fCount f
  freed : ∀ f, s.isOpen f = false → s.live f = 0

variable {s t : State φ} {task fd src : ℕ} {f : φ} {info : FdInfo φ}

omit [DecidableEq φ] in
lemma mem_places {p : ℕ × ℕ} : p ∈ s.places ↔ p.1 < s.taskNr ∧ p.2 < fileMaxNr := by
  simp [State.places]

omit [DecidableEq φ] in
lemma slot_setTask (s : State φ) (task : ℕ) (info : FdInfo φ) (p : ℕ × ℕ) :
    (s.setTask task info).slot p.1 p.2 = if p.1 = task then info.lookup p.2 else s.slot p.1 p.2 := by
  simp only [State.setTask, State.slot, Function.update_apply]
  split_ifs <;> rfl

omit [DecidableEq φ] in
lemma slot_set {slot : Slot φ}
    (hinfo : ∀ q, info.lookup q = if q = fd then slot else (s.tasks task).lookup q) (p : ℕ × ℕ) :
    (s.setTask task info).slot p.1 p.2 = if p = (task, fd) then slot else s.slot p.1 p.2 := by
  rw [slot_setTask, hinfo]
  by_cases h1 : p.1 = task
  · by_cases h2 : p.2 = fd
    · rw [if_pos h1, if_pos h2, if_pos (Prod.ext h1 h2)]
    · rw [if_pos h1, if_neg h2, if_neg fun heq => h2 (congrArg Prod.snd heq), State.slot, h1]
  · rw [if_neg h1, if_neg fun heq => h1 (congrArg Prod.fst heq)]

lemma live_congr (hplaces : t.places = s.places)
    (h : ∀ p ∈ s.places, t.slot p.1 p.2 = .file f ∧ p ∉ t.closing ↔
      s.slot p.1 p.2 = .file f ∧ p ∉ s.closing) : t.live f = s.live f := by
  rw [State.live, State.live, hplaces]
  exact congrArg Finset.card (Finset.filter_congr h)

lemma live_add {place : ℕ × ℕ} (hplaces : t.places = s.places) (hmem : place ∈ s.places)
    (hnew : t.slot place.1 place.2 = .file f ∧ place ∉ t.closing)
    (hold : ¬ (s.slot place.1 place.2 = .file f ∧ place ∉ s.closing))
    (h : ∀ p ∈ s.places, p ≠ place → (t.slot p.1 p.2 = .file f ∧ p ∉ t.closing ↔
      s.slot p.1 p.2 = .file f ∧ p ∉ s.closing)) : t.live f = s.live f + 1 := by
  have hinsert : {p ∈ t.places | t.slot p.1 p.2 = .file f ∧ p ∉ t.closing} =
      insert place {p ∈ s.places | s.slot p.1 p.2 = .file f ∧ p ∉ s.closing} := by
    ext p
    rw [Finset.mem_insert, Finset.mem_filter, Finset.mem_filter, hplaces]
    rcases eq_or_ne p place with rfl | hne
    · exact iff_of_true ⟨hmem, hnew⟩ (.inl rfl)
    · rw [or_iff_right hne]
      exact and_congr_right fun hp => h p hp hne
  rw [State.live, State.live, hinsert, Finset.card_insert_of_notMem]
  exact fun hp => hold (Finset.mem_filter.mp hp).2

/-- The slots of a new task are a row of places, none of which is being closed. -/
lemma live_row {row : ℕ → Slot φ}
    (hclosing : ∀ p ∈ s.closing, p ∈ s.places ∧ ∃ f, s.slot p.1 p.2 = .file f)
    (htaskNr : t.taskNr = s.taskNr + 1) (hsame : t.closing = s.closing)
    (hold : ∀ p ∈ s.places, t.slot p.1 p.2 = s.slot p.1 p.2)
    (hnew : ∀ fd < fileMaxNr, t.slot s.taskNr fd = row fd) :
    t.live f = s.live f + {fd ∈ Finset.range fileMaxNr | row fd = .file f}.card := by
  have hrow : ∀ fd, (s.taskNr, fd) ∉ s.places := fun fd hp => lt_irrefl _ (mem_places.mp hp).1
  have hunion : {p ∈ t.places | t.slot p.1 p.2 = .file f ∧ p ∉ t.closing} =
      {p ∈ s.places | s.slot p.1 p.2 = .file f ∧ p ∉ s.closing} ∪
        {fd ∈ Finset.range fileMaxNr | row fd = .file f}.image (Prod.mk s.taskNr) := by
    ext p
    rw [Finset.mem_union, Finset.mem_filter, Finset.mem_filter, Finset.mem_image, hsame, mem_places,
      htaskNr]
    constructor
    · rintro ⟨⟨htask, hfd⟩, hslot, hp⟩
      rcases Nat.lt_succ_iff_lt_or_eq.mp htask with hlt | heq
      · have hmem : p ∈ s.places := mem_places.mpr ⟨hlt, hfd⟩
        rw [hold p hmem] at hslot
        exact .inl ⟨hmem, hslot, hp⟩
      · rw [heq, hnew p.2 hfd] at hslot
        exact .inr ⟨p.2, Finset.mem_filter.mpr ⟨Finset.mem_range.mpr hfd, hslot⟩,
          Prod.ext heq.symm rfl⟩
    · rintro (⟨hp, hslot, hclosed⟩ | ⟨fd, hmem, rfl⟩)
      · obtain ⟨htask, hfd⟩ := mem_places.mp hp
        exact ⟨⟨Nat.lt_succ_of_lt htask, hfd⟩, (hold p hp).trans hslot, hclosed⟩
      · obtain ⟨hfd, hslot⟩ := Finset.mem_filter.mp hmem
        exact ⟨⟨Nat.lt_succ_self _, Finset.mem_range.mp hfd⟩,
          (hnew fd (Finset.mem_range.mp hfd)).trans hslot, fun hp => hrow fd (hclosing _ hp).1⟩
  rw [State.live, hunion, Finset.card_union_of_disjoint, State.live,
    Finset.card_image_of_injective _ (Prod.mk_right_injective _)]
  rw [Finset.disjoint_left]
  rintro p hp hq
  obtain ⟨fd, -, rfl⟩ := Finset.mem_image.mp hq
  exact hrow fd (Finset.mem_filter.mp hp).1

lemma Ok.isOpen (h : Ok s) (hplace : (task, fd) ∈ s.places) (hslot : s.slot task fd = .file f)
    (hclosing : (task, fd) ∉ s.closing) : s.isOpen f = true := by
  by_contra hfreed
  have hzero := h.freed f (Bool.eq_false_iff.mpr hfreed)
  rw [State.live, Finset.card_eq_zero] at hzero
  have hmem : (task, fd) ∈ ({p ∈ s.places | s.slot p.1 p.2 = .file f ∧ p ∉ s.closing} :
      Finset (ℕ × ℕ)) := Finset.mem_filter.mpr ⟨hplace, hslot, hclosing⟩
  rw [hzero] at hmem
  exact absurd hmem (Finset.notMem_empty _)

lemma Ok.setTask (h : Ok s) (hinfo : TaskOk info)
    (hsame : ∀ fd < fileMaxNr, ∀ f, info.lookup fd = .file f ↔ s.slot task fd = .file f) :
    Ok (s.setTask task info) := by
  have hslot : ∀ p ∈ s.places, ∀ f,
      (s.setTask task info).slot p.1 p.2 = .file f ↔ s.slot p.1 p.2 = .file f := by
    intro p hp f
    rw [slot_setTask]
    split_ifs with htask
    · rw [hsame p.2 (mem_places.mp hp).2, htask]
    · rfl
  have hlive : ∀ f, (s.setTask task info).live f = s.live f := fun f =>
    live_congr rfl fun p hp => and_congr_left fun _ => hslot p hp f
  refine ⟨fun t ht => ?_, fun p hp => ?_, h.nodup, fun f hf => ?_, fun f hf => ?_⟩
  · simp only [State.setTask, Function.update_apply]
    split_ifs
    · exact hinfo
    · exact h.tasks t ht
  · obtain ⟨hplace, f, hf⟩ := h.closing p hp
    exact ⟨hplace, f, (hslot p hplace f).mpr hf⟩
  · rw [hlive]
    exact h.count f hf
  · rw [hlive]
    exact h.freed f hf

lemma TaskOk.put (h : TaskOk info) (hused : info.lookup fd ≠ .null) : TaskOk (info.put fd) := by
  refine ⟨h.infoOk.step (by decide) (e := .put fd) trivial (if_pos hused), ?_, h.last,
    fun q hq hlt => ?_⟩
  · have hfirst := h.first
    simp only [FdInfo.put]
    split_ifs
    · exact le_trans (by omega) hfirst
    · exact hfirst
  · rw [info.lookup_put]
    split_ifs
    · rfl
    · exact h.free q hq hlt

lemma TaskOk.set (h : TaskOk info) (hreserved : info.lookup fd = .reserved)
    (hfd : fd < fileMaxNr) : TaskOk (info.set fd (.file f)) := by
  refine ⟨h.infoOk.step (by decide) (e := .set fd f) trivial (if_pos hreserved), h.first, h.last,
    fun q hq hlt => ?_⟩
  have hne : q ≠ fd := by
    rintro rfl
    rw [h.free q hq hlt] at hreserved
    cases hreserved
  rw [info.lookup_set, if_neg hne]
  exact h.free q hq hlt

lemma TaskOk.get (h : TaskOk info) {limit : ℕ} (hlimit : limit ≤ fileMaxNr) (hfits : Fits info limit)
    {r : FdInfo φ × ℕ × Bool × List (ℕ × ℕ)} (hget : taskFdGet info limit = some r) :
    TaskOk r.1 ∧ ∀ q f, r.1.lookup q = .file f ↔ info.lookup q = .file f := by
  obtain ⟨t, fd, found, reads⟩ := r
  obtain ⟨r, hr, hexact⟩ := (taskFdGet_exact_iff (by decide) h.infoOk hlimit).mpr hfits
  obtain rfl := Option.some.inj (hget.symm.trans hr)
  have hinfo := h.infoOk.get (by decide) hlimit hfits hget
  cases found with
  | false =>
    obtain rfl := hexact.unchanged rfl
    exact ⟨h, fun _ _ => Iff.rfl⟩
  | true =>
    obtain ⟨hlt, hnull, -, htbl⟩ := hexact.found rfl
    obtain ⟨hfirst, hlast, -, hfds⟩ := taskFdGet_fields hget
    simp only at hlt hnull htbl
    have hlookup : ∀ q, t.lookup q = if q = fd then .reserved else info.lookup q := by
      intro q
      have hset := info.lookup_set fd q .reserved
      rw [FdInfo.lookup, htbl, hfds]
      exact hset
    have hfree := h.free
    have hlastLt := h.last
    refine ⟨⟨hinfo, ?_, ?_, fun q hq hqlt => ?_⟩, fun q f => ?_⟩
    · rw [hfirst, hlast]
      split_ifs <;> omega
    · rw [hlast]
      split_ifs <;> omega
    · rw [hlast] at hq
      rw [hlookup]
      split_ifs at hq with hlow
      · rw [if_neg (by omega)]
        exact hfree q (by omega) hqlt
      · rw [if_neg (by omega)]
        exact hfree q hq hqlt
    · rw [hlookup]
      split_ifs with hq
      · rw [hq, hnull]
        simp
      · rfl

lemma Ok.set (h : Ok s) (htask : task < s.taskNr) (hfd : fd < fileMaxNr)
    (hreserved : s.slot task fd = .reserved) (hnew : s.isOpen f = false) :
    Ok { s.setTask task ((s.tasks task).set fd (.file f)) with
      fCount := Function.update s.fCount f 1
      isOpen := Function.update s.isOpen f true } := by
  set t : State φ := { s.setTask task ((s.tasks task).set fd (.file f)) with
      fCount := Function.update s.fCount f 1
      isOpen := Function.update s.isOpen f true } with ht
  have hplace : (task, fd) ∈ s.places := mem_places.mpr ⟨htask, hfd⟩
  have hclosing : (task, fd) ∉ s.closing := by
    intro hp
    obtain ⟨-, g, hg⟩ := h.closing _ hp
    rw [hreserved] at hg
    cases hg
  have hslot : ∀ p : ℕ × ℕ, t.slot p.1 p.2 = if p = (task, fd) then .file f else s.slot p.1 p.2 :=
    slot_set ((s.tasks task).lookup_set fd · (.file f))
  have hlive : t.live f = 1 := by
    have hadd : t.live f = s.live f + 1 := by
      refine live_add (s := s) rfl hplace ⟨?_, hclosing⟩ ?_ fun p hp hne => ?_
      · rw [hslot, if_pos rfl]
      · rw [hreserved]
        simp
      · rw [hslot, if_neg hne]
        rfl
    rw [hadd, h.freed f hnew]
  have hother : ∀ g, g ≠ f → t.live g = s.live g := by
    intro g hg
    refine live_congr (s := s) rfl fun p hp => and_congr_left fun _ => ?_
    rw [hslot]
    split_ifs with heq
    · rw [heq, hreserved]
      simp [hg.symm]
    · rfl
  refine ⟨fun k hk => ?_, fun p hp => ?_, h.nodup, fun g hg => ?_, fun g hg => ?_⟩
  · simp only [ht, State.setTask, Function.update_apply]
    split_ifs with heq
    · exact (h.tasks task htask).set hreserved hfd
    · exact h.tasks k hk
  · obtain ⟨hmem, g, hg⟩ := h.closing p hp
    refine ⟨hmem, g, ?_⟩
    have hne : p ≠ (task, fd) := fun heq => hclosing (heq ▸ hp)
    rw [hslot, if_neg hne]
    exact hg
  · rcases eq_or_ne g f with rfl | hne
    · rw [hlive]
      simp [ht]
    · rw [hother g hne]
      simpa [ht, hne] using h.count g (by simpa [ht, hne] using hg)
  · have hne : g ≠ f := by
      rintro rfl
      simp [ht] at hg
    rw [hother g hne]
    exact h.freed g (by simpa [ht, hne] using hg)

lemma Ok.get (h : Ok s) (htask : task < s.taskNr) {limit : ℕ} (hlimit : limit ≤ fileMaxNr)
    (hfits : Fits (s.tasks task) limit) {r : FdInfo φ × ℕ × Bool × List (ℕ × ℕ)}
    (hget : taskFdGet (s.tasks task) limit = some r) : Ok (s.setTask task r.1) := by
  obtain ⟨hinfo, hsame⟩ := (h.tasks task htask).get hlimit hfits hget
  exact h.setTask hinfo fun fd _ f => hsame fd f

lemma Ok.fail (h : Ok s) (htask : task < s.taskNr) (hreserved : s.slot task fd = .reserved) :
    Ok (s.setTask task ((s.tasks task).put fd)) := by
  have hused : (s.tasks task).lookup fd ≠ .null := by
    change s.slot task fd ≠ .null
    rw [hreserved]
    simp
  refine h.setTask ((h.tasks task htask).put hused) fun q _ f => ?_
  rw [FdInfo.lookup_put]
  split_ifs with hq
  · rw [hq, hreserved]
    simp
  · rfl

lemma Ok.close (h : Ok s) (htask : task < s.taskNr) (hfd : fd < fileMaxNr)
    (hslot : s.slot task fd = .file f) (hclosing : (task, fd) ∉ s.closing) :
    Ok { s.vfsClose f with closing := (task, fd) :: s.closing } := by
  set t : State φ := { s.vfsClose f with closing := (task, fd) :: s.closing } with ht
  have hplace : (task, fd) ∈ s.places := mem_places.mpr ⟨htask, hfd⟩
  have hopen := h.isOpen hplace hslot hclosing
  obtain ⟨hcount, hpos⟩ := h.count f hopen
  have hslots : ∀ p : ℕ × ℕ, t.slot p.1 p.2 = s.slot p.1 p.2 := fun _ => rfl
  have hmem : ∀ p, p ∈ t.closing ↔ p = (task, fd) ∨ p ∈ s.closing := fun p => List.mem_cons
  have hlive : s.live f = t.live f + 1 := by
    refine live_add (s := t) rfl hplace ⟨hslot, hclosing⟩ ?_ fun p _ hne => ?_
    · exact fun hp => hp.2 ((hmem _).mpr (.inl rfl))
    · rw [hslots, hmem, or_iff_right hne]
  have hother : ∀ g, g ≠ f → t.live g = s.live g := by
    refine fun g hg => live_congr (s := s) rfl fun p _ => ?_
    rw [hslots, hmem]
    refine and_congr_right fun hp => not_congr (or_iff_right ?_)
    rintro rfl
    rw [hslot] at hp
    exact hg (Slot.file.inj hp).symm
  refine ⟨h.tasks, fun p hp => ?_, List.nodup_cons.mpr ⟨hclosing, h.nodup⟩, fun g hg => ?_,
    fun g hg => ?_⟩
  · rcases (hmem p).mp hp with rfl | hp
    · exact ⟨hplace, f, hslot⟩
    · exact h.closing p hp
  · rcases eq_or_ne g f with rfl | hne
    · -- the file is still open, so this was not the last reference
      have hmore : 1 < s.fCount g := by
        by_contra hle
        simp [ht, State.vfsClose, not_lt.mp hle] at hg
      simp only [ht, State.vfsClose, Function.update_self] at hlive ⊢
      omega
    · have hgopen : s.isOpen g = true := by
        simp only [ht, State.vfsClose] at hg
        split_ifs at hg
        · rwa [Function.update_of_ne hne] at hg
        · exact hg
      rw [hother g hne]
      simp only [ht, State.vfsClose, Function.update_of_ne hne]
      exact h.count g hgopen
  · rcases eq_or_ne g f with rfl | hne
    · have hlast : s.fCount g ≤ 1 := by
        by_contra hmore
        simp only [ht, State.vfsClose, if_neg hmore, hopen] at hg
        cases hg
      omega
    · have hgfreed : s.isOpen g = false := by
        simp only [ht, State.vfsClose] at hg
        split_ifs at hg
        · rwa [Function.update_of_ne hne] at hg
        · exact hg
      rw [hother g hne]
      exact h.freed g hgfreed

lemma Ok.put (h : Ok s) (hclosing : (task, fd) ∈ s.closing) :
    Ok { s.setTask task ((s.tasks task).put fd) with closing := s.closing.erase (task, fd) } := by
  set t : State φ :=
    { s.setTask task ((s.tasks task).put fd) with closing := s.closing.erase (task, fd) } with ht
  obtain ⟨hplace, f, hslot⟩ := h.closing _ hclosing
  obtain ⟨htask, -⟩ := mem_places.mp hplace
  have hslots : ∀ p : ℕ × ℕ, t.slot p.1 p.2 = if p = (task, fd) then .null else s.slot p.1 p.2 :=
    slot_set ((s.tasks task).lookup_put fd)
  have hmem : ∀ p, p ∈ t.closing ↔ p ≠ (task, fd) ∧ p ∈ s.closing := fun p =>
    h.nodup.mem_erase_iff
  have hlive : ∀ g, t.live g = s.live g := by
    refine fun g => live_congr (s := s) rfl fun p _ => ?_
    rw [hslots, hmem]
    split_ifs with heq
    · refine iff_of_false (fun hp => by cases hp.1) fun hp => hp.2 (heq ▸ hclosing)
    · simp [heq]
  have hused : (s.tasks task).lookup fd ≠ .null := by
    change s.slot task fd ≠ .null
    rw [hslot]
    simp
  refine ⟨fun k hk => ?_, fun p hp => ?_, h.nodup.erase _, fun g hg => ?_, fun g hg => ?_⟩
  · simp only [ht, State.setTask, Function.update_apply]
    split_ifs
    · exact (h.tasks task htask).put hused
    · exact h.tasks k hk
  · obtain ⟨hne, hp⟩ := (hmem p).mp hp
    obtain ⟨hpplace, g, hg⟩ := h.closing p hp
    refine ⟨hpplace, g, ?_⟩
    rw [hslots, if_neg hne]
    exact hg
  · rw [hlive]
    exact h.count g hg
  · rw [hlive]
    exact h.freed g hg

lemma forkSlot_fst (src : FdInfo φ) (st : (φ → ℤ) × FdInfo φ) (i : ℕ) (f : φ) :
    (forkSlot src st i).1 f = st.1 f + if src.lookup i = .file f then 1 else 0 := by
  rw [forkSlot]
  cases hslot : src.lookup i with
  | null => simp
  | reserved => simp
  | file g =>
    rcases eq_or_ne g f with rfl | hne
    · simp
    · simp [Function.update_of_ne hne.symm, hne]

lemma forkSlot_lookup (src : FdInfo φ) (st : (φ → ℤ) × FdInfo φ) (i q : ℕ) :
    (forkSlot src st i).2.lookup q =
      if q = i ∧ src.lookup i ≠ .null then src.lookup i else st.2.lookup q := by
  rw [forkSlot]
  cases hslot : src.lookup i with
  | null => simp
  | reserved => simp [FdInfo.lookup_set]
  | file g => simp [FdInfo.lookup_set]

lemma forkSlot_fields (src : FdInfo φ) (st : (φ → ℤ) × FdInfo φ) (i : ℕ) :
    (forkSlot src st i).2.count = st.2.count ∧ (forkSlot src st i).2.fdsPerTbl = st.2.fdsPerTbl := by
  rw [forkSlot]
  split <;> exact ⟨rfl, rfl⟩

lemma forkSlots_spec (src : FdInfo φ) (st : (φ → ℤ) × FdInfo φ) (n : ℕ) :
    let r := (List.range n).foldl (forkSlot src) st
    (∀ f, r.1 f = st.1 f + ({fd ∈ Finset.range n | src.lookup fd = .file f}.card : ℕ)) ∧
      (∀ q, r.2.lookup q =
        if q < n ∧ src.lookup q ≠ .null then src.lookup q else st.2.lookup q) ∧
      r.2.count = st.2.count ∧ r.2.fdsPerTbl = st.2.fdsPerTbl := by
  induction n with
  | zero => simp
  | succ n ih =>
    obtain ⟨hcount, hlookup, hfields⟩ := ih
    rw [List.range_succ, List.foldl_append, List.foldl_cons, List.foldl_nil]
    refine ⟨fun f => ?_, fun q => ?_, ?_, ?_⟩
    · rw [forkSlot_fst, hcount, Finset.range_add_one, Finset.filter_insert]
      split_ifs with hslot
      · rw [Finset.card_insert_of_notMem (by simp)]
        push_cast
        ring
      · ring
    · rw [forkSlot_lookup, hlookup]
      rcases eq_or_ne q n with rfl | hne
      · by_cases hnull : src.lookup q = .null
        · simp [hnull]
        · simp [hnull]
      · have hlt : q < n + 1 ↔ q < n := by omega
        simp [hne, hlt]
    · rw [(forkSlot_fields _ _ _).1, hfields.1]
    · rw [(forkSlot_fields _ _ _).2, hfields.2]

lemma taskFdFork_spec (h : TaskOk info) (fCount : φ → ℤ) (behind : ℕ → Slot φ) :
    (∀ f, (taskFdFork fCount (taskFdInit behind) info).1 f =
      fCount f + ({fd ∈ Finset.range fileMaxNr | info.lookup fd = .file f}.card : ℕ)) ∧
    (∀ fd < fileMaxNr,
      (taskFdFork fCount (taskFdInit behind) info).2.lookup fd = info.lookup fd) ∧
    TaskOk (taskFdFork fCount (taskFdInit behind) info).2 := by
  obtain ⟨hcount, hlookup, hctr, hfds⟩ :=
    forkSlots_spec info (fCount, taskFdInit behind) (info.last + 1)
  have hlast := h.last
  have hnew : ∀ fd < fileMaxNr, (taskFdInit behind : FdInfo φ).lookup fd = .null := by
    intro fd _
    simp only [taskFdInit, FdInfo.lookup, if_pos (Nat.mod_lt fd (by decide : 0 < fdsPerTbl))]
  have hcopy : ∀ fd < fileMaxNr,
      (taskFdFork fCount (taskFdInit behind) info).2.lookup fd = info.lookup fd := by
    intro fd hfd
    refine (hlookup fd).trans ?_
    rw [hnew fd hfd]
    split_ifs with hused
    · rfl
    · rw [not_and_not_right] at hused
      by_cases hle : fd < info.last + 1
      · exact (hused hle).symm
      · exact (h.free fd (by omega) hfd).symm
  refine ⟨fun f => ?_, hcopy, ⟨hctr, hfds, fun fd hfd => ?_⟩, h.first, h.last, fun fd hgt hfd => ?_⟩
  · rw [taskFdFork, hcount f]
    refine congrArg (fun n : ℕ => fCount f + n) (congrArg Finset.card (Finset.ext fun fd => ?_))
    rw [Finset.mem_filter, Finset.mem_filter, Finset.mem_range, Finset.mem_range]
    refine and_congr_left fun hslot => ⟨fun _ => by omega, fun hfd => ?_⟩
    by_contra hgt
    rw [h.free fd (by omega) hfd] at hslot
    cases hslot
  · have hfirst := h.first
    rw [hcopy fd (by change fd < info.first at hfd; omega)]
    exact h.infoOk.below fd hfd
  · rw [hcopy fd hfd]
    exact h.free fd hgt hfd

/-- A fork that finds no reserved descriptor and no freed file finds open files only. -/
lemma Ok.forkReal_iff (h : Ok s) (hsrc : src < s.taskNr) : ForkReal s src ↔ ForkGuard s src := by
  have hlast := (h.tasks src hsrc).last
  constructor
  · intro hreal
    refine ⟨fun fd hfd hreserved => ?_, fun fd f hclosing hslot => ?_⟩
    · obtain ⟨f, hf, -⟩ := hreal fd hfd (by rw [hreserved]; simp)
      rw [hreserved] at hf
      cases hf
    · obtain ⟨-, hfd⟩ := mem_places.mp (h.closing _ hclosing).1
      have hle : fd ≤ (s.tasks src).last := by
        by_contra hgt
        have hnull : s.slot src fd = .null := (h.tasks src hsrc).free fd (by omega) hfd
        rw [hnull] at hslot
        cases hslot
      obtain ⟨g, hg, hopen⟩ := hreal fd hle (by rw [hslot]; simp)
      rw [hslot] at hg
      rwa [← Slot.file.inj hg] at hopen
  · rintro ⟨hreserved, hfreed⟩ fd hfd hused
    cases hslot : s.slot src fd with
    | null => exact absurd hslot hused
    | reserved => exact absurd hslot (hreserved fd hfd)
    | file f =>
      refine ⟨f, rfl, ?_⟩
      by_cases hclosing : (src, fd) ∈ s.closing
      · exact hfreed fd f hclosing hslot
      · exact h.isOpen (mem_places.mpr ⟨hsrc, by change fd < fileMaxNr; omega⟩) hslot hclosing

lemma Ok.fork (h : Ok s) (hsrc : src < s.taskNr) (hguard : ForkGuard s src)
    (behind : ℕ → Slot φ) :
    Ok { s.setTask s.taskNr (taskFdFork s.fCount (taskFdInit behind) (s.tasks src)).2 with
      taskNr := s.taskNr + 1
      fCount := (taskFdFork s.fCount (taskFdInit behind) (s.tasks src)).1 } := by
  obtain ⟨hcount, hlookup, hinfo⟩ :=
    taskFdFork_spec (h.tasks src hsrc) s.fCount behind
  set r := taskFdFork s.fCount (taskFdInit behind) (s.tasks src) with hr
  set t : State φ :=
    { s.setTask s.taskNr r.2 with taskNr := s.taskNr + 1, fCount := r.1 } with ht
  have hslots : ∀ p : ℕ × ℕ,
      t.slot p.1 p.2 = if p.1 = s.taskNr then r.2.lookup p.2 else s.slot p.1 p.2 :=
    slot_setTask s s.taskNr r.2
  have hold : ∀ p ∈ s.places, t.slot p.1 p.2 = s.slot p.1 p.2 := by
    intro p hp
    rw [hslots, if_neg (mem_places.mp hp).1.ne]
  have hlive : ∀ f, t.live f = s.live f +
      {fd ∈ Finset.range fileMaxNr | (s.tasks src).lookup fd = .file f}.card := by
    refine fun f => live_row (fun p => h.closing p) rfl rfl hold fun fd hfd => ?_
    have hslot := hslots (s.taskNr, fd)
    rw [if_pos rfl, hlookup fd hfd] at hslot
    exact hslot
  refine ⟨fun k hk => ?_, fun p hp => ?_, h.nodup, fun f hf => ?_, fun f hf => ?_⟩
  · simp only [ht, State.setTask, Function.update_apply]
    split_ifs with heq
    · exact hinfo
    · exact h.tasks k (by change k < s.taskNr + 1 at hk; omega)
  · obtain ⟨hplace, f, hf⟩ := h.closing p hp
    obtain ⟨htask, hfd⟩ := mem_places.mp hplace
    exact ⟨mem_places.mpr ⟨Nat.lt_succ_of_lt htask, hfd⟩, f, (hold p hplace).trans hf⟩
  · obtain ⟨heq, hpos⟩ := h.count f hf
    have hnew : t.fCount f = s.fCount f +
        ({fd ∈ Finset.range fileMaxNr | (s.tasks src).lookup fd = .file f}.card : ℕ) := hcount f
    rw [hlive, hnew]
    push_cast
    constructor
    · rw [heq]
    · exact lt_of_lt_of_le hpos (le_add_of_nonneg_right (Nat.cast_nonneg _))
  · rw [hlive, h.freed f hf, Nat.zero_add, Finset.card_eq_zero, Finset.filter_eq_empty_iff]
    intro fd hfd hslot
    have hle : fd ≤ (s.tasks src).last := by
      by_contra hgt
      rw [(h.tasks src hsrc).free fd (by omega) (Finset.mem_range.mp hfd)] at hslot
      cases hslot
    obtain ⟨g, hg, hopen⟩ :=
      (h.forkReal_iff hsrc).mpr hguard fd hle (by rw [State.slot, hslot]; simp)
    obtain rfl : f = g := Slot.file.inj (hslot.symm.trans hg)
    exact absurd hopen (by rw [show s.isOpen f = false from hf]; simp)

lemma Ok.step (h : Ok s) {e : Event φ} (hguard : Guard s e) (hstep : step s e = some t) : Ok t := by
  cases e with
  | get task limit =>
    simp only [FdFork.step] at hstep
    split_ifs at hstep with hget
    obtain ⟨r, hr, rfl⟩ := Option.map_eq_some_iff.mp hstep
    exact h.get hget.1 hget.2 hguard hr
  | set task fd f =>
    simp only [FdFork.step] at hstep
    split_ifs at hstep with hset
    obtain rfl := Option.some.inj hstep
    exact h.set hset.1 hset.2.1 hset.2.2.1 hset.2.2.2
  | fail task fd =>
    simp only [FdFork.step] at hstep
    split_ifs at hstep with hfail
    obtain rfl := Option.some.inj hstep
    exact h.fail hfail.1 hfail.2.2
  | close task fd =>
    simp only [FdFork.step] at hstep
    split_ifs at hstep with hclose
    cases hslot : s.slot task fd with
    | null => simp [hslot] at hstep
    | reserved => simp [hslot] at hstep
    | file f =>
      rw [hslot] at hstep
      obtain rfl := Option.some.inj hstep
      exact h.close hclose.1 hclose.2 hslot hguard
  | put task fd =>
    simp only [FdFork.step] at hstep
    split_ifs at hstep with hput
    obtain rfl := Option.some.inj hstep
    exact h.put hput
  | fork src behind =>
    simp only [FdFork.step] at hstep
    split_ifs at hstep with hsrc
    obtain rfl := Option.some.inj hstep
    exact h.fork hsrc hguard behind

omit [DecidableEq φ] in
lemma taskFdInit_ok (behind : ℕ → Slot φ) : TaskOk (taskFdInit behind : FdInfo φ) := by
  refine ⟨⟨rfl, rfl, fun fd hfd => absurd hfd (Nat.not_lt_zero fd)⟩, Nat.zero_le _,
    (by decide : 2 < fileMaxNr), fun fd _ _ => ?_⟩
  simp only [taskFdInit, FdInfo.lookup, if_pos (Nat.mod_lt fd (by decide : 0 < fdsPerTbl))]

lemma Ok.init (h : (machine φ).init s) : Ok s := by
  obtain ⟨htasks, hopen, hclosing⟩ := h
  have htask : ∀ task, TaskOk (s.tasks task) := by
    intro task
    obtain ⟨behind, heq⟩ := htasks task
    rw [heq]
    exact taskFdInit_ok behind
  refine ⟨fun task _ => htask task, fun p hp => ?_, ?_, fun f hf => ?_, fun f _ => ?_⟩
  · rw [hclosing] at hp
    cases hp
  · rw [hclosing]
    exact List.nodup_nil
  · rw [hopen f] at hf
    cases hf
  · rw [State.live, Finset.card_eq_zero, Finset.filter_eq_empty_iff]
    rintro p hp ⟨hslot, -⟩
    obtain ⟨behind, heq⟩ := htasks p.1
    simp only [State.slot, heq, taskFdInit, FdInfo.lookup,
      if_pos (Nat.mod_lt p.2 (by decide : 0 < fdsPerTbl))] at hslot
    cases hslot

/-- In every run whose forks find no reserved descriptor and no freed file, each open file counts its
slots, freed files have none, and the next fork takes open files only exactly if it finds no reserved
descriptor and no freed file, too. -/
theorem fd_files_counted (h : (machine φ).Reach Guard s) :
    (s.closing = [] → ∀ f, (s.isOpen f = true → s.fCount f = s.slots f) ∧
      (s.isOpen f = false → s.slots f = 0)) ∧
    ∀ src < s.taskNr, (ForkReal s src ↔ ForkGuard s src) := by
  have hok : Ok s :=
    h.invariant (I := Ok) (fun s => Ok.init) fun s e t hok hguard hstep => hok.step hguard hstep
  refine ⟨fun hclosing f => ?_, fun src hsrc => hok.forkReal_iff hsrc⟩
  have hslots : s.slots f = s.live f := by
    rw [State.slots, State.live, hclosing]
    simp
  rw [hslots]
  exact ⟨fun hf => (hok.count f hf).1, hok.freed f⟩

def start : State ℕ := ⟨1, fun _ => taskFdInit fun _ => .null, fun _ => 0, fun _ => false, []⟩

lemma start_init : (machine ℕ).init start := ⟨fun _ => ⟨_, rfl⟩, fun _ => rfl, rfl⟩

def guardTest (s : State ℕ) : Event ℕ → Bool
  | .get task limit => Fits (s.tasks task) limit
  | .close task fd => (task, fd) ∉ s.closing
  | .fork src _ => s.closing.isEmpty &&
      (List.range ((s.tasks src).last + 1)).all fun fd => s.slot src fd ≠ .reserved
  | _ => true

lemma guard_of_test (s : State ℕ) (e : Event ℕ) (h : guardTest s e = true) : Guard s e := by
  cases e with
  | get task limit =>
    have hfits : Fits (s.tasks task) limit := of_decide_eq_true h
    exact hfits
  | close task fd =>
    have hclosing : (task, fd) ∉ s.closing := of_decide_eq_true h
    exact hclosing
  | fork src behind =>
    simp only [guardTest, Bool.and_eq_true, List.isEmpty_iff, List.all_eq_true, List.mem_range,
      decide_eq_true_eq, Nat.lt_succ_iff] at h
    exact ⟨h.2, fun fd f hmem => absurd hmem (h.1 ▸ List.not_mem_nil)⟩
  | set | fail | put => trivial

/-- A file that a task has opened: a forked task shares it, and the first one closes it. -/
theorem fd_files_counted_fork : ∃ s t : State ℕ,
    (machine ℕ).Reach Guard s ∧ s.fCount 7 = 2 ∧ s.slots 7 = 2 ∧
    (machine ℕ).Reach Guard t ∧ t.slot 0 0 = .null ∧ t.slot 1 0 = .file 7 ∧ t.fCount 7 = 1 ∧
      t.slots 7 = 1 ∧ ForkReal t 1 := by
  have hforked : (((machine ℕ).restrict guardTest).run start
      [.get 0 fileMaxNr, .set 0 0 7, .fork 0 fun _ => .null]).map
      (fun s => (s.fCount 7, s.isOpen 7, s.closing)) = some (2, true, []) := by decide +kernel
  have hput : (((machine ℕ).restrict guardTest).run start
      [.get 0 fileMaxNr, .set 0 0 7, .fork 0 fun _ => .null, .close 0 0, .put 0 0]).map
      (fun t => decide (t.slot 0 0 = .null ∧ t.slot 1 0 = .file 7 ∧ t.fCount 7 = 1 ∧
        t.isOpen 7 = true ∧ t.closing = [] ∧ 1 < t.taskNr) && guardTest t (.fork 1 fun _ => .null)) =
      some true := by decide +kernel
  obtain ⟨s, hs, hvalues⟩ := Option.map_eq_some_iff.mp hforked
  obtain ⟨t, ht, hvalues'⟩ := Option.map_eq_some_iff.mp hput
  simp only [Prod.mk.injEq, Bool.and_eq_true, decide_eq_true_eq] at hvalues hvalues'
  obtain ⟨hcount, hopen, hclosing⟩ := hvalues
  obtain ⟨⟨hslot, hshared, hcount', hopen', hclosing', htask⟩, hguard⟩ := hvalues'
  have hreach := Machine.Reach.of_run guard_of_test start_init hs
  have hreach' := Machine.Reach.of_run guard_of_test start_init ht
  have hslots := ((fd_files_counted hreach).1 hclosing 7).1 hopen
  obtain ⟨hcounted, hreal⟩ := fd_files_counted hreach'
  have hslots' := (hcounted hclosing' 7).1 hopen'
  exact ⟨s, t, hreach, hcount, by omega, hreach', hslot, hshared, hcount', by omega,
    (hreal 1 htask).mpr (guard_of_test _ _ hguard)⟩

/-- A fork between the reservation of a descriptor and its file takes the reserved value for a file. -/
theorem reserved_is_forked : ¬ ∀ s : State ℕ, (machine ℕ).Reachable s →
    (∀ src < s.taskNr, ForkReal s src) ∧ (s.closing = [] → ∀ f, s.isOpen f = true →
      s.fCount f = s.slots f) := by
  intro h
  have hreach : (machine ℕ).Reachable (start.setTask 0
      { (taskFdInit fun _ => .null : FdInfo ℕ).set 0 .reserved with first := 0, last := 2 }) :=
    .step (.init start_init) trivial (e := .get 0 fileMaxNr) rfl
  obtain ⟨f, hf, -⟩ := (h _ hreach).1 0 Nat.zero_lt_one 0 (Nat.zero_le _) (fun hnull => by cases hnull)
  cases hf

end Almos.FdFork
