import Mathlib
import Almos.Semaphore

/-!
# The owner of a semaphore

The count of a semaphore and its wait queue follow the posts and the waits. A semaphore of value 1 is
a mutex, whose owner is trusted with the post: `sem_init` leaves the owner that it finds in memory.
-/
namespace Almos.Semaphore
open WaitQueue
variable {ι : Type*} [DecidableEq ι] {s t : State ι} {mem : Sem ι} {value : ℕ} {this : ι}

lemma sint_of_bounds {n : ℤ} (hlow : -2 ^ 31 ≤ n) (hhigh : n < 2 ^ 31) : sint n = n := by
  unfold sint
  rw [Int.bmod_eq_of_le (by omega) (by omega)]

structure QueueOk (s : State ι) : Prop where
  low : -2 ^ 31 ≤ s.sem.count
  high : s.sem.count < 2 ^ 31
  length : (s.sem.waitQueue.length : ℤ) = max 0 (-s.sem.count)
  nodup : s.sem.waitQueue.Nodup
  mem : ∀ t, t ∈ s.sem.waitQueue ↔ s.place t = .sleep

structure CvOk (s : State ι) : Prop where
  nodup : s.cvQueue.Nodup
  mem : ∀ t, t ∈ s.cvQueue ↔ s.place t = .cvSleep

def PlaceOk (holding : Bool) : Place → Prop
  | .idle => True
  | .own | .post | .cvWait => holding = true
  | .wait | .sleep | .trywait | .cvSleep | .cvWoken => holding = false

structure MutexOk (s : State ι) : Prop where
  le : s.sem.count ≤ 1
  free : s.sem.count = 1 → ∀ t, s.holding t = false
  held : s.sem.count ≤ 0 → ∃ t, s.holding t = true
  one : ∀ t u, s.holding t = true → s.holding u = true → t = u
  owner : ∀ t, s.sem.owner = some t → s.holding t = true
  named : ∀ t, s.holding t = true → s.place t = .own ∨ s.sem.owner = some t
  place : ∀ t, PlaceOk (s.holding t) (s.place t)

structure Inv (value : ℕ) (s : State ι) : Prop where
  init : s.sem.value = value
  count : s.sem.count = value + s.posts - s.waits
  queue : QueueOk s
  cv : CvOk s
  mutex : value = 1 → MutexOk s

lemma QueueOk.goto {place : Place} (h : QueueOk s) (hold : s.place this ≠ .sleep)
    (hnew : place ≠ .sleep) : QueueOk (s.goto this place) := by
  refine ⟨h.low, h.high, h.length, h.nodup, fun t => ?_⟩
  rcases eq_or_ne t this with rfl | hne
  · simp [State.goto, hnew, h.mem, hold]
  · simp [State.goto, hne, h.mem]

lemma CvOk.goto {place : Place} (h : CvOk s) (hold : s.place this ≠ .cvSleep)
    (hnew : place ≠ .cvSleep) : CvOk (s.goto this place) := by
  refine ⟨h.nodup, fun t => ?_⟩
  rcases eq_or_ne t this with rfl | hne
  · simp [State.goto, hnew, h.mem, hold]
  · simp [State.goto, hne, h.mem]

lemma MutexOk.goto {place : Place} (h : MutexOk s) (hold : s.place this ≠ .own)
    (hnew : PlaceOk (s.holding this) place) : MutexOk (s.goto this place) := by
  refine ⟨h.le, h.free, h.held, h.one, h.owner, fun t ht => ?_, fun t => ?_⟩
  · rcases eq_or_ne t this with rfl | hne
    · exact .inr ((h.named t ht).resolve_left hold)
    · simpa [State.goto, hne] using h.named t ht
  · rcases eq_or_ne t this with rfl | hne
    · simpa [State.goto] using hnew
    · simpa [State.goto, hne] using h.place t

lemma Inv.goto {place : Place} (h : Inv value s)
    (hold : s.place this ≠ .sleep ∧ s.place this ≠ .cvSleep ∧ s.place this ≠ .own)
    (hnew : place ≠ .sleep ∧ place ≠ .cvSleep)
    (hplace : value = 1 → PlaceOk (s.holding this) place) : Inv value (s.goto this place) :=
  ⟨h.init, h.count, h.queue.goto hold.1 hnew.1, h.cv.goto hold.2.1 hnew.2, fun hv =>
    (h.mutex hv).goto hold.2.2 (hplace hv)⟩

/-- A free semaphore is taken: the owner is stored at once, or is the next thing to store. -/
lemma MutexOk.acquire {sem : Sem ι} {place : Place} (h : MutexOk s) (hpos : 0 < s.sem.count)
    (hcount : sem.count = s.sem.count - 1) (hplace : PlaceOk true place)
    (howner : sem.owner = some this ∨ sem.owner = s.sem.owner ∧ place = .own) (waits : ℕ) :
    MutexOk { s.goto this place with
      sem, waits, holding := Function.update s.holding this true } := by
  have hone : s.sem.count = 1 := le_antisymm h.le hpos
  have hfree := h.free hone
  have honly : ∀ t, Function.update s.holding this true t = true → t = this := by
    intro t ht
    by_contra hne
    simp [hne, hfree] at ht
  refine ⟨?_, ?_, ?_, ?_, ?_, ?_, ?_⟩
  · simp only
    omega
  · simp only
    omega
  · exact fun _ => ⟨this, by simp⟩
  · intro t u ht hu
    rw [honly t ht, honly u hu]
  · intro t ht
    rcases howner with howner | ⟨howner, -⟩
    · obtain rfl := Option.some.inj (howner.symm.trans ht)
      simp
    · have hheld := h.owner t (howner.symm.trans ht)
      rw [hfree t] at hheld
      cases hheld
  · intro t ht
    obtain rfl := honly t ht
    rcases howner with howner | ⟨-, rfl⟩
    · exact .inr howner
    · exact .inl (by simp [State.goto])
  · intro t
    rcases eq_or_ne t this with rfl | hne
    · simpa [State.goto] using hplace
    · simpa [State.goto, hne] using h.place t

omit [DecidableEq ι] in
lemma semWait_spec (this : ι) (h : QueueOk s) (hlow : -2 ^ 31 < s.sem.count) :
    0 < s.sem.count ∧ semWait s.sem this = ({ s.sem with count := s.sem.count - 1 }, true) ∨
      s.sem.count ≤ 0 ∧ semWait s.sem this = ({ s.sem with
        count := s.sem.count - 1, waitQueue := s.sem.waitQueue ++ [this] }, false) := by
  have hhigh := h.high
  have hcount : sint (s.sem.count - 1) = s.sem.count - 1 := sint_of_bounds (by omega) (by omega)
  by_cases hpos : 0 < s.sem.count
  · refine .inl ⟨hpos, ?_⟩
    simp only [semWait, hcount]
    exact if_pos (by omega)
  · refine .inr ⟨not_lt.1 hpos, ?_⟩
    simp only [semWait, hcount]
    exact if_neg (by omega)

lemma Inv.wait (h : Inv value s) (hat : s.place this = .wait) (hlow : -2 ^ 31 < s.sem.count) :
    Inv value (s.wait this) := by
  have hq := h.queue
  have hcv : CvOk (s.goto this .own) := h.cv.goto (by simp [hat]) (by simp)
  have hcv' : CvOk (s.goto this .sleep) := h.cv.goto (by simp [hat]) (by simp)
  have hgoto : QueueOk (s.goto this .own) := hq.goto (by simp [hat]) (by simp)
  have hhigh := hq.high
  have hlength := hq.length
  have hcount := h.count
  obtain ⟨hpos, hsem⟩ | ⟨hnonpos, hsem⟩ := semWait_spec this hq hlow
  · simp only [State.wait, hsem]
    refine ⟨h.init, ?_, ⟨?_, ?_, ?_, hq.nodup, hgoto.mem⟩, ⟨hcv.nodup, hcv.mem⟩, fun hv => ?_⟩
    · simp only [State.goto]
      push_cast
      omega
    · simp only
      omega
    · simp only
      omega
    · simp only
      omega
    · apply (h.mutex hv).acquire hpos
      · rfl
      · rfl
      · exact .inr ⟨rfl, rfl⟩
  · simp only [State.wait, hsem]
    have hnot : this ∉ s.sem.waitQueue := by simp [hq.mem, hat]
    refine ⟨h.init, ?_, ⟨?_, ?_, ?_, ?_, ?_⟩, ⟨hcv'.nodup, hcv'.mem⟩, fun hv => ?_⟩
    · simp only [State.goto]
      push_cast
      omega
    · simp only
      omega
    · simp only
      omega
    · simp only [List.length_append, List.length_singleton]
      push_cast
      omega
    · exact List.Nodup.append hq.nodup (List.nodup_singleton _) (by simpa using hnot)
    · intro t
      rcases eq_or_ne t this with rfl | hne
      · simp [State.goto]
      · simp [State.goto, hne, hq.mem]
    · have hm := h.mutex hv
      have hplace : s.holding this = false := by
        have hthis := hm.place this
        rwa [hat] at hthis
      have hgo : MutexOk (s.goto this .sleep) := hm.goto (by simp [hat]) hplace
      exact ⟨by simp only; omega, by simp only; omega, fun _ => hm.held hnonpos, hm.one, hm.owner,
        hgo.named, hgo.place⟩

lemma Inv.trywait (h : Inv value s) (hat : s.place this = .trywait) :
    Inv value (s.trywait this) := by
  have hq := h.queue
  have hcv : CvOk (s.goto this .idle) := h.cv.goto (by simp [hat]) (by simp)
  have hgoto : QueueOk (s.goto this .idle) := hq.goto (by simp [hat]) (by simp)
  have hhigh := hq.high
  have hlength := hq.length
  have hcount := h.count
  by_cases hpos : 0 < s.sem.count
  · have hsint : sint (s.sem.count - 1) = s.sem.count - 1 := sint_of_bounds (by omega) (by omega)
    simp only [State.trywait, semTrywait, if_pos hpos, hsint]
    refine ⟨h.init, ?_, ⟨?_, ?_, ?_, hq.nodup, hgoto.mem⟩, ⟨hcv.nodup, hcv.mem⟩, fun hv => ?_⟩
    · simp only [State.goto]
      push_cast
      omega
    · simp only
      omega
    · simp only
      omega
    · simp only
      omega
    · apply (h.mutex hv).acquire hpos
      · rfl
      · trivial
      · exact .inl rfl
  · simp only [State.trywait, semTrywait, if_neg hpos]
    exact h.goto (by simp [hat]) (by simp) fun _ => trivial

omit [DecidableEq ι] in
lemma semPost_spec (h : QueueOk s) (hhigh : s.sem.count < 2 ^ 31 - 1) :
    0 ≤ s.sem.count ∧
        semPost s.sem = ({ s.sem with count := s.sem.count + 1, owner := none }, none) ∨
      s.sem.count < 0 ∧ ∃ thread rest, s.sem.waitQueue = thread :: rest ∧
        semPost s.sem = (⟨s.sem.value, s.sem.count + 1, some thread, rest⟩, some thread) := by
  have hlow := h.low
  have hlength := h.length
  have hcount : sint (s.sem.count + 1) = s.sem.count + 1 := sint_of_bounds (by omega) (by omega)
  by_cases hneg : s.sem.count < 0
  · cases hqueue : s.sem.waitQueue with
    | nil =>
      rw [hqueue, List.length_nil, Nat.cast_zero] at hlength
      omega
    | cons thread rest =>
      refine .inr ⟨hneg, thread, rest, rfl, ?_⟩
      have hle : s.sem.count + 1 ≤ 0 := by omega
      simp [semPost, hcount, hle, hqueue, wakeupOne]
  · have hle : ¬s.sem.count + 1 ≤ 0 := by omega
    refine .inl ⟨not_lt.1 hneg, ?_⟩
    simp only [semPost, hcount, if_neg hle]

structure Posted (value : ℕ) (s : State ι) (this : ι) (next : Place) (t : State ι) : Prop where
  init : t.sem.value = value
  count : t.sem.count = value + t.posts - t.waits
  queue : QueueOk t
  cvQueue : t.cvQueue = s.cvQueue
  place_this : t.place this = next
  cvSleep : ∀ u, u ≠ this → (t.place u = .cvSleep ↔ s.place u = .cvSleep)
  mutex : value = 1 → MutexOk t

lemma MutexOk.release {sem : Sem ι} {next : Place} (h : MutexOk s) (hthis : s.holding this = true)
    (hzero : 0 ≤ s.sem.count) (hcount : sem.count = s.sem.count + 1) (howner : sem.owner = none)
    (hnext : PlaceOk false next) (posts : ℕ) :
    MutexOk { s.goto this next with
      sem, posts, holding := Function.update s.holding this false } := by
  have hle := h.le
  have hcase : s.sem.count ≠ 1 := by
    intro hone
    rw [h.free hone this] at hthis
    cases hthis
  have hfree : ∀ t, Function.update s.holding this false t = false := by
    intro t
    rcases eq_or_ne t this with rfl | hne
    · simp
    · rw [Function.update_of_ne hne]
      by_contra ht
      exact hne (h.one t this (by simpa using ht) hthis)
  refine ⟨?_, fun _ => hfree, ?_, ?_, ?_, ?_, ?_⟩
  · simp only
    omega
  · intro hnonpos
    simp only at hnonpos
    omega
  · intro t u ht
    cases (hfree t).symm.trans ht
  · intro t ht
    cases howner.symm.trans ht
  · intro t ht
    cases (hfree t).symm.trans ht
  · intro t
    rcases eq_or_ne t this with rfl | hne
    · simpa [State.goto] using hnext
    · simpa [State.goto, hne] using h.place t

lemma MutexOk.handOver {sem : Sem ι} {next : Place} {thread : ι} (h : MutexOk s)
    (hthis : s.holding this = true) (hneg : s.sem.count < 0) (hcount : sem.count = s.sem.count + 1)
    (howner : sem.owner = some thread) (hne : thread ≠ this) (hnext : PlaceOk false next)
    (posts : ℕ) :
    MutexOk { (s.goto thread .own).goto this next with
      sem, posts,
      holding := Function.update (Function.update s.holding this false) thread true } := by
  have honly : ∀ t, Function.update (Function.update s.holding this false) thread true t = true →
      t = thread := by
    intro t ht
    by_contra hnot
    rw [Function.update_of_ne hnot] at ht
    rcases eq_or_ne t this with rfl | hother
    · simp at ht
    · rw [Function.update_of_ne hother] at ht
      exact hother (h.one t this ht hthis)
  refine ⟨?_, ?_, ?_, ?_, ?_, ?_, ?_⟩
  · simp only
    omega
  · simp only
    omega
  · exact fun _ => ⟨thread, by simp⟩
  · intro t u ht hu
    rw [honly t ht, honly u hu]
  · intro t ht
    obtain rfl := Option.some.inj (howner.symm.trans ht)
    simp
  · intro t ht
    rw [honly t ht]
    exact .inr howner
  · intro t
    rcases eq_or_ne t this with rfl | hother
    · simpa [State.goto, hne.symm] using hnext
    · rcases eq_or_ne t thread with rfl | hnot
      · simp [State.goto, hne, PlaceOk]
      · simpa [State.goto, hother, hnot] using h.place t

lemma Inv.post {next : Place} (h : Inv value s)
    (hat : s.place this = .post ∨ s.place this = .cvWait) (hhigh : s.sem.count < 2 ^ 31 - 1)
    (hnext : next = .idle ∨ next = .cvSleep) : Posted value s this next (s.post this next) := by
  have hq := h.queue
  have hlow := hq.low
  have hlength := hq.length
  have hcount := h.count
  have hawake : s.place this ≠ .sleep := by
    rcases hat with hat | hat
    · simp [hat]
    · simp [hat]
  have hgoes : next ≠ .sleep := by
    rcases hnext with rfl | rfl
    · simp
    · simp
  have hlets : PlaceOk false next := by
    rcases hnext with rfl | rfl
    · trivial
    · rfl
  have hthis : value = 1 → s.holding this = true := by
    intro hv
    have hplace := (h.mutex hv).place this
    rcases hat with hat | hat
    · rwa [hat] at hplace
    · rwa [hat] at hplace
  obtain ⟨hnonneg, hpost⟩ | ⟨hneg, thread, rest, hqueue, hpost⟩ := semPost_spec hq hhigh
  · simp only [State.post, hpost]
    have hgoto := hq.goto hawake hgoes
    refine ⟨h.init, ?_, ⟨?_, ?_, ?_, hq.nodup, hgoto.mem⟩, rfl, ?_, ?_, fun hv => ?_⟩
    · simp only [State.goto]
      push_cast
      omega
    · simp only
      omega
    · simp only
      omega
    · simp only
      omega
    · simp [State.goto]
    · intro u hu
      simp [State.goto, hu]
    · apply (h.mutex hv).release (hthis hv) hnonneg
      · rfl
      · rfl
      · exact hlets
  · simp only [State.post, hpost]
    have hsleeps : s.place thread = .sleep := (hq.mem thread).1 (by simp [hqueue])
    have hne : thread ≠ this := by
      rintro rfl
      exact hawake hsleeps
    have hnodup := hq.nodup
    rw [hqueue, List.nodup_cons] at hnodup
    rw [hqueue, List.length_cons] at hlength
    refine ⟨h.init, ?_, ⟨?_, ?_, ?_, hnodup.2, fun u => ?_⟩, rfl, ?_, ?_, fun hv => ?_⟩
    · simp only [State.goto]
      push_cast
      omega
    · simp only
      omega
    · simp only
      omega
    · simp only
      push_cast at hlength
      omega
    · have hmem := hq.mem u
      rw [hqueue, List.mem_cons] at hmem
      rcases eq_or_ne u this with rfl | hother
      · have hnot : u ∉ rest := fun hu => hawake (hmem.1 (.inr hu))
        simpa [State.goto, hgoes] using hnot
      · rcases eq_or_ne u thread with rfl | hnot
        · simpa [State.goto, hne] using hnodup.1
        · simpa [State.goto, hother, hnot] using hmem
    · simp [State.goto]
    · intro u hu
      rcases eq_or_ne u thread with rfl | hnot
      · simp [State.goto, hu, hsleeps]
      · simp [State.goto, hu, hnot]
    · apply (h.mutex hv).handOver (hthis hv) hneg
      · rfl
      · rfl
      · exact hne
      · exact hlets

lemma Inv.semPost (h : Inv value s) (hat : s.place this = .post)
    (hhigh : s.sem.count < 2 ^ 31 - 1) : Inv value (s.post this .idle) := by
  have hposted := h.post (.inl hat) hhigh (.inl rfl)
  refine ⟨hposted.init, hposted.count, hposted.queue, ⟨?_, fun u => ?_⟩, hposted.mutex⟩
  · rw [hposted.cvQueue]
    exact h.cv.nodup
  · rw [hposted.cvQueue, h.cv.mem]
    rcases eq_or_ne u this with rfl | hne
    · simp [hposted.place_this, hat]
    · exact (hposted.cvSleep u hne).symm

lemma Inv.cvWait (h : Inv value s) (hat : s.place this = .cvWait)
    (hhigh : s.sem.count < 2 ^ 31 - 1) : Inv value (s.cvWait this) := by
  unfold State.cvWait
  split_ifs
  · exact h.goto (by simp [hat]) (by simp) fun _ => trivial
  · have hposted := h.post (.inr hat) hhigh (.inr rfl)
    have hq := hposted.queue
    refine ⟨hposted.init, hposted.count, ⟨hq.low, hq.high, hq.length, hq.nodup, hq.mem⟩,
      ⟨?_, fun u => ?_⟩, fun hv => ?_⟩
    · have hnot : this ∉ s.cvQueue := by simp [h.cv.mem, hat]
      exact List.Nodup.append h.cv.nodup (List.nodup_singleton _) (by simpa using hnot)
    · simp only [waitOn, List.mem_append, List.mem_singleton, h.cv.mem]
      rcases eq_or_ne u this with rfl | hne
      · simp [hposted.place_this]
      · simp [hne, hposted.cvSleep u hne]
    · have hm := hposted.mutex hv
      exact ⟨hm.le, hm.free, hm.held, hm.one, hm.owner, hm.named, hm.place⟩

lemma Inv.cvSignal (h : Inv value s) : Inv value s.cvSignal := by
  cases hqueue : s.cvQueue with
  | nil =>
    have hnone : s.cvSignal = s := by simp [State.cvSignal, hqueue, wakeupOne]
    rwa [hnone]
  | cons thread rest =>
    have hsignal : s.cvSignal = { s.goto thread .cvWoken with cvQueue := rest } := by
      simp [State.cvSignal, hqueue, wakeupOne]
    have hmem := h.cv.mem
    have hsleeps : s.place thread = .cvSleep := (hmem thread).1 (by simp [hqueue])
    have hnodup := h.cv.nodup
    rw [hqueue, List.nodup_cons] at hnodup
    have hq : QueueOk (s.goto thread .cvWoken) := h.queue.goto (by simp [hsleeps]) (by simp)
    rw [hsignal]
    refine ⟨h.init, h.count, ⟨hq.low, hq.high, hq.length, hq.nodup, hq.mem⟩,
      ⟨hnodup.2, fun u => ?_⟩, fun hv => ?_⟩
    · rcases eq_or_ne u thread with rfl | hne
      · simpa [State.goto] using hnodup.1
      · rw [hqueue] at hmem
        simp [State.goto, hne, ← hmem]
    · have hm := h.mutex hv
      have hplace := hm.place thread
      rw [hsleeps] at hplace
      have hgo : MutexOk (s.goto thread .cvWoken) := hm.goto (by simp [hsleeps]) hplace
      exact ⟨hgo.le, hgo.free, hgo.held, hgo.one, hgo.owner, hgo.named, hgo.place⟩

lemma Inv.cvBroadcast (h : Inv value s) : Inv value s.cvBroadcast := by
  have hmem := h.cv.mem
  have hplace : ∀ t, s.cvBroadcast.place t =
      if s.place t = .cvSleep then .cvWoken else s.place t := by
    intro t
    simp only [State.cvBroadcast, hmem]
  have hq := h.queue
  refine ⟨h.init, h.count, ⟨hq.low, hq.high, hq.length, hq.nodup, fun t => ?_⟩,
    ⟨List.nodup_nil, fun t => ?_⟩, fun hv => ?_⟩
  · rw [hplace, show s.cvBroadcast.sem = s.sem from rfl, hq.mem]
    split_ifs with hsleeps
    · simp [hsleeps]
    · rfl
  · rw [hplace, show s.cvBroadcast.cvQueue = [] from rfl]
    split_ifs with hsleeps
    · simp
    · simpa using hsleeps
  · have hm := h.mutex hv
    refine ⟨hm.le, hm.free, hm.held, hm.one, hm.owner, fun t ht => ?_, fun t => ?_⟩
    · rw [hplace]
      split_ifs with hsleeps
      · exact .inr ((hm.named t ht).resolve_left (by simp [hsleeps]))
      · exact hm.named t ht
    · have hold := hm.place t
      rw [hplace, show s.cvBroadcast.holding = s.holding from rfl]
      split_ifs with hsleeps
      · rwa [hsleeps] at hold
      · exact hold

lemma Inv.own (h : Inv value s) (hat : s.place this = .own) :
    Inv value ({ s with sem := { s.sem with owner := some this } }.goto this .idle) := by
  have hq : QueueOk (s.goto this .idle) := h.queue.goto (by simp [hat]) (by simp)
  have hcv : CvOk (s.goto this .idle) := h.cv.goto (by simp [hat]) (by simp)
  refine ⟨h.init, h.count, ⟨hq.low, hq.high, hq.length, hq.nodup, hq.mem⟩, ⟨hcv.nodup, hcv.mem⟩,
    fun hv => ?_⟩
  have hm := h.mutex hv
  have hthis : s.holding this = true := by
    have hplace := hm.place this
    rwa [hat] at hplace
  refine ⟨hm.le, hm.free, hm.held, hm.one, fun t ht => ?_, fun t ht => ?_, fun t => ?_⟩
  · obtain rfl := Option.some.inj ht
    exact hthis
  · exact .inr (congrArg some (hm.one this t hthis ht))
  · rcases eq_or_ne t this with rfl | hne
    · simp [State.goto, PlaceOk]
    · simpa [State.goto, hne] using hm.place t

omit [DecidableEq ι] in
lemma MutexOk.not_holding (h : MutexOk s) (hvalue : s.sem.value = 1)
    (hpass : ¬Deadlocks s.sem this) (hat : s.place this ≠ .own) : s.holding this = false := by
  by_contra hholds
  rw [Bool.not_eq_false] at hholds
  have howner := (h.named this hholds).resolve_left hat
  refine hpass ⟨hvalue, fun hone => ?_, howner⟩
  rw [h.free hone this] at hholds
  cases hholds

lemma MutexOk.holding_of_legal (h : MutexOk s) (hvalue : s.sem.value = 1)
    (hpass : ¬Illegal s.sem this) : s.holding this = true := by
  apply h.owner
  by_contra hother
  refine hpass ⟨hvalue, ?_⟩
  by_cases hpos : 0 < s.sem.count
  · exact .inr hpos
  · exact .inl ⟨not_lt.1 hpos, hother⟩

lemma Inv.call (h : Inv value s) (hat : s.place this = .idle) (op : Call) :
    Inv value (s.call this op) := by
  cases op with
  | semWait =>
    simp only [State.call]
    split_ifs with hpass
    · exact h
    · exact h.goto (by simp [hat]) (by simp) fun hv =>
        (h.mutex hv).not_holding (h.init.trans hv) hpass (by simp [hat])
  | semTrywait =>
    simp only [State.call]
    split_ifs with hpass
    · exact h
    · exact h.goto (by simp [hat]) (by simp) fun hv =>
        (h.mutex hv).not_holding (h.init.trans hv) hpass (by simp [hat])
  | semPost =>
    simp only [State.call]
    split_ifs with hpass
    · exact h
    · exact h.goto (by simp [hat]) (by simp) fun hv =>
        (h.mutex hv).holding_of_legal (h.init.trans hv) hpass
  | cvWait =>
    simp only [State.call]
    split_ifs with hpass
    · exact h
    · refine h.goto (by simp [hat]) (by simp) fun hv => (h.mutex hv).owner this ?_
      by_contra hother
      exact hpass (.inl hother)
  | cvSignal => exact h.cvSignal
  | cvBroadcast => exact h.cvBroadcast

lemma Inv.step {e : Event ι} (h : Inv value s) (hok : EventOk s e) (hstep : step s e = some t) :
    Inv value t := by
  cases e with
  | call this op =>
    simp only [Semaphore.step] at hstep
    split_ifs at hstep with hat
    rw [← Option.some.inj hstep]
    exact h.call hat op
  | go this =>
    cases hat : s.place this with
    | idle => simp [Semaphore.step, hat] at hstep
    | sleep => simp [Semaphore.step, hat] at hstep
    | cvSleep => simp [Semaphore.step, hat] at hstep
    | wait =>
      simp only [Semaphore.step, hat, Option.some.injEq] at hstep
      simp only [EventOk, hat] at hok
      rw [← hstep]
      exact h.wait hat hok
    | own =>
      simp only [Semaphore.step, hat, Option.some.injEq] at hstep
      rw [← hstep]
      exact h.own hat
    | trywait =>
      simp only [Semaphore.step, hat, Option.some.injEq] at hstep
      rw [← hstep]
      exact h.trywait hat
    | post =>
      simp only [Semaphore.step, hat, Option.some.injEq] at hstep
      simp only [EventOk, hat] at hok
      rw [← hstep]
      exact h.semPost hat hok
    | cvWait =>
      simp only [Semaphore.step, hat, Option.some.injEq] at hstep
      simp only [EventOk, hat] at hok
      rw [← hstep]
      exact h.cvWait hat hok
    | cvWoken =>
      simp only [Semaphore.step, hat, Option.some.injEq] at hstep
      rw [← hstep]
      split_ifs with hpass
      · exact h.goto (by simp [hat]) (by simp) fun _ => trivial
      · exact h.goto (by simp [hat]) (by simp) fun hv =>
          (h.mutex hv).not_holding (h.init.trans hv) hpass (by simp [hat])

omit [DecidableEq ι] in
lemma semInit_spec {sem : Sem ι} (h : semInit mem value = some sem) :
    value ≤ semValueMax ∧ sem = ⟨value, value, mem.owner, []⟩ := by
  unfold semInit at h
  split_ifs at h with hlarge
  exact ⟨not_lt.1 hlarge, (Option.some.inj h).symm⟩

lemma inv_init (howner : value = 1 → mem.owner = none) (h : (machine mem value).init s) :
    Inv value s := by
  obtain ⟨hsem, hcv, hplace, hposts, hwaits, hholding⟩ := h
  obtain ⟨hvalue, hsem⟩ := semInit_spec hsem
  have hmax : semValueMax = 2048 := rfl
  refine ⟨by rw [hsem], by simp [hsem, hposts, hwaits], ?_, ?_, fun hv => ?_⟩
  · refine ⟨?_, ?_, by simp [hsem], by simp [hsem], by simp [hsem, hplace]⟩
    · rw [hsem]
      simp only
      omega
    · rw [hsem]
      simp only
      omega
  · exact ⟨by simp [hcv], by simp [hcv, hplace]⟩
  · refine ⟨by simp [hsem, hv], fun _ => hholding, by simp [hsem, hv], ?_, ?_, ?_, ?_⟩
    · simp [hholding]
    · simp [hsem, howner hv]
    · simp [hholding]
    · simp [hplace, PlaceOk]

lemma inv_reach (howner : value = 1 → mem.owner = none)
    (h : (machine mem value).Reach EventOk s) : Inv value s :=
  Machine.Reach.invariant (fun _ => inv_init howner) (fun _ _ _ hi hok hs => hi.step hok hs) h

/-- What semaphores and condition variables promise. -/
structure Exact (value : ℕ) (s : State ι) : Prop where
  count : s.sem.count = value + s.posts - s.waits
  length : (s.sem.waitQueue.length : ℤ) = max 0 (-s.sem.count)
  sleeping : s.sem.waitQueue.Nodup ∧ ∀ t, t ∈ s.sem.waitQueue ↔ s.place t = .sleep
  one : value = 1 → ∀ t u, s.holding t = true → s.holding u = true → t = u
  named : value = 1 → ∀ t, s.holding t = true → s.place t ≠ .own → s.sem.owner = some t
  /-- Up to the section of `cv_wait` that queues it, a thread has the semaphore. -/
  cvWait : value = 1 → ∀ t, s.place t = .cvWait → s.holding t = true
  /-- From then until it is signalled, it is in the queue. -/
  cvSleep : s.cvQueue.Nodup ∧ ∀ t, s.place t = .cvSleep → t ∈ s.cvQueue

omit [DecidableEq ι] in
lemma Inv.exact (h : Inv value s) : Exact value s := by
  refine ⟨h.count, h.queue.length, ⟨h.queue.nodup, h.queue.mem⟩, fun hv => (h.mutex hv).one,
    fun hv t ht hown => ((h.mutex hv).named t ht).resolve_left hown, fun hv t ht => ?_,
    h.cv.nodup, fun t => (h.cv.mem t).2⟩
  have hplace := (h.mutex hv).place t
  rwa [ht] at hplace

lemma two_holders {thread other : ι} (hne : thread ≠ other) (howner : mem.owner = some thread) :
    ∃ s, (machine mem 1).Reach EventOk s ∧ s.holding thread = true ∧ s.holding other = true := by
  have hzero : sint 0 = 0 := by decide
  have hone : sint 1 = 1 := by decide
  let s₀ : State ι := ⟨⟨1, 1, some thread, []⟩, [], fun _ => .idle, 0, 0, fun _ => false⟩
  let s₁ := s₀.goto other .wait
  let s₂ := s₁.wait other
  let s₃ := s₂.goto thread .post
  let s₄ := s₃.post thread .idle
  let s₅ := s₄.goto thread .wait
  have hs₂ : s₂ = ⟨⟨1, 0, some thread, []⟩, [], Function.update (fun _ => .idle) other .own, 0, 1,
      Function.update (fun _ => false) other true⟩ := by
    simp [s₂, s₁, s₀, State.wait, semWait, State.goto, hzero]
  have hs₄ : s₄ = ⟨⟨1, 1, none, []⟩, [], Function.update (fun _ => .idle) other .own, 1, 1,
      Function.update (fun _ => false) other true⟩ := by
    have hidle : Function.update (Function.update (fun _ => Place.idle) other .own) thread .idle =
        Function.update (fun _ => .idle) other .own := by
      rw [Function.update_eq_self_iff, Function.update_of_ne hne]
    have hnone : Function.update (Function.update (fun _ => false) other true) thread false =
        Function.update (fun _ => false) other true := by
      rw [Function.update_eq_self_iff, Function.update_of_ne hne]
    simp [s₄, s₃, hs₂, State.post, semPost, State.goto, hone, hidle, hnone]
  have hinit : (machine mem 1).init s₀ := by
    have hmax : ¬semValueMax < 1 := by decide
    simp [machine, semInit, hmax, s₀, howner]
  have h₁ : (machine mem 1).Reach EventOk s₁ := by
    refine .step (e := .call other .semWait) (.init hinit) trivial ?_
    simp [machine, step, State.call, Deadlocks, s₁, s₀]
  have h₂ : (machine mem 1).Reach EventOk s₂ := by
    refine .step (e := .go other) h₁ ?_ ?_
    · simp [EventOk, s₁, s₀, State.goto]
    · simp [machine, step, s₂, s₁, State.goto]
  have h₃ : (machine mem 1).Reach EventOk s₃ := by
    refine .step (e := .call thread .semPost) h₂ trivial ?_
    simp [machine, step, State.call, Illegal, s₃, hs₂, hne]
  have h₄ : (machine mem 1).Reach EventOk s₄ := by
    refine .step (e := .go thread) h₃ ?_ ?_
    · simp [EventOk, s₃, hs₂, State.goto]
    · simp [machine, step, s₄, s₃, State.goto]
  have h₅ : (machine mem 1).Reach EventOk s₅ := by
    refine .step (e := .call thread .semWait) h₄ trivial ?_
    simp [machine, step, State.call, Deadlocks, s₅, hs₄, hne]
  refine ⟨s₅.wait thread, .step (e := .go thread) h₅ ?_ ?_, ?_, ?_⟩
  · simp [EventOk, s₅, hs₄, State.goto]
  · simp [machine, step, s₅, State.goto]
  · simp [s₅, hs₄, State.wait, semWait, State.goto, hzero]
  · simp [s₅, hs₄, State.wait, semWait, State.goto, hzero, hne.symm]

/-- A semaphore and its condition variable keep their promises in every run, if and only if
`sem_init` finds no thread's name in the memory of a semaphore of value 1. -/
theorem semaphore_exact [Nontrivial ι] (mem : Sem ι) (hvalue : value ≤ semValueMax) :
    (∀ s, (machine mem value).Reach EventOk s → Exact value s) ↔
      (value = 1 → mem.owner = none) := by
  refine ⟨fun h hv => ?_, fun howner s hs => (inv_reach howner hs).exact⟩
  subst hv
  by_contra hsome
  obtain ⟨thread, hthread⟩ := Option.ne_none_iff_exists'.1 hsome
  obtain ⟨other, hother⟩ := exists_ne thread
  obtain ⟨s, hs, hholds, hholds'⟩ := two_holders hother.symm hthread
  exact hother ((h s hs).one rfl other thread hholds' hholds)

def freeMutex : State Bool := ⟨⟨1, 1, none, []⟩, [], fun _ => .idle, 0, 0, fun _ => false⟩

lemma eventOk_of_small {s : State Bool} (e : Event Bool)
    (h : -2 ^ 31 < s.sem.count ∧ s.sem.count < 2 ^ 31 - 1) : EventOk s e := by
  unfold EventOk
  split
  · trivial
  · split
    · exact h.1
    · exact h.2
    · exact h.2
    · trivial

/-- One thread has the mutex, another sleeps for it and is woken with it. -/
theorem semaphore_exact_mutex : ∃ s, (machine (⟨0, 0, none, []⟩ : Sem Bool) 1).Reach EventOk s ∧
    s.holding true = false ∧ s.holding false = true ∧ s.sem.owner = some false ∧ Exact 1 s := by
  have hrun : (((machine (⟨0, 0, none, []⟩ : Sem Bool) 1).restrict fun s _ =>
      decide (-2 ^ 31 < s.sem.count ∧ s.sem.count < 2 ^ 31 - 1)).run freeMutex
      [.call true .semWait, .go true, .go true, .call false .semWait, .go false,
        .call true .semPost, .go true, .go false]).map
      (fun s => (s.holding true, s.holding false, s.sem.owner)) = some (false, true, some false) := by
    decide +kernel
  obtain ⟨s, hs, hvalues⟩ := Option.map_eq_some_iff.mp hrun
  simp only [Prod.mk.injEq] at hvalues
  have hreach := Machine.Reach.of_run (fun s e hsmall => eventOk_of_small e (of_decide_eq_true hsmall))
    (⟨rfl, rfl, fun _ => rfl, rfl, rfl, fun _ => rfl⟩ : (machine _ 1).init freeMutex) hs
  exact ⟨s, hreach, hvalues.1, hvalues.2.1, hvalues.2.2,
    (semaphore_exact ⟨0, 0, none, []⟩ (by decide)).mpr (fun _ => rfl) s hreach⟩

/-- The owner of an earlier semaphore at the same place posts a mutex that another thread has just
locked, and then locks it as well. -/
theorem mutex_held_twice : ∃ s, (machine (⟨0, 0, some true, []⟩ : Sem Bool) 1).Reach EventOk s ∧
    s.holding true = true ∧ s.holding false = true :=
  two_holders (by decide) rfl

end Almos.Semaphore
