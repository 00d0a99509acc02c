import Mathlib
import Almos.SoftBarrier

/-!
# The phases of the software barrier

In a shared barrier the threads of a phase fill the table from its start, and the broadcast empties it
from its start: the threads that are already in the next phase stay behind the broadcast. A private
barrier counts its threads in the word that `spinlock_unlock_nosched` then takes for a lock.
-/
namespace Almos.SoftBarrier
variable {ι : Type*}

def Place.holds : Place ι → Bool
  | .take | .store _ _ | .clear _ | .reset _ | .unlock | .leave _ => true
  | _ => false

def Place.casts : Place ι → Bool
  | .unlock | .scan _ _ | .found _ _ _ | .send _ _ _ => true
  | _ => false

def Place.entry : Place ι → Option ℕ
  | .store k _ | .clear k | .reset k | .leave k | .sleep k => some k
  | _ => none

/-- The number of phases that are complete, who has the lock, and the broadcast: its thread, the next
entry with a thread to wake, and the thread that it has taken from the table. -/
structure View (ι : Type*) where
  phase : ℕ
  holder : Option ι
  caster : Option ι
  pos : ℕ
  hand : Option ι

def PlaceOk (v : View ι) (b : Barrier ι) (t : ι) (entered returned : ℕ) (woken : Bool) :
    Place ι → Prop
  | .out => entered = v.phase ∧ returned = v.phase ∧ woken = false
  | .lock | .take => entered = v.phase + 1 ∧ returned = v.phase ∧ woken = false
  | .store k ticket => entered = v.phase + 1 ∧ returned = v.phase ∧ woken = false ∧
      k + 1 = b.index ∧ ticket = b.count - k
  | .count _ => False
  | .clear k | .reset k => entered = v.phase + 1 ∧ returned = v.phase ∧ woken = false ∧
      k + 1 = b.index ∧ b.index = b.count
  | .leave k => entered = v.phase + 1 ∧ returned = v.phase ∧ woken = false ∧
      k + 1 = b.index ∧ b.index < b.count ∧ b.wqdb k = some t
  | .unlock => entered = v.phase ∧ returned + 1 = v.phase ∧ woken = false ∧
      b.index = 0 ∧ v.pos = 0 ∧ v.hand = none
  | .scan i ticket => entered = v.phase ∧ returned + 1 = v.phase ∧ woken = false ∧
      ticket = i ∧ v.pos = i ∧ v.hand = none ∧ i + 1 ≤ b.count
  | .found i ticket u => entered = v.phase ∧ returned + 1 = v.phase ∧ woken = false ∧
      ticket = i ∧ v.pos = i ∧ v.hand = none ∧ i + 1 < b.count ∧ b.wqdb i = some u
  | .send i ticket u => entered = v.phase ∧ returned + 1 = v.phase ∧ woken = false ∧
      ticket = i ∧ v.pos = i ∧ v.hand = some u ∧ i + 1 < b.count ∧ b.wqdb i = none
  | .sleep k =>
      (entered = v.phase + 1 ∧ returned = v.phase ∧ woken = false ∧ k < b.index ∧
        b.wqdb k = some t) ∨
      (entered = v.phase ∧ returned + 1 = v.phase ∧
        (woken = true ∨ v.pos ≤ k ∧ k + 1 < b.count))

def Pending (v : View ι) (s : State ι) (t : ι) (k : ℕ) : Prop :=
  s.place t = .sleep k ∧ s.entered t = v.phase ∧ s.woken t = false

/-- The threads of the current phase have taken the entries below `index`, and no two threads of a
phase that are not woken have the same entry. -/
structure EntriesOk (v : View ι) (s : State ι) : Prop where
  filled : ∀ k < s.barrier.index, ∃ t, s.entered t = v.phase + 1 ∧ (s.place t).entry = some k
  unique : ∀ t u k, (s.place t).entry = some k → (s.place u).entry = some k →
    s.entered t = s.entered u → s.woken t = false → s.woken u = false → t = u

structure Ok [Fintype ι] (v : View ι) (s : State ι) : Prop where
  shared : s.barrier.shared = true
  count : s.barrier.count = Fintype.card ι
  capacity : 0 < s.barrier.count ∧ s.barrier.count ≤ wqdbCapacity
  free : v.holder = none → s.barrier.word = 0 ∧ s.barrier.index < s.barrier.count
  taken : v.holder ≠ none → s.barrier.word = -1
  holder : ∀ t, (s.place t).holds = true ↔ v.holder = some t
  caster : ∀ t, (s.place t).casts = true ↔ v.caster = some t
  locks : ∀ t, s.locks t = s.entryLocks t + if (s.place t).holds = true then 1 else 0
  threads : ∀ t, PlaceOk v s.barrier t (s.entered t) (s.returned t) (s.woken t) (s.place t)
  entries : EntriesOk v s
  behind : s.barrier.index ≤ v.pos
  done : v.caster = none → v.pos = s.barrier.count
  pending : ∀ k, v.pos ≤ k → k + 1 < s.barrier.count → ∃ t, Pending v s t k ∧
    (s.barrier.wqdb k = some t ∨ k = v.pos ∧ v.hand = some t)

structure HistoryOk (v : View ι) (s : State ι) : Prop where
  future : ∀ p, p = 0 ∨ v.phase < p → s.serial p = [] ∧ s.wakes p = []
  active : ∀ b, v.caster = some b → s.serial v.phase = [] ∧
    ∀ t, (t, v.phase) ∈ s.wakes v.phase ↔ t ≠ b ∧ ¬∃ k, Pending v s t k
  past : ∀ p, 0 < p → p < v.phase ∨ p = v.phase ∧ v.caster = none →
    ∃ b, s.serial p = [b] ∧ ∀ t, (t, p) ∈ s.wakes p ↔ t ≠ b
  tagged : ∀ p x, x ∈ s.wakes p → x.2 = p
  nodup : ∀ p, (s.wakes p).Nodup

section Counting
variable [Fintype ι] [DecidableEq ι] {v : View ι} {s : State ι}

lemma Ok.index_add_card (h : Ok v s) (others : Finset ι)
    (hothers : ∀ t ∈ others, s.entered t = v.phase + 1 → (s.place t).entry = none) :
    s.barrier.index + others.card ≤ s.barrier.count := by
  have hfilled : ∀ k : Fin s.barrier.index, ∃ t, s.entered t = v.phase + 1 ∧
      (s.place t).entry = some k.1 := fun k => h.entries.filled k.1 k.2
  choose f hf using hfilled
  have hinj : Function.Injective f := by
    intro j k hjk
    have hentry := (hf j).2
    rw [hjk, (hf k).2] at hentry
    exact Fin.ext (Option.some.inj hentry).symm
  have hdisjoint : Disjoint (Finset.univ.image f) others := by
    rw [Finset.disjoint_left]
    intro t ht hother
    obtain ⟨k, -, rfl⟩ := Finset.mem_image.1 ht
    have hnone := hothers (f k) hother (hf k).1
    rw [(hf k).2] at hnone
    cases hnone
  have hcard : (Finset.univ.image f).card = s.barrier.index := by
    rw [Finset.card_image_of_injective _ hinj, Finset.card_univ, Fintype.card_fin]
  have hle := Finset.card_le_univ (Finset.univ.image f ∪ others)
  rw [Finset.card_union_of_disjoint hdisjoint, hcard] at hle
  rw [h.count]
  exact hle

omit [DecidableEq ι] in
lemma Ok.index_le (h : Ok v s) : s.barrier.index ≤ s.barrier.count := by
  classical
  have hroom := h.index_add_card ∅ (by simp)
  simpa using hroom

omit [DecidableEq ι] in
lemma Ok.all_arrived (h : Ok v s) (hlast : s.barrier.index = s.barrier.count) (t : ι) :
    s.entered t = v.phase + 1 ∧ ∃ k, (s.place t).entry = some k := by
  classical
  by_contra hnot
  have hroom := h.index_add_card {t} (by
    intro u hu harrived
    obtain rfl := Finset.mem_singleton.1 hu
    by_contra hentry
    exact hnot ⟨harrived, Option.ne_none_iff_exists'.1 hentry⟩)
  rw [Finset.card_singleton] at hroom
  omega

omit [DecidableEq ι] in
lemma Ok.caster_spec (h : Ok v s) {b : ι} (hcaster : v.caster = some b) :
    s.entered b = v.phase ∧ s.returned b + 1 = v.phase ∧ v.pos + 1 ≤ s.barrier.count := by
  have hplace := h.threads b
  have hcasts := (h.caster b).2 hcaster
  have hpos := h.capacity.1
  cases hat : s.place b with
  | unlock =>
    simp only [hat, PlaceOk] at hplace
    omega
  | scan i ticket =>
    simp only [hat, PlaceOk] at hplace
    omega
  | found i ticket u =>
    simp only [hat, PlaceOk] at hplace
    omega
  | send i ticket u =>
    simp only [hat, PlaceOk] at hplace
    omega
  | _ => simp [hat, Place.casts] at hcasts

lemma Ok.index_lt_pos (h : Ok v s) {this : ι} (hat : s.place this = .take) :
    s.barrier.index < v.pos := by
  have hnone : (s.place this).entry = none := by rw [hat]; rfl
  cases hcaster : v.caster with
  | none =>
    have hroom := h.index_add_card {this} (by simp [hnone])
    have hpos := h.done hcaster
    rw [Finset.card_singleton] at hroom
    omega
  | some b =>
    obtain ⟨hentered, -, hpos⟩ := h.caster_spec hcaster
    have hpending : ∀ k : Fin (s.barrier.count - 1 - v.pos), ∃ t, Pending v s t (v.pos + k.1) := by
      intro k
      obtain ⟨t, ht, -⟩ := h.pending (v.pos + k.1) (by omega) (by omega)
      exact ⟨t, ht⟩
    choose f hf using hpending
    have hinj : Function.Injective f := by
      intro j k hjk
      have hplace := (hf j).1
      rw [hjk, (hf k).1] at hplace
      have heq := Place.sleep.inj hplace
      exact Fin.ext (by omega)
    have hcasts : (s.place b).casts = true := (h.caster b).2 hcaster
    have hne : this ≠ b := by
      rintro rfl
      simp [hat, Place.casts] at hcasts
    have hout : ∀ t ∈ ({this, b} : Finset ι), t ∉ Finset.univ.image f := by
      intro t ht himage
      obtain ⟨k, -, rfl⟩ := Finset.mem_image.1 himage
      rw [Finset.mem_insert, Finset.mem_singleton] at ht
      have hplace := (hf k).1
      rcases ht with ht | ht
      · rw [ht, hat] at hplace
        cases hplace
      · rw [ht] at hplace
        simp [hplace, Place.casts] at hcasts
    have hroom := h.index_add_card ({this, b} ∪ Finset.univ.image f) (by
      intro t ht harrived
      rcases Finset.mem_union.1 ht with ht | ht
      · rw [Finset.mem_insert, Finset.mem_singleton] at ht
        rcases ht with rfl | rfl
        · exact hnone
        · omega
      · obtain ⟨k, -, rfl⟩ := Finset.mem_image.1 ht
        have hold := (hf k).2.1
        omega)
    rw [Finset.card_union_of_disjoint (Finset.disjoint_left.2 hout), Finset.card_pair hne,
      Finset.card_image_of_injective _ hinj, Finset.card_univ, Fintype.card_fin] at hroom
    omega

end Counting

section Frames
variable {v v' : View ι} {b b' : Barrier ι} {t : ι} {entered returned : ℕ} {woken : Bool}
  {p : Place ι}

lemma PlaceOk.frame_holder (v' : View ι) (b' : Barrier ι)
    (h : PlaceOk v b t entered returned woken p) (hp : p.holds = false)
    (hview : v'.phase = v.phase ∧ v'.pos = v.pos ∧ v'.hand = v.hand)
    (hbarrier : b.index ≤ b'.index ∧ b'.count = b.count)
    (hsleep : ∀ k, p = .sleep k → entered = v.phase + 1 → woken = false →
      b'.wqdb k = b.wqdb k)
    (hpos : p.casts = true → b'.wqdb v.pos = b.wqdb v.pos) :
    PlaceOk v' b' t entered returned woken p := by
  obtain ⟨hphase, hposEq, hhand⟩ := hview
  obtain ⟨hindex, hcount⟩ := hbarrier
  cases p with
  | out => simpa [PlaceOk, hphase] using h
  | lock => simpa [PlaceOk, hphase] using h
  | scan i ticket => simpa [PlaceOk, hphase, hposEq, hhand, hcount] using h
  | found i ticket u =>
    have hwqdb := hpos rfl
    simp only [PlaceOk] at h
    rw [h.2.2.2.2.1] at hwqdb
    simpa [PlaceOk, hphase, hposEq, hhand, hcount, hwqdb] using h
  | send i ticket u =>
    have hwqdb := hpos rfl
    simp only [PlaceOk] at h
    rw [h.2.2.2.2.1] at hwqdb
    simpa [PlaceOk, hphase, hposEq, hhand, hcount, hwqdb] using h
  | sleep k =>
    simp only [PlaceOk, hphase, hposEq, hcount] at h ⊢
    rcases h with ⟨he, hr, hw, hk, hentry⟩ | hold
    · exact .inl ⟨he, hr, hw, hk.trans_le hindex, (hsleep k rfl he hw).trans hentry⟩
    · exact .inr hold
  | count k => exact h.elim
  | take => cases hp
  | store k ticket => cases hp
  | clear k => cases hp
  | reset k => cases hp
  | unlock => cases hp
  | leave k => cases hp

lemma PlaceOk.frame_caster (v' : View ι) (b' : Barrier ι)
    (h : PlaceOk v b t entered returned woken p) (hp : p.casts = false)
    (hphase : v'.phase = v.phase) (hbarrier : b'.index = b.index ∧ b'.count = b.count)
    (hwqdb : ∀ k < b.index, b'.wqdb k = b.wqdb k)
    (hpos : ∀ k, p = .sleep k → entered = v.phase → woken = false → v.pos ≤ k → k + 1 < b.count →
      v'.pos ≤ k) :
    PlaceOk v' b' t entered returned woken p := by
  obtain ⟨hindex, hcount⟩ := hbarrier
  cases p with
  | out => simpa [PlaceOk, hphase] using h
  | lock => simpa [PlaceOk, hphase] using h
  | take => simpa [PlaceOk, hphase] using h
  | store k ticket => simpa [PlaceOk, hphase, hindex, hcount] using h
  | clear k => simpa [PlaceOk, hphase, hindex, hcount] using h
  | reset k => simpa [PlaceOk, hphase, hindex, hcount] using h
  | leave k =>
    simp only [PlaceOk] at h
    have hentry := hwqdb k (by omega)
    simpa [PlaceOk, hphase, hindex, hcount, hentry] using h
  | sleep k =>
    simp only [PlaceOk, hphase, hindex, hcount] at h ⊢
    rcases h with ⟨he, hr, hw, hk, hentry⟩ | ⟨he, hr, hold⟩
    · exact .inl ⟨he, hr, hw, hk, (hwqdb k hk).trans hentry⟩
    · refine .inr ⟨he, hr, ?_⟩
      cases hw : woken with
      | true => exact .inl rfl
      | false =>
        obtain ⟨hle, hlt⟩ := hold.resolve_left (by simp [hw])
        exact .inr ⟨hpos k rfl he hw hle hlt, hlt⟩
  | count k => exact h.elim
  | unlock => cases hp
  | scan i ticket => cases hp
  | found i ticket u => cases hp
  | send i ticket u => cases hp

variable [DecidableEq ι] {f : Place ι → Bool} {place : ι → Place ι} {a a' : Option ι} {this : ι}

lemma marked_same (h : ∀ t, f (place t) = true ↔ a = some t) (hp : f p = f (place this)) (t : ι) :
    f (Function.update place this p t) = true ↔ a = some t := by
  rcases eq_or_ne t this with rfl | hne
  · rw [Function.update_self, hp]
    exact h t
  · rw [Function.update_of_ne hne]
    exact h t

lemma marked_set (h : ∀ t, f (place t) = true ↔ none = some t) (hp : f p = true) (t : ι) :
    f (Function.update place this p t) = true ↔ some this = some t := by
  rcases eq_or_ne t this with rfl | hne
  · simp [hp]
  · simp [Function.update_of_ne hne, h t, hne.symm]

lemma marked_clear (h : ∀ t, f (place t) = true ↔ some this = some t) (hp : f p = false) (t : ι) :
    f (Function.update place this p t) = true ↔ none = some t := by
  rcases eq_or_ne t this with rfl | hne
  · simp [hp]
  · simp [Function.update_of_ne hne, h t, hne.symm]

lemma entry_update (hp : p.entry = (place this).entry) (t : ι) :
    (Function.update place this p t).entry = (place t).entry := by
  rcases eq_or_ne t this with rfl | hne
  · rw [Function.update_self, hp]
  · rw [Function.update_of_ne hne]

end Frames

section Steps
variable [Fintype ι] [DecidableEq ι] {v v' : View ι} {s s' : State ι} {this : ι} {p : Place ι}
  {k : ℕ}

omit [Fintype ι] [DecidableEq ι] in
lemma Pending.congr {t : ι} (h : Pending v s t k) (hphase : v'.phase = v.phase)
    (hplace : s'.place t = s.place t) (hentered : s'.entered t = s.entered t)
    (hwoken : s'.woken t = s.woken t) : Pending v' s' t k :=
  ⟨hplace.trans h.1, hentered.trans (h.2.1.trans hphase.symm), hwoken.trans h.2.2⟩

omit [DecidableEq ι] in
lemma Ok.others_not_holding (h : Ok v s) (hthis : (s.place this).holds = true) {t : ι}
    (hne : t ≠ this) : (s.place t).holds = false := by
  by_contra hholds
  rw [Bool.not_eq_false] at hholds
  exact hne (Option.some.inj (((h.holder t).1 hholds).symm.trans ((h.holder this).1 hthis)))

omit [DecidableEq ι] in
lemma Ok.others_not_casting (h : Ok v s) (hthis : (s.place this).casts = true) {t : ι}
    (hne : t ≠ this) : (s.place t).casts = false := by
  by_contra hcasts
  rw [Bool.not_eq_false] at hcasts
  exact hne (Option.some.inj (((h.caster t).1 hcasts).symm.trans ((h.caster this).1 hthis)))

omit [Fintype ι] [DecidableEq ι] in
lemma EntriesOk.congr (h : EntriesOk v s) (hphase : v'.phase = v.phase)
    (hindex : s'.barrier.index = s.barrier.index)
    (hentry : ∀ t, (s'.place t).entry = (s.place t).entry)
    (hentered : ∀ t k, (s.place t).entry = some k → s'.entered t = s.entered t)
    (hwoken : s'.woken = s.woken) : EntriesOk v' s' := by
  refine ⟨fun k hk => ?_, fun t u k ht hu hsame hwt hwu => ?_⟩
  · rw [hindex] at hk
    obtain ⟨t, ht, htk⟩ := h.filled k hk
    exact ⟨t, by rw [hentered t k htk, ht, hphase], (hentry t).trans htk⟩
  · rw [hentry] at ht hu
    rw [hentered t k ht, hentered u k hu] at hsame
    rw [hwoken] at hwt hwu
    exact h.unique t u k ht hu hsame hwt hwu

omit [DecidableEq ι] in
lemma Ok.pending_congr (h : Ok v s) (hview : v'.phase = v.phase ∧ v'.pos = v.pos ∧ v'.hand = v.hand)
    (hcount : s'.barrier.count = s.barrier.count)
    (hwqdb : ∀ k, v.pos ≤ k → s'.barrier.wqdb k = s.barrier.wqdb k)
    (hthis : ∀ k, s.place this ≠ .sleep k) (hplace : ∀ t, t ≠ this → s'.place t = s.place t)
    (hentered : ∀ t, t ≠ this → s'.entered t = s.entered t) (hwoken : s'.woken = s.woken) (k : ℕ)
    (hle : v'.pos ≤ k) (hlt : k + 1 < s'.barrier.count) :
    ∃ t, Pending v' s' t k ∧ (s'.barrier.wqdb k = some t ∨ k = v'.pos ∧ v'.hand = some t) := by
  obtain ⟨hphase, hpos, hhand⟩ := hview
  rw [hpos] at hle
  rw [hcount] at hlt
  obtain ⟨t, ht, hslot⟩ := h.pending k hle hlt
  have hne : t ≠ this := by
    rintro rfl
    exact hthis k ht.1
  refine ⟨t, ht.congr hphase (hplace t hne) (hentered t hne) (congrFun hwoken t), ?_⟩
  rw [hwqdb k hle, hpos, hhand]
  exact hslot

lemma Ok.enter (h : Ok v s) (hat : s.place this = .out) : Ok v (s.enter this .lock) := by
  have hentered : ∀ t, t ≠ this → (s.enter this .lock).entered t = s.entered t := by
    intro t hne
    simp [State.enter, hne]
  refine ⟨h.shared, h.count, h.capacity, h.free, h.taken,
    marked_same h.holder (congrArg Place.holds hat).symm,
    marked_same h.caster (congrArg Place.casts hat).symm, fun t => ?_, fun t => ?_,
    h.entries.congr rfl rfl (entry_update (congrArg Place.entry hat).symm) (fun t k ht => ?_) rfl,
    h.behind, h.done,
    h.pending_congr ⟨rfl, rfl, rfl⟩ rfl (fun _ _ => rfl) (by simp [hat])
      (fun t hne => Function.update_of_ne hne _ _) hentered rfl⟩
  · rcases eq_or_ne t this with rfl | hne
    · simp [State.enter, State.goto, Place.holds]
    · simpa [State.enter, State.goto, hne] using h.locks t
  · have hplace := h.threads t
    rcases eq_or_ne t this with rfl | hne
    · simp only [hat, PlaceOk] at hplace
      simp only [State.enter, State.goto, Function.update_self, PlaceOk]
      exact ⟨by rw [hplace.1], hplace.2⟩
    · simpa [State.enter, State.goto, hne] using hplace
  · apply hentered
    rintro rfl
    rw [hat] at ht
    cases ht

lemma Ok.spinlockLock (h : Ok v s) (hat : s.place this = .lock) (hword : s.barrier.word = 0) :
    Ok { v with holder := some this } ((s.spinlockLock this).goto this .take) := by
  have hnone : v.holder = none := by
    by_contra hsome
    have hword' := h.taken hsome
    omega
  have hholder := h.holder
  rw [hnone] at hholder
  refine ⟨h.shared, h.count, h.capacity, fun hsome => by simp at hsome, fun _ => rfl,
    marked_set hholder rfl, marked_same h.caster (congrArg Place.casts hat).symm, fun t => ?_,
    fun t => ?_,
    h.entries.congr rfl rfl (entry_update (congrArg Place.entry hat).symm) (fun _ _ _ => rfl) rfl,
    h.behind, h.done,
    h.pending_congr ⟨rfl, rfl, rfl⟩ rfl (fun _ _ => rfl) (by simp [hat])
      (fun t hne => Function.update_of_ne hne _ _) (fun _ _ => rfl) rfl⟩
  · have hlocks := h.locks t
    rcases eq_or_ne t this with rfl | hne
    · simpa [State.spinlockLock, State.goto, Place.holds, hat] using hlocks
    · simpa [State.spinlockLock, State.goto, hne] using hlocks
  · have hplace := h.threads t
    rcases eq_or_ne t this with rfl | hne
    · simpa [State.spinlockLock, State.goto, PlaceOk, hat] using hplace
    · have hother : (s.place t).holds = false := by
        by_contra hholds
        rw [Bool.not_eq_false] at hholds
        cases (hholder t).1 hholds
      have hframe := hplace.frame_holder { v with holder := some this }
        { s.barrier with word := -1 } hother ⟨rfl, rfl, rfl⟩ ⟨le_rfl, rfl⟩
        (fun _ _ _ _ => rfl) fun _ => rfl
      simpa [State.spinlockLock, State.goto, hne] using hframe

lemma Ok.take (h : Ok v s) (hat : s.place this = .take) :
    Ok v ({ s with barrier := { s.barrier with index := s.barrier.index + 1 } }.goto this
      (.store s.barrier.index (s.barrier.count - s.barrier.index))) := by
  have hthis := h.threads this
  simp only [hat, PlaceOk] at hthis
  have hholds : (s.place this).holds = true := by rw [hat]; rfl
  have hholder : v.holder ≠ none := by simp [(h.holder this).1 hholds]
  have hlow : ∀ t, t ≠ this → s.entered t = v.phase + 1 → s.woken t = false →
      (s.place t).entry ≠ some s.barrier.index := by
    intro t hne he hw hentry
    have hother := h.others_not_holding hholds hne
    have hplace := h.threads t
    cases hp : s.place t with
    | sleep k =>
      simp only [hp, PlaceOk, Place.entry, Option.some.injEq] at hplace hentry
      omega
    | store k ticket => simp [hp, Place.holds] at hother
    | clear k => simp [hp, Place.holds] at hother
    | reset k => simp [hp, Place.holds] at hother
    | leave k => simp [hp, Place.holds] at hother
    | _ => simp [hp, Place.entry] at hentry
  refine ⟨h.shared, h.count, h.capacity, fun hnone => absurd hnone hholder, h.taken,
    marked_same h.holder (congrArg Place.holds hat).symm,
    marked_same h.caster (congrArg Place.casts hat).symm, fun t => ?_, fun t => ?_,
    ⟨fun k hk => ?_, fun t u k ht hu hsame hwt hwu => ?_⟩, h.index_lt_pos hat, h.done,
    h.pending_congr ⟨rfl, rfl, rfl⟩ rfl (fun _ _ => rfl) (by simp [hat])
      (fun t hne => Function.update_of_ne hne _ _) (fun _ _ => rfl) rfl⟩
  · have hlocks := h.locks t
    rcases eq_or_ne t this with rfl | hne
    · simpa [State.goto, Place.holds, hat] using hlocks
    · simpa [State.goto, hne] using hlocks
  · have hplace := h.threads t
    rcases eq_or_ne t this with rfl | hne
    · have hstore : PlaceOk v { s.barrier with index := s.barrier.index + 1 } t (s.entered t)
          (s.returned t) (s.woken t) (.store s.barrier.index (s.barrier.count - s.barrier.index)) :=
        ⟨hthis.1, hthis.2.1, hthis.2.2, rfl, rfl⟩
      simpa [State.goto] using hstore
    · have hframe := hplace.frame_holder v
        { s.barrier with index := s.barrier.index + 1 } (h.others_not_holding hholds hne)
        ⟨rfl, rfl, rfl⟩ ⟨Nat.le_succ _, rfl⟩ (fun _ _ _ _ => rfl) fun _ => rfl
      simpa [State.goto, hne] using hframe
  · rcases Nat.lt_succ_iff_lt_or_eq.1 hk with hlt | heq
    · obtain ⟨t, ht, htk⟩ := h.entries.filled k hlt
      have hne : t ≠ this := by
        rintro rfl
        rw [hat] at htk
        cases htk
      exact ⟨t, ht, by simpa [State.goto, hne] using htk⟩
    · exact ⟨this, hthis.1, by simp [State.goto, Place.entry, heq]⟩
  · rcases eq_or_ne t this with rfl | hnt
    · rcases eq_or_ne u t with rfl | hnu
      · rfl
      · simp only [State.goto, Function.update_self, Place.entry, Option.some.injEq,
          Function.update_of_ne hnu] at ht hu
        exact absurd (hu.trans (congrArg some ht.symm)) (hlow u hnu (hsame.symm.trans hthis.1) hwu)
    · rcases eq_or_ne u this with rfl | hnu
      · simp only [State.goto, Function.update_self, Place.entry, Option.some.injEq,
          Function.update_of_ne hnt] at ht hu
        exact absurd (ht.trans (congrArg some hu.symm)) (hlow t hnt (hsame.trans hthis.1) hwt)
      · simp only [State.goto, Function.update_of_ne hnt, Function.update_of_ne hnu] at ht hu
        exact h.entries.unique t u k ht hu hsame hwt hwu

lemma Ok.setListner {listner : Option ι} (h : Ok v s)
    (hthis : s.entered this = v.phase + 1 ∧ s.woken this = false)
    (hentry : (s.place this).entry = some k ∧ k + 1 = s.barrier.index)
    (hold : (s.place this).holds = true ∧ (s.place this).casts = false)
    (hnew : p.entry = some k ∧ p.holds = true ∧ p.casts = false)
    (hplace : PlaceOk v (s.setListner k listner).barrier this (s.entered this) (s.returned this)
      (s.woken this) p) : Ok v ((s.setListner k listner).goto this p) := by
  have hlow : k < v.pos := by
    have hbehind := h.behind
    omega
  have hne_sleep : ∀ j, s.place this ≠ .sleep j := by
    intro j hat
    simp [hat, Place.holds] at hold
  refine ⟨h.shared, h.count, h.capacity, h.free, h.taken,
    marked_same h.holder (hnew.2.1.trans hold.1.symm),
    marked_same h.caster (hnew.2.2.trans hold.2.symm), fun t => ?_, fun t => ?_,
    h.entries.congr rfl rfl (entry_update (hnew.1.trans hentry.1.symm)) (fun _ _ _ => rfl) rfl,
    h.behind, h.done,
    h.pending_congr ⟨rfl, rfl, rfl⟩ rfl (fun j hj => ?_) hne_sleep
      (fun t hne => Function.update_of_ne hne _ _) (fun _ _ => rfl) rfl⟩
  · have hlocks := h.locks t
    rcases eq_or_ne t this with rfl | hne
    · simpa [State.setListner, State.goto, hnew.2.1, hold.1] using hlocks
    · simpa [State.setListner, State.goto, hne] using hlocks
  · have hother := h.threads t
    rcases eq_or_ne t this with rfl | hne
    · simpa [State.goto, State.setListner] using hplace
    · have hframe := hother.frame_holder v (s.setListner k listner).barrier
        (h.others_not_holding hold.1 hne) ⟨rfl, rfl, rfl⟩ ⟨le_rfl, rfl⟩ (fun j hj he hw => by
          have hjk : j ≠ k := by
            rintro rfl
            refine hne (h.entries.unique t this j (by rw [hj]; rfl) hentry.1 ?_ hw hthis.2)
            rw [he, hthis.1]
          simp [State.setListner, hjk]) fun _ => by
          simp [State.setListner, hlow.ne']
      simpa [State.goto, State.setListner, hne] using hframe
  · have hjk : j ≠ k := by omega
    simp [State.setListner, State.goto, hjk]

lemma Ok.store {ticket : ℤ} (h : Ok v s) (hat : s.place this = .store k ticket) :
    Ok v ((s.setListner k (some this)).goto this (afterTicket k ticket)) := by
  have hthis := h.threads this
  simp only [hat, PlaceOk] at hthis
  obtain ⟨he, hr, hw, hk, hticket⟩ := hthis
  have hle := h.index_le
  have hentry : (s.place this).entry = some k ∧ k + 1 = s.barrier.index := ⟨by rw [hat]; rfl, hk⟩
  have hold : (s.place this).holds = true ∧ (s.place this).casts = false := by
    rw [hat]
    exact ⟨rfl, rfl⟩
  unfold afterTicket
  split_ifs with hlast
  · refine h.setListner ⟨he, hw⟩ hentry hold ⟨rfl, rfl, rfl⟩ ?_
    have hcount : s.barrier.index = s.barrier.count := by omega
    exact ⟨he, hr, hw, hk, hcount⟩
  · refine h.setListner ⟨he, hw⟩ hentry hold ⟨rfl, rfl, rfl⟩ ?_
    have hcount : s.barrier.index < s.barrier.count := by omega
    exact ⟨he, hr, hw, hk, hcount, by simp [State.setListner]⟩

lemma Ok.clear (h : Ok v s) (hat : s.place this = .clear k) :
    Ok v ((s.setListner k none).goto this (.reset k)) := by
  have hthis := h.threads this
  simp only [hat, PlaceOk] at hthis
  obtain ⟨he, hr, hw, hk, hcount⟩ := hthis
  refine h.setListner ⟨he, hw⟩ ⟨by rw [hat]; rfl, hk⟩ ?_ ⟨rfl, rfl, rfl⟩ ⟨he, hr, hw, hk, hcount⟩
  rw [hat]
  exact ⟨rfl, rfl⟩

lemma Ok.spinlockUnlock (h : Ok v s) (hroom : s.barrier.index < s.barrier.count)
    (hthis : (s.place this).holds = true)
    (hp : p.holds = false ∧ p.casts = (s.place this).casts ∧ p.entry = (s.place this).entry)
    (hplace : PlaceOk { v with holder := none } s.barrier this (s.entered this) (s.returned this)
      (s.woken this) p) :
    Ok { v with holder := none } ((s.spinlockUnlock this).goto this p) := by
  have hholder := h.holder
  rw [(h.holder this).1 hthis] at hholder
  have hword : s.barrier.word = -1 := h.taken (by simp [(h.holder this).1 hthis])
  have hne_sleep : ∀ j, s.place this ≠ .sleep j := by
    intro j hat
    simp [hat, Place.holds] at hthis
  refine ⟨h.shared, h.count, h.capacity, fun _ => ⟨?_, hroom⟩, fun hsome => absurd rfl hsome,
    marked_clear hholder hp.1, marked_same h.caster hp.2.1, fun t => ?_, fun t => ?_,
    h.entries.congr rfl rfl (entry_update hp.2.2) (fun _ _ _ => rfl) rfl, h.behind, h.done,
    h.pending_congr ⟨rfl, rfl, rfl⟩ rfl (fun _ _ => rfl) hne_sleep
      (fun t hne => Function.update_of_ne hne _ _) (fun _ _ => rfl) rfl⟩
  · simp [State.spinlockUnlock, State.goto, hword]
  · have hlocks := h.locks t
    rcases eq_or_ne t this with rfl | hne
    · rw [if_pos hthis] at hlocks
      simp only [State.spinlockUnlock, State.goto, Function.update_self, hp.1]
      rw [if_neg (by simp)]
      omega
    · simpa [State.spinlockUnlock, State.goto, hne] using hlocks
  · have hother := h.threads t
    rcases eq_or_ne t this with rfl | hne
    · have hsame : PlaceOk { v with holder := none } (s.spinlockUnlock t).barrier t (s.entered t)
          (s.returned t) (s.woken t) p := by
        cases p <;> exact hplace
      simpa [State.goto, State.spinlockUnlock] using hsame
    · have hframe := hother.frame_holder { v with holder := none }
        (s.spinlockUnlock this).barrier (h.others_not_holding hthis hne) ⟨rfl, rfl, rfl⟩
        ⟨le_rfl, rfl⟩ (fun _ _ _ _ => rfl) fun _ => rfl
      simpa [State.spinlockUnlock, State.goto, hne] using hframe

lemma Ok.leave (h : Ok v s) (hat : s.place this = .leave k) :
    Ok { v with holder := none } ((s.spinlockUnlock this).goto this (.sleep k)) := by
  have hthis := h.threads this
  simp only [hat, PlaceOk] at hthis
  obtain ⟨he, hr, hw, hk, hroom, hentry⟩ := hthis
  refine h.spinlockUnlock hroom (by rw [hat]; rfl) ?_ (.inl ⟨he, hr, hw, by omega, hentry⟩)
  rw [hat]
  exact ⟨rfl, rfl, rfl⟩

lemma Ok.unlock (h : Ok v s) (hat : s.place this = .unlock) :
    Ok { v with holder := none } ((s.spinlockUnlock this).goto this (.scan 0 0)) := by
  have hthis := h.threads this
  simp only [hat, PlaceOk] at hthis
  obtain ⟨he, hr, hw, hindex, hpos, hhand⟩ := hthis
  have hcount := h.capacity.1
  refine h.spinlockUnlock (by omega) (by rw [hat]; rfl) ?_ ⟨he, hr, hw, rfl, hpos, hhand, hcount⟩
  rw [hat]
  exact ⟨rfl, rfl, rfl⟩

def View.next (v : View ι) (this : ι) : View ι := ⟨v.phase + 1, v.holder, some this, 0, none⟩

omit [DecidableEq ι] in
/-- Who is not the last thread of a complete phase sleeps, with its entry in the table. -/
lemma Ok.asleep (h : Ok v s) (hat : s.place this = .reset k) {t : ι} (hne : t ≠ this) :
    ∃ j, s.place t = .sleep j ∧ s.entered t = v.phase + 1 ∧ s.returned t = v.phase ∧
      s.woken t = false ∧ j + 1 < s.barrier.count ∧ s.barrier.wqdb j = some t := by
  have hthis := h.threads this
  simp only [hat, PlaceOk] at hthis
  obtain ⟨he, hr, hw, hk, hcount⟩ := hthis
  obtain ⟨het, j, hj⟩ := h.all_arrived hcount t
  have hholds : (s.place this).holds = true := by rw [hat]; rfl
  have hother := h.others_not_holding hholds hne
  have hplace := h.threads t
  cases hp : s.place t with
  | sleep i =>
    simp only [hp, PlaceOk, Place.entry, Option.some.injEq] at hplace hj
    subst hj
    rcases hplace with ⟨-, hrt, hwt, hjlt, hslot⟩ | ⟨heq, -⟩
    · have hjk : i ≠ k := by
        rintro rfl
        exact hne (h.entries.unique t this i (by rw [hp]; rfl) (by rw [hat]; rfl)
          (het.trans he.symm) hwt hw)
      exact ⟨i, rfl, het, hrt, hwt, by omega, hslot⟩
    · omega
  | store i ticket => simp [hp, Place.holds] at hother
  | clear i => simp [hp, Place.holds] at hother
  | reset i => simp [hp, Place.holds] at hother
  | leave i => simp [hp, Place.holds] at hother
  | _ => simp [hp, Place.entry] at hj

lemma Ok.reset (h : Ok v s) (hat : s.place this = .reset k) :
    Ok (v.next this) ({ s with barrier := { s.barrier with index := 0 } }.goto this .unlock) := by
  have hthis := h.threads this
  simp only [hat, PlaceOk] at hthis
  obtain ⟨he, hr, hw, hk, hcount⟩ := hthis
  have hholds : (s.place this).holds = true := by rw [hat]; rfl
  have hholder : v.holder ≠ none := by simp [(h.holder this).1 hholds]
  have hnone : v.caster = none := by
    by_contra hsome
    obtain ⟨b, hb⟩ := Option.ne_none_iff_exists'.1 hsome
    have hold := (h.caster_spec hb).1
    have hnew := (h.all_arrived hcount b).1
    omega
  have hcaster := h.caster
  rw [hnone] at hcaster
  refine ⟨h.shared, h.count, h.capacity, fun hfree => absurd hfree hholder, fun _ => h.taken hholder,
    marked_same h.holder (congrArg Place.holds hat).symm, marked_set hcaster rfl, fun t => ?_,
    fun t => ?_, ⟨fun j hj => absurd hj (Nat.not_lt_zero j), fun t u j ht hu hsame hwt hwu => ?_⟩,
    le_rfl, fun hsome => absurd hsome (by simp [View.next]), fun j _ hlt => ?_⟩
  · have hlocks := h.locks t
    rcases eq_or_ne t this with rfl | hne
    · simpa [State.goto, Place.holds, hat] using hlocks
    · simpa [State.goto, hne] using hlocks
  · rcases eq_or_ne t this with rfl | hne
    · have hunlock : PlaceOk (v.next t) { s.barrier with index := 0 } t (s.entered t)
          (s.returned t) (s.woken t) .unlock := ⟨he, by rw [hr]; rfl, hw, rfl, rfl, rfl⟩
      simpa [State.goto] using hunlock
    · obtain ⟨j, hp, het, hrt, hwt, hj, -⟩ := h.asleep hat hne
      have hsleep : PlaceOk (v.next this) { s.barrier with index := 0 } t (s.entered t)
          (s.returned t) (s.woken t) (.sleep j) :=
        .inr ⟨het, by rw [hrt]; rfl, .inr ⟨Nat.zero_le j, hj⟩⟩
      simpa [State.goto, hne, hp] using hsleep
  · have hother : ∀ w, (({ s with barrier := { s.barrier with index := 0 } }.goto this
        .unlock).place w).entry = some j → (s.place w).entry = some j := by
      intro w hw
      rcases eq_or_ne w this with rfl | hne
      · simp [State.goto, Place.entry] at hw
      · simpa [State.goto, hne] using hw
    exact h.entries.unique t u j (hother t ht) (hother u hu) hsame hwt hwu
  · obtain ⟨t, het, htj⟩ := h.entries.filled j (by rw [hcount]; exact (Nat.lt_succ_self j).trans hlt)
    have hne : t ≠ this := by
      rintro rfl
      rw [hat] at htj
      have hjk := Option.some.inj htj
      have hlt' : j + 1 < s.barrier.count := hlt
      omega
    obtain ⟨i, hp, -, -, hwt, -, hslot⟩ := h.asleep hat hne
    rw [hp] at htj
    obtain rfl := Option.some.inj htj
    exact ⟨t, ⟨by simpa [State.goto, hne] using hp, het, hwt⟩, .inl hslot⟩

lemma Ok.gotoCast (h : Ok v s) (hold : (s.place this).casts = true ∧ (s.place this).holds = false)
    (hnew : p.casts = true ∧ p.holds = false ∧ p.entry = none)
    (hplace : PlaceOk v s.barrier this (s.entered this) (s.returned this) (s.woken this) p) :
    Ok v (s.goto this p) := by
  have hentry : (s.place this).entry = none := by
    cases hat : s.place this with
    | unlock => rfl
    | scan i ticket => rfl
    | found i ticket u => rfl
    | send i ticket u => rfl
    | _ => simp [hat, Place.casts] at hold
  have hne_sleep : ∀ j, s.place this ≠ .sleep j := by
    intro j hat
    simp [hat, Place.casts] at hold
  refine ⟨h.shared, h.count, h.capacity, h.free, h.taken,
    marked_same h.holder (hnew.2.1.trans hold.2.symm),
    marked_same h.caster (hnew.1.trans hold.1.symm), fun t => ?_, fun t => ?_,
    h.entries.congr rfl rfl (entry_update (hnew.2.2.trans hentry.symm)) (fun _ _ _ => rfl) rfl,
    h.behind, h.done,
    h.pending_congr ⟨rfl, rfl, rfl⟩ rfl (fun _ _ => rfl) hne_sleep
      (fun t hne => Function.update_of_ne hne _ _) (fun _ _ => rfl) rfl⟩
  · have hlocks := h.locks t
    rcases eq_or_ne t this with rfl | hne
    · simpa [State.goto, hnew.2.1, hold.2] using hlocks
    · simpa [State.goto, hne] using hlocks
  · rcases eq_or_ne t this with rfl | hne
    · simpa [State.goto] using hplace
    · simpa [State.goto, hne] using h.threads t

omit [DecidableEq ι] in
lemma Ok.next_listner {i ticket : ℕ} (h : Ok v s) (hat : s.place this = .scan i ticket)
    (hmore : ticket < s.barrier.count - 1) : ∃ u, s.barrier.wqdb i = some u := by
  have hthis := h.threads this
  simp only [hat, PlaceOk] at hthis
  obtain ⟨he, hr, hw, hticket, hpos, hhand, hle⟩ := hthis
  obtain ⟨u, -, hslot | ⟨-, hslot⟩⟩ := h.pending i (by omega) (by omega)
  · exact ⟨u, hslot⟩
  · rw [hhand] at hslot
    cases hslot

lemma Ok.scan {i ticket : ℕ} {u : ι} (h : Ok v s) (hat : s.place this = .scan i ticket)
    (hmore : ticket < s.barrier.count - 1) (hslot : s.barrier.wqdb i = some u) :
    Ok v (s.goto this (.found i ticket u)) := by
  have hthis := h.threads this
  simp only [hat, PlaceOk] at hthis
  obtain ⟨he, hr, hw, hticket, hpos, hhand, hle⟩ := hthis
  refine h.gotoCast ?_ ⟨rfl, rfl, rfl⟩ ⟨he, hr, hw, hticket, hpos, hhand, by omega, hslot⟩
  rw [hat]
  exact ⟨rfl, rfl⟩

lemma Ok.found {i ticket : ℕ} {u : ι} (h : Ok v s) (hat : s.place this = .found i ticket u) :
    Ok { v with hand := some u } ((s.setListner i none).goto this (.send i ticket u)) := by
  have hthis := h.threads this
  simp only [hat, PlaceOk] at hthis
  obtain ⟨he, hr, hw, hticket, hpos, hhand, hlt, hslot⟩ := hthis
  have hcasts : (s.place this).casts = true := by rw [hat]; rfl
  refine ⟨h.shared, h.count, h.capacity, h.free, h.taken,
    marked_same h.holder (congrArg Place.holds hat).symm,
    marked_same h.caster (congrArg Place.casts hat).symm, fun t => ?_, fun t => ?_,
    h.entries.congr rfl rfl (entry_update (congrArg Place.entry hat).symm) (fun _ _ _ => rfl) rfl,
    h.behind, h.done, fun j hle hj => ?_⟩
  · have hlocks := h.locks t
    rcases eq_or_ne t this with rfl | hne
    · simpa [State.setListner, State.goto, Place.holds, hat] using hlocks
    · simpa [State.setListner, State.goto, hne] using hlocks
  · rcases eq_or_ne t this with rfl | hne
    · have hsend : PlaceOk { v with hand := some u } (s.setListner i none).barrier t (s.entered t)
          (s.returned t) (s.woken t) (.send i ticket u) :=
        ⟨he, hr, hw, hticket, hpos, rfl, hlt, by simp [State.setListner]⟩
      simpa [State.goto, State.setListner] using hsend
    · have hbehind := h.behind
      have hframe := (h.threads t).frame_caster { v with hand := some u }
        (s.setListner i none).barrier (h.others_not_casting hcasts hne) rfl ⟨rfl, rfl⟩
        (fun k hk => by
          have hki : k ≠ i := by omega
          simp [State.setListner, hki]) fun k _ _ _ hle _ => hle
      simpa [State.goto, State.setListner, hne] using hframe
  · obtain ⟨t, ht, hentry⟩ := h.pending j hle hj
    have hne : t ≠ this := by
      rintro rfl
      rw [ht.1] at hat
      cases hat
    refine ⟨t, ht.congr rfl (by simp [State.goto, State.setListner, hne]) rfl rfl, ?_⟩
    rcases hentry with hentry | ⟨-, hentry⟩
    · by_cases hji : j = i
      · subst hji
        exact .inr ⟨hpos.symm, hslot.symm.trans hentry⟩
      · exact .inl (by simpa [State.goto, State.setListner, hji] using hentry)
    · rw [hhand] at hentry
      cases hentry

omit [DecidableEq ι] in
lemma Ok.in_hand {i ticket : ℕ} {u : ι} (h : Ok v s) (hat : s.place this = .send i ticket u) :
    Pending v s u i ∧ u ≠ this := by
  have hthis := h.threads this
  simp only [hat, PlaceOk] at hthis
  obtain ⟨he, hr, hw, hticket, hpos, hhand, hlt, hslot⟩ := hthis
  obtain ⟨t, ht, hentry | ⟨-, hentry⟩⟩ := h.pending i (by omega) hlt
  · rw [hslot] at hentry
    cases hentry
  · obtain rfl : u = t := Option.some.inj (hhand.symm.trans hentry)
    refine ⟨ht, ?_⟩
    rintro rfl
    rw [ht.1] at hat
    cases hat

lemma Ok.send {i ticket : ℕ} {u : ι} (h : Ok v s) (hat : s.place this = .send i ticket u) :
    Ok { v with pos := i + 1, hand := none }
      ((s.send this u).goto this (.scan (i + 1) (ticket + 1))) := by
  obtain ⟨hu, hne_u⟩ := h.in_hand hat
  have hthis := h.threads this
  simp only [hat, PlaceOk] at hthis
  obtain ⟨he, hr, hw, hticket, hpos, hhand, hlt, hslot⟩ := hthis
  have hcasts : (s.place this).casts = true := by rw [hat]; rfl
  have hentry : ∀ t, (((s.send this u).goto this (.scan (i + 1) (ticket + 1))).place t).entry =
      (s.place t).entry := entry_update (congrArg Place.entry hat).symm
  have hwoken : ∀ t, (s.send this u).woken t = false → t ≠ u ∧ s.woken t = false := by
    intro t ht
    rcases eq_or_ne t u with rfl | hne
    · simp [State.send] at ht
    · exact ⟨hne, by simpa [State.send, hne] using ht⟩
  refine ⟨h.shared, h.count, h.capacity, h.free, h.taken,
    marked_same h.holder (congrArg Place.holds hat).symm,
    marked_same h.caster (congrArg Place.casts hat).symm, fun t => ?_, fun t => ?_,
    ⟨fun k hk => ?_, fun t w k ht hk hsame hwt hww => ?_⟩, ?_, fun hnone => ?_, fun j hle hj => ?_⟩
  · have hlocks := h.locks t
    rcases eq_or_ne t this with rfl | hne
    · simpa [State.send, State.goto, Place.holds, hat] using hlocks
    · simpa [State.send, State.goto, hne] using hlocks
  · rcases eq_or_ne t this with rfl | hne
    · have hscan : PlaceOk { v with pos := i + 1, hand := none } s.barrier t (s.entered t)
          (s.returned t) (s.woken t) (.scan (i + 1) (ticket + 1)) :=
        ⟨he, hr, hw, by omega, rfl, rfl, hlt⟩
      simpa [State.goto, State.send, hne_u.symm] using hscan
    · rcases eq_or_ne t u with rfl | hnu
      · have hplace := h.threads t
        simp only [hu.1, PlaceOk] at hplace
        have hsleep : PlaceOk { v with pos := i + 1, hand := none } s.barrier t (s.entered t)
            (s.returned t) true (.sleep i) := by
          rcases hplace with ⟨hnew, -⟩ | ⟨hold, hrt, -⟩
          · have holdt := hu.2.1
            omega
          · exact .inr ⟨hold, hrt, .inl rfl⟩
        simpa [State.goto, State.send, hne, hu.1] using hsleep
      · have hframe := (h.threads t).frame_caster { v with pos := i + 1, hand := none }
          s.barrier (h.others_not_casting hcasts hne) rfl ⟨rfl, rfl⟩ (fun _ _ => rfl)
          fun k hp het hwt hle _ => by
            have hki : k ≠ i := by
              rintro rfl
              refine hnu (h.entries.unique t u k (by rw [hp]; rfl) (by rw [hu.1]; rfl) ?_ hwt hu.2.2)
              rw [het, hu.2.1]
            simp only
            omega
        simpa [State.goto, State.send, hne, hnu] using hframe
  · obtain ⟨t, ht, htk⟩ := h.entries.filled k hk
    exact ⟨t, ht, (hentry t).trans htk⟩
  · rw [hentry] at ht hk
    exact h.entries.unique t w k ht hk hsame (hwoken t hwt).2 (hwoken w hww).2
  · have hbehind : s.barrier.index ≤ v.pos := h.behind
    have hle : s.barrier.index ≤ i + 1 := by omega
    exact hle
  · have hcaster := (h.caster this).1 hcasts
    exact absurd (hcaster.symm.trans hnone) (by simp)
  · have hle' : i + 1 ≤ j := hle
    obtain ⟨t, ht, hentry' | ⟨hji, -⟩⟩ := h.pending j (by omega) hj
    · have hne : t ≠ this := by
        rintro rfl
        rw [ht.1] at hat
        cases hat
      have hnu : t ≠ u := by
        rintro rfl
        have hsame := Place.sleep.inj (ht.1.symm.trans hu.1)
        omega
      refine ⟨t, ht.congr rfl ?_ rfl ?_, .inl hentry'⟩
      · simp [State.goto, State.send, hne]
      · simp [State.goto, State.send, hnu]
    · omega

lemma Ok.returnSerial {i ticket : ℕ} (h : Ok v s) (hat : s.place this = .scan i ticket)
    (hend : ¬(i < wqdbCapacity ∧ ticket < s.barrier.count - 1)) :
    Ok { v with caster := none, pos := s.barrier.count } (s.returnSerial this) := by
  have hthis := h.threads this
  simp only [hat, PlaceOk] at hthis
  obtain ⟨he, hr, hw, hticket, hpos, hhand, hle⟩ := hthis
  have hcapacity := h.capacity
  have hi : i + 1 = s.barrier.count := by omega
  have hcasts : (s.place this).casts = true := by rw [hat]; rfl
  have hcaster := h.caster
  rw [(h.caster this).1 hcasts] at hcaster
  refine ⟨h.shared, h.count, h.capacity, h.free, h.taken,
    marked_same h.holder (congrArg Place.holds hat).symm, marked_clear hcaster rfl, fun t => ?_,
    fun t => ?_,
    h.entries.congr rfl rfl (entry_update (congrArg Place.entry hat).symm) (fun _ _ _ => rfl) rfl,
    h.index_le, fun _ => rfl, fun j hj hlt => ?_⟩
  · have hlocks := h.locks t
    rcases eq_or_ne t this with rfl | hne
    · simpa [State.returnSerial, State.returns, State.goto, Place.holds, hat] using hlocks
    · simpa [State.returnSerial, State.returns, State.goto, hne] using hlocks
  · rcases eq_or_ne t this with rfl | hne
    · have hout : PlaceOk { v with caster := none, pos := s.barrier.count } s.barrier t (s.entered t)
          (s.returned t + 1) (s.woken t) .out := ⟨he, hr, hw⟩
      simpa [State.returnSerial, State.returns, State.goto] using hout
    · have hframe := (h.threads t).frame_caster
        { v with caster := none, pos := s.barrier.count } s.barrier
        (h.others_not_casting hcasts hne) rfl ⟨rfl, rfl⟩ (fun _ _ => rfl)
        fun k _ _ _ hk hlt => by omega
      simpa [State.returnSerial, State.returns, State.goto, hne] using hframe
  · have hj' : s.barrier.count ≤ j := hj
    have hlt' : j + 1 < s.barrier.count := hlt
    omega

lemma Ok.wake (h : Ok v s) (hat : s.place this = .sleep k) (hwoken : s.woken this = true) :
    Ok v ({ s with woken := Function.update s.woken this false }.returns this) := by
  have hthis := h.threads this
  simp only [hat, PlaceOk] at hthis
  obtain ⟨he, hr, -⟩ := hthis.resolve_left (by simp [hwoken])
  have hother : ∀ t j, (({ s with woken := Function.update s.woken this false }.returns this).place
      t).entry = some j → t ≠ this ∧ (s.place t).entry = some j := by
    intro t j ht
    rcases eq_or_ne t this with rfl | hne
    · simp [State.returns, State.goto, Place.entry] at ht
    · exact ⟨hne, by simpa [State.returns, State.goto, hne] using ht⟩
  refine ⟨h.shared, h.count, h.capacity, h.free, h.taken,
    marked_same h.holder (congrArg Place.holds hat).symm,
    marked_same h.caster (congrArg Place.casts hat).symm, fun t => ?_, fun t => ?_,
    ⟨fun j hj => ?_, fun t u j ht hu hsame hwt hwu => ?_⟩, h.behind, h.done, fun j hle hlt => ?_⟩
  · have hlocks := h.locks t
    rcases eq_or_ne t this with rfl | hne
    · simpa [State.returns, State.goto, Place.holds, hat] using hlocks
    · simpa [State.returns, State.goto, hne] using hlocks
  · rcases eq_or_ne t this with rfl | hne
    · have hout : PlaceOk v s.barrier t (s.entered t) (s.returned t + 1) false .out :=
        ⟨he, hr, rfl⟩
      simpa [State.returns, State.goto] using hout
    · simpa [State.returns, State.goto, hne] using h.threads t
  · obtain ⟨t, ht, htj⟩ := h.entries.filled j hj
    have hne : t ≠ this := by
      rintro rfl
      omega
    exact ⟨t, ht, by simpa [State.returns, State.goto, hne] using htj⟩
  · obtain ⟨hnt, ht⟩ := hother t j ht
    obtain ⟨hnu, hu⟩ := hother u j hu
    have hwt' : s.woken t = false := by simpa [State.returns, State.goto, hnt] using hwt
    have hwu' : s.woken u = false := by simpa [State.returns, State.goto, hnu] using hwu
    exact h.entries.unique t u j ht hu hsame hwt' hwu'
  · obtain ⟨t, ht, hslot⟩ := h.pending j hle hlt
    have hne : t ≠ this := by
      rintro rfl
      exact absurd (ht.2.2.symm.trans hwoken) (by simp)
    exact ⟨t, ht.congr rfl (by simp [State.returns, State.goto, hne]) rfl
      (by simp [State.returns, State.goto, hne]), hslot⟩

omit [Fintype ι] [DecidableEq ι] in
lemma HistoryOk.congr (this : ι) (h : HistoryOk v s)
    (hview : v'.phase = v.phase ∧ v'.caster = v.caster)
    (hserial : s'.serial = s.serial) (hwakes : s'.wakes = s.wakes)
    (hthis : (∃ j, Pending v' s' this j) ↔ ∃ j, Pending v s this j)
    (hplace : ∀ t, t ≠ this → s'.place t = s.place t)
    (hentered : ∀ t, t ≠ this → s'.entered t = s.entered t)
    (hwoken : ∀ t, t ≠ this → s'.woken t = s.woken t) : HistoryOk v' s' := by
  obtain ⟨hphase, hcaster⟩ := hview
  refine ⟨?_, fun b hb => ?_, ?_, ?_, ?_⟩
  · rw [hphase, hserial, hwakes]
    exact h.future
  · rw [hcaster] at hb
    rw [hphase, hserial, hwakes]
    refine ⟨(h.active b hb).1, fun t => ?_⟩
    rw [(h.active b hb).2 t]
    rcases eq_or_ne t this with rfl | hne
    · rw [hthis]
    · simp only [Pending, hplace t hne, hentered t hne, hwoken t hne, hphase]
  · rw [hphase, hcaster, hserial, hwakes]
    exact h.past
  · rw [hwakes]
    exact h.tagged
  · rw [hwakes]
    exact h.nodup

omit [Fintype ι] [DecidableEq ι] in
lemma not_pending_of_place (h : ∀ j, s.place this ≠ .sleep j) : ¬∃ j, Pending v s this j := by
  rintro ⟨j, hj⟩
  exact h j hj.1

omit [Fintype ι] [DecidableEq ι] in
lemma not_pending_of_entered (h : s.entered this ≠ v.phase) : ¬∃ j, Pending v s this j := by
  rintro ⟨j, hj⟩
  exact h hj.2.1

omit [Fintype ι] in
lemma HistoryOk.goto (h : HistoryOk v s) (hphase : v'.phase = v.phase ∧ v'.caster = v.caster)
    (hserial : s'.serial = s.serial) (hwakes : s'.wakes = s.wakes)
    (hplace : s'.place = Function.update s.place this p)
    (hentered : ∀ t, t ≠ this → s'.entered t = s.entered t) (hwoken : s'.woken = s.woken)
    (hold : ∀ j, s.place this ≠ .sleep j)
    (hnew : (∀ j, p ≠ .sleep j) ∨ s'.entered this ≠ v.phase) : HistoryOk v' s' := by
  refine h.congr this hphase hserial hwakes (iff_of_false ?_ (not_pending_of_place hold)) (fun t hne => ?_)
    hentered fun t _ => congrFun hwoken t
  · rcases hnew with hnew | hnew
    · apply not_pending_of_place
      intro j
      rw [hplace, Function.update_self]
      exact hnew j
    · apply not_pending_of_entered
      rw [hphase.1]
      exact hnew
  · rw [hplace, Function.update_of_ne hne]

lemma HistoryOk.reset (h : HistoryOk v s) (hok : Ok v s) (hat : s.place this = .reset k) :
    HistoryOk (v.next this)
      ({ s with barrier := { s.barrier with index := 0 } }.goto this .unlock) := by
  have hnone : v.caster = none := by
    by_contra hsome
    obtain ⟨b, hb⟩ := Option.ne_none_iff_exists'.1 hsome
    have hthis := hok.threads this
    simp only [hat, PlaceOk] at hthis
    have hold := (hok.caster_spec hb).1
    have hnew := (hok.all_arrived hthis.2.2.2.2 b).1
    omega
  refine ⟨fun p hp => ?_, fun b hb => ?_, fun p hp hlt => ?_, h.tagged, h.nodup⟩
  · simp only [View.next] at hp
    exact h.future p (by omega)
  · obtain rfl : this = b := Option.some.inj hb
    obtain ⟨hserial, hwakes⟩ := h.future (v.phase + 1) (.inr (Nat.lt_succ_self _))
    refine ⟨hserial, fun t => iff_of_false ?_ ?_⟩
    · simp only [State.goto, View.next, hwakes]
      exact List.not_mem_nil
    · rintro ⟨hne, hnot⟩
      obtain ⟨j, hp, he, -, hwt, -, -⟩ := hok.asleep hat hne
      exact hnot ⟨j, by simpa [State.goto, hne] using hp, he, hwt⟩
  · simp only [View.next, reduceCtorEq, and_false, or_false] at hlt
    exact h.past p hp (by
      rcases Nat.lt_succ_iff_lt_or_eq.1 hlt with hlt | heq
      · exact .inl hlt
      · exact .inr ⟨heq, hnone⟩)

lemma HistoryOk.send {i ticket : ℕ} {u : ι} (h : HistoryOk v s) (hok : Ok v s)
    (hat : s.place this = .send i ticket u) :
    HistoryOk { v with pos := i + 1, hand := none }
      ((s.send this u).goto this (.scan (i + 1) (ticket + 1))) := by
  obtain ⟨hu, hne_u⟩ := hok.in_hand hat
  have hcasts : (s.place this).casts = true := by rw [hat]; rfl
  have hcaster := (hok.caster this).1 hcasts
  have he := (hok.caster_spec hcaster).1
  obtain ⟨hserial, hwakes⟩ := h.active this hcaster
  have hnew : ((s.send this u).goto this (.scan (i + 1) (ticket + 1))).wakes =
      Function.update s.wakes v.phase ((u, v.phase) :: s.wakes v.phase) := by
    simp [State.send, State.goto, he, hu.2.1]
  have hnot : (u, v.phase) ∉ s.wakes v.phase := by
    rw [hwakes]
    exact fun hmem => hmem.2 ⟨i, hu⟩
  refine ⟨fun p hp => ?_, fun b hb => ?_, fun p hp hlt => ?_, fun p x hx => ?_, fun p => ?_⟩
  · have hold := h.future p hp
    have hne : p ≠ v.phase := by
      rintro rfl
      rcases hp with hzero | hlt
      · have hr := hok.threads this
        simp only [hat, PlaceOk] at hr
        omega
      · exact absurd hlt (lt_irrefl _)
    rw [hnew, Function.update_of_ne hne]
    exact hold
  · obtain rfl : this = b := Option.some.inj (hcaster.symm.trans hb)
    refine ⟨hserial, fun t => ?_⟩
    rw [hnew, Function.update_self, List.mem_cons, hwakes, Prod.mk.injEq]
    rcases eq_or_ne t u with rfl | hnu
    · have hgone : ¬∃ j, Pending { v with pos := i + 1, hand := none }
          ((s.send this t).goto this (.scan (i + 1) (ticket + 1))) t j := by
        rintro ⟨j, -, -, hwoken⟩
        simp [State.send, State.goto] at hwoken
      exact iff_of_true (.inl ⟨rfl, rfl⟩) ⟨hne_u, hgone⟩
    · rcases eq_or_ne t this with rfl | hne
      · exact iff_of_false (by simp [hnu]) (by simp)
      · have hsame : (∃ j, Pending { v with pos := i + 1, hand := none }
            ((s.send this u).goto this (.scan (i + 1) (ticket + 1))) t j) ↔ ∃ j, Pending v s t j := by
          simp [Pending, State.send, State.goto, hne, hnu]
        rw [hsame]
        simp [hnu]
  · have hne : p ≠ v.phase := by
      rintro rfl
      rcases hlt with hlt | ⟨-, hnone⟩
      · exact absurd hlt (lt_irrefl _)
      · exact absurd (hcaster.symm.trans hnone) (by simp)
    have hold := h.past p hp (.inl (hlt.resolve_right fun hlt => hne hlt.1))
    rw [hnew, Function.update_of_ne hne]
    exact hold
  · rw [hnew] at hx
    rcases eq_or_ne p v.phase with rfl | hne
    · rw [Function.update_self, List.mem_cons] at hx
      rcases hx with rfl | hx
      · rfl
      · exact h.tagged _ x hx
    · rw [Function.update_of_ne hne] at hx
      exact h.tagged p x hx
  · rw [hnew]
    rcases eq_or_ne p v.phase with rfl | hne
    · rw [Function.update_self]
      exact List.nodup_cons.2 ⟨hnot, h.nodup _⟩
    · rw [Function.update_of_ne hne]
      exact h.nodup p

lemma HistoryOk.returnSerial {i ticket : ℕ} (h : HistoryOk v s) (hok : Ok v s)
    (hat : s.place this = .scan i ticket)
    (hend : ¬(i < wqdbCapacity ∧ ticket < s.barrier.count - 1)) :
    HistoryOk { v with caster := none, pos := s.barrier.count } (s.returnSerial this) := by
  have hthis := hok.threads this
  simp only [hat, PlaceOk] at hthis
  obtain ⟨he, hr, hw, hticket, hpos, hhand, hle⟩ := hthis
  have hcapacity := hok.capacity
  have hcasts : (s.place this).casts = true := by rw [hat]; rfl
  have hcaster := (hok.caster this).1 hcasts
  obtain ⟨hserial, hwakes⟩ := h.active this hcaster
  have hnone : ∀ t, ¬∃ j, Pending v s t j := by
    rintro t ⟨j, hp, het, hwt⟩
    have hplace := hok.threads t
    simp only [hp, PlaceOk] at hplace
    rcases hplace with ⟨hnew, -⟩ | ⟨-, -, hwoken | hpend⟩
    · omega
    · exact absurd (hwt.symm.trans hwoken) (by simp)
    · omega
  have hnew : (s.returnSerial this).serial = Function.update s.serial v.phase [this] := by
    simp [State.returnSerial, State.returns, he, hserial]
  refine ⟨fun p hp => ?_, fun b hb => by simp at hb, fun p hp hlt => ?_, h.tagged, h.nodup⟩
  · have hold := h.future p hp
    have hne : p ≠ v.phase := by
      rintro rfl
      rcases hp with hzero | hlt
      · omega
      · exact absurd hlt (lt_irrefl _)
    rw [hnew, Function.update_of_ne hne]
    exact hold
  · rcases eq_or_ne p v.phase with rfl | hne
    · refine ⟨this, by rw [hnew, Function.update_self], fun t => ?_⟩
      have hmem := hwakes t
      simp only [hnone, not_false_eq_true, and_true] at hmem
      exact hmem
    · rw [hnew, Function.update_of_ne hne]
      exact h.past p hp (.inl (hlt.resolve_right fun hlt => hne hlt.1))

def Inv (s : State ι) : Prop := ∃ v, Ok v s ∧ HistoryOk v s

omit [DecidableEq ι] in
lemma Ok.not_count (h : Ok v s) (hat : s.place this = .count k) : False := by
  have hthis := h.threads this
  rwa [hat] at hthis

lemma Inv.step {order : ι → ℕ} (h : Inv s) (hstep : step order s this = some s') : Inv s' := by
  obtain ⟨v, hok, hist⟩ := h
  cases hat : s.place this with
  | out =>
    simp only [SoftBarrier.step, hat, hok.shared, if_true, Option.some.injEq] at hstep
    rw [← hstep]
    refine ⟨v, hok.enter hat, hist.goto ⟨rfl, rfl⟩ rfl rfl rfl (fun t hne => ?_) rfl (by simp [hat])
      (.inl (by simp))⟩
    simp [State.enter, hne]
  | lock =>
    simp only [SoftBarrier.step, hat] at hstep
    split_ifs at hstep with hword
    rw [← Option.some.inj hstep]
    exact ⟨_, hok.spinlockLock hat hword, hist.goto ⟨rfl, rfl⟩ rfl rfl rfl (fun _ _ => rfl) rfl
      (by simp [hat]) (.inl (by simp))⟩
  | take =>
    simp only [SoftBarrier.step, hat, Option.some.injEq] at hstep
    rw [← hstep]
    exact ⟨_, hok.take hat, hist.goto ⟨rfl, rfl⟩ rfl rfl rfl (fun _ _ => rfl) rfl
      (by simp [hat]) (.inl (by simp))⟩
  | store k ticket =>
    simp only [SoftBarrier.step, hat, hok.shared, if_true, Option.some.injEq] at hstep
    rw [← hstep]
    refine ⟨_, hok.store hat, hist.goto ⟨rfl, rfl⟩ rfl rfl rfl (fun _ _ => rfl) rfl
      (by simp [hat]) (.inl fun j => ?_)⟩
    unfold afterTicket
    split_ifs
    · simp
    · simp
  | count k => exact (hok.not_count hat).elim
  | clear k =>
    simp only [SoftBarrier.step, hat, Option.some.injEq] at hstep
    rw [← hstep]
    exact ⟨_, hok.clear hat, hist.goto ⟨rfl, rfl⟩ rfl rfl rfl (fun _ _ => rfl) rfl
      (by simp [hat]) (.inl (by simp))⟩
  | reset k =>
    simp only [SoftBarrier.step, hat] at hstep
    rw [if_pos hok.shared, Option.some.injEq] at hstep
    rw [← hstep]
    exact ⟨_, hok.reset hat, hist.reset hok hat⟩
  | unlock =>
    simp only [SoftBarrier.step, hat, Option.some.injEq] at hstep
    rw [← hstep]
    exact ⟨_, hok.unlock hat, hist.goto ⟨rfl, rfl⟩ rfl rfl rfl (fun _ _ => rfl) rfl
      (by simp [hat]) (.inl (by simp))⟩
  | scan i ticket =>
    simp only [SoftBarrier.step, hat] at hstep
    split_ifs at hstep with hmore
    · obtain ⟨u, hu⟩ := hok.next_listner hat hmore.2
      simp only [hu, Option.some.injEq] at hstep
      rw [← hstep]
      exact ⟨_, hok.scan hat hmore.2 hu, hist.goto ⟨rfl, rfl⟩ rfl rfl rfl (fun _ _ => rfl) rfl
        (by simp [hat]) (.inl (by simp))⟩
    · rw [← Option.some.inj hstep]
      exact ⟨_, hok.returnSerial hat hmore, hist.returnSerial hok hat hmore⟩
  | found i ticket u =>
    simp only [SoftBarrier.step, hat, Option.some.injEq] at hstep
    rw [← hstep]
    exact ⟨_, hok.found hat, hist.goto ⟨rfl, rfl⟩ rfl rfl rfl (fun _ _ => rfl) rfl
      (by simp [hat]) (.inl (by simp))⟩
  | send i ticket u =>
    simp only [SoftBarrier.step, hat, Option.some.injEq] at hstep
    rw [← hstep]
    exact ⟨_, hok.send hat, hist.send hok hat⟩
  | leave k =>
    simp only [SoftBarrier.step, hat, Option.some.injEq] at hstep
    rw [← hstep]
    have hthis := hok.threads this
    simp only [hat, PlaceOk] at hthis
    have hnew : s.entered this ≠ v.phase := by omega
    exact ⟨_, hok.leave hat, hist.goto ⟨rfl, rfl⟩ rfl rfl rfl (fun _ _ => rfl) rfl
      (by simp [hat]) (.inr hnew)⟩
  | sleep k =>
    simp only [SoftBarrier.step, hat] at hstep
    split_ifs at hstep with hwoken
    rw [← Option.some.inj hstep]
    refine ⟨_, hok.wake hat hwoken, hist.congr this ⟨rfl, rfl⟩ rfl rfl
      (iff_of_false ?_ ?_) (fun t hne => ?_) (fun _ _ => rfl) fun t hne => ?_⟩
    · apply not_pending_of_place
      simp [State.returns, State.goto]
    · rintro ⟨j, hj⟩
      exact absurd (hj.2.2.symm.trans hwoken) (by simp)
    · simp [State.returns, State.goto, hne]
    · simp [State.returns, State.goto, hne]

omit [Fintype ι] [DecidableEq ι] in
lemma barrierInit_spec {mem b : Barrier ι} {count : ℕ} {shared : Bool}
    (h : barrierInit mem count shared = some b) : 0 < count ∧ count ≤ wqdbCapacity ∧
      b.shared = shared ∧ b.count = count ∧
      (shared = true → b.word = 0 ∧ b.index = 0) ∧ (shared = false → b.word = count) := by
  unfold barrierInit at h
  split_ifs at h with hcount hshared
  · rw [not_or, not_lt] at hcount
    rw [← Option.some.inj h]
    exact ⟨Nat.pos_of_ne_zero hcount.1, hcount.2, hshared.symm, rfl, fun _ => ⟨rfl, rfl⟩,
      fun hno => absurd (hshared.symm.trans hno) (by simp)⟩
  · rw [not_or, not_lt] at hcount
    rw [← Option.some.inj h]
    exact ⟨Nat.pos_of_ne_zero hcount.1, hcount.2, by simpa using hshared, rfl,
      fun hyes => absurd hyes hshared, fun _ => rfl⟩

lemma inv_init {order : ι → ℕ} {mem : Barrier ι} (h : (machine order mem true).init s) : Inv s := by
  obtain ⟨hbarrier, hthreads, hhist⟩ := h
  obtain ⟨hpos, hcapacity, hshared, hcount, hempty, -⟩ := barrierInit_spec hbarrier
  obtain ⟨hword, hindex⟩ := hempty rfl
  refine ⟨⟨0, none, none, s.barrier.count, none⟩, ⟨hshared, hcount, ?_, fun _ => ⟨hword, ?_⟩,
    fun hno => absurd rfl hno, fun t => ?_, fun t => ?_, fun t => ?_, fun t => ?_,
    ⟨fun k hk => ?_, fun t u k ht => ?_⟩, ?_, fun _ => rfl, fun k hle hlt => ?_⟩,
    ⟨fun p _ => hhist p, fun b hb => by simp at hb, fun p hp hlt => ?_, fun p x hx => ?_,
      fun p => ?_⟩⟩
  · rw [hcount]
    exact ⟨hpos, hcapacity⟩
  · rw [hindex, hcount]
    exact hpos
  · simp [(hthreads t).1, Place.holds]
  · simp [(hthreads t).1, Place.casts]
  · simp [(hthreads t).1, Place.holds, (hthreads t).2.2.2.2]
  · simp [(hthreads t).1, PlaceOk, hthreads t]
  · omega
  · simp [(hthreads t).1, Place.entry] at ht
  · rw [hindex]
    exact Nat.zero_le _
  · have hle' : s.barrier.count ≤ k := hle
    omega
  · simp only [and_true] at hlt
    omega
  · simp [(hhist p).2] at hx
  · simp [(hhist p).2]

lemma inv_reach {order : ι → ℕ} {mem : Barrier ι} (h : (machine order mem true).Reachable s) :
    Inv s :=
  Machine.Reachable.invariant (fun _ => inv_init) (fun _ _ _ hi hs => hi.step hs) h

/-- What the barrier promises. -/
structure Synced (s : State ι) : Prop where
  /-- no thread returns before all have come -/
  early : ∀ t u, s.returned t ≤ s.entered u
  /-- one thread of each phase has the serial return, and its broadcast wakes all others -/
  serial : ∀ p, 0 < p → (∀ t, p ≤ s.returned t) →
    ∃ b, s.serial p = [b] ∧ ∀ t, (t, p) ∈ s.wakes p ↔ t ≠ b
  once : ∀ p, (s.serial p).length ≤ 1 ∧ (s.wakes p).Nodup ∧ ∀ x ∈ s.wakes p, x.2 = p
  /-- who returns has the serial return or is woken, in this phase -/
  accounted : ∀ p t, 0 < p → p ≤ s.returned t → t ∈ s.serial p ∨ (t, p) ∈ s.wakes p
  locks : ∀ t, s.place t = .out → s.locks t = s.entryLocks t
  /-- not all threads sleep for good -/
  alive : ∃ t, ∀ k, s.place t = .sleep k → s.woken t = true

omit [Fintype ι] [DecidableEq ι] in
lemma PlaceOk.counts {b : Barrier ι} {t : ι} {entered returned : ℕ} {woken : Bool}
    (h : PlaceOk v b t entered returned woken p) : v.phase ≤ entered ∧ returned ≤ v.phase := by
  cases p with
  | count k => exact h.elim
  | _ =>
    simp only [PlaceOk] at h
    omega

omit [DecidableEq ι] in
/-- Someone can go on: a full phase is ended under the lock, and a broadcast wakes the others. -/
lemma Ok.alive (h : Ok v s) : ∃ t, ∀ k, s.place t = .sleep k → s.woken t = true := by
  by_contra hstuck
  have hsleeps : ∀ t, ∃ k, s.place t = .sleep k ∧ s.woken t = false := by
    intro t
    by_contra hno
    refine hstuck ⟨t, fun k hk => ?_⟩
    by_contra hwoken
    exact hno ⟨k, hk, by simpa using hwoken⟩
  have hcaster : v.caster = none := by
    by_contra hsome
    obtain ⟨b, hb⟩ := Option.ne_none_iff_exists'.1 hsome
    obtain ⟨k, hk, -⟩ := hsleeps b
    have hcasts := (h.caster b).2 hb
    simp [hk, Place.casts] at hcasts
  have hholder : v.holder = none := by
    by_contra hsome
    obtain ⟨b, hb⟩ := Option.ne_none_iff_exists'.1 hsome
    obtain ⟨k, hk, -⟩ := hsleeps b
    have hholds := (h.holder b).2 hb
    simp [hk, Place.holds] at hholds
  have hpos := h.done hcaster
  have harrived : ∀ t, s.entered t = v.phase + 1 ∧ ∃ k, s.place t = .sleep k ∧
      k < s.barrier.index ∧ s.woken t = false := by
    intro t
    obtain ⟨k, hk, hw⟩ := hsleeps t
    have hplace := h.threads t
    simp only [hk, PlaceOk] at hplace
    rcases hplace with ⟨he, -, -, hlt, -⟩ | ⟨-, -, hwoken | hpend⟩
    · exact ⟨he, k, hk, hlt, hw⟩
    · exact absurd (hw.symm.trans hwoken) (by simp)
    · omega
  choose he f hf hlt hw using harrived
  have hinj : Function.Injective fun t => (⟨f t, hlt t⟩ : Fin s.barrier.index) := by
    intro t u htu
    have hsame : f t = f u := congrArg Fin.val htu
    exact h.entries.unique t u (f t) (by rw [hf t]; rfl) (by rw [hf u, hsame]; rfl)
      ((he t).trans (he u).symm) (hw t) (hw u)
  have hcard := Fintype.card_le_of_injective _ hinj
  rw [Fintype.card_fin, ← h.count] at hcard
  have hroom := (h.free hholder).2
  omega

lemma Inv.synced (h : Inv s) : Synced s := by
  obtain ⟨v, hok, hist⟩ := h
  have hcounts := fun t => (hok.threads t).counts
  have hcaster : ∀ b, v.caster = some b → s.returned b + 1 = v.phase :=
    fun b hb => (hok.caster_spec hb).2.1
  refine ⟨fun t u => (hcounts t).2.trans (hcounts u).1, fun p hp hall => ?_, fun p => ?_,
    fun p t hp hle => ?_, fun t hout => ?_, hok.alive⟩
  · refine hist.past p hp ?_
    obtain ⟨t, -⟩ := hok.alive
    have hle := (hall t).trans (hcounts t).2
    rcases hle.lt_or_eq with hlt | heq
    · exact .inl hlt
    · refine .inr ⟨heq, ?_⟩
      by_contra hsome
      obtain ⟨b, hb⟩ := Option.ne_none_iff_exists'.1 hsome
      have hr := hcaster b hb
      have hb' := hall b
      omega
  · refine ⟨?_, hist.nodup p, hist.tagged p⟩
    by_cases hfuture : p = 0 ∨ v.phase < p
    · simp [(hist.future p hfuture).1]
    · by_cases hpast : p < v.phase ∨ p = v.phase ∧ v.caster = none
      · obtain ⟨b, hb, -⟩ := hist.past p (by omega) hpast
        simp [hb]
      · obtain rfl : p = v.phase := by omega
        cases hb : v.caster with
        | none => exact absurd (.inr ⟨rfl, hb⟩) hpast
        | some b => simp [(hist.active b hb).1]
  · have hphase := hle.trans (hcounts t).2
    by_cases hpast : p < v.phase ∨ p = v.phase ∧ v.caster = none
    · obtain ⟨b, hb, hwakes⟩ := hist.past p hp hpast
      by_cases htb : t = b
      · exact .inl (by simp [hb, htb])
      · exact .inr ((hwakes t).2 htb)
    · obtain rfl : p = v.phase := by omega
      cases hb : v.caster with
      | none => exact absurd (.inr ⟨rfl, hb⟩) hpast
      | some b =>
        refine .inr (((hist.active b hb).2 t).2 ⟨?_, ?_⟩)
        · rintro rfl
          have hr := hcaster t hb
          omega
        · rintro ⟨k, hk, he, hw⟩
          have hplace := hok.threads t
          simp only [hk, PlaceOk] at hplace
          omega
  · have hlocks := hok.locks t
    simpa [hout, Place.holds] using hlocks

def AloneAt (word : ℤ) : Place ι → Prop
  | .out | .store _ _ | .count _ | .scan 0 0 => word = 1
  | .clear _ | .reset _ => word = 0
  | _ => False

structure Alone (s : State ι) (this : ι) : Prop where
  private_one : s.barrier.shared = false ∧ s.barrier.count = 1
  place : AloneAt s.barrier.word (s.place this)
  locks : s.locks this = s.entryLocks this
  counts : s.place this = .out ∧ s.entered this = s.returned this ∨
    s.place this ≠ .out ∧ s.entered this = s.returned this + 1
  serial : ∀ p, s.serial p = if 0 < p ∧ p ≤ s.returned this then [this] else []
  wakes : ∀ p, s.wakes p = []

omit [Fintype ι] in
lemma Alone.goto {b : Barrier ι} (h : Alone s this)
    (hbarrier : b.shared = s.barrier.shared ∧ b.count = s.barrier.count)
    (hplace : AloneAt b.word p) (hold : s.place this ≠ .out) (hnew : p ≠ .out) :
    Alone ({ s with barrier := b }.goto this p) this := by
  have hcounts := (h.counts.resolve_left fun hout => hold hout.1).2
  have hat : ({ s with barrier := b }.goto this p).place this = p := by simp [State.goto]
  refine ⟨?_, by rw [hat]; exact hplace, h.locks, .inr ⟨by rw [hat]; exact hnew, hcounts⟩, h.serial,
    h.wakes⟩
  have hone := h.private_one
  exact ⟨hbarrier.1.trans hone.1, hbarrier.2.trans hone.2⟩

omit [Fintype ι] in
lemma Alone.step {order : ι → ℕ} (h : Alone s this) (hstep : step order s this = some s') :
    Alone s' this := by
  obtain ⟨hprivate, hone⟩ := h.private_one
  have hplace := h.place
  cases hat : s.place this with
  | out =>
    simp only [hat, AloneAt] at hplace
    have hcounts := (h.counts.resolve_right fun hno => hno.1 hat).2
    simp only [SoftBarrier.step, hat, hprivate, Bool.false_eq_true, if_false,
      Option.some.injEq] at hstep
    rw [← hstep]
    refine ⟨⟨hprivate, hone⟩, ?_, ?_, .inr ⟨?_, ?_⟩, h.serial, h.wakes⟩
    · simpa [State.enter, State.goto, AloneAt] using hplace
    · simp [State.enter, State.goto]
    · simp [State.enter, State.goto]
    · simpa [State.enter, State.goto] using hcounts
  | store k ticket =>
    simp only [hat, AloneAt] at hplace
    simp only [SoftBarrier.step, hat, hprivate, Bool.false_eq_true, if_false,
      Option.some.injEq] at hstep
    rw [← hstep]
    exact h.goto ⟨rfl, rfl⟩ hplace (by simp [hat]) (by simp)
  | count k =>
    simp only [hat, AloneAt] at hplace
    simp only [SoftBarrier.step, hat, afterTicket, hplace, if_true, Option.some.injEq] at hstep
    rw [← hstep]
    exact h.goto ⟨rfl, rfl⟩ (by simp [AloneAt]) (by simp [hat]) (by simp)
  | clear k =>
    simp only [hat, AloneAt] at hplace
    simp only [SoftBarrier.step, hat, Option.some.injEq] at hstep
    rw [← hstep]
    exact h.goto ⟨rfl, rfl⟩ hplace (by simp [hat]) (by simp)
  | reset k =>
    simp only [SoftBarrier.step, hat] at hstep
    rw [if_neg (by simp [hprivate]), Option.some.injEq] at hstep
    rw [← hstep]
    exact h.goto ⟨rfl, rfl⟩ (by simp [AloneAt, hone]) (by simp [hat]) (by simp)
  | scan i ticket =>
    have hcounts := (h.counts.resolve_left fun hout => by simp [hat] at hout).2
    have hword : s.barrier.word = 1 := by
      rw [hat] at hplace
      unfold AloneAt at hplace
      split at hplace <;> simp_all
    simp only [SoftBarrier.step, hat, hone, Nat.sub_self, Nat.not_lt_zero, and_false, if_false,
      Option.some.injEq] at hstep
    rw [← hstep]
    refine ⟨⟨hprivate, hone⟩, ?_, h.locks, .inl ⟨?_, ?_⟩, fun p => ?_, h.wakes⟩
    · simpa [State.returnSerial, State.returns, State.goto, AloneAt] using hword
    · simp [State.returnSerial, State.returns, State.goto]
    · simpa [State.returnSerial, State.returns, State.goto] using hcounts
    · have hserial := h.serial p
      rcases eq_or_ne p (s.entered this) with rfl | hne
      · rw [if_neg (by omega)] at hserial
        rw [if_pos (by simp [State.returnSerial, State.returns, State.goto, hcounts])]
        simp [State.returnSerial, State.returns, State.goto, hserial]
      · have hiff : 0 < p ∧ p ≤ s.returned this + 1 ↔ 0 < p ∧ p ≤ s.returned this := by omega
        simpa [State.returnSerial, State.returns, State.goto, hne, hiff] using hserial
  | _ => simp [hat, AloneAt] at hplace

omit [Fintype ι] [DecidableEq ι] in
lemma Alone.synced [Subsingleton ι] (h : Alone s this) : Synced s := by
  have hall : ∀ t, t = this := fun t => Subsingleton.elim t this
  have hcounts : s.returned this ≤ s.entered this := by
    rcases h.counts with ⟨-, heq⟩ | ⟨-, heq⟩
    · exact heq.ge
    · omega
  refine ⟨fun t u => ?_, fun p hp hle => ⟨this, ?_, fun t => ?_⟩, fun p => ⟨?_, ?_, ?_⟩,
    fun p t hp hle => ?_, fun t _ => ?_, this, fun k hk => ?_⟩
  · rw [hall t, hall u]
    exact hcounts
  · rw [h.serial, if_pos ⟨hp, hle this⟩]
  · simp [h.wakes, hall t]
  · rw [h.serial]
    split_ifs
    · exact le_rfl
    · exact Nat.zero_le _
  · simp [h.wakes]
  · simp [h.wakes]
  · rw [hall t] at hle ⊢
    refine .inl ?_
    rw [h.serial, if_pos ⟨hp, hle⟩]
    exact List.mem_singleton_self _
  · rw [hall t]
    exact h.locks
  · have hplace := h.place
    rw [hk] at hplace
    exact hplace.elim

lemma alone_reach {order : ι → ℕ} {mem : Barrier ι} (hone : Fintype.card ι = 1)
    (h : (machine order mem false).Reachable s) (this : ι) : Alone s this := by
  have hsub : Subsingleton ι := Fintype.card_le_one_iff_subsingleton.1 hone.le
  refine Machine.Reachable.invariant (I := fun s => Alone s this) ?_ ?_ h
  · rintro s ⟨hbarrier, hthreads, hhist⟩
    obtain ⟨-, -, hprivate, hcount, -, hword⟩ := barrierInit_spec hbarrier
    obtain ⟨hout, -, he, hr, hlocks⟩ := hthreads this
    refine ⟨⟨hprivate, hcount.trans hone⟩, ?_, hlocks.symm, .inl ⟨hout, by rw [he, hr]⟩,
      fun p => ?_, fun p => (hhist p).2⟩
    · rw [hout]
      simp [AloneAt, hword rfl, hone]
    · rw [(hhist p).1, hr, if_neg (by omega)]
  · intro s e t hs hstep
    obtain rfl : e = this := Subsingleton.elim e this
    exact hs.step hstep

/-- A barrier that is shared, or for one thread, keeps its promises in every run. -/
theorem barrier_synchronizes {order : ι → ℕ} {mem : Barrier ι} {shared : Bool}
    (hscope : shared = true ∨ Fintype.card ι = 1)
    (h : (machine order mem shared).Reachable s) : Synced s := by
  cases shared with
  | true => exact (inv_reach h).synced
  | false =>
    have hone := hscope.resolve_left (by simp)
    obtain ⟨this, -⟩ := Fintype.card_eq_one_iff.1 hone
    have hsub : Subsingleton ι := Fintype.card_le_one_iff_subsingleton.1 hone.le
    exact (alone_reach hone h this).synced

end Steps

section Examples

def fresh {ι : Type*} (barrier : Barrier ι) : State ι where
  barrier := barrier
  place _ := .out
  locks _ := 0
  woken _ := false
  entered _ := 0
  returned _ := 0
  entryLocks _ := 0
  serial _ := []
  wakes _ := []

/-- Two threads pass a shared barrier. -/
theorem barrier_synchronizes_two : ∃ s : State (Fin 2), s.returned 0 = 1 ∧ s.returned 1 = 1 ∧
    s.serial 1 = [1] ∧ s.wakes 1 = [(0, 1)] ∧ Synced s := by
  let start : State (Fin 2) := fresh ⟨0, true, 2, 0, fun _ => none⟩
  have hinit : (machine Fin.val start.barrier true).init start :=
    ⟨rfl, fun _ => ⟨rfl, rfl, rfl, rfl, rfl⟩, fun _ => ⟨rfl, rfl⟩⟩
  obtain ⟨s, hrun, hfacts⟩ : ∃ s, (machine Fin.val start.barrier true).run start
      [0, 0, 0, 0, 0, 1, 1, 1, 1, 1, 1, 1, 1, 1, 1, 1, 0] = some s ∧ s.returned 0 = 1 ∧
        s.returned 1 = 1 ∧ s.serial 1 = [1] ∧ s.wakes 1 = [(0, 1)] :=
    ⟨_, rfl, rfl, rfl, rfl, rfl⟩
  have hreach := Machine.Reachable.run (.init hinit) _ hrun
  exact ⟨s, hfacts.1, hfacts.2.1, hfacts.2.2.1, hfacts.2.2.2, barrier_synchronizes (.inl rfl) hreach⟩

/-- In a private barrier for three threads, the first counts the word down twice: the second is taken
for the last, and the first returns before the third has come, with one lock less. -/
theorem private_barrier_opens_early : ∃ s : State (Fin 3),
    (machine Fin.val ⟨0, false, 0, 0, fun _ => none⟩ false).Reachable s ∧
      s.returned 0 = 1 ∧ s.entered 2 = 0 ∧ s.locks 0 = s.entryLocks 0 - 1 := by
  let start : State (Fin 3) := fresh ⟨3, false, 3, 0, fun _ => none⟩
  have hinit : (machine Fin.val ⟨0, false, 0, 0, fun _ => none⟩ false).init start :=
    ⟨rfl, fun _ => ⟨rfl, rfl, rfl, rfl, rfl⟩, fun _ => ⟨rfl, rfl⟩⟩
  obtain ⟨s, hrun, hfacts⟩ : ∃ s, (machine Fin.val (⟨0, false, 0, 0, fun _ => none⟩ : Barrier (Fin 3))
      false).run start [0, 0, 0, 0, 1, 1, 1, 1, 1, 1, 1, 1, 0] = some s ∧ s.returned 0 = 1 ∧
        s.entered 2 = 0 ∧ s.locks 0 = s.entryLocks 0 - 1 := ⟨_, rfl, rfl, rfl, rfl⟩
  exact ⟨s, Machine.Reachable.run (.init hinit) _ hrun, hfacts⟩

end Examples

end Almos.SoftBarrier
