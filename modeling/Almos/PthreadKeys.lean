import Almos.Machine

/-!
# Thread-specific keys

Calls by any number of threads, each given a place for the key it makes. The sections under the lock
are one step, and so is each access outside of it.
-/
namespace Almos.PthreadKeys

/-- What the call of a thread does next. A key made more than once is told apart by `made`. -/
inductive Pc
  | idle
  | storeDestructor (key destructor : ℕ)
  | free (key made : ℕ)
  | testHint (key : ℕ)
  | lowerHint (key : ℕ)
  | setValue (key made value : ℕ)
  | getValue (key made : ℕ)
deriving DecidableEq

/-- The table of the keys and the values of the threads, with 0 for `NULL`. `made` counts how often
each key was made, `live` holds the live keys, `last` what each thread has set since the key was made
and `gets` what the calls of `pthread_getspecific` for live keys returned and should have returned.
`outside` tells whether the table was read past its end. -/
structure Keys (ι : Type*) where
  busy : ℕ → Bool
  destructor : ℕ → ℕ
  nextKey : ℕ
  values : ι → ℕ → ℕ
  pc : ι → Pc
  made : ℕ → ℕ
  live : List (ℕ × ℕ)
  last : ι → ℕ → ℕ
  gets : List (ℕ × ℕ)
  outside : Bool

inductive Event (ι : Type*)
  | keyCreate (thread : ι) (destructor : ℕ)
  | keyDelete (thread : ι) (key : ℕ)
  | setspecific (thread : ι) (key value : ℕ)
  | getspecific (thread : ι) (key : ℕ)
  | next (thread : ι)

/-- `__pthread_keys_init`, with the values of new threads. -/
def pthreadKeysInit {ι : Type*} : Keys ι where
  busy _ := false
  destructor _ := 0
  nextKey := 0
  values _ _ := 0
  pc _ := .idle
  made _ := 0
  live := []
  last _ _ := 0
  gets := []
  outside := false

/-- The loop of `pthread_key_create`: the entry at which it stops, all up to it being read. -/
def findKey (busy : ℕ → Bool) : ℕ → ℕ → ℕ
  | 0, key => key
  | left + 1, key => if busy key then findKey busy left (key + 1) else key

section Steps
variable {ι : Type*} [DecidableEq ι] (keysMax : ℕ)

def Keys.found (s : Keys ι) : ℕ := findKey s.busy (keysMax - s.nextKey) s.nextKey

def Keys.setPc (s : Keys ι) (t : ι) (pc : Pc) : Keys ι :=
  { s with pc := Function.update s.pc t pc }

def Keys.take (s : Keys ι) (t : ι) (key destructor : ℕ) : Keys ι :=
  { s.setPc t (.storeDestructor key destructor) with
    busy := Function.update s.busy key true
    nextKey := key + 1
    made := Function.update s.made key (s.made key + 1)
    live := (key, s.made key + 1) :: s.live
    last := fun u k => if k = key then 0 else s.last u k }

/-- The section of `pthread_key_create` under the lock. -/
def keyCreate (s : Keys ι) (t : ι) (destructor : ℕ) : Keys ι :=
  let key := s.found keysMax
  let outside := s.outside || decide (keysMax ≤ key)
  if key ≠ keysMax then { s.take t key destructor with outside := outside }
  else { s with outside := outside }

def Keys.refused (s : Keys ι) (key : ℕ) : Prop := keysMax ≤ key ∨ s.busy key = false

instance (s : Keys ι) (key : ℕ) : Decidable (s.refused keysMax key) :=
  inferInstanceAs (Decidable (_ ∨ _))

/-- A call of `pthread_getspecific` returns a value. -/
def Keys.got (s : Keys ι) (t : ι) (key made value : ℕ) : Keys ι :=
  if s.live.contains (key, made) then { s with gets := (value, s.last t key) :: s.gets } else s

def next (s : Keys ι) (t : ι) : Pc → Option (Keys ι)
  | .idle => none
  | .storeDestructor key destructor =>
      some { s.setPc t .idle with destructor := Function.update s.destructor key destructor }
  | .free key made =>
      some { s.setPc t (.testHint key) with
        busy := Function.update s.busy key false
        live := s.live.erase (key, made) }
  | .testHint key => some (s.setPc t (if key < s.nextKey then .lowerHint key else .idle))
  | .lowerHint key =>
      some { s.setPc t .idle with nextKey := if key < s.nextKey then key else s.nextKey }
  | .setValue key made value =>
      some { s.setPc t .idle with
        values := Function.update s.values t (Function.update (s.values t) key value)
        last := if made = s.made key then
          Function.update s.last t (Function.update (s.last t) key value) else s.last }
  | .getValue key made => some ((s.setPc t .idle).got t key made (s.values t key))

def step (s : Keys ι) : Event ι → Option (Keys ι)
  | .keyCreate t destructor =>
      if s.pc t = .idle then some (keyCreate keysMax s t destructor) else none
  | .keyDelete t key =>
      if s.pc t = .idle then
        some (if s.refused keysMax key then s else s.setPc t (.free key (s.made key)))
      else none
  | .setspecific t key value =>
      if s.pc t = .idle then
        some (if s.refused keysMax key then s else s.setPc t (.setValue key (s.made key) value))
      else none
  | .getspecific t key =>
      if s.pc t = .idle then
        some (if s.refused keysMax key then s.got t key (s.made key) 0
          else s.setPc t (.getValue key (s.made key)))
      else none
  | .next t => next s t (s.pc t)

def machine : Machine (Keys ι) (Event ι) where
  init s := s = pthreadKeysInit
  step := step keysMax

end Steps

section Conditions
variable {ι : Type*} (keysMax : ℕ)

def Pc.Writes (key : ℕ) : Pc → Prop
  | .free k _ => k = key
  | .setValue k _ _ => k = key
  | _ => False

def FirstFree (s : Keys ι) (key : ℕ) : Prop :=
  s.nextKey ≤ key ∧ s.busy key = false ∧ ∀ k < key, s.nextKey ≤ k → s.busy k = true

/-- A key is only made when one is free from the hint on, for which no thread has a value left and no
call is still to write. -/
def ok (s : Keys ι) : Event ι → Prop
  | .keyCreate _ _ => ∃ key < keysMax, FirstFree s key ∧
      (∀ u, s.values u key = 0) ∧ ∀ u, ¬(s.pc u).Writes key
  | _ => True

structure Safe (s : Keys ι) : Prop where
  distinct : (s.live.map Prod.fst).Nodup
  full : (∀ t, s.pc t = .idle) → (s.found keysMax = keysMax ↔ ∀ key < keysMax, ∃ made, (key, made) ∈ s.live)
  inside : s.outside = false
  gets : ∀ p ∈ s.gets, p.1 = p.2

end Conditions

lemma findKey_spec (busy : ℕ → Bool) (left key : ℕ) :
    key ≤ findKey busy left key ∧ findKey busy left key ≤ key + left ∧
      (∀ k, key ≤ k → k < findKey busy left key → busy k = true) ∧
      (findKey busy left key < key + left → busy (findKey busy left key) = false) := by
  induction left generalizing key with
  | zero =>
    refine ⟨le_rfl, le_rfl, fun k hle hlt => ?_, fun hlt => ?_⟩
    · exact absurd hlt (Nat.not_lt.mpr hle)
    · exact absurd hlt (lt_irrefl key)
  | succ left ih =>
    rw [findKey]
    split_ifs with hbusy
    · obtain ⟨hlo, hhi, hall, hstop⟩ := ih (key + 1)
      refine ⟨by omega, by omega, fun k hle hlt => ?_, fun hlt => hstop (by omega)⟩
      obtain rfl | hne := eq_or_ne k key
      · exact hbusy
      · exact hall k (by omega) hlt
    · refine ⟨le_rfl, by omega, fun k hle hlt => ?_, fun _ => by simpa using hbusy⟩
      exact absurd hlt (Nat.not_lt.mpr hle)

section Runs
variable {ι : Type*} {keysMax : ℕ}

/-- The free entries below the hint are those of calls that are still to lower it. -/
structure Hinted (keysMax : ℕ) (s : Keys ι) : Prop where
  le : s.nextKey ≤ keysMax
  below : ∀ key < s.nextKey, s.busy key = true ∨
    ∃ t, s.pc t = .testHint key ∨ s.pc t = .lowerHint key

lemma Hinted.found_spec {s : Keys ι} (h : Hinted keysMax s) :
    s.nextKey ≤ s.found keysMax ∧ s.found keysMax ≤ keysMax ∧
      (∀ key, s.nextKey ≤ key → key < s.found keysMax → s.busy key = true) ∧
      (s.found keysMax < keysMax → s.busy (s.found keysMax) = false) := by
  have hspec := findKey_spec s.busy (keysMax - s.nextKey) s.nextKey
  have hhint := h.le
  rwa [show s.nextKey + (keysMax - s.nextKey) = keysMax by omega] at hspec

lemma Hinted.found_eq_iff {s : Keys ι} (h : Hinted keysMax s) :
    s.found keysMax = keysMax ↔ ∀ key < keysMax, s.nextKey ≤ key → s.busy key = true := by
  obtain ⟨hlo, hle, hall, hstop⟩ := h.found_spec
  constructor
  · intro heq key hkey hnext
    exact hall key hnext (by omega)
  · intro hbusy
    by_contra hne
    have hlt : s.found keysMax < keysMax := by omega
    have hfree := hstop hlt
    rw [hbusy _ hlt hlo] at hfree
    cases hfree

lemma FirstFree.found_eq {s : Keys ι} (h : Hinted keysMax s) {key : ℕ} (hfree : FirstFree s key)
    (hkey : key < keysMax) : s.found keysMax = key := by
  obtain ⟨hlo, -, hall, hstop⟩ := h.found_spec
  obtain ⟨hle, hnot, hbefore⟩ := hfree
  obtain hlt | heq | hgt := lt_trichotomy (s.found keysMax) key
  · have hfound := hstop (hlt.trans hkey)
    rw [hbefore _ hlt hlo] at hfound
    cases hfound
  · exact heq
  · rw [hall key hle hgt] at hnot
    cases hnot

variable [DecidableEq ι]

section Fields
variable (s : Keys ι) (t u : ι) (pc : Pc)

@[simp, grind =] lemma Keys.setPc_pc :
    (s.setPc t pc).pc u = if u = t then pc else s.pc u := Function.update_apply ..
@[simp, grind =] lemma Keys.setPc_busy : (s.setPc t pc).busy = s.busy := rfl
@[simp, grind =] lemma Keys.setPc_nextKey : (s.setPc t pc).nextKey = s.nextKey := rfl
@[simp, grind =] lemma Keys.setPc_values : (s.setPc t pc).values = s.values := rfl
@[simp, grind =] lemma Keys.setPc_made : (s.setPc t pc).made = s.made := rfl
@[simp, grind =] lemma Keys.setPc_live : (s.setPc t pc).live = s.live := rfl
@[simp, grind =] lemma Keys.setPc_last : (s.setPc t pc).last = s.last := rfl
@[simp, grind =] lemma Keys.setPc_gets : (s.setPc t pc).gets = s.gets := rfl
@[simp, grind =] lemma Keys.setPc_outside : (s.setPc t pc).outside = s.outside := rfl

end Fields

omit [DecidableEq ι] in
/-- A change of the places of calls that are not about the hint, and of what the hint does not
touch. -/
lemma Hinted.congr {s s' : Keys ι} (h : Hinted keysMax s) (hnext : s'.nextKey = s.nextKey)
    (hbusy : ∀ key, s.busy key = true → s'.busy key = true)
    (hpc : ∀ t key, s.pc t = .testHint key ∨ s.pc t = .lowerHint key → s'.pc t = s.pc t) :
    Hinted keysMax s' := by
  refine ⟨hnext ▸ h.le, fun key hkey => ?_⟩
  obtain hset | ⟨t, ht⟩ := h.below key (hnext ▸ hkey)
  · exact Or.inl (hbusy key hset)
  · exact Or.inr ⟨t, by rwa [hpc t key ht]⟩

omit [DecidableEq ι] in
lemma Keys.got_eq (s : Keys ι) (t : ι) (key made value : ℕ) :
    s.got t key made value = { s with gets := (s.got t key made value).gets } := by
  unfold Keys.got
  split_ifs <;> rfl

namespace Hinted
variable {s : Keys ι} {t : ι}

lemma setPc (h : Hinted keysMax s) (ht : ∀ key, s.pc t ≠ .testHint key ∧ s.pc t ≠ .lowerHint key)
    (pc : Pc) : Hinted keysMax (s.setPc t pc) := by
  refine h.congr rfl (fun _ hset => hset) fun u key hu => ?_
  have hne : u ≠ t := by
    rintro rfl
    exact hu.elim (ht key).1 (ht key).2
  rw [Keys.setPc_pc, if_neg hne]

lemma keyCreate (h : Hinted keysMax s) (ht : s.pc t = .idle) (destructor : ℕ) :
    Hinted keysMax (keyCreate keysMax s t destructor) := by
  obtain ⟨hlo, hle, hall, -⟩ := h.found_spec
  by_cases hfound : s.found keysMax = keysMax
  · rw [PthreadKeys.keyCreate, if_neg (not_not.mpr hfound)]
    exact ⟨h.le, h.below⟩
  · rw [PthreadKeys.keyCreate, if_pos hfound]
    refine ⟨Nat.lt_of_le_of_ne hle hfound, fun key hkey => ?_⟩
    change key < s.found keysMax + 1 at hkey
    change Function.update s.busy (s.found keysMax) true key = true ∨
      ∃ u, (s.setPc t _).pc u = .testHint key ∨ (s.setPc t _).pc u = .lowerHint key
    by_cases heq : key = s.found keysMax
    · exact Or.inl (by rw [heq, Function.update_self])
    · rw [Function.update_of_ne heq]
      by_cases hlt : key < s.nextKey
      · obtain hset | ⟨u, hu⟩ := h.below key hlt
        · exact Or.inl hset
        · have hne : u ≠ t := by
            rintro rfl
            simp [ht] at hu
          exact Or.inr ⟨u, by simpa [hne] using hu⟩
      · exact Or.inl (hall key (by omega) (by omega))

lemma free (h : Hinted keysMax s) {key made : ℕ} (ht : s.pc t = .free key made) :
    Hinted keysMax { s.setPc t (.testHint key) with
      busy := Function.update s.busy key false
      live := s.live.erase (key, made) } := by
  refine ⟨h.le, fun k hk => ?_⟩
  by_cases heq : k = key
  · exact Or.inr ⟨t, Or.inl (by simp [heq])⟩
  · obtain hset | ⟨u, hu⟩ := h.below k hk
    · exact Or.inl (by simpa [heq] using hset)
    · have hne : u ≠ t := by
        rintro rfl
        simp [ht] at hu
      exact Or.inr ⟨u, by simpa [hne] using hu⟩

lemma testHint (h : Hinted keysMax s) {key : ℕ} (ht : s.pc t = .testHint key) :
    Hinted keysMax (s.setPc t (if key < s.nextKey then .lowerHint key else .idle)) := by
  refine ⟨h.le, fun k hk => ?_⟩
  obtain hset | ⟨u, hu⟩ := h.below k hk
  · exact Or.inl hset
  · by_cases hut : u = t
    · subst hut
      obtain rfl : key = k := by simpa [ht] using hu
      exact Or.inr ⟨u, Or.inr (by simp [show key < s.nextKey from hk])⟩
    · exact Or.inr ⟨u, by simpa [hut] using hu⟩

lemma lowerHint (h : Hinted keysMax s) {key : ℕ} (ht : s.pc t = .lowerHint key) :
    Hinted keysMax { s.setPc t .idle with
      nextKey := if key < s.nextKey then key else s.nextKey } := by
  have hle := h.le
  have hmin : ∀ {k : ℕ}, k < (if key < s.nextKey then key else s.nextKey) →
      k < s.nextKey ∧ k ≠ key ∨ k < s.nextKey ∧ s.nextKey ≤ key := by
    intro k hk
    split_ifs at hk <;> omega
  refine ⟨?_, fun k hk => ?_⟩
  · change (if key < s.nextKey then key else s.nextKey) ≤ keysMax
    split_ifs <;> omega
  · have hk' : k < s.nextKey ∧ k ≠ key := by
      obtain hk | hk := hmin hk <;> omega
    obtain hset | ⟨u, hu⟩ := h.below k hk'.1
    · exact Or.inl hset
    · have hne : u ≠ t := by
        rintro rfl
        have heq : key = k := by simpa [ht] using hu
        exact hk'.2 heq.symm
      exact Or.inr ⟨u, by simpa [hne] using hu⟩

omit [DecidableEq ι] in
lemma idle_ne (ht : s.pc t = .idle) (key : ℕ) :
    s.pc t ≠ .testHint key ∧ s.pc t ≠ .lowerHint key := by simp [ht]

omit [DecidableEq ι] in
lemma got (h : Hinted keysMax s) (t : ι) (key made value : ℕ) :
    Hinted keysMax (s.got t key made value) := by
  rw [Keys.got_eq]
  exact ⟨h.le, h.below⟩

lemma next {s' : Keys ι} (h : Hinted keysMax s) (hs : next s t (s.pc t) = some s') :
    Hinted keysMax s' := by
  cases ht : s.pc t with
  | idle => simp [PthreadKeys.next, ht] at hs
  | storeDestructor key destructor =>
    rw [ht] at hs
    cases hs
    have hpc := h.setPc (t := t) (by simp [ht]) .idle
    exact ⟨hpc.le, hpc.below⟩
  | free key made =>
    rw [ht] at hs
    cases hs
    exact h.free ht
  | testHint key =>
    rw [ht] at hs
    cases hs
    exact h.testHint ht
  | lowerHint key =>
    rw [ht] at hs
    cases hs
    exact h.lowerHint ht
  | setValue key made value =>
    rw [ht] at hs
    cases hs
    have hpc := h.setPc (t := t) (by simp [ht]) .idle
    exact ⟨hpc.le, hpc.below⟩
  | getValue key made =>
    rw [ht] at hs
    cases hs
    exact (h.setPc (by simp [ht]) .idle).got t key made _

lemma step {s' : Keys ι} {e : Event ι} (h : Hinted keysMax s) (hs : step keysMax s e = some s') :
    Hinted keysMax s' := by
  cases e with
  | keyCreate t destructor =>
    simp only [PthreadKeys.step] at hs
    split_ifs at hs with ht
    cases hs
    exact h.keyCreate ht destructor
  | keyDelete t key =>
    simp only [PthreadKeys.step] at hs
    split_ifs at hs with ht hrefused
    · cases hs
      exact h
    · cases hs
      exact h.setPc (idle_ne ht) _
  | setspecific t key value =>
    simp only [PthreadKeys.step] at hs
    split_ifs at hs with ht hrefused
    · cases hs
      exact h
    · cases hs
      exact h.setPc (idle_ne ht) _
  | getspecific t key =>
    simp only [PthreadKeys.step] at hs
    split_ifs at hs with ht hrefused
    · cases hs
      exact h.got t key _ 0
    · cases hs
      exact h.setPc (idle_ne ht) _
  | next t => exact h.next hs

end Hinted

def Pc.target : Pc → Option (ℕ × ℕ)
  | .free key made => some (key, made)
  | .setValue key made _ => some (key, made)
  | _ => none

lemma Pc.Writes.of_target {pc : Pc} {key made : ℕ} (h : pc.target = some (key, made)) :
    pc.Writes key := by
  cases pc with
  | free | setValue =>
    cases h
    rfl
  | idle | storeDestructor | testHint | lowerHint | getValue => cases h

/-- The table agrees with the live keys, the values with what was set, and the calls that are still to
write with the keys they were made for. -/
structure Agrees (keysMax : ℕ) (s : Keys ι) : Prop where
  live : ∀ key made, (key, made) ∈ s.live ↔
    key < keysMax ∧ s.busy key = true ∧ made = s.made key
  nodup : s.live.Nodup
  values : ∀ t key, s.busy key = true → s.values t key = s.last t key
  writes : ∀ t key made, (s.pc t).target = some (key, made) → made = s.made key
  gets : ∀ p ∈ s.gets, p.1 = p.2
  inside : s.outside = false

omit [DecidableEq ι] in
lemma agrees_pthreadKeysInit : Agrees keysMax (pthreadKeysInit : Keys ι) := by
  constructor <;> simp [pthreadKeysInit, Pc.target]

namespace Agrees
variable {s : Keys ι} {t : ι}

lemma setPc (h : Agrees keysMax s) {pc : Pc}
    (hpc : ∀ key made, pc.target = some (key, made) → made = s.made key) :
    Agrees keysMax (s.setPc t pc) := by
  refine ⟨h.live, h.nodup, h.values, fun u key made hu => ?_, h.gets, h.inside⟩
  rw [Keys.setPc_pc] at hu
  split_ifs at hu with hut
  · exact hpc key made hu
  · exact h.writes u key made hu

lemma take (h : Agrees keysMax s) {key : ℕ} (hkey : key < keysMax) (hnot : s.busy key = false)
    (hvalues : ∀ u, s.values u key = 0) (hwrites : ∀ u, ¬(s.pc u).Writes key) (destructor : ℕ) :
    Agrees keysMax (s.take t key destructor) := by
  have hfresh : ∀ made, (key, made) ∉ s.live := by
    intro made hmem
    rw [((h.live key made).mp hmem).2.1] at hnot
    cases hnot
  refine ⟨fun k made => ?_, ?_, fun u k hk => ?_, fun u k made hu => ?_, h.gets, h.inside⟩
  · change (k, made) ∈ (key, s.made key + 1) :: s.live ↔
      k < keysMax ∧ Function.update s.busy key true k = true ∧
        made = Function.update s.made key (s.made key + 1) k
    by_cases heq : k = key
    · subst heq
      simp [hfresh, hkey]
    · simp [heq, h.live]
  · exact List.nodup_cons.mpr ⟨hfresh _, h.nodup⟩
  · change s.values u k = if k = key then 0 else s.last u k
    change Function.update s.busy key true k = true at hk
    split_ifs with heq
    · rw [heq, hvalues]
    · rw [Function.update_of_ne heq] at hk
      exact h.values u k hk
  · change made = Function.update s.made key (s.made key + 1) k
    change ((s.setPc t (.storeDestructor key destructor)).pc u).target = _ at hu
    rw [Keys.setPc_pc] at hu
    split_ifs at hu
    · cases hu
    · have hne : k ≠ key := by
        rintro rfl
        exact hwrites u (Pc.Writes.of_target hu)
      rw [Function.update_of_ne hne]
      exact h.writes u k made hu

lemma keyCreate (h : Agrees keysMax s) (hint : Hinted keysMax s) {destructor : ℕ}
    (hok : ok keysMax s (.keyCreate t destructor)) :
    Agrees keysMax (keyCreate keysMax s t destructor) := by
  obtain ⟨key, hkey, hfree, hvalues, hwrites⟩ := hok
  have hfound := hfree.found_eq hint hkey
  have htake := h.take (t := t) hkey hfree.2.1 hvalues hwrites destructor
  rw [PthreadKeys.keyCreate, hfound, if_pos hkey.ne]
  refine ⟨htake.live, htake.nodup, htake.values, htake.writes, htake.gets, ?_⟩
  change (s.outside || decide (keysMax ≤ key)) = false
  simp [h.inside, hkey]

lemma release (h : Agrees keysMax s) {key made : ℕ} (ht : s.pc t = .free key made) :
    Agrees keysMax { s.setPc t (.testHint key) with
      busy := Function.update s.busy key false
      live := s.live.erase (key, made) } := by
  obtain rfl := h.writes t key made (by rw [ht]; rfl)
  have hpc : Agrees keysMax (s.setPc t (.testHint key)) := h.setPc (by simp [Pc.target])
  refine ⟨fun k made => ?_, h.nodup.erase _, fun u k hk => ?_, hpc.writes, h.gets, h.inside⟩
  · change (k, made) ∈ s.live.erase (key, s.made key) ↔
      k < keysMax ∧ Function.update s.busy key false k = true ∧ made = s.made k
    rw [h.nodup.mem_erase_iff, h.live]
    by_cases heq : k = key
    · subst heq
      simp +contextual
    · simp [heq]
  · change Function.update s.busy key false k = true at hk
    by_cases heq : k = key
    · rw [heq, Function.update_self] at hk
      cases hk
    · rw [Function.update_of_ne heq] at hk
      exact h.values u k hk

lemma setValue (h : Agrees keysMax s) {key made value : ℕ} (ht : s.pc t = .setValue key made value) :
    Agrees keysMax { s.setPc t .idle with
      values := Function.update s.values t (Function.update (s.values t) key value)
      last := if made = s.made key then
        Function.update s.last t (Function.update (s.last t) key value) else s.last } := by
  obtain rfl := h.writes t key made (by rw [ht]; rfl)
  rw [if_pos rfl]
  have hpc : Agrees keysMax (s.setPc t .idle) := h.setPc (by simp [Pc.target])
  refine ⟨h.live, h.nodup, fun u k hk => ?_, hpc.writes, h.gets, h.inside⟩
  have hold := h.values u k hk
  change Function.update s.values t (Function.update (s.values t) key value) u k =
    Function.update s.last t (Function.update (s.last t) key value) u k
  by_cases hut : u = t
  · subst hut
    by_cases heq : k = key
    · simp [heq]
    · simp [heq, hold]
  · simp [hut, hold]

omit [DecidableEq ι] in
lemma got (h : Agrees keysMax s) {key made value : ℕ}
    (hvalue : (key, made) ∈ s.live → value = s.last t key) :
    Agrees keysMax (s.got t key made value) := by
  unfold Keys.got
  split_ifs with hmem
  · refine ⟨h.live, h.nodup, h.values, h.writes, fun p hp => ?_, h.inside⟩
    obtain rfl | hp := List.mem_cons.mp hp
    · exact hvalue (List.contains_iff_mem.mp hmem)
    · exact h.gets p hp
  · exact h

lemma next {s' : Keys ι} (h : Agrees keysMax s) (hs : next s t (s.pc t) = some s') :
    Agrees keysMax s' := by
  have hidle : Agrees keysMax (s.setPc t .idle) := h.setPc (by simp [Pc.target])
  cases ht : s.pc t with
  | idle => simp [PthreadKeys.next, ht] at hs
  | storeDestructor key destructor =>
    rw [ht] at hs
    cases hs
    exact ⟨hidle.live, hidle.nodup, hidle.values, hidle.writes, hidle.gets, hidle.inside⟩
  | free key made =>
    rw [ht] at hs
    cases hs
    exact h.release ht
  | testHint key =>
    rw [ht] at hs
    cases hs
    refine h.setPc fun k made heq => ?_
    split_ifs at heq <;> cases heq
  | lowerHint key =>
    rw [ht] at hs
    cases hs
    exact ⟨hidle.live, hidle.nodup, hidle.values, hidle.writes, hidle.gets, hidle.inside⟩
  | setValue key made value =>
    rw [ht] at hs
    cases hs
    exact h.setValue ht
  | getValue key made =>
    rw [ht] at hs
    cases hs
    refine hidle.got fun hmem => ?_
    exact h.values t key ((h.live key made).mp hmem).2.1

lemma step {s' : Keys ι} {e : Event ι} (h : Agrees keysMax s) (hint : Hinted keysMax s)
    (hok : ok keysMax s e) (hs : step keysMax s e = some s') : Agrees keysMax s' := by
  cases e with
  | keyCreate t destructor =>
    simp only [PthreadKeys.step] at hs
    split_ifs at hs
    cases hs
    exact h.keyCreate hint hok
  | keyDelete t key =>
    simp only [PthreadKeys.step] at hs
    split_ifs at hs with ht hrefused
    · cases hs
      exact h
    · cases hs
      refine h.setPc fun k made heq => ?_
      cases heq
      rfl
  | setspecific t key value =>
    simp only [PthreadKeys.step] at hs
    split_ifs at hs with ht hrefused
    · cases hs
      exact h
    · cases hs
      refine h.setPc fun k made heq => ?_
      cases heq
      rfl
  | getspecific t key =>
    simp only [PthreadKeys.step] at hs
    split_ifs at hs with ht hrefused
    · cases hs
      -- a live key passes the check
      refine h.got fun hmem => ?_
      obtain ⟨hkey, hbusy, -⟩ := (h.live key _).mp hmem
      obtain hout | hfree := hrefused
      · exact absurd hkey (Nat.not_lt.mpr hout)
      · rw [hfree] at hbusy
        cases hbusy
    · cases hs
      exact h.setPc (by simp [Pc.target])
  | next t => exact h.next hs

omit [DecidableEq ι] in
lemma safe (h : Agrees keysMax s) (hint : Hinted keysMax s) : Safe keysMax s where
  distinct := by
    refine h.nodup.map_on fun p hp q hq heq => ?_
    obtain ⟨k, m⟩ := p
    obtain ⟨k', m'⟩ := q
    obtain rfl : k = k' := heq
    rw [((h.live k m).mp hp).2.2, ((h.live k m').mp hq).2.2]
  full hidle := by
    rw [hint.found_eq_iff]
    constructor
    · intro hbusy key hkey
      refine ⟨s.made key, (h.live key _).mpr ⟨hkey, ?_, rfl⟩⟩
      by_cases hlt : key < s.nextKey
      · obtain hset | ⟨t, ht⟩ := hint.below key hlt
        · exact hset
        · simp [hidle t] at ht
      · exact hbusy key hkey (Nat.not_lt.mp hlt)
    · intro hlive key hkey _
      obtain ⟨made, hmem⟩ := hlive key hkey
      exact ((h.live key made).mp hmem).2.1
  inside := h.inside
  gets := h.gets

end Agrees

/-- Every state of a run whose calls of `pthread_key_create` meet the condition is safe, and a call
that finds no free key from the hint on reads the table past its end. -/
theorem pthread_keys_safe (keysMax : ℕ) :
    (∀ s : Keys ι, Machine.Reach (machine keysMax) (ok keysMax) s → Safe keysMax s) ∧
    ∀ (s s' : Keys ι) (t : ι) (destructor : ℕ),
      Machine.Reach (machine keysMax) (ok keysMax) s →
      step keysMax s (.keyCreate t destructor) = some s' →
      (∀ key < keysMax, s.nextKey ≤ key → s.busy key = true) → ¬Safe keysMax s' := by
  have hinv : ∀ s : Keys ι, Machine.Reach (machine keysMax) (ok keysMax) s →
      Hinted keysMax s ∧ Agrees keysMax s := by
    intro s h
    refine h.invariant (I := fun s => Hinted keysMax s ∧ Agrees keysMax s) ?_
      fun s e s' hi hok hs => ⟨hi.1.step hs, hi.2.step hi.1 hok hs⟩
    rintro s rfl
    refine ⟨⟨Nat.zero_le _, fun key hkey => absurd hkey (Nat.not_lt_zero key)⟩, ?_⟩
    exact agrees_pthreadKeysInit
  refine ⟨fun s h => (hinv s h).2.safe (hinv s h).1, fun s s' t destructor h hs hbusy hsafe => ?_⟩
  have hfound := (hinv s h).1.found_eq_iff.mpr hbusy
  rw [PthreadKeys.step] at hs
  split_ifs at hs
  cases hs
  have hinside := hsafe.inside
  rw [keyCreate, hfound, if_neg (not_not.mpr rfl)] at hinside
  simp at hinside

end Runs

instance {ι : Type*} [Fintype ι] (keysMax : ℕ) (s : Keys ι) : DecidablePred (ok keysMax s)
  | .keyCreate _ _ =>
      haveI : ∀ key pc, Decidable (Pc.Writes key pc)
        | _, .free .. => inferInstanceAs (Decidable (_ = _))
        | _, .setValue .. => inferInstanceAs (Decidable (_ = _))
        | _, .idle => inferInstanceAs (Decidable False)
        | _, .storeDestructor .. => inferInstanceAs (Decidable False)
        | _, .testHint _ => inferInstanceAs (Decidable False)
        | _, .lowerHint _ => inferInstanceAs (Decidable False)
        | _, .getValue .. => inferInstanceAs (Decidable False)
      haveI : ∀ key, Decidable (FirstFree s key) := fun _ =>
        inferInstanceAs (Decidable (_ ∧ _ ∧ _))
      inferInstanceAs (Decidable (∃ key < keysMax, FirstFree s key ∧ _ ∧ _))
  | .keyDelete .. => inferInstanceAs (Decidable True)
  | .setspecific .. => inferInstanceAs (Decidable True)
  | .getspecific .. => inferInstanceAs (Decidable True)
  | .next _ => inferInstanceAs (Decidable True)

theorem pthread_keys_two_threads :
    ∃ s : Keys (Fin 2), s.live = [(0, 1)] ∧ s.gets = [(7, 7)] ∧ Safe 2 s := by
  obtain ⟨s, hs, hlive, hgets⟩ : ∃ s, ((machine 2).restrict fun s e => decide (ok 2 s e)).run
      pthreadKeysInit [.keyCreate 0 0, .next 0, .keyCreate 1 0, .next 1, .setspecific 1 0 7, .next 1,
        .getspecific 1 0, .keyDelete (0 : Fin 2) 1, .next 0, .next 1, .next 0] = some s ∧
      s.live = [(0, 1)] ∧ s.gets = [(7, 7)] := ⟨_, rfl, rfl, rfl⟩
  have hinit : ((machine 2).restrict fun s e => decide (ok 2 s e)).init
      (pthreadKeysInit : Keys (Fin 2)) := rfl
  have hreach := Machine.Reachable.of_restrict (fun _ _ => of_decide_eq_true)
    (Machine.Reachable.run (.init hinit) _ hs)
  exact ⟨s, hlive, hgets, (pthread_keys_safe 2).1 s hreach⟩

/-- A key made again gives the value set for the old one, and a call for a third key of two reads
past the table. -/
theorem pthread_keys_unsafe :
    (∃ s : Keys ℕ, (machine 2).Reachable s ∧ s.gets = [(7, 0)] ∧ ¬Safe 2 s) ∧
    ∃ s : Keys ℕ, (machine 2).Reachable s ∧ s.outside = true ∧ ¬Safe 2 s := by
  constructor
  · obtain ⟨s, hs, hgets⟩ : ∃ s, (machine 2).run pthreadKeysInit [.keyCreate 0 0, .next 0,
        .setspecific 0 0 7, .next 0, .keyDelete 0 0, .next 0, .next 0, .next 0, .keyCreate 0 0,
        .next 0, .getspecific 0 0, .next (0 : ℕ)] = some s ∧ s.gets = [(7, 0)] := ⟨_, rfl, rfl⟩
    refine ⟨s, Machine.Reachable.run (.init rfl) _ hs, hgets, fun h => ?_⟩
    have heq := h.gets (7, 0) (by simp [hgets])
    cases heq
  · obtain ⟨s, hs, houtside⟩ : ∃ s, (machine 2).run pthreadKeysInit [.keyCreate 0 0, .next 0,
        .keyCreate 0 0, .next 0, .keyCreate (0 : ℕ) 0] = some s ∧ s.outside = true := ⟨_, rfl, rfl⟩
    refine ⟨s, Machine.Reachable.run (.init rfl) _ hs, houtside, fun h => ?_⟩
    have heq := h.inside
    rw [houtside] at heq
    cases heq

end Almos.PthreadKeys
