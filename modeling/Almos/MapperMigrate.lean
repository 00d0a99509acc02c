import Almos.MapperContig

/-!
# Marking the pages of a mapper for migration

`mapper_set_auto_migrate` looks the pages up ten at a time and goes on from the key reached, which it
advances by the number of pages found. The lookup is a parameter: `lookup start n` are the slots that
`radix_tree_gang_lookup` fills.
-/
namespace Almos.Mapper
open Word Radix

def pgMigrate : ℕ := 0x400

/-- `PAGE_SET` -/
def pageSet (flags : ℕ → ℕ) (page flag : ℕ) : ℕ → ℕ :=
  Function.update flags page (flags page ||| flag)

/-- The loop over the slots filled, up to a `NULL`: the flags of the pages and the pages counted. -/
def markLoop : List (Option ℕ) → (ℕ → ℕ) → ℕ → (ℕ → ℕ) × ℕ
  | some page :: rest, flags, pagesNr => markLoop rest (pageSet flags page pgMigrate) (wadd pagesNr 1)
  | _, flags, pagesNr => (flags, pagesNr)

/-- The rounds of `mapper_set_auto_migrate`. -/
def migrateLoop (lookup : ℕ → ℕ → List (Option ℕ)) : ℕ → ℕ → (ℕ → ℕ) → ℕ → Option ((ℕ → ℕ) × ℕ)
  | 0, _, _, _ => none
  | fuel + 1, index, flags, pagesNr =>
      let found := lookup index 10
      let count := found.length
      let index := wadd index count
      let (flags, pagesNr) := markLoop found flags pagesNr
      if 0 < count then migrateLoop lookup fuel index flags pagesNr else some (flags, pagesNr)

def mapperSetAutoMigrate (lookup : ℕ → ℕ → List (Option ℕ)) (fuel : ℕ) (flags : ℕ → ℕ) :
    Option ((ℕ → ℕ) × ℕ) :=
  migrateLoop lookup fuel 0 flags 0

/-- The lookup gives the pages stored from `start` on in the order of their keys. -/
def LooksUp (m : ℕ → Option ℕ) (lookup : ℕ → ℕ → List (Option ℕ)) : Prop :=
  ∀ start n, lookup start n = ((itemsFrom m start).take n).map some

def pagesNr (s : MapperState) : ℕ := (itemsFrom s.map 0).length

def MarksAll (s : MapperState) (lookup : ℕ → ℕ → List (Option ℕ)) (flags : ℕ → ℕ) : Prop :=
  ∃ fuel flags', mapperSetAutoMigrate lookup fuel flags = some (flags', pagesNr s) ∧
    ∀ k page, s.map k = some page → flags' page &&& pgMigrate ≠ 0

/-- The indexes are those below the number of pages, which is a word. -/
def Dense (s : MapperState) : Prop :=
  pagesNr s < 2 ^ 32 ∧ ∀ k, (s.map k).isSome ↔ k < pagesNr s

variable {s : MapperState} {m : ℕ → Option ℕ} {lookup : ℕ → ℕ → List (Option ℕ)} {index n : ℕ}
  {flags : ℕ → ℕ}

lemma markLoop_count (pages : List ℕ) (flags : ℕ → ℕ) (count : ℕ) :
    (markLoop (pages.map some) flags count).2 % 2 ^ 32 = (count + pages.length) % 2 ^ 32 := by
  induction pages generalizing flags count with
  | nil => rfl
  | cons page rest ih =>
    rw [List.map_cons, markLoop, ih, wadd, List.length_cons]
    omega

lemma markLoop_lt (slots : List (Option ℕ)) (flags : ℕ → ℕ) {count : ℕ} (hcount : count < 2 ^ 32) :
    (markLoop slots flags count).2 < 2 ^ 32 := by
  induction slots generalizing flags count with
  | nil => exact hcount
  | cons slot rest ih =>
    cases slot with
    | none => exact hcount
    | some page => exact ih _ (wadd_lt _ _)

lemma markLoop_eq (pages : List ℕ) (flags : ℕ → ℕ) {count : ℕ} (hcount : count < 2 ^ 32) :
    (markLoop (pages.map some) flags count).2 = wadd count pages.length := by
  have hmod := markLoop_count pages flags count
  rwa [Nat.mod_eq_of_lt (markLoop_lt _ flags hcount)] at hmod

lemma pageSet_marked (flags : ℕ → ℕ) (page : ℕ) : pageSet flags page pgMigrate page &&& pgMigrate ≠ 0 := by
  unfold pageSet
  rw [Function.update_self]
  intro h
  have hbit := congrArg (fun n => n.testBit 10) h
  have hflag : pgMigrate.testBit 10 = true := by decide
  simp only [Nat.testBit_and, Nat.testBit_or, hflag, Bool.or_true, Bool.and_true, Nat.zero_testBit,
    Bool.true_eq_false] at hbit

lemma pageSet_keeps {page : ℕ} (h : flags page &&& pgMigrate ≠ 0) (other : ℕ) :
    pageSet flags other pgMigrate page &&& pgMigrate ≠ 0 := by
  rcases eq_or_ne page other with rfl | hne
  · exact pageSet_marked flags page
  · unfold pageSet
    rwa [Function.update_of_ne hne]

lemma markLoop_keeps (slots : List (Option ℕ)) {count page : ℕ} (h : flags page &&& pgMigrate ≠ 0) :
    (markLoop slots flags count).1 page &&& pgMigrate ≠ 0 := by
  induction slots generalizing flags count with
  | nil => exact h
  | cons slot rest ih =>
    cases slot with
    | none => exact h
    | some other => exact ih (pageSet_keeps h other)

lemma markLoop_marks {pages : List ℕ} {page : ℕ} (h : page ∈ pages) (flags : ℕ → ℕ) (count : ℕ) :
    (markLoop (pages.map some) flags count).1 page &&& pgMigrate ≠ 0 := by
  induction pages generalizing flags count with
  | nil => exact absurd h List.not_mem_nil
  | cons other rest ih =>
    rw [List.map_cons, markLoop]
    rcases List.mem_cons.mp h with rfl | hrest
    · exact markLoop_keeps _ (pageSet_marked flags page)
    · exact ih hrest _ _

/-! ### The key reached is the number of pages counted -/

lemma migrateLoop_end (hlookup : LooksUp m lookup) {fuel : ℕ} {flags' : ℕ → ℕ} {ret : ℕ}
    (hindex : index < 2 ^ 32) (h : migrateLoop lookup fuel index flags index = some (flags', ret)) :
    ret < 2 ^ 32 ∧ itemsFrom m ret = [] := by
  induction fuel generalizing index flags with
  | zero => cases h
  | succ fuel ih =>
    have hmark := markLoop_eq ((itemsFrom m index).take 10) flags hindex
    rw [migrateLoop, hlookup] at h
    simp only [hmark, List.length_map] at h
    by_cases hcount : 0 < ((itemsFrom m index).take 10).length
    · rw [if_pos hcount] at h
      exact ih (wadd_lt _ _) h
    · rw [if_neg hcount] at h
      have hnone : itemsFrom m index = [] := by
        have hzero := List.length_eq_zero_iff.mp (Nat.eq_zero_of_not_pos hcount)
        exact (List.take_eq_nil_iff.mp hzero).resolve_left (by decide)
      have hret : wadd index ((itemsFrom m index).take 10).length = ret :=
        (Prod.ext_iff.mp (Option.some.inj h)).2
      rw [hnone, List.take_nil, List.length_nil, wadd_of_lt (by omega)] at hret
      obtain rfl : index = ret := by omega
      exact ⟨hindex, hnone⟩

lemma itemsFrom_eq_nil (h : itemsFrom m n = []) {k : ℕ} (hk : n ≤ k) (hsmall : k < 2 ^ 32) :
    m k = none :=
  List.filterMap_eq_nil_iff.mp h k (List.mem_range'_1.mpr ⟨hk, by omega⟩)

/-- As many keys as there are places before the last key leave no place empty. -/
lemma isSome_of_length {start len : ℕ}
    (h : ((List.range' start len).filterMap m).length = len) {k : ℕ} (hk : start ≤ k)
    (hlt : k < start + len) : (m k).isSome := by
  have hcount : ((List.range' start len).filter fun k => (m k).isSome).length =
      (List.range' start len).length := by
    rw [← List.countP_eq_length_filter, ← List.length_filterMap_eq_countP, h, List.length_range']
  exact List.length_filter_eq_length_iff.mp hcount k (List.mem_range'_1.mpr ⟨hk, hlt⟩)

lemma dense_of_end (hsmall : ∀ k, 2 ^ 32 ≤ k → s.map k = none) (hnr : pagesNr s < 2 ^ 32)
    (h : itemsFrom s.map (pagesNr s) = []) : Dense s := by
  have hnone : ∀ k, pagesNr s ≤ k → s.map k = none := fun k hk => by
    by_cases hlt : k < 2 ^ 32
    · exact itemsFrom_eq_nil h hk hlt
    · exact hsmall k (by omega)
  have hitems := itemsFrom_below (Nat.zero_le _) hnr.le hnone
  have hlen : ((List.range' 0 (pagesNr s)).filterMap s.map).length = pagesNr s := by
    rw [Nat.sub_zero] at hitems
    rw [← hitems]
    rfl
  refine ⟨hnr, fun k => ⟨fun hsome => ?_, fun hlt => ?_⟩⟩
  · by_contra hge
    rw [hnone k (by omega)] at hsome
    cases hsome
  · exact isSome_of_length hlen (Nat.zero_le k) (by omega)

lemma itemsFrom_dense (hn : n < 2 ^ 32) (h : ∀ k, (m k).isSome ↔ k < n) (hle : index ≤ n) :
    (itemsFrom m index).length = n - index := by
  have hnone : ∀ k, n ≤ k → m k = none := fun k hk => by
    rw [← Option.not_isSome_iff_eq_none, h k]
    omega
  rw [itemsFrom_below hle hn.le hnone, List.length_filterMap_eq_countP]
  refine (List.countP_eq_length.mpr fun k hk => ?_).trans List.length_range'
  have := List.mem_range'_1.mp hk
  exact (h k).mpr (by omega)

lemma mem_round {k page : ℕ} (hn : n < 2 ^ 32) (h : ∀ k, (m k).isSome ↔ k < n) (hk : m k = some page)
    (hindex : index ≤ k) (hround : k < index + 10) : page ∈ (itemsFrom m index).take 10 := by
  have hlt : k < n := (h k).mp (by rw [hk]; rfl)
  have hget : (itemsFrom m index)[k - index]? = m (index + (k - index)) :=
    found_getElem? (by omega) fun i hi => (h _).mpr (by omega)
  rw [Nat.add_sub_cancel' hindex, hk] at hget
  have htake : ((itemsFrom m index).take 10)[k - index]? = some page := by
    rw [List.getElem?_take_of_lt (by omega), hget]
  exact List.mem_of_getElem? htake

lemma migrateLoop_dense (hlookup : LooksUp m lookup) (hn : n < 2 ^ 32)
    (h : ∀ k, (m k).isSome ↔ k < n) : ∀ left index (flags : ℕ → ℕ), index + left = n →
      (∀ k < index, ∀ page, m k = some page → flags page &&& pgMigrate ≠ 0) →
      ∃ fuel flags', migrateLoop lookup fuel index flags index = some (flags', n) ∧
        ∀ k page, m k = some page → flags' page &&& pgMigrate ≠ 0 := by
  intro left
  induction left using Nat.strongRecOn with
  | ind left ih =>
    intro index flags hleft hmarked
    have hlen := itemsFrom_dense hn h (show index ≤ n by omega)
    have hround : ((itemsFrom m index).take 10).length = min 10 left := by
      rw [List.length_take, hlen]
      omega
    have hmark := markLoop_eq ((itemsFrom m index).take 10) flags (show index < 2 ^ 32 by omega)
    have hnext : wadd index (min 10 left) = index + min 10 left := wadd_of_lt (by omega)
    rw [hround, hnext] at hmark
    by_cases hzero : left = 0
    · subst hzero
      refine ⟨1, (markLoop (((itemsFrom m index).take 10).map some) flags index).1, ?_,
        fun k page hk => ?_⟩
      · rw [migrateLoop, hlookup]
        simp only [List.length_map, hround, hmark]
        rw [if_neg (by omega)]
        exact congrArg some (Prod.ext rfl (by omega))
      · have hlt := (h k).mp (by rw [hk]; rfl)
        exact markLoop_keeps _ (hmarked k (by omega) page hk)
    · obtain ⟨fuel, flags', hloop, hall⟩ := ih (left - min 10 left) (by omega) (index + min 10 left)
        (markLoop (((itemsFrom m index).take 10).map some) flags index).1 (by omega) (by
          intro k hk page hpage
          rcases Nat.lt_or_ge k index with hlt | hge
          · exact markLoop_keeps _ (hmarked k hlt page hpage)
          · exact markLoop_marks (mem_round hn h hpage hge (by omega)) flags index)
      refine ⟨fuel + 1, flags', ?_, hall⟩
      rw [migrateLoop, hlookup]
      simp only [List.length_map, hround, hmark, hnext]
      rw [if_pos (by omega), hloop]

/-- The call marks all pages and returns their number if and only if the indexes have no gap. -/
theorem mapper_set_auto_migrate_iff (s : MapperState) (hs : mapperMachine.Reachable s)
    (lookup : ℕ → ℕ → List (Option ℕ)) (hlookup : LooksUp s.map lookup) (flags : ℕ → ℕ) :
    MarksAll s lookup flags ↔ Dense s := by
  constructor
  · rintro ⟨fuel, flags', hrun, -⟩
    obtain ⟨hnr, hnone⟩ := migrateLoop_end hlookup (by decide) hrun
    exact dense_of_end (keyed_reachable hs).small hnr hnone
  · rintro ⟨hnr, hdense⟩
    obtain ⟨fuel, flags', hloop, hall⟩ := migrateLoop_dense hlookup hnr hdense (pagesNr s) 0 flags
      (Nat.zero_add _) fun k hk => absurd hk (Nat.not_lt_zero k)
    exact ⟨fuel, flags', hloop, hall⟩

def onePage (index : ℕ) : Option MapperState :=
  mapperMachine.run MapperState.fresh [⟨50, index, [0]⟩]

lemma onePage_reachable (h : onePage index = some s) : mapperMachine.Reachable s :=
  Machine.Reachable.run (.init ⟨⟨_, rfl⟩, rfl⟩) _ h

def lookupOne (index start n : ℕ) : List (Option ℕ) :=
  if start ≤ index then [some 50].take n else []

lemma itemsFrom_one (hmap : m = Function.update (fun _ => none) index (some 50)) (hindex : index < 2 ^ 32)
    (start : ℕ) : itemsFrom m start = if start ≤ index then [50] else [] := by
  have hnone : ∀ k, k ≠ index → m k = none := fun k hk => by rw [hmap, Function.update_of_ne hk]
  have hself : m index = some 50 := by rw [hmap, Function.update_self]
  by_cases hle : start ≤ index
  · have hbelow : itemsFrom m start = (List.range' start (index + 1 - start)).filterMap m :=
      itemsFrom_below (by omega) (by omega) fun k hk => hnone k (by omega)
    rw [if_pos hle, hbelow]
    have hlen : index + 1 - start = (index - start) + 1 := by omega
    rw [hlen, List.range'_concat, List.filterMap_append]
    have hbefore : (List.range' start (index - start)).filterMap m = [] :=
      List.filterMap_eq_nil_iff.mpr fun k hk => hnone k (by have := List.mem_range'_1.mp hk; omega)
    have hlast : start + 1 * (index - start) = index := by omega
    rw [hbefore, hlast, List.nil_append, List.filterMap_cons_some hself, List.filterMap_nil]
  · rw [if_neg hle]
    exact List.filterMap_eq_nil_iff.mpr fun k hk => hnone k (by have := List.mem_range'_1.mp hk; omega)

lemma looksUp_one (hmap : m = Function.update (fun _ => none) index (some 50)) (hindex : index < 2 ^ 32) :
    LooksUp m (lookupOne index) := by
  intro start n
  rw [itemsFrom_one hmap hindex, lookupOne]
  split
  · rw [List.map_take]
    rfl
  · rw [List.take_nil]
    rfl

/-- The page at index 5 is found six times. -/
theorem mapper_set_auto_migrate_repeats : ∃ s, onePage 5 = some s ∧ mapperMachine.Reachable s ∧
    LooksUp s.map (lookupOne 5) ∧ pagesNr s = 1 ∧
    (mapperSetAutoMigrate (lookupOne 5) 8 fun _ => 0).map Prod.snd = some 6 ∧
    ¬ MarksAll s (lookupOne 5) fun _ => 0 := by
  obtain ⟨s, hs, hmap⟩ : ∃ s, onePage 5 = some s ∧
      s.map = Function.update (fun _ => none) 5 (some 50) := ⟨_, rfl, rfl⟩
  have hlookup := looksUp_one hmap (by decide)
  have hnr : pagesNr s = 1 := by
    unfold pagesNr
    rw [itemsFrom_one hmap (by decide)]
    rfl
  refine ⟨s, hs, onePage_reachable hs, hlookup, hnr, by decide, ?_⟩
  rintro ⟨fuel, flags', hrun, -⟩
  obtain ⟨-, hnone⟩ := migrateLoop_end hlookup (by decide) hrun
  rw [hnr, itemsFrom_one hmap (by decide)] at hnone
  exact absurd hnone (by decide)

/-- A page at index 0 is counted once and marked. -/
theorem mapper_set_auto_migrate_first : ∃ s, onePage 0 = some s ∧ pagesNr s = 1 ∧
    MarksAll s (lookupOne 0) fun _ => 0 := by
  obtain ⟨s, hs, hmap⟩ : ∃ s, onePage 0 = some s ∧
      s.map = Function.update (fun _ => none) 0 (some 50) := ⟨_, rfl, rfl⟩
  have hnr : pagesNr s = 1 := by
    unfold pagesNr
    rw [itemsFrom_one hmap (by decide)]
    rfl
  have hdense : Dense s := by
    refine ⟨by omega, fun k => ?_⟩
    rw [hnr, hmap, Nat.lt_one_iff]
    rcases eq_or_ne k 0 with rfl | hne
    · simp
    · simp [hne]
  exact ⟨s, hs, hnr, (mapper_set_auto_migrate_iff s (onePage_reachable hs) (lookupOne 0)
    (looksUp_one hmap (by decide)) fun _ => 0).mpr hdense⟩

end Almos.Mapper
