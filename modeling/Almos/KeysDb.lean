import Almos.Word

/-!
# The keys database

A two-level table from 16-bit keys to pointers. Records are allocated on first use and
never given back before the database is destroyed. A key past the last record has no entry
in the root page: an access to it has no result.
-/
namespace Almos

/-- The root page, `NULL` where no record was allocated; a record holds pointers. -/
structure KeysDb where
  root : ℕ → Option (ℕ → Option ℕ)

namespace KeysDb

/-- `KEYS_PER_REC_LOG2` -/
def keysPerRecLog2 : ℕ := 6

/-- `PMM_PAGE_SIZE / sizeof(keys_record_t*)` -/
def recordsNr : ℕ := 1024

/-- `keysdb_init`, the root page being zeroed. -/
def keysdbInit : KeysDb := ⟨fun _ => none⟩

def keysdbIndex (key : ℕ) : ℕ × ℕ := (key / 2 ^ keysPerRecLog2, key % 2 ^ keysPerRecLog2)

def setRecord (db : KeysDb) (i : ℕ) (rec : ℕ → Option ℕ) : KeysDb :=
  ⟨Function.update db.root i (some rec)⟩

/-- `keysdb_insert` by one thread. `grants` counts the record allocations that succeed. -/
def keysdbInsert (db : KeysDb) (key value grants : ℕ) : Option (KeysDb × Option Errno × ℕ) :=
  let (recordIndex, keyIndex) := keysdbIndex key
  if recordIndex < recordsNr then
    match db.root recordIndex, grants with
    | none, 0 => some (db, some .enomem, 0)
    | none, grants + 1 =>
        some (db.setRecord recordIndex (Function.update (fun _ => none) keyIndex (some value)),
          none, grants)
    | some rec, grants =>
        match rec keyIndex with
        | some _ => some (db, some .eexist, grants)
        | none => some (db.setRecord recordIndex (Function.update rec keyIndex (some value)),
            none, grants)
  else none

/-- `keysdb_remove`; the value removed is not used. -/
def keysdbRemove (db : KeysDb) (key : ℕ) : Option KeysDb :=
  let (recordIndex, keyIndex) := keysdbIndex key
  if recordIndex < recordsNr then
    match db.root recordIndex with
    | none => some db
    | some rec => some (db.setRecord recordIndex (Function.update rec keyIndex none))
  else none

def keysdbLookup (db : KeysDb) (key : ℕ) : Option (Option ℕ) :=
  let (recordIndex, keyIndex) := keysdbIndex key
  if recordIndex < recordsNr then
    match db.root recordIndex with
    | none => some none
    | some rec => some (rec keyIndex)
  else none

/-- The first loop of `keysdb_bind`, with `todo` keys left: the error that ended it, if any, and
the value of `i` then. -/
def insertLoop (keyStart value : ℕ) : ℕ → ℕ → KeysDb → ℕ →
    Option (KeysDb × Option Errno × ℕ × ℕ)
  | 0, i, db, grants => some (db, none, i, grants)
  | todo + 1, i, db, grants =>
      match keysdbInsert db (keyStart + i) value grants with
      | none => none
      | some (db, some err, grants) => some (db, some err, i, grants)
      | some (db, none, grants) => insertLoop keyStart value todo (i + 1) db grants

/-- The second loop of `keysdb_bind`: the keys already bound are removed again. -/
def removeLoop (keyStart : ℕ) : ℕ → KeysDb → Option KeysDb
  | 0, db => some db
  | i + 1, db =>
      match keysdbRemove db (keyStart + i) with
      | none => none
      | some db => removeLoop keyStart i db

def keysdbBind (db : KeysDb) (keyStart keysNr value grants : ℕ) :
    Option (KeysDb × Option Errno) :=
  match insertLoop keyStart value keysNr 0 db grants with
  | none => none
  | some (db, none, _, _) => some (db, none)
  | some (db, some err, i, _) =>
      match removeLoop keyStart i db with
      | none => none
      | some db => some (db, some err)

/-- The loop of `keysdb_unbind`, with `todo` keys left. -/
def unbindLoop (keyStart : ℕ) : ℕ → ℕ → KeysDb → Option KeysDb
  | 0, _, db => some db
  | todo + 1, i, db =>
      match keysdbRemove db (keyStart + i) with
      | none => none
      | some db => unbindLoop keyStart todo (i + 1) db

def keysdbUnbind (db : KeysDb) (keyStart keysNr : ℕ) : Option KeysDb :=
  unbindLoop keyStart keysNr 0 db

def keysLimit : ℕ := recordsNr * 2 ^ keysPerRecLog2

def get (db : KeysDb) (key : ℕ) : Option ℕ :=
  (db.root (keysdbIndex key).1).bind fun rec => rec (keysdbIndex key).2

variable {db : KeysDb} {key k : ℕ}

theorem index_lt (h : key < keysLimit) : (keysdbIndex key).1 < recordsNr := by
  unfold keysLimit recordsNr keysPerRecLog2 at h
  unfold keysdbIndex recordsNr keysPerRecLog2
  simp only
  omega

theorem index_inj (h₁ : (keysdbIndex k).1 = (keysdbIndex key).1)
    (h₂ : (keysdbIndex k).2 = (keysdbIndex key).2) : k = key := by
  unfold keysdbIndex keysPerRecLog2 at h₁ h₂
  simp only at h₁ h₂
  omega

theorem lookup_eq_get (h : key < keysLimit) : keysdbLookup db key = some (get db key) := by
  simp only [keysdbLookup, get, index_lt h, if_true]
  cases db.root (keysdbIndex key).1 <;> rfl

theorem get_setRecord (rec : ℕ → Option ℕ) (v : Option ℕ)
    (hrec : ∀ i, (db.root (keysdbIndex key).1).bind (fun r => r i) = rec i) :
    get (db.setRecord (keysdbIndex key).1 (Function.update rec (keysdbIndex key).2 v)) k =
      if k = key then v else get db k := by
  by_cases hrecord : (keysdbIndex k).1 = (keysdbIndex key).1
  · by_cases hkey : k = key
    · simp [get, setRecord, hkey]
    · have hne : (keysdbIndex k).2 ≠ (keysdbIndex key).2 := fun h => hkey (index_inj hrecord h)
      simp [get, setRecord, hrecord, hne, hkey, hrec]
  · have hkey : k ≠ key := fun h => hrecord (by rw [h])
    simp [get, setRecord, hrecord, hkey]

theorem insert_spec (db : KeysDb) (key value grants : ℕ) (h : key < keysLimit) :
    ∃ db' err grants', keysdbInsert db key value grants = some (db', err, grants') ∧
      (err = none ∧ get db key = none ∧ (∀ k, get db' k = if k = key then some value else get db k) ∨
        err ≠ none ∧ db' = db) := by
  have hlt := index_lt h
  cases hroot : db.root (keysdbIndex key).1 with
  | none =>
    cases grants with
    | zero =>
      refine ⟨db, some .enomem, 0, ?_, .inr ⟨by simp, rfl⟩⟩
      simp [keysdbInsert, hlt, hroot]
    | succ grants =>
      refine ⟨db.setRecord (keysdbIndex key).1
        (Function.update (fun _ => none) (keysdbIndex key).2 (some value)), none, grants, ?_, .inl ?_⟩
      · simp only [keysdbInsert, hlt, if_true, hroot]
      · exact ⟨rfl, by simp [get, hroot], fun k => get_setRecord _ _ (by simp [hroot])⟩
  | some rec =>
    cases hrec : rec (keysdbIndex key).2 with
    | some v =>
      refine ⟨db, some .eexist, grants, ?_, .inr ⟨by simp, rfl⟩⟩
      simp [keysdbInsert, hlt, hroot, hrec]
    | none =>
      refine ⟨db.setRecord (keysdbIndex key).1
        (Function.update rec (keysdbIndex key).2 (some value)), none, grants, ?_, .inl ?_⟩
      · simp only [keysdbInsert, hlt, if_true, hroot, hrec]
      · exact ⟨rfl, by simp [get, hroot, hrec], fun k => get_setRecord _ _ (by simp [hroot])⟩

theorem remove_spec (db : KeysDb) (key : ℕ) (h : key < keysLimit) :
    ∃ db', keysdbRemove db key = some db' ∧ ∀ k, get db' k = if k = key then none else get db k := by
  have hlt := index_lt h
  cases hroot : db.root (keysdbIndex key).1 with
  | none =>
    refine ⟨db, by simp [keysdbRemove, hlt, hroot], ?_⟩
    intro k
    by_cases hkey : k = key
    · simp [hkey, get, hroot]
    · simp [hkey]
  | some rec =>
    refine ⟨db.setRecord (keysdbIndex key).1 (Function.update rec (keysdbIndex key).2 none), ?_, ?_⟩
    · simp only [keysdbRemove, hlt, if_true, hroot]
    · intro k
      exact get_setRecord _ _ (by simp [hroot])

theorem insertLoop_spec (keyStart value : ℕ) :
    ∀ todo i (db : KeysDb) grants, keyStart + i + todo ≤ keysLimit →
      ∃ db' err j grants', insertLoop keyStart value todo i db grants = some (db', err, j, grants') ∧
        i ≤ j ∧ j ≤ i + todo ∧ (err = none → j = i + todo) ∧
        (∀ k, keyStart + i ≤ k → k < keyStart + j → get db k = none) ∧
        ∀ k, get db' k = if keyStart + i ≤ k ∧ k < keyStart + j then some value else get db k := by
  intro todo
  induction todo with
  | zero =>
    intro i db grants _
    refine ⟨db, none, i, grants, rfl, le_rfl, le_rfl, by simp, ?_, ?_⟩
    · intro k hlow hhigh
      omega
    · intro k
      rw [if_neg (by omega)]
  | succ todo ih =>
    intro i db grants hbound
    obtain ⟨db₁, err, grants₁, hins, hcase⟩ :=
      insert_spec db (keyStart + i) value grants (by omega)
    obtain ⟨rfl, hfree, hget₁⟩ | ⟨herr, rfl⟩ := hcase
    · obtain ⟨db', err, j, grants', hloop, hij, hj, hdone, hnone, hget⟩ :=
        ih (i + 1) db₁ grants₁ (by omega)
      refine ⟨db', err, j, grants', ?_, by omega, by omega, fun h => by rw [hdone h]; omega, ?_, ?_⟩
      · simp only [insertLoop, hins, hloop]
      · intro k hlow hhigh
        by_cases hk : k = keyStart + i
        · rw [hk, hfree]
        · have := hnone k (by omega) hhigh
          rwa [hget₁ k, if_neg hk] at this
      · intro k
        rw [hget k, hget₁ k]
        by_cases hk : k = keyStart + i
        · rw [if_neg (by omega), if_pos hk, if_pos (by omega)]
        · by_cases hin : keyStart + (i + 1) ≤ k ∧ k < keyStart + j
          · rw [if_pos hin, if_pos (by omega)]
          · rw [if_neg hin, if_neg hk, if_neg (by omega)]
    · cases err with
      | none => exact absurd rfl herr
      | some e =>
        refine ⟨db₁, some e, i, grants₁, ?_, le_rfl, by omega, by simp, ?_, ?_⟩
        · simp only [insertLoop, hins]
        · intro k hlow hhigh
          omega
        · intro k
          rw [if_neg (by omega)]

theorem removeLoop_spec (keyStart : ℕ) :
    ∀ i (db : KeysDb), keyStart + i ≤ keysLimit → ∃ db', removeLoop keyStart i db = some db' ∧
      ∀ k, get db' k = if keyStart ≤ k ∧ k < keyStart + i then none else get db k := by
  intro i
  induction i with
  | zero =>
    intro db _
    refine ⟨db, rfl, fun k => ?_⟩
    rw [if_neg (by omega)]
  | succ i ih =>
    intro db hbound
    obtain ⟨db₁, hrem, hget₁⟩ := remove_spec db (keyStart + i) (by omega)
    obtain ⟨db', hloop, hget⟩ := ih db₁ (by omega)
    refine ⟨db', by simp only [removeLoop, hrem, hloop], fun k => ?_⟩
    rw [hget k, hget₁ k]
    by_cases hk : k = keyStart + i
    · rw [if_neg (by omega), if_pos hk, if_pos (by omega)]
    · by_cases hin : keyStart ≤ k ∧ k < keyStart + i
      · rw [if_pos hin, if_pos (by omega)]
      · rw [if_neg hin, if_neg hk, if_neg (by omega)]

/-- A range of keys is bound as a whole, all of it being free, or left as it was. -/
theorem bind_cases (db : KeysDb) {keyStart keysNr : ℕ} (value grants : ℕ)
    (h : keyStart + keysNr ≤ keysLimit) :
    ∃ db' err, keysdbBind db keyStart keysNr value grants = some (db', err) ∧
      (err = none ∧ (∀ k, keyStart ≤ k → k < keyStart + keysNr → get db k = none) ∧
          (∀ k, get db' k =
            if keyStart ≤ k ∧ k < keyStart + keysNr then some value else get db k) ∨
        err ≠ none ∧ ∀ k, get db' k = get db k) := by
  obtain ⟨db₁, err, j, grants', hloop, -, hj, hdone, hnone, hget₁⟩ :=
    insertLoop_spec keyStart value keysNr 0 db grants (by omega)
  cases err with
  | none =>
    refine ⟨db₁, none, by simp only [keysdbBind, hloop], .inl ⟨rfl, ?_, ?_⟩⟩
    · simpa [hdone rfl] using hnone
    · simpa [hdone rfl] using hget₁
  | some e =>
    obtain ⟨db', hrem, hget⟩ := removeLoop_spec keyStart j db₁ (by omega)
    refine ⟨db', some e, by simp only [keysdbBind, hloop, hrem],
      .inr ⟨Option.some_ne_none e, fun k => ?_⟩⟩
    rw [hget k, hget₁ k]
    by_cases hin : keyStart ≤ k ∧ k < keyStart + j
    · rw [if_pos hin, hnone k (by omega) hin.2]
    · rw [if_neg hin, if_neg (by omega)]

theorem bind_spec (db : KeysDb) {keyStart keysNr : ℕ} (value grants : ℕ) (h : keyStart + keysNr ≤ keysLimit) :
    ∃ db' err, keysdbBind db keyStart keysNr value grants = some (db', err) ∧
      ((∀ k, get db' k = if keyStart ≤ k ∧ k < keyStart + keysNr then some value else get db k) ∨
        ∀ k, get db' k = get db k) := by
  obtain ⟨db', err, hbind, ⟨-, -, hget⟩ | ⟨-, hget⟩⟩ := bind_cases db value grants h
  · exact ⟨db', err, hbind, .inl hget⟩
  · exact ⟨db', err, hbind, .inr hget⟩

theorem unbind_spec (db : KeysDb) {keyStart keysNr : ℕ} (h : keyStart + keysNr ≤ keysLimit) :
    ∃ db', keysdbUnbind db keyStart keysNr = some db' ∧
      ∀ k, get db' k = if keyStart ≤ k ∧ k < keyStart + keysNr then none else get db k := by
  have hloop : ∀ todo i (db : KeysDb), keyStart + i + todo ≤ keysLimit →
      ∃ db', unbindLoop keyStart todo i db = some db' ∧
        ∀ k, get db' k =
          if keyStart + i ≤ k ∧ k < keyStart + i + todo then none else get db k := by
    intro todo
    induction todo with
    | zero =>
      intro i db _
      refine ⟨db, rfl, fun k => ?_⟩
      rw [if_neg (by omega)]
    | succ todo ih =>
      intro i db hbound
      obtain ⟨db₁, hrem, hget₁⟩ := remove_spec db (keyStart + i) (by omega)
      obtain ⟨db', hrest, hget⟩ := ih (i + 1) db₁ (by omega)
      refine ⟨db', by simp only [unbindLoop, hrem, hrest], fun k => ?_⟩
      rw [hget k, hget₁ k]
      by_cases hk : k = keyStart + i
      · rw [if_neg (by omega), if_pos hk, if_pos (by omega)]
      · by_cases hin : keyStart + (i + 1) ≤ k ∧ k < keyStart + (i + 1) + todo
        · rw [if_pos hin, if_pos (by omega)]
        · rw [if_neg hin, if_neg hk, if_neg (by omega)]
  simpa [keysdbUnbind] using hloop keysNr 0 db (by omega)

theorem lookup_congr {db' : KeysDb} (h : get db' k = get db k) :
    keysdbLookup db' k = keysdbLookup db k := by
  by_cases hlt : (keysdbIndex k).1 < recordsNr
  · have hlookup : ∀ db : KeysDb, keysdbLookup db k = some (get db k) := by
      intro db
      simp only [keysdbLookup, get, hlt, if_true]
      cases db.root (keysdbIndex k).1 <;> rfl
    rw [hlookup, hlookup, h]
  · simp [keysdbLookup, hlt]

/-- What `keysdb_bind` leaves behind, by the error that it returns. -/
structure BoundOrKept (db : KeysDb) (keyStart keysNr value : ℕ) (db' : KeysDb)
    (err : Option Errno) : Prop where
  free : err = none → ∀ k, keyStart ≤ k → k < keyStart + keysNr → keysdbLookup db k = some none
  bound : err = none → ∀ k, keyStart ≤ k → k < keyStart + keysNr →
    keysdbLookup db' k = some (some value)
  others : err = none → ∀ k, ¬(keyStart ≤ k ∧ k < keyStart + keysNr) →
    keysdbLookup db' k = keysdbLookup db k
  unbind : err = none → ∃ db'', keysdbUnbind db' keyStart keysNr = some db'' ∧
    ∀ k, keysdbLookup db'' k = keysdbLookup db k
  kept : err ≠ none → ∀ k, keysdbLookup db' k = keysdbLookup db k

/-- A range is bound as a whole, or no lookup has changed, however many records could be had. -/
theorem keysdb_bind_all_or_nothing (db : KeysDb) {keyStart keysNr : ℕ} (value grants : ℕ)
    (h : keyStart + keysNr ≤ keysLimit) :
    ∃ db' err, keysdbBind db keyStart keysNr value grants = some (db', err) ∧
      BoundOrKept db keyStart keysNr value db' err := by
  obtain ⟨db', err, hbind, ⟨rfl, hfree, hget⟩ | ⟨herr, hget⟩⟩ := bind_cases db value grants h
  · refine ⟨db', none, hbind, fun _ k hlow hhigh => ?_, fun _ k hlow hhigh => ?_,
      fun _ k hout => lookup_congr ?_, fun _ => ?_, fun hne => absurd rfl hne⟩
    · rw [lookup_eq_get (by omega), hfree k hlow hhigh]
    · rw [lookup_eq_get (by omega), hget k, if_pos ⟨hlow, hhigh⟩]
    · rw [hget k, if_neg hout]
    · obtain ⟨db'', hunbind, hget'⟩ := unbind_spec db' h
      refine ⟨db'', hunbind, fun k => lookup_congr ?_⟩
      by_cases hin : keyStart ≤ k ∧ k < keyStart + keysNr
      · rw [hget' k, if_pos hin, hfree k hin.1 hin.2]
      · rw [hget' k, if_neg hin, hget k, if_neg hin]
  · exact ⟨db', err, hbind, fun hnone => absurd hnone herr, fun hnone => absurd hnone herr,
      fun hnone => absurd hnone herr, fun hnone => absurd hnone herr,
      fun _ k => lookup_congr (hget k)⟩

/-- Two keys in two records: where only the first can be had nothing is bound, where both can be had
both keys are bound, and unbound again. -/
theorem keysdb_bind_two_records :
    (∃ db, keysdbBind keysdbInit 63 2 7 1 = some (db, some .enomem) ∧
      ∀ k, keysdbLookup db k = keysdbLookup keysdbInit k) ∧
    ∃ db db', keysdbBind keysdbInit 63 2 7 2 = some (db, none) ∧
      keysdbLookup db 63 = some (some 7) ∧ keysdbLookup db 64 = some (some 7) ∧
      keysdbUnbind db 63 2 = some db' ∧ ∀ k, keysdbLookup db' k = keysdbLookup keysdbInit k := by
  have hresult : ∀ grants db err, keysdbBind keysdbInit 63 2 7 grants = some (db, err) →
      BoundOrKept keysdbInit 63 2 7 db err := by
    intro grants db err hbind
    obtain ⟨db', err', hbind', hres⟩ := keysdb_bind_all_or_nothing keysdbInit 7 grants
      (by decide : 63 + 2 ≤ keysLimit)
    rw [hbind] at hbind'
    cases hbind'
    exact hres
  obtain ⟨db, hbind⟩ : ∃ db, keysdbBind keysdbInit 63 2 7 1 = some (db, some .enomem) := ⟨_, rfl⟩
  obtain ⟨db', hbind'⟩ : ∃ db, keysdbBind keysdbInit 63 2 7 2 = some (db, none) := ⟨_, rfl⟩
  have hbound := hresult 2 db' none hbind'
  obtain ⟨db'', hunbind, hback⟩ := hbound.unbind rfl
  exact ⟨⟨db, hbind, (hresult 1 db _ hbind).kept (by decide)⟩, db', db'', hbind',
    hbound.bound rfl 63 (by decide) (by decide), hbound.bound rfl 64 (by decide) (by decide),
    hunbind, hback⟩

end KeysDb
end Almos
