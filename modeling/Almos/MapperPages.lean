import Almos.RadixShape

/-!
# Adding pages to a mapper and taking them out

What `mapper_add_page` and `__mapper_remove_page` do to the radix tree of a mapper and to the fields
of a page.
-/
namespace Almos
open Radix

/-- The fields of `page_s` that concern its mapper. -/
structure PageFields where
  mapper : Option ℕ
  index : ℕ
  dirty : Bool
  buffer : Bool

variable {ι : Type} {tree tree' : Radix ι} {fields fields' : ℕ → PageFields} {page index : ℕ}
  {allocs : List ℕ} {err : ℤ}

/-- `mapper_add_page`: `item` points to the page, and `kmem_alloc` gives `allocs` for the nodes of the
tree. -/
def mapperAddPage (mapper : ℕ) (tree : Radix ι) (fields : ℕ → PageFields) (page index : ℕ) (item : ι)
    (allocs : List ℕ) : Option (Radix ι × (ℕ → PageFields) × ℤ) := do
  let (tree, err) ← radixTreeInsert tree index item allocs
  if err ≠ 0 then some (tree, fields, err)
  else
    some (tree, Function.update fields page
      { fields page with mapper := some mapper, index := index }, 0)

/-- `__mapper_remove_page`, where `blkio_destroy` ends the buffers of a page. -/
def mapperRemovePage (tree : Radix ι) (fields : ℕ → PageFields) (page : ℕ) (deleted : Bool) :
    Option (Radix ι × (ℕ → PageFields)) := do
  let (tree, _) ← radixTreeDelete tree (fields page).index deleted
  some (tree, Function.update fields page
    { fields page with dirty := false, buffer := false, mapper := none })

/-- A page is in the mapper when the tree took it, and nothing else changes then. -/
lemma mapperAddPage_eq_some {mapper : ℕ} {item : ι}
    (h : mapperAddPage mapper tree fields page index item allocs = some (tree', fields', err)) :
    radixTreeInsert tree index item allocs = some (tree', err) ∧
      fields' = if err = 0 then
        Function.update fields page { fields page with mapper := some mapper, index := index }
      else fields := by
  cases hinsert : radixTreeInsert tree index item allocs with
  | none => simp [mapperAddPage, hinsert] at h
  | some result =>
    obtain ⟨root, out⟩ := result
    by_cases hout : out = 0
    · subst hout
      simp only [mapperAddPage, hinsert, Option.bind_eq_bind, Option.bind_some, ne_eq,
        not_true_eq_false, if_false, Option.some.injEq, Prod.mk.injEq] at h
      obtain ⟨rfl, rfl, rfl⟩ := h
      exact ⟨rfl, by rw [if_pos rfl]⟩
    · simp only [mapperAddPage, hinsert, Option.bind_eq_bind, Option.bind_some, ne_eq, hout,
        not_false_eq_true, if_true, Option.some.injEq, Prod.mk.injEq] at h
      obtain ⟨rfl, rfl, rfl⟩ := h
      exact ⟨rfl, by rw [if_neg hout]⟩

/-- A mapper at an address. The items of the tree are pages, and `map` is what the calls have
stored. -/
structure MapperState where
  addr : ℕ
  tree : Radix ℕ
  map : ℕ → Option ℕ
  page : ℕ → PageFields

namespace MapperState
variable {s t : MapperState}

def addPage (s : MapperState) (page index : ℕ) (allocs : List ℕ) : Option (MapperState × ℤ) := do
  let (tree, fields, err) ← mapperAddPage s.addr s.tree s.page page index page allocs
  some ({ s with tree := tree, map := mapAfter s.map index page err, page := fields }, err)

def withPage (s : MapperState) (tree : Radix ℕ) (page index : ℕ) : MapperState :=
  { s with
    tree := tree
    map := Function.update s.map index (some page)
    page := Function.update s.page page { s.page page with mapper := some s.addr, index := index } }

lemma addPage_eq_some (h : s.addPage page index allocs = some (t, err)) :
    ∃ tree, radixTreeInsert s.tree index page allocs = some (tree, err) ∧
      t = if err = 0 then s.withPage tree page index else { s with tree := tree } := by
  cases hadd : mapperAddPage s.addr s.tree s.page page index page allocs with
  | none => simp [addPage, hadd] at h
  | some result =>
    obtain ⟨tree, fields, out⟩ := result
    simp only [addPage, hadd, Option.bind_eq_bind, Option.bind_some, Option.some.injEq,
      Prod.mk.injEq] at h
    obtain ⟨rfl, rfl⟩ := h
    obtain ⟨hinsert, rfl⟩ := mapperAddPage_eq_some hadd
    refine ⟨tree, hinsert, ?_⟩
    unfold mapAfter withPage
    split_ifs <;> rfl

def fresh : MapperState where
  addr := 7
  tree := radixTreeInit ⟨none, 0, 0, fun _ => zeroNode, fun _ => false⟩
  map _ := none
  page _ := ⟨none, 0, false, false⟩

lemma withPage_index {tree : Radix ℕ} (hpage : (s.page page).mapper = none)
    (h : ∀ k p, s.map k = some p → (s.page p).index = k ∧ (s.page p).mapper ≠ none) :
    ∀ k p, (s.withPage tree page index).map k = some p →
      ((s.withPage tree page index).page p).index = k ∧
        ((s.withPage tree page index).page p).mapper ≠ none := by
  intro k p hp
  simp only [withPage] at hp ⊢
  by_cases hk : k = index
  · rw [hk, Function.update_self, Option.some.injEq] at hp
    rw [← hp, hk]
    simp
  · rw [Function.update_of_ne hk] at hp
    obtain ⟨hkey, hmapper⟩ := h k p hp
    have hne : p ≠ page := by
      rintro rfl
      exact hmapper hpage
    rw [Function.update_of_ne hne]
    exact ⟨hkey, hmapper⟩

end MapperState
end Almos
