import Almos.RadixMap

/-!
# Threads that get pages of one mapper

`mapper_get_page` puts a dummy page from its stack into the tree while it loads a page, and whoever
finds the dummy sleeps in its wait queue. What a thread does between two calls of `mcs_lock` and
`mcs_unlock` is one step. The mapper belongs to a file (`m_node` is not `NULL`), so a page marked for
migration is only unmarked.
-/
namespace Almos.PageLoad
open Radix

/-- What the tree of a mapper points to: a page, or the dummy page on the stack of a thread. -/
inductive Slot
  | page (page : ℕ)
  | dummy (thread : ℕ)
  deriving DecidableEq

/-- The fields of `page_s` that `mapper_get_page` uses. -/
structure PageRec where
  inload : Bool
  migrate : Bool
  mapped : Bool
  index : ℕ

/-- Where a thread is in `mapper_get_page`. -/
inductive Pc
  | out
  | look (index : ℕ)
  | asleep (index : ℕ) (slot : Slot)
  | alloc (index : ℕ)
  | read (index page : ℕ)
  | failed (index : ℕ) (page : Option ℕ)
  | loaded (index page : ℕ)
  | back (index : ℕ) (page : Option ℕ)
  deriving DecidableEq

structure MapperCache where
  store : Radix.State Slot
  page : ℕ → PageRec
  live : ℕ → Bool
  /-- The index whose data were read into a page. -/
  data : ℕ → Option ℕ
  pc : ℕ → Pc
  queue : Slot → List ℕ

namespace MapperCache

def goTo (s : MapperCache) (t : ℕ) (pc : Pc) : MapperCache :=
  { s with pc := Function.update s.pc t pc }

@[simp] lemma goTo_self (s : MapperCache) (t : ℕ) (pc : Pc) : (s.goTo t pc).pc t = pc :=
  Function.update_self _ _ _

def setPage (s : MapperCache) (p : ℕ) (f : PageRec → PageRec) : MapperCache :=
  { s with page := Function.update s.page p (f (s.page p)) }

/-- `wait_on` and the sleep after it. -/
def waitOn (s : MapperCache) (t index : ℕ) (slot : Slot) : MapperCache :=
  { s with queue := Function.update s.queue slot (s.queue slot ++ [t]) }.goTo t (.asleep index slot)

def resume : Pc → Pc
  | .asleep index _ => .look index
  | pc => pc

def wakeupAll (s : MapperCache) (slot : Slot) : MapperCache :=
  { s with
    queue := Function.update s.queue slot []
    pc := fun t => if t ∈ s.queue slot then resume (s.pc t) else s.pc t }

/-- `radix_item_info_apply` with `RADIX_INFO_INSERT`. -/
def infoInsert (st : Radix.State Slot) (info : RadixItemInfo) (slot : Slot) : Radix.State Slot :=
  ⟨st.tree.setNode info.node (·.addChild info.index (.item slot)),
    Function.update st.map info.key (some slot)⟩

/-- `radix_item_info_apply` with `RADIX_INFO_SET`. -/
def infoSet (st : Radix.State Slot) (info : RadixItemInfo) (slot : Slot) : Radix.State Slot :=
  ⟨radixItemInfoSet st.tree info slot, Function.update st.map info.key (some slot)⟩

/-- `radix_tree_delete`, as `__mapper_remove_page` calls it. -/
def treeDelete (st : Radix.State Slot) (key : ℕ) (deleted : Bool) : Option (Radix.State Slot) := do
  let (tree, _) ← radixTreeDelete st.tree key deleted
  some ⟨tree, Function.update st.map key none⟩

def insertDummy (s : MapperCache) (t index : ℕ) (allocs : List ℕ) (deleted : Bool) :
    Option MapperCache := do
  let s := { s with queue := Function.update s.queue (.dummy t) [] }
  match ← radixItemInfoLookup s.store.tree index with
  | some info => some ({ s with store := infoInsert s.store info (.dummy t) }.goTo t (.alloc index))
  | none => do
      let (tree, err) ← radixTreeInsert s.store.tree index (.dummy t) allocs
      if err ≠ 0 then do
        let store ← treeDelete { s.store with tree := tree } index deleted
        some ({ s with store := store }.goTo t (.back index none))
      else
        let map := Function.update s.store.map index (some (.dummy t))
        some ({ s with store := ⟨tree, map⟩ }.goTo t (.alloc index))

def lookup (s : MapperCache) (t index : ℕ) (allocs : List ℕ) (deleted : Bool) :
    Option MapperCache := do
  match ← radixTreeLookup s.store.tree index with
  | none => s.insertDummy t index allocs deleted
  | some (.dummy o) => some (s.waitOn t index (.dummy o))
  | some (.page p) =>
      if (s.page p).inload then some (s.waitOn t index (.page p))
      else
        let s := if (s.page p).migrate then s.setPage p ({ · with migrate := false }) else s
        some (s.goTo t (.back index (some p)))

/-- `kmem_alloc` of the page. -/
def allocPage (s : MapperCache) (t index : ℕ) : Option ℕ → MapperCache
  | none => s.goTo t (.failed index none)
  | some p =>
      ({ s with live := Function.update s.live p true, data := Function.update s.data p none }.setPage p
        ({ · with inload := true, mapped := true, index := index })).goTo t (.read index p)

/-- `readpage` -/
def readPage (s : MapperCache) (t index p : ℕ) (ok : Bool) : MapperCache :=
  if ok then
    { s with data := Function.update s.data p (some (s.page p).index) }.goTo t (.loaded index p)
  else s.goTo t (.failed index (some p))

/-- The page is given back, with `mapper` cleared. -/
def freePage (s : MapperCache) (p : ℕ) : MapperCache :=
  { s with live := Function.update s.live p false }.setPage p ({ · with mapped := false })

def withdraw (s : MapperCache) (t index : ℕ) (page : Option ℕ) (deleted : Bool) :
    Option MapperCache := do
  let store ← treeDelete s.store index deleted
  let s := { s with store := store }.wakeupAll (.dummy t)
  let s := page.elim s s.freePage
  some (s.goTo t (.back index none))

/-- The critical section after a page was read. Where the assertion fails there is no next state. -/
def publish (s : MapperCache) (t index p : ℕ) : Option MapperCache := do
  let info ← (← radixItemInfoLookup s.store.tree index)
  let item ← radixTreeLookup s.store.tree index
  if item = some (.dummy t) then
    let s := { s with store := infoSet s.store info (.page p) }
    let s := (s.setPage p ({ · with inload := false })).wakeupAll (.dummy t)
    some (s.goTo t (.back index (some p)))
  else none

/-- `mapper_remove_page` -/
def removePage (s : MapperCache) (p : ℕ) (deleted : Bool) : Option MapperCache := do
  let store ← treeDelete s.store (s.page p).index deleted
  some ({ s with store := store }.freePage p)

end MapperCache

inductive Event
  | call (t index : ℕ)
  | lookup (t : ℕ) (allocs : List ℕ) (deleted : Bool)
  | alloc (t : ℕ) (page : Option ℕ)
  | read (t : ℕ) (ok : Bool)
  | withdraw (t : ℕ) (deleted : Bool)
  | publish (t : ℕ)
  | leave (t : ℕ)
  | mark (page : ℕ)
  | remove (page : ℕ) (deleted : Bool)

def step (s : MapperCache) : Event → Option MapperCache
  | .call t index =>
      match s.pc t with
      | .out => some (s.goTo t (.look index))
      | _ => none
  | .lookup t allocs deleted =>
      match s.pc t with
      | .look index => s.lookup t index allocs deleted
      | _ => none
  | .alloc t page =>
      match s.pc t with
      | .alloc index => some (s.allocPage t index page)
      | _ => none
  | .read t ok =>
      match s.pc t with
      | .read index p => some (s.readPage t index p ok)
      | _ => none
  | .withdraw t deleted =>
      match s.pc t with
      | .failed index page => s.withdraw t index page deleted
      | _ => none
  | .publish t =>
      match s.pc t with
      | .loaded index p => s.publish t index p
      | _ => none
  | .leave t =>
      match s.pc t with
      | .back _ _ => some (s.goTo t .out)
      | _ => none
  | .mark page => some (s.setPage page ({ · with migrate := true }))
  | .remove page deleted => s.removePage page deleted

/-- A mapper that `mapper_init` has just set up, with no thread in the call. -/
def mapperCache : Machine MapperCache Event where
  init s := (∃ heap, s.store = ⟨radixTreeInit heap, fun _ => none⟩) ∧ (∀ p, s.live p = false) ∧
    (∀ t, s.pc t = .out) ∧ ∀ slot, s.queue slot = []
  step := step

/-- The allocator gives what is free; a page that is removed is in the tree; and deletions stay clear
of the defects of the tree. -/
def Ok (s : MapperCache) : Event → Prop
  | .call _ index => index < 2 ^ 32
  | .lookup _ allocs _ => Fresh s.store.tree allocs
  | .alloc _ page => ∀ p, page = some p → s.live p = false
  | .withdraw t deleted => ∀ index page, s.pc t = .failed index page →
      DeleteOk s.store.tree s.store.map index deleted
  | .remove p deleted => s.store.map (s.page p).index = some (.page p) ∧
      DeleteOk s.store.tree s.store.map (s.page p).index deleted
  | _ => True

section Tree
variable {st : Radix.State Slot} {info : RadixItemInfo} {i : ℕ}

lemma infoSet_inv (h : Inv st.tree st.map) (hi : i < 2 ^ 32) (hmap : st.map i ≠ none)
    (slot : Slot) :
    ∃ info, radixItemInfoLookup st.tree i = some (some info) ∧
      Inv (MapperCache.infoSet st info slot).tree (MapperCache.infoSet st info slot).map ∧
      (MapperCache.infoSet st info slot).map = Function.update st.map i (some slot) := by
  obtain ⟨lay, hrep⟩ := h.rep
  obtain ⟨a, ha, hlookup⟩ := hrep.infoLookup h.maxKey hi hmap
  exact ⟨_, hlookup, ⟨⟨lay, hrep.infoSet ha hmap slot⟩, h.low, h.maxKey⟩, rfl⟩

lemma infoInsert_inv (h : Inv st.tree st.map) (hi : i < 2 ^ 32) (hmap : st.map i = none)
    (hlookup : radixItemInfoLookup st.tree i = some (some info)) (slot : Slot) :
    Inv (MapperCache.infoInsert st info slot).tree (Function.update st.map i (some slot)) ∧
      (MapperCache.infoInsert st info slot).map = Function.update st.map i (some slot) := by
  obtain ⟨lay, hrep⟩ := h.rep
  rw [radixItemInfoLookup_spec hrep h.maxKey hi] at hlookup
  cases ha : lay 0 (i / 64) with
  | none =>
    rw [ha] at hlookup
    cases hlookup
  | some a =>
    rw [ha] at hlookup
    cases hlookup
    have hslot := hrep.leaf_slot ha
    rw [hmap, Option.map_none] at hslot
    have hcount := (hrep.counted _ _ _ ha).addChild (.item slot) (Nat.mod_lt _ (by decide)) hslot
    exact ⟨⟨⟨lay, hrep.set_item (f := (·.addChild (i % 64) (.item slot))) ha (some slot) rfl hcount
      rfl⟩, h.low, h.maxKey⟩, rfl⟩

lemma treeDelete_inv (st : Radix.State Slot) (h : Inv st.tree st.map) (hi : i < 2 ^ 32)
    (deleted : Bool) (hok : st.map i ≠ none → DeleteOk st.tree st.map i deleted) :
    ∃ store, MapperCache.treeDelete st i deleted = some store ∧ Inv store.tree store.map ∧
      store.map = Function.update st.map i none := by
  obtain ⟨root, hdelete, hinv⟩ := radixTreeDelete_spec h hi deleted hok
  refine ⟨⟨root, Function.update st.map i none⟩, ?_, hinv, rfl⟩
  simp only [MapperCache.treeDelete, hdelete, Option.bind_eq_bind, Option.bind_some]

end Tree

end Almos.PageLoad
