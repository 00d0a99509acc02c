import Almos.MapperPages
import Almos.RadixPrune

/-!
# Dirty pages of the page cache

Whether a page is dirty is recorded three times: in its flag, in the global list that the
flush daemon walks and in a tag of the radix tree of its mapper.
-/
namespace Almos
open Radix

/-- What a slot of a radix tree points to: a page, or the descriptor that `mapper_get_page` keeps
on its stack while a page is on its way. -/
inductive CacheItem
  | page (page : ℕ)
  | dummy
  deriving DecidableEq

/-- `store` has the tree of each mapper, with the items stored and the keys tagged. -/
structure PageCache where
  pages : ℕ → PageFields
  store : ℕ → TagState CacheItem
  dirtyPages : List ℕ
  /-- The pages that `kmem` handed out to mappers. -/
  inUse : ℕ → Bool

namespace PageCache

def tagPgDirty : ℕ := 0

def setPage (s : PageCache) (page : ℕ) (f : PageFields → PageFields) : PageCache :=
  { s with pages := Function.update s.pages page (f (s.pages page)) }

def setStore (s : PageCache) (mapper : ℕ) (store : TagState CacheItem) : PageCache :=
  { s with store := Function.update s.store mapper store }

def slot (s : PageCache) (mapper index : ℕ) : Option CacheItem := (s.store mapper).map index

def tag (s : PageCache) (mapper index : ℕ) : Bool := (s.store mapper).tagged index

def pageSetDirty (s : PageCache) (page : ℕ) : PageCache :=
  if (s.pages page).dirty then s
  else
    let s := s.setPage page ({ · with dirty := true })
    { s with dirtyPages := page :: s.dirtyPages }

def pageClearDirty (s : PageCache) (page : ℕ) : PageCache :=
  if (s.pages page).dirty then
    let s := s.setPage page ({ · with dirty := false })
    { s with dirtyPages := s.dirtyPages.erase page }
  else s

def kmemFree (s : PageCache) (page : ℕ) : PageCache :=
  { s with inUse := Function.update s.inUse page false }

/-- `mapper_add_page` of a page that `kmem_alloc` just returned; the caller frees it again after an
error. -/
def addPage (s : PageCache) (mapper page index : ℕ) (allocs : List ℕ) : Option PageCache := do
  let store := s.store mapper
  let (tree, pages, err) ← mapperAddPage mapper store.tree s.pages page index (.page page) allocs
  let map := mapAfter store.map index (.page page) err
  let s := { s with pages := pages }.setStore mapper { store with tree := tree, map := map }
  some (if err = 0 then { s with inUse := Function.update s.inUse page true } else s)

/-- `mapper_remove_page`, which clears the flag without the list. -/
def removePage (s : PageCache) (page : ℕ) (deleted : Bool) : Option PageCache := do
  let mapper ← (s.pages page).mapper
  let store := s.store mapper
  let index := (s.pages page).index
  let (tree, pages) ← mapperRemovePage store.tree s.pages page deleted
  let store := ⟨tree, Function.update store.map index none, Function.update store.tagged index false⟩
  some (({ s with pages := pages }.setStore mapper store).kmemFree page)

/-- `radix_tree_tag_set` or `radix_tree_tag_clear` for the index of a page in its mapper. -/
def tagPage (s : PageCache) (page : ℕ) (value : Bool) : Option PageCache := do
  let mapper ← (s.pages page).mapper
  let store := s.store mapper
  let index := (s.pages page).index
  let (tree, _) ← radixTreeTagWrite store.tree index tagPgDirty value
  some (s.setStore mapper
    { store with tree := tree, tagged := store.mark index tagPgDirty value })

def mapperDefaultSetPageDirty (s : PageCache) (page : ℕ) : Option PageCache :=
  if (s.pages page).dirty then some s else (s.tagPage page true).map (·.pageSetDirty page)

def mapperDefaultClearPageDirty (s : PageCache) (page : ℕ) : Option PageCache :=
  if (s.pages page).dirty then (s.tagPage page false).map (·.pageClearDirty page) else some s

/-- `mapper_default_sync_page`; the flag tells whether `writepage` succeeds. -/
def mapperDefaultSyncPage (s : PageCache) (page : ℕ) (writeOk : Bool) : Option PageCache :=
  if (s.pages page).dirty ∧ writeOk then (s.tagPage page false).map (·.pageClearDirty page)
  else some s

/-- How the invalidation in `vmm_migrate_shared_page_seq` goes: with no region or after an error
there is no new page; `others` tells whether a task other than the current one was visited. -/
inductive Inval
  | failed
  | done (others : Bool)

/-- `vmm_migrate_shared_page_seq`: the state, the new page if any, and whether it returns 0. The
error is `ECANCELED` unless another task was visited. -/
def vmmMigrateSharedPageSeq (s : PageCache) (page : ℕ) (inval : Inval) (alloc : Option ℕ) :
    PageCache × Option ℕ × Bool :=
  match inval, alloc with
  | .done others, some new =>
      let s := s.setPage new fun p => { p with
        mapper := (s.pages page).mapper
        index := (s.pages page).index
        dirty := p.dirty || (s.pages page).dirty }
      ({ s with inUse := Function.update s.inUse new true }, some new, others)
  | _, _ => (s, none, false)

/-- `radix_item_info_apply` with `RADIX_INFO_SET`. -/
def infoSet (s : PageCache) (mapper : ℕ) (info : RadixItemInfo) (item : CacheItem) : PageCache :=
  let store := s.store mapper
  s.setStore mapper { store with
    tree := radixItemInfoSet store.tree info item
    map := Function.update store.map info.key (some item) }

/-- The migration in `mapper_get_page`, for a page found in its slot. -/
def mapperGetPage (s : PageCache) (page : ℕ) (inval : Inval) (alloc : Option ℕ) :
    Option PageCache := do
  let mapper ← (s.pages page).mapper
  let info ← (← radixItemInfoLookup (s.store mapper).tree (s.pages page).index)
  let s := s.infoSet mapper info .dummy
  match vmmMigrateSharedPageSeq s page inval alloc with
  | (s, none, _) => some (s.infoSet mapper info (.page page))
  | (s, some new, true) => some ((s.infoSet mapper info (.page new)).kmemFree page)
  | (s, some new, false) => some (s.kmemFree new)

inductive Event
  | addPage (mapper page index : ℕ) (allocs : List ℕ)
  | setDirty (page : ℕ)
  | clearDirty (page : ℕ)
  | sync (page : ℕ) (writeOk : Bool)
  | remove (page : ℕ) (deleted : Bool)
  | migrate (page : ℕ) (inval : Inval) (alloc : Option ℕ)

def found (s : PageCache) (page : ℕ) : Bool :=
  (s.pages page).mapper.any fun mapper => s.slot mapper (s.pages page).index = some (.page page)

/-- Calls on pages that are in use; `kmem_alloc` gives what is free. -/
def step (s : PageCache) : Event → Option PageCache
  | .addPage mapper page index allocs =>
      if s.inUse page = false ∧ index < 2 ^ 32 ∧ Fresh (s.store mapper).tree allocs then
        s.addPage mapper page index allocs
      else none
  | .setDirty page => if s.inUse page then s.mapperDefaultSetPageDirty page else none
  | .clearDirty page => if s.inUse page then s.mapperDefaultClearPageDirty page else none
  | .sync page writeOk => if s.inUse page then s.mapperDefaultSyncPage page writeOk else none
  | .remove page deleted => if s.inUse page then s.removePage page deleted else none
  | .migrate page inval alloc =>
      if s.inUse page ∧ s.found page ∧ alloc.all fun new => !s.inUse new then
        s.mapperGetPage page inval alloc
      else none

/-- Mappers that `mapper_init` has set up, with nothing cached. -/
structure Start (s : PageCache) : Prop where
  pages : ∀ p, s.inUse p = false ∧ (s.pages p).dirty = false
  dirtyPages : s.dirtyPages = []
  store : ∀ m, ∃ heap, s.store m = ⟨radixTreeInit heap, fun _ => none, fun _ => false⟩

def machine : Machine PageCache Event where
  init := Start
  step := step

def RootWhole (s : PageCache) (page : ℕ) : Prop :=
  ∀ m, (s.pages page).mapper = some m → RootParentNull (s.store m).tree

/-- Only clean pages are removed or migrated, and a removal stays clear of the defects of
`radix_tree_delete`; a page gets dirty only at an index whose tag an `int` shows; and tags are written
while the root of the tree has no parent. -/
def EventOk (s : PageCache) : Event → Prop
  | .addPage _ _ _ _ => True
  | .setDirty page => (s.pages page).dirty = false → (s.pages page).index % 64 < 31 ∧ s.RootWhole page
  | .clearDirty page => (s.pages page).dirty = true → s.RootWhole page
  | .sync page writeOk => (s.pages page).dirty = true → writeOk = true → s.RootWhole page
  | .remove page deleted => (s.pages page).dirty = false ∧ ∀ m, (s.pages page).mapper = some m →
      DeleteOk (s.store m).tree (s.store m).map (s.pages page).index deleted
  | .migrate page _ _ => (s.pages page).dirty = false

/-! ### What an update does to each page, slot and tag -/

section Updates
variable {s : PageCache} {m m' i p q : ℕ} {store : TagState CacheItem}

@[simp] theorem setPage_pages (f : PageFields → PageFields) :
    (s.setPage p f).pages q = if q = p then f (s.pages p) else s.pages q :=
  Function.update_apply ..

@[simp] theorem setStore_slot : (s.setStore m store).slot m' i =
    if m' = m then store.map i else s.slot m' i := by
  simp only [setStore, slot, Function.update_apply]
  split_ifs <;> rfl

@[simp] theorem setStore_tag : (s.setStore m store).tag m' i =
    if m' = m then store.tagged i else s.tag m' i := by
  simp only [setStore, tag, Function.update_apply]
  split_ifs <;> rfl

end Updates

/-- A page in use sits in a slot of its mapper, whose tag is the flag of the page. -/
structure Cached (s : PageCache) (p m : ℕ) : Prop where
  mapper : (s.pages p).mapper = some m
  slot : (s.slot m (s.pages p).index).isSome
  tag : s.tag m (s.pages p).index = (s.pages p).dirty

structure DirtyOk (s : PageCache) : Prop where
  nodup : s.dirtyPages.Nodup
  listed : ∀ p, p ∈ s.dirtyPages ↔ (s.pages p).dirty = true
  used : ∀ p, (s.pages p).dirty = true → s.inUse p = true
  cached : ∀ p, s.inUse p = true → ∃ m, Cached s p m
  unique : ∀ p q, s.inUse p = true → s.inUse q = true → (s.pages p).mapper = (s.pages q).mapper →
    (s.pages p).index = (s.pages q).index → p = q
  low : ∀ m i, s.tag m i = true → i % 64 < 31

def Trees (s : PageCache) : Prop := ∀ m, ∃ lay, LeafTags (s.store m) lay

namespace DirtyOk
variable {s t : PageCache} {m i p : ℕ}

theorem init (h : Start s) : DirtyOk s := by
  have htag : ∀ m i, s.tag m i = false := by
    intro m i
    obtain ⟨heap, hstore⟩ := h.store m
    rw [tag, hstore]
  refine ⟨by simp [h.dirtyPages], ?_, ?_, ?_, ?_, ?_⟩
  · simp [h.dirtyPages, h.pages]
  · simp [h.pages]
  · simp [h.pages]
  · simp [h.pages]
  · simp [htag]

theorem cached_of (h : DirtyOk s) (hp : s.inUse p = true) (hm : (s.pages p).mapper = some m) :
    Cached s p m := by
  obtain ⟨m', hcached⟩ := h.cached p hp
  obtain rfl : m = m' := Option.some_inj.1 (hm.symm.trans hcached.mapper)
  exact hcached

theorem clean_of_unused (h : DirtyOk s) (hp : s.inUse p = false) : (s.pages p).dirty = false := by
  by_contra hdirty
  have hused := h.used p (by simpa using hdirty)
  simp [hp] at hused

theorem slot_ne (h : DirtyOk s) {q mq : ℕ} (hp : s.inUse p = true) (hm : (s.pages p).mapper = some m)
    (hq : s.inUse q = true) (hmq : (s.pages q).mapper = some mq) (hne : q ≠ p) :
    ¬(mq = m ∧ (s.pages q).index = (s.pages p).index) := by
  rintro ⟨rfl, hindex⟩
  exact hne (h.unique q p hq hp (hmq.trans hm.symm) hindex)

theorem mark (h : DirtyOk s) (hp : s.inUse p = true) (hm : (s.pages p).mapper = some m) {b : Bool}
    (hlow : b = true → (s.pages p).index % 64 < 31)
    (hpages : ∀ q, t.pages q = if q = p then { s.pages p with dirty := b } else s.pages q)
    (hslots : t.slot = s.slot)
    (htags : ∀ m' i', t.tag m' i' =
      if m' = m ∧ i' = (s.pages p).index then b else s.tag m' i')
    (huse : t.inUse = s.inUse) (hnodup : t.dirtyPages.Nodup)
    (hlist : ∀ q, q ∈ t.dirtyPages ↔ if q = p then b = true else (s.pages q).dirty = true) :
    DirtyOk t := by
  have hfields : ∀ q, (t.pages q).mapper = (s.pages q).mapper ∧
      (t.pages q).index = (s.pages q).index := by
    intro q
    rw [hpages]
    split_ifs with hq
    · rw [hq]
      exact ⟨rfl, rfl⟩
    · exact ⟨rfl, rfl⟩
  refine ⟨hnodup, ?_, ?_, ?_, ?_, ?_⟩
  · intro q
    rw [hlist, hpages]
    split_ifs <;> rfl
  · intro q hdirty
    rw [hpages] at hdirty
    rw [huse]
    split_ifs at hdirty with hq
    · rw [hq]
      exact hp
    · exact h.used q hdirty
  · intro q hq
    rw [huse] at hq
    obtain ⟨mq, hmq, hslot, htag⟩ := h.cached q hq
    refine ⟨mq, (hfields q).1.trans hmq, by rw [(hfields q).2, hslots]; exact hslot, ?_⟩
    rw [(hfields q).2, hpages, htags]
    rcases eq_or_ne q p with rfl | hne
    · obtain rfl : m = mq := Option.some_inj.1 (hm.symm.trans hmq)
      simp
    · rw [if_neg (h.slot_ne hp hm hq hmq hne), if_neg hne]
      exact htag
  · intro q q' hq hq' hmapper hindex
    rw [(hfields q).1, (hfields q').1] at hmapper
    rw [(hfields q).2, (hfields q').2] at hindex
    rw [huse] at hq hq'
    exact h.unique q q' hq hq' hmapper hindex
  · intro m' i' htag
    rw [htags] at htag
    split_ifs at htag with hcase
    · rw [hcase.2]
      exact hlow htag
    · exact h.low m' i' htag

/-- The slot `(m, i)`, which no page in use other than `old` sits in, gets the clean page `new`;
`old` goes out of use. -/
theorem enter {new : ℕ} (old : Option ℕ) (h : DirtyOk s) (hnew : s.inUse new = false)
    (hold : ∀ q, s.inUse q = true → (s.pages q).mapper = some m → (s.pages q).index = i →
      old = some q)
    (hclean : ∀ q, old = some q → (s.pages q).dirty = false) (htag : s.tag m i = false)
    (hpages : ∀ q, q ≠ new → t.pages q = s.pages q)
    (hpage : (t.pages new).dirty = false ∧ (t.pages new).mapper = some m ∧ (t.pages new).index = i)
    (hslots : ∀ m' i', (t.slot m' i').isSome = if m' = m ∧ i' = i then true else
      (s.slot m' i').isSome)
    (huse : ∀ q, t.inUse q = if some q = old then false else if q = new then true else s.inUse q)
    (htags : t.tag = s.tag) (hlist : t.dirtyPages = s.dirtyPages) : DirtyOk t := by
  have hnewClean := h.clean_of_unused hnew
  have hdirty : ∀ q, (t.pages q).dirty = (s.pages q).dirty := by
    intro q
    rcases eq_or_ne q new with rfl | hq
    · rw [hpage.1, hnewClean]
    · rw [hpages q hq]
  have huseCases : ∀ q, t.inUse q = true → q = new ∨ q ≠ new ∧ s.inUse q = true ∧
      ∀ mq, (s.pages q).mapper = some mq → ¬(mq = m ∧ (s.pages q).index = i) := by
    intro q hq
    rw [huse] at hq
    split_ifs at hq with hqold hqnew
    · exact .inl hqnew
    · refine .inr ⟨hqnew, hq, ?_⟩
      rintro mq hmq ⟨rfl, hindex⟩
      exact hqold (hold q hq hmq hindex).symm
  refine ⟨by rw [hlist]; exact h.nodup, ?_, ?_, ?_, ?_, by rw [htags]; exact h.low⟩
  · intro q
    rw [hlist, hdirty]
    exact h.listed q
  · intro q hq
    rw [hdirty] at hq
    have hqold : some q ≠ old := fun heq => by simp [hclean q heq.symm] at hq
    have hqnew : q ≠ new := fun heq => by simp [heq, hnewClean] at hq
    rw [huse, if_neg hqold, if_neg hqnew]
    exact h.used q hq
  · intro q hq
    rcases huseCases q hq with rfl | ⟨hqnew, hquse, hslot⟩
    · refine ⟨m, hpage.2.1, ?_, ?_⟩ <;> rw [hpage.2.2]
      · simp [hslots]
      · rw [htags, hpage.1]
        exact htag
    · obtain ⟨mq, hmq, hsome, hqtag⟩ := h.cached q hquse
      refine ⟨mq, ?_, ?_, ?_⟩ <;> rw [hpages q hqnew]
      · exact hmq
      · rw [hslots, if_neg (hslot mq hmq)]
        exact hsome
      · rw [htags]
        exact hqtag
  · intro q q' hq hq' hmapper hindex
    rcases huseCases q hq with rfl | ⟨hqnew, hquse, hslot⟩
    · rcases huseCases q' hq' with rfl | ⟨hqnew', hquse', hslot'⟩
      · rfl
      · rw [hpage.2.1, hpages q' hqnew'] at hmapper
        rw [hpage.2.2, hpages q' hqnew'] at hindex
        exact absurd ⟨rfl, hindex.symm⟩ (hslot' m hmapper.symm)
    · rcases huseCases q' hq' with rfl | ⟨hqnew', hquse', hslot'⟩
      · rw [hpage.2.1, hpages q hqnew] at hmapper
        rw [hpage.2.2, hpages q hqnew] at hindex
        exact absurd ⟨rfl, hindex⟩ (hslot m hmapper)
      · rw [hpages q hqnew, hpages q' hqnew'] at hmapper hindex
        exact h.unique q q' hquse hquse' hmapper hindex

theorem leave (h : DirtyOk s) (hp : s.inUse p = true) (hm : (s.pages p).mapper = some m)
    (hclean : (s.pages p).dirty = false) (hpages : ∀ q, q ≠ p → t.pages q = s.pages q)
    (hpage : (t.pages p).dirty = false)
    (hslots : ∀ m' i', t.slot m' i' =
      if m' = m ∧ i' = (s.pages p).index then none else s.slot m' i')
    (htags : ∀ m' i', t.tag m' i' =
      if m' = m ∧ i' = (s.pages p).index then false else s.tag m' i')
    (huse : ∀ q, t.inUse q = if q = p then false else s.inUse q)
    (hlist : t.dirtyPages = s.dirtyPages) : DirtyOk t := by
  have hdirty : ∀ q, (t.pages q).dirty = (s.pages q).dirty := by
    intro q
    rcases eq_or_ne q p with rfl | hq
    · rw [hpage, hclean]
    · rw [hpages q hq]
  have huseCases : ∀ q, t.inUse q = true → q ≠ p ∧ s.inUse q = true := by
    intro q hq
    rw [huse] at hq
    split_ifs at hq with hqp
    exact ⟨hqp, hq⟩
  refine ⟨by rw [hlist]; exact h.nodup, ?_, ?_, ?_, ?_, ?_⟩
  · intro q
    rw [hlist, hdirty]
    exact h.listed q
  · intro q hq
    rw [hdirty] at hq
    have hne : q ≠ p := fun heq => by simp [heq, hclean] at hq
    rw [huse, if_neg hne]
    exact h.used q hq
  · intro q hq
    obtain ⟨hne, hquse⟩ := huseCases q hq
    obtain ⟨mq, hmq, hsome, htag⟩ := h.cached q hquse
    have hother := h.slot_ne hp hm hquse hmq hne
    refine ⟨mq, ?_, ?_, ?_⟩ <;> rw [hpages q hne]
    · exact hmq
    · rw [hslots, if_neg hother]
      exact hsome
    · rw [htags, if_neg hother]
      exact htag
  · intro q q' hq hq' hmapper hindex
    rw [hpages q (huseCases q hq).1, hpages q' (huseCases q' hq').1] at hmapper hindex
    exact h.unique q q' (huseCases q hq).2 (huseCases q' hq').2 hmapper hindex
  · intro m' i' htag
    rw [htags] at htag
    split_ifs at htag
    exact h.low m' i' htag

/-- What an occupied slot points to does not matter, nor what a page that is not in use holds besides
the flag. -/
theorem same (h : DirtyOk s) (hpages : ∀ q, s.inUse q = true → t.pages q = s.pages q)
    (hdirty : ∀ q, (t.pages q).dirty = (s.pages q).dirty)
    (hslots : ∀ m' i', (t.slot m' i').isSome = (s.slot m' i').isSome) (htags : t.tag = s.tag)
    (huse : t.inUse = s.inUse) (hlist : t.dirtyPages = s.dirtyPages) : DirtyOk t := by
  refine ⟨by rw [hlist]; exact h.nodup, fun q => by rw [hlist, hdirty]; exact h.listed q,
    fun q hq => by rw [huse]; exact h.used q (by rwa [hdirty] at hq), ?_, ?_,
    by rw [htags]; exact h.low⟩
  · intro q hq
    rw [huse] at hq
    obtain ⟨mq, hmq, hsome, htag⟩ := h.cached q hq
    refine ⟨mq, ?_, ?_, ?_⟩ <;> rw [hpages q hq]
    · exact hmq
    · rw [hslots]
      exact hsome
    · rw [htags]
      exact htag
  · intro q q' hq hq' hmapper hindex
    rw [huse] at hq hq'
    rw [hpages q hq, hpages q' hq'] at hmapper hindex
    exact h.unique q q' hq hq' hmapper hindex

end DirtyOk

/-! ### What the functions do to the three records -/

theorem Trees.setStore {s : PageCache} {m : ℕ} {store : TagState CacheItem} (h : Trees s)
    (hstore : ∃ lay, LeafTags store lay) : Trees (s.setStore m store) := by
  intro m'
  simp only [PageCache.setStore, Function.update_apply]
  split_ifs
  · exact hstore
  · exact h m'

theorem slot_setStore_same {s : PageCache} {m : ℕ} {store : TagState CacheItem}
    (h : store.map = (s.store m).map) : (s.setStore m store).slot = s.slot := by
  funext m' i'
  rw [setStore_slot]
  split_ifs with hm
  · rw [hm, h]
    rfl
  · rfl

theorem tag_setStore_same {s : PageCache} {m : ℕ} {store : TagState CacheItem}
    (h : store.tagged = (s.store m).tagged) : (s.setStore m store).tag = s.tag := by
  funext m' i'
  rw [setStore_tag]
  split_ifs with hm
  · rw [hm, h]
    rfl
  · rfl

theorem slot_setStore_update {s : PageCache} {m i : ℕ} {store : TagState CacheItem}
    {item : Option CacheItem} (h : store.map = Function.update (s.store m).map i item) (m' i' : ℕ) :
    (s.setStore m store).slot m' i' = if m' = m ∧ i' = i then item else s.slot m' i' := by
  rw [setStore_slot]
  rcases eq_or_ne m' m with rfl | hm
  · simp [h, Function.update_apply, slot]
  · simp [hm]

theorem tag_setStore_update {s : PageCache} {m i : ℕ} {store : TagState CacheItem} {b : Bool}
    (h : store.tagged = Function.update (s.store m).tagged i b) (m' i' : ℕ) :
    (s.setStore m store).tag m' i' = if m' = m ∧ i' = i then b else s.tag m' i' := by
  rw [setStore_tag]
  rcases eq_or_ne m' m with rfl | hm
  · simp [h, Function.update_apply, tag]
  · simp [hm]

theorem infoSet_tag (s : PageCache) (m : ℕ) (info : RadixItemInfo) (item : CacheItem) :
    (s.infoSet m info item).tag = s.tag := tag_setStore_same rfl

theorem pageSetDirty_of_clean {s : PageCache} {p : ℕ} (h : (s.pages p).dirty = false) :
    s.pageSetDirty p =
      { s.setPage p ({ · with dirty := true }) with dirtyPages := p :: s.dirtyPages } := by
  rw [pageSetDirty, h]
  rfl

theorem pageClearDirty_of_dirty {s : PageCache} {p : ℕ} (h : (s.pages p).dirty = true) :
    s.pageClearDirty p =
      { s.setPage p ({ · with dirty := false }) with dirtyPages := s.dirtyPages.erase p } := by
  rw [pageClearDirty, h]
  rfl

/-- The records agree, and the tags are those of the trees. -/
structure Agrees (s : PageCache) : Prop where
  records : DirtyOk s
  trees : Trees s

namespace Agrees
variable {s t : PageCache} {m i p : ℕ}

theorem init (h : Start s) : Agrees s := by
  refine ⟨.init h, fun m => ?_⟩
  obtain ⟨heap, hstore⟩ := h.store m
  rw [hstore]
  exact ⟨_, (tags_init heap).1.toLeafTags⟩

theorem tag (h : Agrees s) (hp : s.inUse p = true) (hm : (s.pages p).mapper = some m)
    (hwhole : s.RootWhole p) (value : Bool) :
    ∃ store, s.tagPage p value = some (s.setStore m store) ∧ (∃ lay, LeafTags store lay) ∧
      store.map = (s.store m).map ∧
      store.tagged = Function.update (s.store m).tagged (s.pages p).index value := by
  obtain ⟨lay, hleaves⟩ := h.trees m
  have hslot := (h.records.cached_of hp hm).slot
  have hsome : (s.store m).map (s.pages p).index ≠ none := Option.isSome_iff_ne_none.1 hslot
  obtain ⟨tree, out, heq, hgrown, -, -, hwritten, hsame⟩ :=
    radixTreeTagWrite_spec ⟨hleaves.sound, hwhole m hm⟩ (hleaves.small _ hsome) tagPgDirty value
  refine ⟨_, ?_, ⟨lay, hleaves.write hgrown.toSound hwritten hsame⟩, rfl, ?_⟩
  · simp [tagPage, hm, heq]
  · exact if_pos ⟨by decide, hslot⟩

theorem setDirty (h : Agrees s) (hp : s.inUse p = true) (hok : EventOk s (.setDirty p))
    (hstep : s.mapperDefaultSetPageDirty p = some t) : Agrees t := by
  obtain ⟨m, hm, -, -⟩ := h.records.cached p hp
  cases hdirty : (s.pages p).dirty with
  | true =>
    obtain rfl : s = t := by simpa [mapperDefaultSetPageDirty, hdirty] using hstep
    exact h
  | false =>
    obtain ⟨hlow, hwhole⟩ := hok hdirty
    obtain ⟨store, htag, hleaves, hmap, htagged⟩ := h.tag hp hm hwhole true
    have hclean : ((s.setStore m store).pages p).dirty = false := hdirty
    have hout : p ∉ s.dirtyPages := fun hin => by simp [(h.records.listed p).1 hin] at hdirty
    simp only [mapperDefaultSetPageDirty, hdirty, htag, Option.map_some, pageSetDirty_of_clean hclean,
      Bool.false_eq_true, if_false, Option.some.injEq] at hstep
    subst hstep
    refine ⟨h.records.mark hp hm (fun _ => hlow) (fun _ => Function.update_apply ..)
      (slot_setStore_same hmap) (tag_setStore_update htagged) rfl
      (List.nodup_cons.2 ⟨hout, h.records.nodup⟩) fun q => ?_, h.trees.setStore hleaves⟩
    change q ∈ p :: s.dirtyPages ↔ _
    rw [List.mem_cons, h.records.listed]
    split_ifs with hq <;> simp [hq]

theorem clean (h : Agrees s) (hp : s.inUse p = true) (hdirty : (s.pages p).dirty = true)
    (hwhole : s.RootWhole p) (hstep : (s.tagPage p false).map (·.pageClearDirty p) = some t) :
    Agrees t := by
  obtain ⟨m, hm, -, -⟩ := h.records.cached p hp
  obtain ⟨store, htag, hleaves, hmap, htagged⟩ := h.tag hp hm hwhole false
  have hflag : ((s.setStore m store).pages p).dirty = true := hdirty
  simp only [htag, Option.map_some, pageClearDirty_of_dirty hflag, Option.some.injEq] at hstep
  subst hstep
  refine ⟨h.records.mark hp hm (fun hfalse => by cases hfalse) (fun _ => Function.update_apply ..)
    (slot_setStore_same hmap) (tag_setStore_update htagged) rfl (h.records.nodup.erase p) fun q => ?_,
    h.trees.setStore hleaves⟩
  change q ∈ s.dirtyPages.erase p ↔ _
  rw [h.records.nodup.mem_erase_iff, h.records.listed]
  split_ifs with hq <;> simp [hq]

theorem clearDirty (h : Agrees s) (hp : s.inUse p = true) (hok : EventOk s (.clearDirty p))
    (hstep : s.mapperDefaultClearPageDirty p = some t) : Agrees t := by
  unfold mapperDefaultClearPageDirty at hstep
  split_ifs at hstep with hdirty
  · exact h.clean hp hdirty (hok hdirty) hstep
  · exact Option.some_inj.1 hstep ▸ h

theorem sync (h : Agrees s) (hp : s.inUse p = true) {writeOk : Bool} (hok : EventOk s (.sync p writeOk))
    (hstep : s.mapperDefaultSyncPage p writeOk = some t) : Agrees t := by
  unfold mapperDefaultSyncPage at hstep
  split_ifs at hstep with hdirty
  · exact h.clean hp hdirty.1 (hok hdirty.1 hdirty.2) hstep
  · exact Option.some_inj.1 hstep ▸ h

theorem addPage (h : Agrees s) (hp : s.inUse p = false) (hi : i < 2 ^ 32) {allocs : List ℕ}
    (hfresh : Fresh (s.store m).tree allocs) (hstep : s.addPage m p i allocs = some t) : Agrees t := by
  obtain ⟨lay, hleaves⟩ := h.trees m
  obtain ⟨⟨tree, pages, err⟩, hadd, ht⟩ := Option.bind_eq_some_iff.mp hstep
  obtain ⟨hinsert, rfl⟩ := mapperAddPage_eq_some hadd
  obtain ⟨root, lay', out, heq, hsound, -, hext, -, hfree⟩ :=
    hleaves.sound.insert hi (CacheItem.page p) hfresh
  rw [hinsert, Option.some.injEq, Prod.mk.injEq] at heq
  obtain ⟨rfl, rfl⟩ := heq
  have htrees := h.trees.setStore (m := m) ⟨lay', hleaves.insert hi hsound hext⟩
  simp only [Option.some.injEq] at ht
  subst ht
  by_cases herr : err = 0
  · have hnone : (s.store m).map i = none := (hfree.resolve_right (not_not_intro herr)).2
    have hslot : s.slot m i = none := hnone
    simp only [if_pos herr]
    refine ⟨h.records.enter (m := m) (i := i) none hp ?_ (by simp) ?_ ?_ ?_ ?_ ?_
      (tag_setStore_same rfl) rfl, htrees⟩
    · intro q hq hmq hindex
      have hsome := (h.records.cached_of hq hmq).slot
      rw [hindex, hslot] at hsome
      simp at hsome
    · by_contra htag
      exact hleaves.marked i (by simpa [PageCache.tag] using htag) hnone
    · intro q hq
      exact Function.update_of_ne hq ..
    · simp [PageCache.setStore, h.records.clean_of_unused hp]
    · intro m' i'
      have hmap : mapAfter (s.store m).map i (.page p) err =
          Function.update (s.store m).map i (some (.page p)) := if_pos herr
      refine (congrArg Option.isSome (slot_setStore_update hmap m' i')).trans ?_
      split_ifs <;> rfl
    · intro q
      simp [PageCache.setStore, Function.update_apply]
  · simp only [if_neg herr]
    refine ⟨h.records.same (fun _ _ => rfl) (fun _ => rfl) (fun m' i' => ?_) (tag_setStore_same rfl)
      rfl rfl, htrees⟩
    refine congrArg Option.isSome (congrFun (congrFun (slot_setStore_same ?_) m') i')
    exact if_neg herr

theorem removePage (h : Agrees s) (hp : s.inUse p = true) {deleted : Bool}
    (hok : EventOk s (.remove p deleted)) (hstep : s.removePage p deleted = some t) : Agrees t := by
  obtain ⟨m, hm, hslot, -⟩ := h.records.cached p hp
  obtain ⟨lay, hleaves⟩ := h.trees m
  obtain ⟨x, hx⟩ := Option.isSome_iff_exists.1 hslot
  obtain ⟨tree, lay', hdelete, hleaves'⟩ := hleaves.delete hx (hok.2 m hm)
  simp only [PageCache.removePage, hm, mapperRemovePage, hdelete, Option.bind_eq_bind,
    Option.bind_some, Option.some.injEq] at hstep
  subst hstep
  refine ⟨h.records.leave hp hm hok.1 (fun q hq => Function.update_of_ne hq ..) ?_
    (slot_setStore_update rfl) (tag_setStore_update rfl) (fun q => ?_) rfl,
    h.trees.setStore ⟨lay', hleaves'⟩⟩
  · simp [kmemFree, PageCache.setStore]
  · exact Function.update_apply ..

theorem infoSet (h : Agrees s) (hp : s.inUse p = true) (hm : (s.pages p).mapper = some m) :
    ∃ info, radixItemInfoLookup (s.store m).tree (s.pages p).index = some (some info) ∧
      info.key = (s.pages p).index ∧ ∀ item, Trees (s.infoSet m info item) ∧
        ∀ item', Trees ((s.infoSet m info item).infoSet m info item') := by
  obtain ⟨lay, hleaves⟩ := h.trees m
  have hsome : (s.store m).map (s.pages p).index ≠ none :=
    Option.isSome_iff_ne_none.1 (h.records.cached_of hp hm).slot
  obtain ⟨a, ha, hinfo⟩ :=
    hleaves.sound.rep.infoLookup hleaves.sound.maxKey (hleaves.small _ hsome) hsome
  refine ⟨_, hinfo, rfl, fun item => ?_⟩
  have hset := hleaves.infoSet ha hsome item
  refine ⟨h.trees.setStore ⟨lay, hset⟩, fun item' => (h.trees.setStore ⟨lay, hset⟩).setStore ⟨lay, ?_⟩⟩
  have hstore : (s.infoSet m ⟨a, (s.pages p).index, (s.pages p).index % 64⟩ item).store m =
      { s.store m with
        tree := radixItemInfoSet (s.store m).tree ⟨a, (s.pages p).index, (s.pages p).index % 64⟩ item
        map := Function.update (s.store m).map (s.pages p).index (some item) } :=
    Function.update_self ..
  rw [hstore]
  exact hset.infoSet ha (by simp) item'

theorem infoSet_slot (hslot : (s.slot m i).isSome) {info : RadixItemInfo} (hkey : info.key = i)
    (item : CacheItem) (m' i' : ℕ) :
    ((s.infoSet m info item).slot m' i').isSome = (s.slot m' i').isSome := by
  refine (congrArg Option.isSome (slot_setStore_update rfl m' i')).trans ?_
  split_ifs with hcase
  · rw [hcase.1, hcase.2, hkey, hslot]
    rfl
  · rfl

theorem migrate (h : Agrees s) (hp : s.inUse p = true) (hclean : (s.pages p).dirty = false)
    {inval : Inval} {alloc : Option ℕ} (halloc : ∀ new, alloc = some new → s.inUse new = false)
    (hstep : s.mapperGetPage p inval alloc = some t) : Agrees t := by
  obtain ⟨m, hm, hslot, htag⟩ := h.records.cached p hp
  obtain ⟨info, hinfo, hkey, htrees⟩ := h.infoSet hp hm
  simp only [mapperGetPage, hm, hinfo, Option.bind_eq_bind, Option.bind_some] at hstep
  have hdummy : ((s.infoSet m info .dummy).slot m (s.pages p).index).isSome := by
    rwa [infoSet_slot hslot hkey]
  have hslots : ∀ item m' i', (((s.infoSet m info .dummy).infoSet m info item).slot m' i').isSome =
      (s.slot m' i').isSome := fun item m' i' => by
    rw [infoSet_slot hdummy hkey, infoSet_slot hslot hkey]
  have htags : ∀ item, ((s.infoSet m info .dummy).infoSet m info item).tag = s.tag := fun _ =>
    (infoSet_tag ..).trans (infoSet_tag ..)
  have hstay : Agrees ((s.infoSet m info .dummy).infoSet m info (.page p)) :=
    ⟨h.records.same (fun _ _ => rfl) (fun _ => rfl) (hslots _) (htags _) rfl rfl, (htrees .dummy).2 _⟩
  cases inval with
  | failed => exact Option.some_inj.1 hstep ▸ hstay
  | done others =>
    cases alloc with
    | none => exact Option.some_inj.1 hstep ▸ hstay
    | some new =>
      have hnew := halloc new rfl
      have hnewClean := h.records.clean_of_unused hnew
      have hne : p ≠ new := by
        rintro rfl
        simp [hp] at hnew
      cases others with
      | false =>
        -- the new page is given back at once
        obtain rfl := Option.some_inj.1 hstep
        refine ⟨h.records.same (fun q hq => ?_) (fun q => ?_) (infoSet_slot hslot hkey _)
          (tag_setStore_same rfl) ?_ rfl, (htrees .dummy).1⟩
        · exact Function.update_of_ne (fun heq => by simp [heq, hnew] at hq) ..
        · rcases eq_or_ne q new with rfl | hq
          · simp [PageCache.infoSet, PageCache.setStore, setPage, kmemFree, hnewClean, hclean]
          · simp [PageCache.infoSet, PageCache.setStore, setPage, kmemFree, hq]
        · change Function.update (Function.update s.inUse new true) new false = s.inUse
          rw [Function.update_idem, ← hnew, Function.update_eq_self]
      | true =>
        obtain rfl := Option.some_inj.1 hstep
        refine ⟨h.records.enter (m := m) (i := (s.pages p).index) (some p) hnew ?_ ?_
          (by rw [htag, hclean]) (fun q hq => Function.update_of_ne hq ..) ?_ ?_ ?_ (htags _) rfl,
          (htrees .dummy).2 _⟩
        · intro q hq hmq hindex
          rw [h.records.unique q p hq hp (hmq.trans hm.symm) hindex]
        · rintro q ⟨⟩
          exact hclean
        · simp [PageCache.infoSet, PageCache.setStore, setPage, kmemFree, hnewClean, hclean, hm]
        · intro m' i'
          refine (hslots (.page new) m' i').trans ?_
          split_ifs with hcase
          · rw [hcase.1, hcase.2, hslot]
          · rfl
        · intro q
          change Function.update (Function.update s.inUse new true) p false q = _
          simp only [Function.update_apply, Option.some.injEq]

theorem step (h : Agrees s) {e : Event} (hok : EventOk s e) (hstep : machine.step s e = some t) :
    Agrees t := by
  change PageCache.step s e = some t at hstep
  cases e with
  | addPage m p i allocs =>
    simp only [PageCache.step] at hstep
    split_ifs at hstep with hcall
    exact h.addPage hcall.1 hcall.2.1 hcall.2.2 hstep
  | setDirty p =>
    simp only [PageCache.step] at hstep
    split_ifs at hstep with hp
    exact h.setDirty hp hok hstep
  | clearDirty p =>
    simp only [PageCache.step] at hstep
    split_ifs at hstep with hp
    exact h.clearDirty hp hok hstep
  | sync p writeOk =>
    simp only [PageCache.step] at hstep
    split_ifs at hstep with hp
    exact h.sync hp hok hstep
  | remove p deleted =>
    simp only [PageCache.step] at hstep
    split_ifs at hstep with hp
    exact h.removePage hp hok hstep
  | migrate p inval alloc =>
    simp only [PageCache.step] at hstep
    split_ifs at hstep with hcall
    refine h.migrate hcall.1 hok ?_ hstep
    rintro new rfl
    simpa using hcall.2.2

theorem tagGet (h : Agrees s) (hp : s.inUse p = true) (hm : (s.pages p).mapper = some m) :
    ∃ v, radixTreeTagGet (s.store m).tree (s.pages p).index tagPgDirty = some v ∧
      (0 < v ↔ (s.pages p).dirty = true) := by
  obtain ⟨lay, hleaves⟩ := h.trees m
  obtain ⟨-, hslot, htag⟩ := h.records.cached_of hp hm
  have htagged : tagPgDirty < nbTags := by decide
  obtain ⟨v, hget, hpos, -⟩ := hleaves.tagGet_pos (Option.isSome_iff_ne_none.1 hslot) htagged
    (h.records.low m _)
  exact ⟨v, hget, by rw [← htag]; exact hpos⟩

end Agrees

/-- As long as only clean pages are removed or migrated, removals stay clear of the defects of the
radix tree, and tags are written where they can be read, a page is on the list once if its flag is set
and not at all otherwise, the tag of its index in its mapper is its flag, and every page on the list
has a mapper. -/
theorem dirty_records_agree (s : PageCache) (h : machine.Reach EventOk s) :
    (∀ p, s.dirtyPages.count p = if (s.pages p).dirty then 1 else 0) ∧
    (∀ p m, s.inUse p = true → (s.pages p).mapper = some m →
      ∃ v, radixTreeTagGet (s.store m).tree (s.pages p).index tagPgDirty = some v ∧
        (0 < v ↔ (s.pages p).dirty = true)) ∧
    ∀ p ∈ s.dirtyPages, (s.pages p).mapper ≠ none := by
  have hinv : Agrees s :=
    h.invariant (fun _ => Agrees.init) (fun _ _ _ hi hok hstep => hi.step hok hstep)
  refine ⟨?_, fun p m hp hm => hinv.tagGet hp hm, ?_⟩
  · intro p
    rw [hinv.records.nodup.count]
    simp only [hinv.records.listed]
  · intro p hin
    obtain ⟨m, hcached⟩ := hinv.records.cached p (hinv.records.used p ((hinv.records.listed p).1 hin))
    rw [hcached.mapper]
    simp

def emptyCache : PageCache where
  pages _ := ⟨none, 0, false, false⟩
  store _ := ⟨radixTreeInit ⟨none, 0, 0, fun _ => zeroNode, fun _ => false⟩, fun _ => none,
    fun _ => false⟩
  dirtyPages := []
  inUse _ := false

theorem emptyCache_start : Start emptyCache := ⟨fun _ => ⟨rfl, rfl⟩, rfl, fun _ => ⟨_, rfl⟩⟩

def rootTest (s : PageCache) (page : ℕ) : Bool :=
  (s.pages page).mapper.all fun m =>
    (asNode (s.store m).tree.rootNode).all fun c => ((s.store m).tree.nodes c).parent = none

/-- Conditions of `EventOk` that can be computed. -/
def allowed (s : PageCache) : Event → Bool
  | .addPage _ _ _ _ => true
  | .setDirty page => (s.pages page).index % 64 < 31 && s.rootTest page
  | .clearDirty page => s.rootTest page
  | .sync page _ => s.rootTest page
  | .remove page deleted => !(s.pages page).dirty && (s.pages page).mapper.all fun m =>
      deleteTest (s.store m).tree (s.store m).map (s.pages page).index deleted
  | .migrate page _ _ => !(s.pages page).dirty

theorem eventOk_of_allowed (s : PageCache) (e : Event) (h : allowed s e = true) : EventOk s e := by
  have hroot : ∀ page, s.rootTest page = true → s.RootWhole page := by
    intro page htest m hm
    rw [rootTest, hm] at htest
    exact rootParentNull_of_test htest
  cases e with
  | addPage m p i allocs => trivial
  | setDirty p =>
    simp only [allowed, Bool.and_eq_true, decide_eq_true_eq] at h
    exact fun _ => ⟨h.1, hroot p h.2⟩
  | clearDirty p => exact fun _ => hroot p h
  | sync p writeOk => exact fun _ _ => hroot p h
  | remove p deleted =>
    simp only [allowed, Bool.and_eq_true, Bool.not_eq_true'] at h
    refine ⟨h.1, fun m hm => deleteOk_of_test ?_⟩
    rw [hm] at h
    exact h.2
  | migrate p inval alloc =>
    simp only [allowed, Bool.not_eq_true'] at h
    exact h

/-- Two pages of a mapper get dirty. The first is written back and removed; a write of the second
fails, it is cleaned and migrates to page 3, which gets dirty. -/
def history : List Event :=
  [.addPage 0 1 0 [0], .addPage 0 2 3 [], .setDirty 1, .setDirty 2, .sync 1 true, .remove 1 false,
    .sync 2 false, .clearDirty 2, .migrate 2 (.done true) (some 3), .setDirty 3]

theorem dirty_records_agree_history :
    ∃ s, (machine.restrict allowed).run emptyCache history = some s ∧
      (s.pages 1).mapper = none ∧ s.dirtyPages.count 2 = 0 ∧ s.dirtyPages.count 3 = 1 ∧
        ∃ v, radixTreeTagGet (s.store 0).tree 3 tagPgDirty = some v ∧ 0 < v := by
  have heval : (((machine.restrict allowed).run emptyCache history).map fun s =>
      decide ((s.pages 1).mapper = none ∧ (s.pages 2).dirty = false ∧ (s.pages 3).dirty = true) &&
        decide (s.inUse 3 = true ∧ (s.pages 3).mapper = some 0 ∧ (s.pages 3).index = 3)) =
          some true := by
    decide +kernel
  obtain ⟨s, hs, htest⟩ := Option.map_eq_some_iff.1 heval
  simp only [Bool.and_eq_true, decide_eq_true_eq] at htest
  obtain ⟨⟨hremoved, hclean, hdirty⟩, huse, hmapper, hindex⟩ := htest
  obtain ⟨hcount, htags, -⟩ :=
    dirty_records_agree s (Machine.Reach.of_run eventOk_of_allowed emptyCache_start hs)
  obtain ⟨v, hget, hpos⟩ := htags 3 0 huse hmapper
  rw [hindex] at hget
  refine ⟨s, hs, hremoved, ?_, ?_, v, hget, hpos.2 hdirty⟩
  · rw [hcount, hclean]
    rfl
  · rw [hcount, hdirty]
    rfl

/-- A dirty page that is removed stays on the list, clean and without mapper. -/
theorem removed_page_listed : ¬∀ s, machine.Reachable s →
    (∀ p, s.dirtyPages.count p = if (s.pages p).dirty then 1 else 0) ∧
    (∀ p m, s.inUse p = true → (s.pages p).mapper = some m →
      ∃ v, radixTreeTagGet (s.store m).tree (s.pages p).index tagPgDirty = some v ∧
        (0 < v ↔ (s.pages p).dirty = true)) ∧
    ∀ p ∈ s.dirtyPages, (s.pages p).mapper ≠ none := by
  intro hall
  have heval : ((machine.run emptyCache
      [.addPage 0 1 0 [0], .addPage 0 2 3 [], .setDirty 1, .remove 1 false]).map fun s =>
        decide (1 ∈ s.dirtyPages ∧ (s.pages 1).mapper = none)) = some true := by
    decide +kernel
  obtain ⟨s, hs, htest⟩ := Option.map_eq_some_iff.1 heval
  obtain ⟨hlisted, hnone⟩ := of_decide_eq_true htest
  obtain ⟨-, -, hmapper⟩ := hall s (.run (.init emptyCache_start) _ hs)
  exact hmapper 1 hlisted hnone

-- The tag of a dirty page at index 40 reads as 0.
example : ((machine.run emptyCache [.addPage 0 1 40 [0], .setDirty 1]).map fun s =>
    ((s.pages 1).dirty, radixTreeTagGet (s.store 0).tree 40 tagPgDirty)) = some (true, some 0) := by
  decide +kernel

end PageCache
end Almos
