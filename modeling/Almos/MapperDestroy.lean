import Almos.MapperPages
import Almos.RadixPrune
import Almos.RadixTagWalk

/-!
# The end of a mapper

Pages are added to the radix tree of a mapper, and `mapper_destroy` takes them out in batches of ten
that the gang lookup gives, each page by its index.
-/
namespace Almos.MapperDestroy
open Radix

/-- A mapper that goes, with the pages written back and the calls of `kmem_free` for a page. -/
structure DestroyState extends MapperState where
  synced : List ℕ
  freed : List ℕ

def mapperAddPage (s : DestroyState) (page index : ℕ) (allocs : List ℕ) :
    Option (DestroyState × ℤ) := do
  let (mapper, err) ← s.toMapperState.addPage page index allocs
  some ({ s with toMapperState := mapper }, err)

def removePage (s : DestroyState) (page : ℕ) (deleted : Bool) : Option DestroyState := do
  let (tree, fields) ← mapperRemovePage s.tree s.page page deleted
  some { s with tree := tree, page := fields }

def releaseDirty (flags : ℕ → Bool) (s : DestroyState) (page : ℕ) : Option DestroyState := do
  let s := { s with synced := s.synced ++ [page] }
  let s ← removePage s page (flags s.freed.length)
  some { s with freed := s.freed ++ [page] }

def release (flags : ℕ → Bool) (s : DestroyState) (page : ℕ) : Option DestroyState := do
  let s :=
    if (s.page page).dirty then
      { s with
        synced := s.synced ++ [page]
        page := Function.update s.page page { s.page page with dirty := false } }
    else s
  let s ← removePage s page (flags s.freed.length)
  some { s with freed := s.freed ++ [page] }

def destroyLoop (lookup : DestroyState → Option (List ℕ))
    (release : DestroyState → ℕ → Option DestroyState) : ℕ → DestroyState → Option DestroyState
  | 0, _ => none
  | rounds + 1, s => do
      let pages ← lookup s
      let s ← pages.foldlM release s
      if pages.length ≠ 0 then destroyLoop lookup release rounds s else some s

/-- The dirty pages of a batch. Before a lookup, `order` gives what its uninitialised array holds, by the
number of pages freed. -/
def lookupDirty (order : ℕ → ℕ → ℕ) (walk : ℕ) (s : DestroyState) : Option (List ℕ) :=
  radixTreeGangLookupTag s.tree 0 10 (order s.freed.length) walk

def lookupTen (order : ℕ → ℕ → ℕ) (walk : ℕ) (s : DestroyState) : Option (List ℕ) :=
  radixTreeGangLookup s.tree 0 10 (order s.freed.length) walk

/-- The variables that the radix tree does not initialise hold `order` at a lookup and `flags` at a
deletion, by the number of pages freed before. -/
def mapperDestroy (s : DestroyState) (doSync : Bool) (order : ℕ → ℕ → ℕ) (flags : ℕ → Bool)
    (walk rounds : ℕ) : Option DestroyState := do
  let s ←
    if doSync then
      destroyLoop (lookupDirty order walk) (releaseDirty flags) rounds s
    else some s
  destroyLoop (lookupTen order walk) (release flags) rounds s

inductive Event
  | addPage (page index : ℕ) (allocs : List ℕ)

def step (s : DestroyState) : Event → Option DestroyState
  | .addPage page index allocs =>
      if index < 2 ^ 32 ∧ Fresh s.tree allocs ∧ (s.page page).mapper = none then
        (mapperAddPage s page index allocs).map Prod.fst
      else none

structure Start (s : DestroyState) : Prop where
  tree : ∃ heap, s.tree = radixTreeInit heap
  map : ∀ k, s.map k = none
  freed : s.freed = []

def machine : Machine DestroyState Event where
  init := Start
  step := step

def AddDone (s : DestroyState) : Event → Prop
  | .addPage page index allocs => ∃ t, mapperAddPage s page index allocs = some (t, 0)

/-! ### When the pages are freed once -/

def pageKeys (m : ℕ → Option ℕ) : List ℕ := StaleWalk.keys (present m) 0 (2 ^ 32)

/-- The first leaf has a page; no batch goes on after the first block that comes after an empty one;
and the flag that a deletion does not set is not read as true by the parent of a leaf in use. -/
structure Orderly (m : ℕ → Option ℕ) (flags : ℕ → Bool) : Prop where
  firstLeaf : (∀ k, m k = none) ∨ ∃ k < 64, m k ≠ none
  batches : ∀ j, StaleWalk.FromKey 64 (fun k => k ∈ (pageKeys m).drop (10 * j)) 0 10
  flags : ∀ i k, (pageKeys m)[i]? = some k → flags i = true →
    (∀ j, m j ≠ none → j < 64) ∨ ∀ j, m j ≠ none → k < j → j / 64 ≠ k / 64

variable {s t : DestroyState} {lay : Layout} {m : ℕ → Option ℕ} {flags : ℕ → Bool} {l ks rest : List ℕ}

def Tall (root : Radix ℕ) (m : ℕ → Option ℕ) : Prop :=
  root.height = 0 ∨ ∃ k, m k ≠ none ∧ (root.height = 1 ∨ 64 ^ (root.height - 1) ≤ k)

structure Ready (s : DestroyState) : Prop where
  filled : ∃ lay, Filled s.tree lay s.map
  tall : Tall s.tree s.map
  index : ∀ k p, s.map k = some p → (s.page p).index = k ∧ (s.page p).mapper ≠ none
  freed : s.freed = []

lemma ready_of_start (h : Start s) : Ready s := by
  obtain ⟨heap, hheap⟩ := h.tree
  have hmap : s.map = fun _ => none := funext h.map
  refine ⟨⟨fun _ _ => none, ?_⟩, .inl (by rw [hheap]; rfl), fun k p hp => ?_, h.freed⟩
  · rw [hheap, hmap]
    exact filled_init heap
  · rw [h.map k] at hp
    cases hp

lemma Ready.addPage (h : Ready s) {page index : ℕ} {allocs : List ℕ} (hindex : index < 2 ^ 32)
    (hfresh : Fresh s.tree allocs) (hpage : (s.page page).mapper = none)
    (hadd : mapperAddPage s page index allocs = some (t, 0)) : Ready t := by
  obtain ⟨lay, hfilled⟩ := h.filled
  obtain ⟨⟨u, err⟩, hu, ht⟩ := Option.bind_eq_some_iff.mp hadd
  simp only [Option.some.injEq, Prod.mk.injEq] at ht
  obtain ⟨rfl, rfl⟩ := ht
  obtain ⟨tree, hinsert, hstate⟩ := MapperState.addPage_eq_some hu
  obtain rfl : u = s.toMapperState.withPage tree page index := hstate
  obtain ⟨lay', hfilled', -⟩ := hfilled.insert hindex hfresh hinsert
  have htall := hfilled.grown.insert_tall hindex hfresh hinsert
  refine ⟨⟨lay', hfilled'⟩, ?_, MapperState.withPage_index hpage h.index, h.freed⟩
  have hself : Function.update s.map index (some page) index ≠ none := by
    rw [Function.update_self]
    exact Option.some_ne_none page
  obtain hsame | hone | hge := htall
  · obtain hzero | ⟨k, hk, hheight⟩ := h.tall
    · exact .inl (hsame.trans hzero)
    · refine .inr ⟨k, ?_, hsame.symm ▸ hheight⟩
      change Function.update s.map index (some page) k ≠ none
      by_cases hkey : k = index
      · rw [hkey]
        exact hself
      · rwa [Function.update_of_ne hkey]
  · exact .inr ⟨index, hself, .inl hone⟩
  · exact .inr ⟨index, hself, .inr hge⟩

lemma ready_of_reach (h : machine.Reach AddDone s) : Ready s := by
  refine h.invariant (fun _ => ready_of_start) ?_
  intro s e t hready hadd hstep
  have hstep : step s e = some t := hstep
  cases e with
  | addPage page index allocs =>
    obtain ⟨u, hu⟩ := hadd
    by_cases hcall : index < 2 ^ 32 ∧ Fresh s.tree allocs ∧ (s.page page).mapper = none
    · rw [step, if_pos hcall, hu, Option.map_some, Option.some.injEq] at hstep
      subst hstep
      exact hready.addPage hcall.1 hcall.2.1 hcall.2.2 hu
    · rw [step, if_neg hcall] at hstep
      cases hstep

structure Holds (m : ℕ → Option ℕ) (l : List ℕ) : Prop where
  sorted : l.Pairwise (· < ·)
  mem : ∀ k, k ∈ l ↔ m k ≠ none

structure Rest (s : DestroyState) (m : ℕ → Option ℕ) (flags : ℕ → Bool) (l : List ℕ) : Prop where
  stocked : ∃ lay, Stocked s.tree lay m
  holds : Holds m l
  tall : ∃ k ∈ l, s.tree.height = 1 ∨ 64 ^ (s.tree.height - 1) ≤ k
  index : ∀ k p, m k = some p → (s.page p).index = k ∧ (s.page p).dirty = false
  flags : ∀ i k, l[i]? = some k → flags (s.freed.length + i) = true →
    s.tree.height = 1 ∨ ∀ j ∈ l, k < j → j / 64 ≠ k / 64

lemma Holds.tail {k : ℕ} (h : Holds m (k :: l)) : Holds (Function.update m k none) l := by
  obtain ⟨hlt, hsorted⟩ := List.pairwise_cons.mp h.sorted
  refine ⟨hsorted, fun j => ?_⟩
  by_cases hj : j = k
  · rw [hj, Function.update_self]
    exact iff_of_false (fun hmem => (hlt k hmem).ne rfl) (fun hne => hne rfl)
  · rw [Function.update_of_ne hj, ← h.mem j, List.mem_cons, or_iff_right hj]

lemma release_eq {k p : ℕ} {root : Radix ℕ} {x : Option ℕ} (hindex : (s.page p).index = k)
    (hclean : (s.page p).dirty = false)
    (hdelete : radixTreeDelete s.tree k (flags s.freed.length) = some (root, x)) :
    release flags s p = some { s with
      tree := root
      page := Function.update s.page p
        { s.page p with dirty := false, buffer := false, mapper := none }
      freed := s.freed ++ [p] } := by
  simp [release, removePage, mapperRemovePage, hclean, hindex, hdelete]

namespace Rest
variable {k : ℕ}

lemma flag_ok (h : Rest s m flags (k :: l)) :
    flags s.freed.length = true → s.tree.height ≠ 1 → leafCount s.tree k = some 1 := by
  intro hflag hheight
  obtain ⟨lay, hstocked⟩ := h.stocked
  have hk : m k ≠ none := (h.holds.mem k).mp List.mem_cons_self
  refine hstocked.leafCount_one hk fun j hj hne => ?_
  have hj' := (h.holds.mem j).mpr hj
  have hlt : k < j := by
    cases List.mem_cons.mp hj' with
    | inl heq => exact absurd heq hne
    | inr hmem => exact (List.pairwise_cons.mp h.holds.sorted).1 j hmem
  obtain hone | hblock := h.flags 0 k rfl (by rwa [Nat.add_zero])
  · exact absurd hone hheight
  · exact hblock j hj' hlt

lemma release_first (h : Rest s m flags (k :: l)) (hl : l ≠ []) {p : ℕ} (hp : m k = some p) :
    ∃ t, release flags s p = some t ∧ t.freed = s.freed ++ [p] ∧
      Rest t (Function.update m k none) flags l := by
  obtain ⟨lay, hstocked⟩ := h.stocked
  obtain ⟨hlt, -⟩ := List.pairwise_cons.mp h.holds.sorted
  obtain ⟨hindex, hclean⟩ := h.index k p hp
  -- a key that keeps the height
  obtain ⟨j, hj, hheight⟩ : ∃ j ∈ l, s.tree.height = 1 ∨ 64 ^ (s.tree.height - 1) ≤ j := by
    obtain ⟨i, hi, hheight⟩ := h.tall
    cases List.mem_cons.mp hi with
    | inl heq =>
      obtain ⟨j, hj⟩ := List.exists_mem_of_ne_nil l hl
      have hkj := hlt j hj
      exact ⟨j, hj, hheight.imp_right fun hle => by omega⟩
    | inr hmem => exact ⟨i, hmem, hheight⟩
  have hkj := hlt j hj
  have htall : 64 ^ (s.tree.height - 1) ≤ j := by
    obtain hone | hle := hheight
    · rw [hone, Nat.sub_self, pow_zero]
      omega
    · exact hle
  have hjm : m j ≠ none := (h.holds.mem j).mp (List.mem_cons_of_mem _ hj)
  obtain ⟨root, lay', hdelete, hstocked', hsame⟩ :=
    hstocked.delete hp hjm hkj.ne' htall h.flag_ok
  refine ⟨_, release_eq hindex hclean hdelete, rfl, ⟨lay', hstocked'⟩, h.holds.tail,
    ⟨j, hj, hsame.symm ▸ hheight⟩, fun i q hq => ?_, fun i i' hi hflag => ?_⟩
  · have hik : i ≠ k := by
      rintro rfl
      rw [Function.update_self] at hq
      cases hq
    rw [Function.update_of_ne hik] at hq
    have hqp : q ≠ p := by
      rintro rfl
      exact hik ((h.index i q hq).1.symm.trans hindex)
    simp only [Function.update_of_ne hqp]
    exact h.index i q hq
  · simp only [List.length_append, List.length_singleton] at hflag
    have hold := h.flags (i + 1) i' hi (by rwa [Nat.add_comm i 1, ← Nat.add_assoc])
    refine hsame.symm ▸ hold.imp_right fun hblock j' hj' => hblock j' (List.mem_cons_of_mem _ hj')

lemma release_last (h : Rest s m flags [k]) {p : ℕ} (hp : m k = some p) :
    ∃ t c, release flags s p = some t ∧ t.freed = s.freed ++ [p] ∧ Emptied t.tree c := by
  obtain ⟨lay, hstocked⟩ := h.stocked
  obtain ⟨hindex, hclean⟩ := h.index k p hp
  obtain ⟨root, c, hdelete, hemptied⟩ := hstocked.delete_last hp
    (fun j hj => List.mem_singleton.mp ((h.holds.mem j).mpr hj)) (flags s.freed.length)
  exact ⟨_, c, release_eq hindex hclean hdelete, rfl, hemptied⟩

end Rest

lemma itemsOf_congr {m' : ℕ → Option ℕ} (h : ∀ k ∈ l, m' k = m k) : itemsOf m' l = itemsOf m l :=
  List.filterMap_congr h

lemma release_batch : ∀ (ks rest : List ℕ) (s : DestroyState) (m : ℕ → Option ℕ),
    Rest s m flags (ks ++ rest) → ks ≠ [] →
      ∃ t, (itemsOf m ks).foldlM (release flags) s = some t ∧ t.freed = s.freed ++ itemsOf m ks ∧
        (rest = [] ∧ (∃ c, Emptied t.tree c) ∨
          ∃ m', Rest t m' flags rest ∧ ∀ k ∈ rest, m' k = m k) := by
  intro ks
  induction ks with
  | nil => exact fun _ _ _ _ hne => absurd rfl hne
  | cons k ks ih =>
    intro rest s m h _
    obtain ⟨p, hp⟩ := Option.ne_none_iff_exists'.mp ((h.holds.mem k).mp List.mem_cons_self)
    have hitems : itemsOf m (k :: ks) = p :: itemsOf m ks := by
      rw [itemsOf, List.filterMap_cons, hp]
      rfl
    obtain ⟨hlt, -⟩ := List.pairwise_cons.mp h.holds.sorted
    rw [hitems, List.foldlM_cons]
    by_cases hlast : ks ++ rest = []
    · obtain ⟨rfl, rfl⟩ := List.append_eq_nil_iff.mp hlast
      obtain ⟨t, c, hrelease, hfreed, hemptied⟩ := h.release_last hp
      refine ⟨t, ?_, hfreed, .inl ⟨rfl, c, hemptied⟩⟩
      rw [hrelease]
      rfl
    · obtain ⟨u, hrelease, hfreed, hrest⟩ := h.release_first hlast hp
      have hother : ∀ j ∈ ks ++ rest, Function.update m k none j = m j := fun j hj =>
        Function.update_of_ne (hlt j hj).ne' ..
      rw [hrelease, Option.bind_eq_bind, Option.bind_some]
      by_cases hks : ks = []
      · subst hks
        exact ⟨u, rfl, hfreed, .inr ⟨_, hrest, hother⟩⟩
      · obtain ⟨t, hfold, hfreed', hend⟩ := ih rest u _ hrest hks
        have hsame := itemsOf_congr (l := ks) fun j hj => hother j (List.mem_append_left _ hj)
        rw [hsame] at hfold hfreed'
        refine ⟨t, hfold, by rw [hfreed', hfreed, List.append_assoc]; rfl, ?_⟩
        refine hend.imp_right ?_
        rintro ⟨m', hrest', hm'⟩
        exact ⟨m', hrest', fun j hj => (hm' j hj).trans (hother j (List.mem_append_right _ hj))⟩

lemma Holds.eq_keys (h : Holds m l) (hsmall : ∀ k, m k ≠ none → k < 2 ^ 32) : l = pageKeys m := by
  have hmem : ∀ k, k ∈ l ↔ k ∈ pageKeys m := by
    intro k
    rw [h.mem, pageKeys, StaleWalk.mem_keys, present, Option.isSome_iff_ne_none]
    exact ⟨fun hk => ⟨⟨Nat.zero_le k, by simpa using hsmall k hk⟩, hk⟩, fun hk => hk.2⟩
  have hperm : l.Perm (pageKeys m) :=
    (List.perm_ext_iff_of_nodup (h.sorted.imp fun hlt => hlt.ne) StaleWalk.keys_nodup).mpr hmem
  exact hperm.eq_of_pairwise (fun a b _ _ hab hba => absurd hab hba.asymm) h.sorted
    StaleWalk.keys_sorted

lemma Rest.lookup (h : Rest s m flags l)
    (hbatch : StaleWalk.FromKey 64 (fun k => decide (k ∈ l)) 0 10) (childOrder : ℕ → ℕ) :
    ∃ n, ∀ walk, n ≤ walk →
      radixTreeGangLookup s.tree 0 10 childOrder walk = some (itemsOf m (l.take 10)) := by
  obtain ⟨lay, hstocked⟩ := h.stocked
  obtain ⟨ks, ⟨n, hn⟩, -, ks', -, hright, hiff⟩ :=
    hstocked.filled.gang_lookup_walk (Nat.zero_le _) (by decide : 0 < 10) childOrder
  have hpresent : (fun k => decide (k ∈ l)) = present m := by
    funext k
    rw [present, Bool.eq_iff_iff, decide_eq_true_eq, h.holds.mem, Option.isSome_iff_ne_none]
  rw [hpresent] at hbatch
  obtain rfl := hiff.mpr hbatch
  refine ⟨n, fun walk hwalk => ?_⟩
  have hsmall : ∀ k, present m k = true → k < 2 ^ 32 := fun k hk =>
    hstocked.small k (Option.isSome_iff_ne_none.mp hk)
  have hitems : itemsFrom m 0 = itemsOf m l := by
    rw [itemsFrom_eq 0 (2 ^ 32) hsmall hsmall, h.holds.eq_keys hstocked.small]
    rfl
  have hall : ∀ k ∈ l, present m k = true := fun k hk =>
    Option.isSome_iff_ne_none.mpr ((h.holds.mem k).mp hk)
  rw [hn walk hwalk, ← hright, hitems, take_itemsOf hall]

lemma Emptied.destroyLoop {c : ℕ} (h : Emptied s.tree c) (flags : ℕ → Bool) (order : ℕ → ℕ → ℕ) :
    ∃ n, ∀ walk rounds, n ≤ walk → 0 < rounds →
      destroyLoop (lookupTen order walk) (release flags) rounds s = some s := by
  obtain ⟨n, hn⟩ := h.gangLookup_nil 10 (order s.freed.length)
  refine ⟨n, fun walk rounds hwalk hrounds => ?_⟩
  obtain ⟨rounds, rfl⟩ := Nat.exists_eq_succ_of_ne_zero hrounds.ne'
  have hlookup : lookupTen order walk s = some [] := hn walk hwalk
  simp [MapperDestroy.destroyLoop, hlookup]

lemma Rest.destroyLoop (order : ℕ → ℕ → ℕ) : ∀ (bound : ℕ) (l : List ℕ) (s : DestroyState)
    (m : ℕ → Option ℕ), l.length ≤ bound → Rest s m flags l →
      (∀ j, StaleWalk.FromKey 64 (fun k => decide (k ∈ l.drop (10 * j))) 0 10) →
        ∃ n, ∀ walk rounds, n ≤ walk → bound < rounds →
          ∃ t, destroyLoop (lookupTen order walk) (release flags) rounds s = some t ∧
            t.freed = s.freed ++ itemsOf m l := by
  intro bound
  induction bound using Nat.strong_induction_on with
  | _ bound ih =>
    intro l s m hlength h hbatches
    obtain ⟨k, hk, -⟩ := h.tall
    have hpos : 0 < l.length := List.length_pos_of_mem hk
    obtain ⟨n, hn⟩ := h.lookup (by simpa using hbatches 0) (order s.freed.length)
    have hne : l.take 10 ≠ [] := by
      intro hnil
      have hlen := congrArg List.length hnil
      rw [List.length_take, List.length_nil] at hlen
      omega
    obtain ⟨u, hfold, hfreed, hend⟩ := release_batch (l.take 10) (l.drop 10) s m
      (by rwa [List.take_append_drop]) hne
    have hitems : (itemsOf m (l.take 10)).length ≠ 0 := by
      obtain ⟨j, hj⟩ := List.exists_mem_of_ne_nil _ hne
      obtain ⟨p, hp⟩ := Option.ne_none_iff_exists'.mp
        ((h.holds.mem j).mp (List.mem_of_mem_take hj))
      have hmem : p ∈ itemsOf m (l.take 10) := List.mem_filterMap.mpr ⟨j, hj, hp⟩
      exact (List.length_pos_of_mem hmem).ne'
    have hround : ∀ walk rounds, n ≤ walk →
        MapperDestroy.destroyLoop (lookupTen order walk) (release flags) (rounds + 1) s =
          MapperDestroy.destroyLoop (lookupTen order walk) (release flags) rounds u := by
      intro walk rounds hwalk
      have hlookup : lookupTen order walk s = some (itemsOf m (l.take 10)) := hn walk hwalk
      simp only [MapperDestroy.destroyLoop, hlookup, Option.bind_eq_bind, Option.bind_some, hfold,
        if_pos hitems]
    obtain ⟨hrest, c, hemptied⟩ | ⟨m', hrest, hm'⟩ := hend
    · obtain ⟨n', hn'⟩ := Emptied.destroyLoop hemptied flags order
      refine ⟨max n n', fun walk rounds hwalk hrounds => ⟨u, ?_, ?_⟩⟩
      · obtain ⟨rounds, rfl⟩ := Nat.exists_eq_succ_of_ne_zero (show rounds ≠ 0 by omega)
        rw [hround walk rounds (by omega)]
        exact hn' walk rounds (by omega) (by omega)
      · rw [hfreed, List.take_of_length_le (List.drop_eq_nil_iff.mp hrest)]
    · have hbatches' : ∀ j, StaleWalk.FromKey 64
          (fun k => decide (k ∈ (l.drop 10).drop (10 * j))) 0 10 := by
        intro j
        have hj := hbatches (j + 1)
        rwa [Nat.mul_succ, Nat.add_comm, ← List.drop_drop] at hj
      obtain ⟨n', hn'⟩ := ih (bound - 1) (by omega) (l.drop 10) u m'
        (by rw [List.length_drop]; omega) hrest hbatches'
      refine ⟨max n n', fun walk rounds hwalk hrounds => ?_⟩
      obtain ⟨rounds, rfl⟩ := Nat.exists_eq_succ_of_ne_zero (show rounds ≠ 0 by omega)
      obtain ⟨t, ht, hfreed'⟩ := hn' walk rounds (by omega) (by omega)
      refine ⟨t, (hround walk rounds (by omega)).trans ht, ?_⟩
      rw [hfreed', hfreed, itemsOf_congr hm', List.append_assoc, ← itemsOf_append,
        List.take_append_drop]

lemma rest_of_ready (h : Ready s) (hclean : ∀ k p, s.map k = some p → (s.page p).dirty = false)
    (horderly : Orderly s.map flags) (hsome : ∃ k, s.map k ≠ none) :
    Rest s s.map flags (pageKeys s.map) := by
  obtain ⟨lay, hfilled⟩ := h.filled
  obtain ⟨k₀, hk₀⟩ := hsome
  have hpageKeys : ∀ k, k ∈ pageKeys s.map ↔ s.map k ≠ none := by
    intro k
    rw [pageKeys, StaleWalk.mem_keys, present, Option.isSome_iff_ne_none]
    exact ⟨fun hk => hk.2, fun hk => ⟨⟨Nat.zero_le k, by simpa using hfilled.small k hk⟩, hk⟩⟩
  obtain ⟨kTop, hkTop, hheight⟩ : ∃ k, s.map k ≠ none ∧
      (s.tree.height = 1 ∨ 64 ^ (s.tree.height - 1) ≤ k) := by
    obtain hzero | htall := h.tall
    · have hlt := hfilled.grown.rep.key_lt hk₀
      obtain ⟨x, hx⟩ := Option.ne_none_iff_exists'.mp hk₀
      obtain ⟨a, ha⟩ := hfilled.grown.rep.held k₀ x hx
      have hpos := (hfilled.grown.rep.bound _ _ _ ha).1
      omega
    · exact htall
  refine ⟨⟨lay, hfilled.grown, hfilled.small, fun r n a ha => ?_⟩, ⟨StaleWalk.keys_sorted, hpageKeys⟩,
    ⟨kTop, (hpageKeys kTop).mpr hkTop, hheight⟩,
    fun k p hp => ⟨(h.index k p hp).1, hclean k p hp⟩, fun i k hi hflag => ?_⟩
  · -- every node has a key below it, those of the first blocks the key in the first leaf
    obtain ⟨k, hk, hblock⟩ : ∃ k, s.map k ≠ none ∧ k / 64 ^ (r + 1) = n := by
      obtain hzero | hbelow := hfilled.tight r n a ha
      · obtain hnone | ⟨k, hlt, hk⟩ := horderly.firstLeaf
        · exact absurd (hnone k₀) hk₀
        · refine ⟨k, hk, ?_⟩
          have hle : 64 ≤ 64 ^ (r + 1) := Nat.le_self_pow (Nat.succ_ne_zero r) 64
          rw [hzero]
          exact Nat.div_eq_of_lt (hlt.trans_le hle)
      · exact hbelow
    have hkid := hfilled.grown.rep.kid_of_key (hfilled.grown.rep.bound _ _ _ ha).1 hk
    rw [hblock, ← hfilled.grown.rep.kids _ _ _ ha _ (Nat.mod_lt _ (by decide))] at hkid
    exact hfilled.grown.rep.count_ne_zero ha (Nat.mod_lt _ (by decide)) hkid
  · rw [h.freed, List.length_nil, Nat.zero_add] at hflag
    obtain hlow | hblock := horderly.flags i k hi hflag
    · left
      obtain hone | hle := hheight
      · exact hone
      · have hlt := hlow kTop hkTop
        have hpow : s.tree.height - 1 < 1 :=
          (Nat.pow_lt_pow_iff_right (by decide : 1 < 64)).mp (by rw [pow_one]; omega)
        have hpos : 0 < s.tree.height := by
          by_contra hzero
          have hroot : s.tree.height = 0 := by omega
          have hkey := hfilled.grown.rep.key_lt hkTop
          rw [hroot, pow_zero] at hkey
          rw [hroot, Nat.zero_sub, pow_zero] at hle
          omega
        omega
    · exact .inr fun j hj => hblock j ((hpageKeys j).mp hj)

/-- The second loop ends, and frees the pages that were in the mapper, each once. -/
theorem mapper_destroy_frees_once (hs : machine.Reach AddDone s)
    (hclean : ∀ k p, s.map k = some p → (s.page p).dirty = false) (order : ℕ → ℕ → ℕ)
    (horderly : Orderly s.map flags) :
    ∃ n, ∀ walk rounds, n ≤ walk → n ≤ rounds →
      ∃ t, mapperDestroy s false order flags walk rounds = some t ∧ t.freed.Nodup ∧
        ∀ p, p ∈ t.freed ↔ ∃ k, s.map k = some p := by
  have hready := ready_of_reach hs
  by_cases hsome : ∃ k, s.map k ≠ none
  · have hrest := rest_of_ready hready hclean horderly hsome
    obtain ⟨n, hn⟩ := Rest.destroyLoop order _ (pageKeys s.map) s s.map le_rfl hrest horderly.batches
    refine ⟨max n ((pageKeys s.map).length + 1), fun walk rounds hwalk hrounds => ?_⟩
    obtain ⟨t, ht, hfreed⟩ := hn walk rounds (by omega) (by omega)
    rw [hready.freed, List.nil_append] at hfreed
    refine ⟨t, ht, ?_, fun p => ?_⟩
    · rw [hfreed]
      refine List.Nodup.filterMap (fun j k p hj hk => ?_) StaleWalk.keys_nodup
      exact (hready.index j p hj).1.symm.trans (hready.index k p hk).1
    · rw [hfreed, itemsOf, List.mem_filterMap]
      constructor
      · rintro ⟨k, -, hk⟩
        exact ⟨k, hk⟩
      · rintro ⟨k, hk⟩
        exact ⟨k, (hrest.holds.mem k).mpr (by rw [hk]; exact Option.some_ne_none p), hk⟩
  · have hnone : ∀ k, s.map k = none := fun k => by
      by_contra hne
      exact hsome ⟨k, hne⟩
    obtain ⟨lay, hfilled⟩ := hready.filled
    have hheight : s.tree.height = 0 := by
      obtain hzero | ⟨k, hk, -⟩ := hready.tall
      · exact hzero
      · exact absurd (hnone k) hk
    have hroot := hfilled.grown.rep.empty hheight
    refine ⟨1, fun walk rounds _ hrounds => ⟨s, ?_, ?_, fun p => ?_⟩⟩
    · obtain ⟨rounds, rfl⟩ := Nat.exists_eq_succ_of_ne_zero (show rounds ≠ 0 by omega)
      simp [mapperDestroy, destroyLoop, lookupTen, radixTreeGangLookup, hroot]
    · rw [hready.freed]
      exact List.nodup_nil
    · rw [hready.freed]
      refine iff_of_false List.not_mem_nil ?_
      rintro ⟨k, hk⟩
      rw [hnone k] at hk
      cases hk

def stored (s : DestroyState) : Event → Bool
  | .addPage page index allocs =>
      match mapperAddPage s page index allocs with
      | some (_, err) => err = 0
      | none => false

lemma addDone_of_stored (s : DestroyState) (e : Event) (h : stored s e = true) : AddDone s e := by
  obtain ⟨page, index, allocs⟩ := e
  cases heq : mapperAddPage s page index allocs with
  | none => simp [stored, heq] at h
  | some result =>
    obtain ⟨t, err⟩ := result
    simp only [stored, heq, decide_eq_true_eq] at h
    exact ⟨t, by rw [heq, h]⟩

def fresh : DestroyState := { MapperState.fresh with synced := [], freed := [] }

lemma start_fresh : Start fresh := ⟨⟨_, rfl⟩, fun _ => rfl, rfl⟩

lemma stored_reach {es : List Event} (h : (machine.restrict stored).run fresh es = some s) :
    machine.Reach AddDone s :=
  Machine.Reach.of_run addDone_of_stored start_fresh h

/-- Two pages in one leaf. -/
theorem mapper_destroy_frees_leaf : ∃ s, (machine.restrict stored).run fresh
      [.addPage 105 5 [0], .addPage 103 3 []] = some s ∧
    ∃ n, ∀ walk rounds, n ≤ walk → n ≤ rounds →
      ∃ t, mapperDestroy s false (fun _ _ => 0) (fun _ => true) walk rounds = some t ∧
        t.freed.Nodup ∧ 105 ∈ t.freed ∧ 103 ∈ t.freed := by
  obtain ⟨s, hs, hmap, hpage⟩ : ∃ s, (machine.restrict stored).run fresh
      [.addPage 105 5 [0], .addPage 103 3 []] = some s ∧
      s.map = Function.update (Function.update (fun _ => none) 5 (some 105)) 3 (some 103) ∧
      ∀ p, (s.page p).dirty = false := by
    refine ⟨_, rfl, rfl, fun p => ?_⟩
    simp only [Function.update_apply]
    split_ifs <;> rfl
  have hlow : ∀ k, s.map k ≠ none → k < 64 := by
    intro k hk
    by_contra hge
    have h5 : k ≠ 5 := by omega
    have h3 : k ≠ 3 := by omega
    exact hk (by rw [hmap, Function.update_of_ne h3, Function.update_of_ne h5])
  have horderly : Orderly s.map fun _ => true := by
    refine ⟨.inr ⟨5, by decide, by rw [hmap]; decide⟩, fun j r c hgap _ => ?_,
      fun i k _ _ => .inl hlow⟩
    -- all pages are in the first block of every level
    obtain ⟨k, hk⟩ := List.exists_mem_of_ne_nil _ hgap.2.1
    obtain ⟨⟨hlo, hhi⟩, hmem⟩ := (StaleWalk.mem_blockKeys (by decide)).mp hk
    have hkeys := List.mem_of_mem_drop (of_decide_eq_true hmem)
    rw [pageKeys, StaleWalk.mem_keys, present, Option.isSome_iff_ne_none] at hkeys
    have hle : 64 ≤ 64 ^ (r + 1) := Nat.le_self_pow (Nat.succ_ne_zero r) 64
    rw [Nat.div_eq_of_lt ((hlow k hkeys.2).trans_le hle)] at hlo hhi
    have hzero : c = 0 := by omega
    exact absurd (by rw [hzero]) hgap.1
  obtain ⟨n, hn⟩ := mapper_destroy_frees_once (stored_reach hs) (fun k p _ => hpage p)
    (fun _ _ => 0) horderly
  refine ⟨s, hs, n, fun walk rounds hwalk hrounds => ?_⟩
  obtain ⟨t, ht, hnodup, hmem⟩ := hn walk rounds hwalk hrounds
  refine ⟨t, ht, hnodup, (hmem 105).mpr ⟨5, by rw [hmap]; rfl⟩, (hmem 103).mpr ⟨3, by rw [hmap]; rfl⟩⟩

/-- Pages 0 and 128: the lookup gives the second one twice, and it is freed twice. -/
theorem mapper_destroy_frees_twice : ∃ s t, (machine.restrict stored).run fresh
      [.addPage 100 0 [0], .addPage 228 128 [1, 2]] = some s ∧
    machine.Reach AddDone s ∧ (∀ p, (s.page p).dirty = false) ∧
      mapperDestroy s false (fun _ _ => 0) (fun _ => false) 200 3 = some t ∧
        t.freed = [100, 228, 228] := by
  obtain ⟨s, hs⟩ : ∃ s, (machine.restrict stored).run fresh
      [.addPage 100 0 [0], .addPage 228 128 [1, 2]] = some s := ⟨_, rfl⟩
  have hreach := stored_reach hs
  obtain rfl := Option.some.inj hs
  refine ⟨_, _, hs, hreach, fun p => ?_, rfl, ?_⟩
  · simp only [Function.update_apply]
    split_ifs <;> rfl
  · rfl

end Almos.MapperDestroy
