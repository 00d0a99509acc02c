import Almos.CString
import Almos.CircularTable
import Almos.Machine

/-!
# Children of a metafs node

The children of a node lie in ten circular lists, by a hash of their names. A pointer to a node is
kept as the pointer to its `list` field.
-/
namespace Almos.Metafs
open Links

/-- What links point to: the roots of the hash table, the `list` fields of nodes, and the two marks
of an unlinked entry. -/
inductive ListEntry
  | hashTbl (i : ℕ)
  | list (node : BitVec 32)
  | nextDead
  | predDead
deriving DecidableEq

/-- `METAFS_HASH_SIZE` -/
def hashSize : ℕ := 10

structure Node where
  name : ListEntry → CString
  childrenNr : BitVec 32
  links : Links ListEntry

structure Iter where
  hashIndex : ℕ
  current : Option ListEntry

def listEmpty (m : Links ListEntry) (root : ListEntry) : Prop := root = m.next root

instance (m : Links ListEntry) (root : ListEntry) : Decidable (listEmpty m root) :=
  inferInstanceAs (Decidable (_ = _))

def listNext (m : Links ListEntry) (root current : ListEntry) : Option ListEntry :=
  if root = m.next root ∨ m.next current = root then none else some (m.next current)

def listUnlink (m : Links ListEntry) (entry : ListEntry) : Links ListEntry :=
  let m := m.unlink entry
  { next := Function.update m.next entry .nextDead, pred := Function.update m.pred entry .predDead }

def metafsHashIndex (devName : CString) : ℕ :=
  (devName.bytes.foldl (fun index c => index + (c.signExtend 32 ^^^ index)) 0#32).toNat % hashSize

def metafsInit (node : Node) (self : BitVec 32) (name : CString) : Node where
  name := Function.update node.name (.list self) name
  childrenNr := 0
  links := (List.range hashSize).foldl (fun m i => m.rootInit (.hashTbl i)) node.links

def metafsSetName (node : Node) (self : BitVec 32) (name : CString) : Node :=
  { node with name := Function.update node.name (.list self) name }

def firstList (m : Links ListEntry) : ℕ → ℕ → Option ℕ
  | 0, _ => none
  | left + 1, i => if listEmpty m (.hashTbl i) then firstList m left (i + 1) else some i

def iterFrom (node : Node) (iter : Iter) (i : ℕ) : Iter :=
  match firstList node.links (hashSize - i) i with
  | some i => { hashIndex := i, current := some (node.links.next (.hashTbl i)) }
  | none => { iter with current := none }

def metafsIterInit (node : Node) (iter : Iter) : Iter := iterFrom node iter 0

def metafsRegister (parent : Node) (child : BitVec 32) : Node :=
  let index := metafsHashIndex (parent.name (.list child))
  { parent with
    childrenNr := parent.childrenNr + 1
    links := parent.links.add (parent.links.pred (.hashTbl index)) (.list child) }

/-- The loop of `metafs_lookup`, `none` without an end. -/
def lookupLoop (parent : Node) (name : CString) (root : ListEntry) :
    ℕ → ListEntry → ListEntry → Option (Option ListEntry)
  | 0, _, _ => none
  | fuel + 1, iter, ptr =>
      if iter = root then some none
      else if strcmp (parent.name iter).bytes name.bytes = 0 then some (some iter)
      else lookupLoop parent name root fuel ptr (parent.links.next ptr)

def metafsLookup (parent : Node) (fuel : ℕ) (name : CString) : Option (Option ListEntry) :=
  let root := .hashTbl (metafsHashIndex name)
  let iter := parent.links.next root
  lookupLoop parent name root fuel iter (parent.links.next iter)

def metafsLookupNext (parent : Node) (iter : Iter) : Option ListEntry × Iter :=
  match iter.current with
  | none => (none, iter)
  | some child =>
      match listNext parent.links (.hashTbl iter.hashIndex) child with
      | none => (some child, iterFrom parent iter (iter.hashIndex + 1))
      | some next => (some child, { iter with current := some next })

def metafsUnregister (parent : Node) (child : BitVec 32) : Node :=
  { parent with
    links := listUnlink parent.links (.list child)
    childrenNr := parent.childrenNr - 1 }

/-- What `metafs_lookup_next` returns after some calls. -/
def returned (parent : Node) : ℕ → Iter → Option ListEntry
  | 0, iter => (metafsLookupNext parent iter).1
  | calls + 1, iter => returned parent calls (metafsLookupNext parent iter).2

structure State where
  parent : Node
  registered : Finset (BitVec 32)

inductive Event
  | setName (node : BitVec 32) (name : CString)
  | register (child : BitVec 32)
  | unregister (child : BitVec 32)

def step (s : State) : Event → Option State
  | .setName node name =>
      if node ∉ s.registered then
        some { s with parent := metafsSetName s.parent node name }
      else none
  | .register child =>
      if child ≠ 0 ∧ ∀ c ∈ s.registered, s.parent.name (.list c) ≠ s.parent.name (.list child) then
        some { parent := metafsRegister s.parent child, registered := insert child s.registered }
      else none
  | .unregister child =>
      if child ∈ s.registered then
        some { parent := metafsUnregister s.parent child, registered := s.registered.erase child }
      else none

def machine : Machine State Event where
  init s := (∃ node self name, s.parent = metafsInit node self name) ∧ s.registered = ∅
  step := step

lemma metafsHashIndex_lt (name : CString) : metafsHashIndex name < hashSize :=
  Nat.mod_lt _ (by decide)

structure Holds (s : State) (l : ℕ → List ListEntry) : Prop where
  table : s.parent.links.IsTable .hashTbl hashSize l
  mem : ∀ i < hashSize, ∀ e, e ∈ l i ↔
    ∃ c ∈ s.registered, e = .list c ∧ metafsHashIndex (s.parent.name (.list c)) = i
  unique : ∀ c ∈ s.registered, ∀ d ∈ s.registered,
    s.parent.name (.list c) = s.parent.name (.list d) → c = d
  nonnull : 0 ∉ s.registered
  childrenNr : s.parent.childrenNr = BitVec.ofNat 32 s.registered.card

def Inv (s : State) : Prop := ∃ l, Holds s l

lemma isTable_metafsInit (m : Links ListEntry) (n : ℕ) :
    ((List.range n).foldl (fun m i => m.rootInit (.hashTbl i)) m).IsTable .hashTbl n
      fun _ => [] := by
  induction n with
  | zero => exact ⟨fun i hi => absurd hi (by omega), fun i hi => absurd hi (by omega)⟩
  | succ n ih =>
    rw [List.range_succ, List.foldl_append]
    refine IsTable.rootInit ih rfl fun j hj hmem => ?_
    have heq : n = j := by simpa using hmem
    omega

lemma inv_init {s : State} (h : machine.init s) : Inv s := by
  obtain ⟨⟨node, self, name, hparent⟩, hregistered⟩ := h
  refine ⟨fun _ => [], ⟨?_, by simp [hregistered], by simp [hregistered], by simp [hregistered], ?_⟩⟩
  · rw [hparent]
    exact isTable_metafsInit node.links hashSize
  · rw [hparent, hregistered]
    rfl

namespace Holds
variable {s : State} {l : ℕ → List ListEntry}

lemma list_notMem (h : Holds s l) {c : BitVec 32} (hc : c ∉ s.registered) :
    ∀ j < hashSize, ListEntry.list c ∉ ListEntry.hashTbl j :: l j := by
  intro j hj hmem
  obtain heq | hmem := List.mem_cons.mp hmem
  · cases heq
  · obtain ⟨d, hd, heq, -⟩ := (h.mem j hj _).mp hmem
    cases heq
    exact hc hd

lemma setName (h : Holds s l) {node : BitVec 32} (hnode : node ∉ s.registered) (name : CString) :
    Holds { s with parent := metafsSetName s.parent node name } l := by
  have hname : ∀ c ∈ s.registered,
      (metafsSetName s.parent node name).name (.list c) = s.parent.name (.list c) := by
    intro c hc
    have hne : ListEntry.list c ≠ .list node := by
      intro heq
      cases heq
      exact hnode hc
    exact Function.update_of_ne hne ..
  refine ⟨h.table, fun i hi e => ?_, fun c hc d hd heq => ?_, h.nonnull, h.childrenNr⟩
  · rw [h.mem i hi e]
    refine exists_congr fun c => and_congr_right fun hc => ?_
    change _ ↔ _ ∧ metafsHashIndex ((metafsSetName s.parent node name).name (.list c)) = i
    rw [hname c hc]
  · change (metafsSetName s.parent node name).name (.list c) = _ at heq
    rw [hname c hc] at heq
    exact h.unique c hc d hd (heq.trans (hname d hd))

lemma register (h : Holds s l) {child : BitVec 32} (hchild : child ≠ 0)
    (hnew : ∀ c ∈ s.registered, s.parent.name (.list c) ≠ s.parent.name (.list child)) :
    Inv { parent := metafsRegister s.parent child, registered := insert child s.registered } := by
  have hmem : child ∉ s.registered := fun hc => hnew child hc rfl
  have hlt := metafsHashIndex_lt (s.parent.name (.list child))
  refine ⟨_, h.table.add_last hlt (h.list_notMem hmem), fun i hi e => ?_, fun c hc d hd heq => ?_,
    ?_, ?_⟩
  · by_cases hindex : i = metafsHashIndex (s.parent.name (.list child))
    · subst hindex
      rw [Function.update_self, List.mem_append, h.mem _ hi, List.mem_singleton]
      constructor
      · rintro (⟨c, hc, he, hi⟩ | he)
        · exact ⟨c, Finset.mem_insert_of_mem hc, he, hi⟩
        · exact ⟨child, Finset.mem_insert_self .., he, rfl⟩
      · rintro ⟨c, hc, he, hi⟩
        obtain rfl | hc := Finset.mem_insert.mp hc
        · exact Or.inr he
        · exact Or.inl ⟨c, hc, he, hi⟩
    · rw [Function.update_of_ne hindex, h.mem i hi]
      constructor
      · rintro ⟨c, hc, he, hi⟩
        exact ⟨c, Finset.mem_insert_of_mem hc, he, hi⟩
      · rintro ⟨c, hc, he, hi⟩
        obtain rfl | hc := Finset.mem_insert.mp hc
        · exact absurd hi.symm hindex
        · exact ⟨c, hc, he, hi⟩
  · change s.parent.name (.list c) = s.parent.name (.list d) at heq
    obtain rfl | hold := Finset.mem_insert.mp hc
    · obtain rfl | hold := Finset.mem_insert.mp hd
      · rfl
      · exact absurd heq.symm (hnew d hold)
    · obtain rfl | hold' := Finset.mem_insert.mp hd
      · exact absurd heq (hnew c hold)
      · exact h.unique c hold d hold' heq
  · exact fun hzero => (Finset.mem_insert.mp hzero).elim (fun heq => hchild heq.symm) h.nonnull
  · change s.parent.childrenNr + 1 = _
    rw [h.childrenNr, Finset.card_insert_of_notMem hmem, BitVec.ofNat_add]
    rfl

lemma mem_unlinked (h : Holds s l) {child : BitVec 32} {pre post : List ListEntry}
    (hl : l (metafsHashIndex (s.parent.name (.list child))) = pre ++ .list child :: post) :
    ∀ j < hashSize, ∀ e,
      e ∈ Function.update l (metafsHashIndex (s.parent.name (.list child))) (pre ++ post) j ↔
        ∃ c ∈ s.registered.erase child,
          e = .list c ∧ metafsHashIndex (s.parent.name (.list c)) = j := by
  intro j hj e
  have hiff : e ∈ Function.update l (metafsHashIndex (s.parent.name (.list child))) (pre ++ post) j ↔
      e ∈ l j ∧ e ≠ .list child := by
    by_cases hindex : j = metafsHashIndex (s.parent.name (.list child))
    · subst hindex
      have hnodup : (.list child :: (pre ++ post)).Nodup :=
        List.perm_middle.nodup_iff.mp (hl ▸ (List.nodup_cons.mp (h.table.ring _ hj).nodup).2)
      have hnot := (List.nodup_cons.mp hnodup).1
      rw [Function.update_self, hl]
      constructor
      · intro he
        refine ⟨?_, fun heq => hnot (heq ▸ he)⟩
        obtain he | he := List.mem_append.mp he <;> simp [he]
      · rintro ⟨he, hne⟩
        simpa [hne] using he
    · rw [Function.update_of_ne hindex]
      refine ⟨fun he => ⟨he, fun heq => ?_⟩, And.left⟩
      obtain ⟨c, -, hc, hi⟩ := (h.mem j hj e).mp he
      obtain rfl : child = c := ListEntry.list.inj (heq.symm.trans hc)
      exact hindex hi.symm
  rw [hiff, h.mem j hj]
  constructor
  · rintro ⟨⟨c, hc, rfl, hi⟩, hne⟩
    exact ⟨c, Finset.mem_erase.mpr ⟨fun heq => hne (heq ▸ rfl), hc⟩, rfl, hi⟩
  · rintro ⟨c, hc, rfl, hi⟩
    obtain ⟨hne, hc⟩ := Finset.mem_erase.mp hc
    exact ⟨⟨c, hc, rfl, hi⟩, fun heq => hne (ListEntry.list.inj heq)⟩

lemma listUnlink (h : Holds s l) {child : BitVec 32} {pre post : List ListEntry}
    (hl : l (metafsHashIndex (s.parent.name (.list child))) = pre ++ .list child :: post) :
    (listUnlink s.parent.links (.list child)).IsTable .hashTbl hashSize
      (Function.update l (metafsHashIndex (s.parent.name (.list child))) (pre ++ post)) := by
  have htable := h.table.unlink (metafsHashIndex_lt (s.parent.name (.list child))) hl
  have hne : ∀ j < hashSize, ∀ y ∈ ListEntry.hashTbl j ::
      Function.update l (metafsHashIndex (s.parent.name (.list child))) (pre ++ post) j,
      y ≠ .list child := by
    intro j hj y hy heq
    obtain hroot | hy := List.mem_cons.mp hy
    · cases hroot.symm.trans heq
    · obtain ⟨c, hc, hlist, -⟩ := (h.mem_unlinked hl j hj y).mp hy
      exact (Finset.mem_erase.mp hc).1 (ListEntry.list.inj (hlist.symm.trans heq))
  exact htable.congr (fun j hj y hy => Function.update_of_ne (hne j hj y hy) ..)
    fun j hj y hy => Function.update_of_ne (hne j hj y hy) ..

lemma unregister (h : Holds s l) {child : BitVec 32} (hchild : child ∈ s.registered) :
    Inv { parent := metafsUnregister s.parent child, registered := s.registered.erase child } := by
  have hmem : ListEntry.list child ∈ l (metafsHashIndex (s.parent.name (.list child))) :=
    (h.mem _ (metafsHashIndex_lt _) _).mpr ⟨child, hchild, rfl, rfl⟩
  obtain ⟨pre, post, hl⟩ := List.append_of_mem hmem
  refine ⟨_, h.listUnlink hl, h.mem_unlinked hl, fun c hc d hd heq => ?_, fun hzero => ?_, ?_⟩
  · exact h.unique c (Finset.mem_of_mem_erase hc) d (Finset.mem_of_mem_erase hd) heq
  · exact h.nonnull (Finset.mem_of_mem_erase hzero)
  · change s.parent.childrenNr - 1 = _
    rw [h.childrenNr, ← Finset.card_erase_add_one hchild, BitVec.ofNat_add]
    exact BitVec.add_sub_cancel ..

end Holds

lemma Inv.step {s t : State} {e : Event} (h : Inv s) (hs : step s e = some t) : Inv t := by
  obtain ⟨l, h⟩ := h
  cases e with
  | setName node name =>
    simp only [Metafs.step] at hs
    split_ifs at hs with hnode
    cases hs
    exact ⟨l, h.setName hnode name⟩
  | register child =>
    simp only [Metafs.step] at hs
    split_ifs at hs with hnew
    cases hs
    exact h.register hnew.1 hnew.2
  | unregister child =>
    simp only [Metafs.step] at hs
    split_ifs at hs with hchild
    cases hs
    exact h.unregister hchild

lemma inv_reachable {s : State} (h : machine.Reachable s) : Inv s :=
  h.invariant (fun _ => inv_init) fun _ _ _ => Inv.step

lemma lookupLoop_spec (parent : Node) (name : CString) (root : ListEntry) {l : List ListEntry}
    {prior : ListEntry} {fuel : ℕ} (h : parent.links.Segment prior l root) (hroot : root ∉ l)
    (hfuel : l.length < fuel) :
    lookupLoop parent name root fuel (parent.links.next prior)
      (parent.links.next (parent.links.next prior)) =
        some (l.find? fun e => parent.name e = name) := by
  induction l generalizing prior fuel with
  | nil =>
    obtain ⟨fuel, rfl⟩ : ∃ k, fuel = k + 1 := ⟨fuel - 1, by omega⟩
    rw [h.1, lookupLoop, if_pos rfl]
    rfl
  | cons e l ih =>
    obtain ⟨fuel, rfl⟩ : ∃ k, fuel = k + 1 := ⟨fuel - 1, by omega⟩
    have hne : e ≠ root := fun heq => hroot (heq ▸ List.mem_cons_self)
    rw [h.1.1, lookupLoop, if_neg hne]
    simp only [strcmp_name]
    split_ifs with hname
    · simp [hname]
    · rw [ih h.2 (fun hmem => hroot (List.mem_cons_of_mem _ hmem)) (by simpa using hfuel)]
      simp [hname]

namespace Holds
variable {s : State} {l : ℕ → List ListEntry}

lemma length_le (h : Holds s l) {i : ℕ} (hi : i < hashSize) :
    (l i).length ≤ s.registered.card := by
  have hnodup := (List.nodup_cons.mp (h.table.ring i hi).nodup).2
  rw [← List.toFinset_card_of_nodup hnodup, ← Finset.card_image_of_injective s.registered
    (f := ListEntry.list) fun _ _ => ListEntry.list.inj]
  refine Finset.card_le_card fun e he => ?_
  obtain ⟨c, hc, heq, -⟩ := (h.mem i hi e).mp (List.mem_toFinset.mp he)
  exact Finset.mem_image.mpr ⟨c, hc, heq.symm⟩

lemma metafsLookup_eq (h : Holds s l) {fuel : ℕ} (hfuel : s.registered.card < fuel)
    (name : CString) :
    metafsLookup s.parent fuel name =
      some ((l (metafsHashIndex name)).find? fun e => s.parent.name e = name) := by
  have hlt := metafsHashIndex_lt name
  have hring := h.table.ring _ hlt
  exact lookupLoop_spec s.parent name _ hring.linked (List.nodup_cons.mp hring.nodup).1
    ((h.length_le hlt).trans_lt hfuel)

lemma metafsLookup_registered (h : Holds s l) {fuel : ℕ} (hfuel : s.registered.card < fuel)
    {c : BitVec 32} (hc : c ∈ s.registered) :
    metafsLookup s.parent fuel (s.parent.name (.list c)) = some (some (.list c)) := by
  rw [h.metafsLookup_eq hfuel]
  have hlt := metafsHashIndex_lt (s.parent.name (.list c))
  have hmem : ListEntry.list c ∈ l (metafsHashIndex (s.parent.name (.list c))) :=
    (h.mem _ hlt _).mpr ⟨c, hc, rfl, rfl⟩
  congr 1
  cases hfind : (l (metafsHashIndex (s.parent.name (.list c)))).find?
      fun e => s.parent.name e = s.parent.name (.list c) with
  | none => simpa using List.find?_eq_none.mp hfind _ hmem
  | some e =>
    obtain ⟨d, hd, rfl, -⟩ := (h.mem _ hlt e).mp (List.mem_of_find?_eq_some hfind)
    have hname : s.parent.name (.list d) = s.parent.name (.list c) := by
      simpa using List.find?_some hfind
    rw [h.unique d hd c hc hname]

lemma metafsLookup_none (h : Holds s l) {fuel : ℕ} (hfuel : s.registered.card < fuel)
    {name : CString} (hname : ∀ c ∈ s.registered, s.parent.name (.list c) ≠ name) :
    metafsLookup s.parent fuel name = some none := by
  rw [h.metafsLookup_eq hfuel]
  congr 1
  refine List.find?_eq_none.mpr fun e he => ?_
  obtain ⟨c, hc, rfl, -⟩ := (h.mem _ (metafsHashIndex_lt name) e).mp he
  simpa using hname c hc

lemma childrenNr_toNat (h : Holds s l) :
    s.parent.childrenNr.toNat = s.registered.card := by
  have hsub : s.registered.image BitVec.toNat ⊆ Finset.Ioo 0 (2 ^ 32) := by
    intro n hn
    obtain ⟨c, hc, rfl⟩ := Finset.mem_image.mp hn
    refine Finset.mem_Ioo.mpr ⟨?_, c.isLt⟩
    refine Nat.pos_of_ne_zero fun hzero => h.nonnull ?_
    obtain rfl : c = 0 := BitVec.eq_of_toNat_eq hzero
    exact hc
  have hcard := Finset.card_le_card hsub
  rw [Finset.card_image_of_injective _ fun _ _ => BitVec.eq_of_toNat_eq, Nat.card_Ioo] at hcard
  rw [h.childrenNr, BitVec.toNat_ofNat]
  omega

end Holds

lemma listEmpty_iff {m : Links ListEntry} {root : ListEntry} {l : List ListEntry}
    (h : m.IsRing root l) : listEmpty m root ↔ l = [] := by
  have hroot := (List.nodup_cons.mp h.nodup).1
  unfold listEmpty
  rw [h.linked.next_eq]
  cases l with
  | nil => simp
  | cons e l =>
    have hne : root ≠ e := fun heq => hroot (heq ▸ List.mem_cons_self)
    simp [hne]

lemma listNext_eq {m : Links ListEntry} {root e : ListEntry} {pre post : List ListEntry}
    (h : m.IsRing root (pre ++ e :: post)) : listNext m root e = post.head? := by
  have hempty : ¬root = m.next root := fun heq => by simpa using (listEmpty_iff h).mp heq
  have hnext : m.next e = post.headD root := (segment_append.mp h.linked).2.next_eq
  have hroot := (List.nodup_cons.mp h.nodup).1
  unfold listNext
  rw [hnext]
  cases post with
  | nil => exact if_pos (Or.inr rfl)
  | cons y post =>
    have hne : y ≠ root := by
      rintro rfl
      simp at hroot
    exact if_neg (not_or.mpr ⟨hempty, hne⟩)

lemma firstList_spec {m : Links ListEntry} {l : ℕ → List ListEntry}
    (h : m.IsTable .hashTbl hashSize l) {left i : ℕ} (hi : i + left = hashSize) :
    match firstList m left i with
    | none => nodesFrom l i left = []
    | some j => j < hashSize ∧ l j ≠ [] ∧
        nodesFrom l i left = l j ++ nodesFrom l (j + 1) (hashSize - (j + 1)) := by
  induction left generalizing i with
  | zero => rfl
  | succ left ih =>
    have hring := h.ring i (by omega)
    have hempty : listEmpty m (.hashTbl i) ↔ l i = [] := listEmpty_iff hring
    rw [firstList, nodesFrom_succ]
    split_ifs with hcond
    · rw [hempty.mp hcond]
      exact ih (by omega)
    · refine ⟨by omega, fun hl => hcond (hempty.mpr hl), ?_⟩
      rw [show hashSize - (i + 1) = left by omega]

/-- An iterator with the children that it still has to return. -/
def Ahead (l : ℕ → List ListEntry) (iter : Iter) : List ListEntry → Prop
  | [] => iter.current = none
  | e :: rest => iter.current = some e ∧ iter.hashIndex < hashSize ∧ ∃ pre post,
      l iter.hashIndex = pre ++ e :: post ∧
      rest = post ++ nodesFrom l (iter.hashIndex + 1) (hashSize - (iter.hashIndex + 1))

section Iteration
variable {parent : Node} {l : ℕ → List ListEntry} (h : parent.links.IsTable .hashTbl hashSize l)
include h

lemma iterFrom_ahead (iter : Iter) {i : ℕ} (hi : i ≤ hashSize) :
    Ahead l (iterFrom parent iter i) (nodesFrom l i (hashSize - i)) := by
  have hspec := firstList_spec h (show i + (hashSize - i) = hashSize by omega)
  unfold iterFrom
  cases hfirst : firstList parent.links (hashSize - i) i with
  | none =>
    rw [hfirst] at hspec
    rw [hspec]
    rfl
  | some j =>
    rw [hfirst] at hspec
    obtain ⟨hj, hne, hnodes⟩ := hspec
    obtain ⟨e, post, hl⟩ := List.exists_cons_of_ne_nil hne
    rw [hnodes, hl]
    refine ⟨?_, hj, [], post, hl, rfl⟩
    change some (parent.links.next (.hashTbl j)) = some e
    rw [(h.ring j hj).linked.next_eq, hl]
    rfl

lemma metafsLookupNext_ahead {iter : Iter} {rest : List ListEntry} (hiter : Ahead l iter rest) :
    (metafsLookupNext parent iter).1 = rest.head? ∧
      Ahead l (metafsLookupNext parent iter).2 rest.tail := by
  cases rest with
  | nil =>
    have hcurrent : iter.current = none := hiter
    unfold metafsLookupNext
    rw [hcurrent]
    exact ⟨rfl, hcurrent⟩
  | cons e rest =>
    obtain ⟨hcurrent, hindex, pre, post, hl, hrest⟩ := hiter
    have hnext : listNext parent.links (.hashTbl iter.hashIndex) e = post.head? :=
      listNext_eq (hl ▸ h.ring _ hindex)
    unfold metafsLookupNext
    simp only [hcurrent, hnext]
    rw [hrest]
    cases post with
    | nil => exact ⟨rfl, iterFrom_ahead h iter hindex⟩
    | cons y post => exact ⟨rfl, rfl, hindex, pre ++ [e], post, by simp [hl], rfl⟩

lemma returned_eq {iter : Iter} {rest : List ListEntry} (hiter : Ahead l iter rest) (calls : ℕ) :
    returned parent calls iter = rest[calls]? := by
  induction calls generalizing iter rest with
  | zero =>
    rw [returned, (metafsLookupNext_ahead h hiter).1]
    exact List.head?_eq_getElem? ..
  | succ calls ih =>
    rw [returned, ih (metafsLookupNext_ahead h hiter).2]
    exact List.getElem?_tail ..

end Iteration

/-- The children of a node are a finite map from their names, and an iterator returns each of them
once. -/
theorem metafs_children {s : State} (h : machine.Reachable s) :
    (∀ name fuel, s.registered.card < fuel →
      (∀ c ∈ s.registered, s.parent.name (.list c) = name →
        metafsLookup s.parent fuel name = some (some (.list c))) ∧
      ((∀ c ∈ s.registered, s.parent.name (.list c) ≠ name) →
        metafsLookup s.parent fuel name = some none)) ∧
    s.parent.childrenNr.toNat = s.registered.card ∧
    ∃ children : List (BitVec 32), children.Nodup ∧ (∀ c, c ∈ children ↔ c ∈ s.registered) ∧
      ∀ iter calls, returned s.parent calls (metafsIterInit s.parent iter) =
        children[calls]?.map .list := by
  obtain ⟨l, hl⟩ := inv_reachable h
  refine ⟨fun name fuel hfuel => ⟨?_, hl.metafsLookup_none hfuel⟩, hl.childrenNr_toNat, ?_⟩
  · rintro c hc rfl
    exact hl.metafsLookup_registered hfuel hc
  · have hmem : ∀ e, e ∈ nodesFrom l 0 hashSize ↔ ∃ c ∈ s.registered, e = .list c := by
      intro e
      simp only [nodesFrom, List.mem_flatMap, List.mem_range'_1, Nat.zero_le, true_and, Nat.zero_add]
      constructor
      · rintro ⟨i, hi, he⟩
        obtain ⟨c, hc, heq, -⟩ := (hl.mem i hi e).mp he
        exact ⟨c, hc, heq⟩
      · rintro ⟨c, hc, rfl⟩
        exact ⟨_, metafsHashIndex_lt _, (hl.mem _ (metafsHashIndex_lt _) _).mpr ⟨c, hc, rfl, rfl⟩⟩
    obtain ⟨children, hchildren⟩ : nodesFrom l 0 hashSize ∈ Set.range (List.map ListEntry.list) := by
      rw [Set.range_list_map]
      intro e he
      obtain ⟨c, -, rfl⟩ := (hmem e).mp he
      exact ⟨c, rfl⟩
    have hnodup : (children.map ListEntry.list).Nodup := hchildren ▸ hl.table.nodup
    refine ⟨children, hnodup.of_map, fun c => ?_, fun iter calls => ?_⟩
    · rw [← List.mem_map_of_injective (f := ListEntry.list) fun _ _ => ListEntry.list.inj, hchildren,
        hmem]
      constructor
      · rintro ⟨d, hd, heq⟩
        exact ListEntry.list.inj heq ▸ hd
      · exact fun hc => ⟨c, hc, rfl⟩
    · have hahead : Ahead l (metafsIterInit s.parent iter) (nodesFrom l 0 hashSize) :=
        iterFrom_ahead hl.table iter (Nat.zero_le _)
      rw [returned_eq hl.table hahead, ← hchildren, List.getElem?_map]

def emptyNode : Node where
  name _ := ⟨[], by simp⟩
  childrenNr := 0
  links := ⟨id, id⟩

lemma step_setName {s : State} {node : BitVec 32} (name : CString) (h : node ∉ s.registered) :
    machine.step s (.setName node name) =
      some { s with parent := metafsSetName s.parent node name } := if_pos h

lemma step_register {s : State} {child : BitVec 32} (h : child ≠ 0 ∧
    ∀ c ∈ s.registered, s.parent.name (.list c) ≠ s.parent.name (.list child)) :
    machine.step s (.register child) =
      some ⟨metafsRegister s.parent child, insert child s.registered⟩ := if_pos h

lemma step_unregister {s : State} {child : BitVec 32} (h : child ∈ s.registered) :
    machine.step s (.unregister child) =
      some ⟨metafsUnregister s.parent child, s.registered.erase child⟩ := if_pos h

lemma one_child : ∃ s, machine.Reachable s ∧ s.registered = {2} := by
  have h0 : machine.Reachable ⟨metafsInit emptyNode 1 ⟨[], by simp⟩, ∅⟩ :=
    .init ⟨⟨emptyNode, 1, _, rfl⟩, rfl⟩
  have h1 := h0.step trivial (step_setName ⟨[100], by decide⟩
    (show (2 : BitVec 32) ∉ (∅ : Finset (BitVec 32)) from Finset.notMem_empty _))
  have h2 := h1.step trivial
    (step_register (show (2 : BitVec 32) ≠ 0 ∧ _ from ⟨by decide, by simp⟩))
  have h3 := h2.step trivial
    (step_register (show (3 : BitVec 32) ≠ 0 ∧ _ from ⟨by decide, by
      simp [metafsRegister, metafsSetName, metafsInit, emptyNode]⟩))
  have h4 := h3.step trivial
    (step_unregister (show (3 : BitVec 32) ∈ insert 3 _ from Finset.mem_insert_self ..))
  exact ⟨_, h4, by decide⟩

theorem metafs_children_one_child : ∃ s, machine.Reachable s ∧ s.registered = {2} ∧
    s.parent.childrenNr.toNat = 1 ∧
    metafsLookup s.parent 2 (s.parent.name (.list 2)) = some (some (.list 2)) := by
  obtain ⟨s, hs, hregistered⟩ := one_child
  obtain ⟨hlookup, hcount, -⟩ := metafs_children hs
  refine ⟨s, hs, hregistered, ?_, ?_⟩
  · rw [hcount, hregistered]
    rfl
  · refine (hlookup _ 2 ?_).1 2 ?_ rfl <;> rw [hregistered] <;> decide

end Almos.Metafs
