import Mathlib
import Almos.RadixGrowth

/-!
# Radix tags

A tag bit for each slot, kept in the leaf and again in each node above it. The bits of the leaves
are always right. The root is asked for the whole tree, and its bits are right as long as no tag is
cleared beside another one under the same slot, no root is put above a tagged one, and the tagged
slots are among those that an `int` can show.
-/
namespace Almos.Radix
open Word

variable {ι : Type}

def eINVAL : ℤ := 22

def eNOTFOUND : ℤ := 42

/-- `TAG_PG_DIRTY` is the only tag. -/
def nbTags : ℕ := 1

def tagUp (key : ℕ) (value : Bool) : ℕ → Radix ι → Option ℕ → ℕ → Option (Radix ι)
  | _, root, none, _ => some root
  | 0, _, some _, _ => none
  | fuel + 1, root, some currentNode, level =>
      let root := root.setNode currentNode (·.setTag (nextChild level key) value)
      tagUp key value fuel root (root.nodes currentNode).parent (level + 1)

/-- The common part of `radix_tree_tag_set` and `radix_tree_tag_clear`: the item, if there is one. -/
def radixTreeTagWrite (root : Radix ι) (index tag : ℕ) (value : Bool) :
    Option (Radix ι × Option ι) :=
  if root.rootNode.isNone ∨ root.maxKey < index ∨ nbTags ≤ tag then some (root, none)
  else do
    let top ← asNode root.rootNode
    match ← descend root index (root.height - 1) top with
    | none => some (root, none)
    | some leaf =>
        let slot := nextChild 0 index
        match ← asItem ((root.nodes leaf).children slot) with
        | none => some (root, none)
        | some item => do
            let root := root.setNode leaf (·.setTag slot value)
            let root ← tagUp index value walkBound root (root.nodes leaf).parent 1
            some (root, some item)

def radixTreeTagSet (root : Radix ι) (index tag : ℕ) : Option (Radix ι × Option ι) :=
  radixTreeTagWrite root index tag true

def radixTreeTagClear (root : Radix ι) (index tag : ℕ) : Option (Radix ι × Option ι) :=
  radixTreeTagWrite root index tag false

/-- A 64-bit word returned as an `int`. -/
def narrow (w : BitVec 64) : ℤ := (w.setWidth 32).toInt

def radixTreeTagGet (root : Radix ι) (index tag : ℕ) : Option ℤ :=
  if root.rootNode.isNone ∨ root.maxKey < index ∨ nbTags ≤ tag then some (-eINVAL)
  else do
    let top ← asNode root.rootNode
    match ← descend root index (root.height - 1) top with
    | none => some (-eNOTFOUND)
    | some leaf =>
        let slot := nextChild 0 index
        if ((root.nodes leaf).children slot).isNone then some (-eNOTFOUND)
        else some (narrow ((root.nodes leaf).tags &&& bit slot))

def radixTreeTagged (root : Radix ι) (tag : ℕ) : Option ℤ :=
  if root.height = 0 ∨ nbTags ≤ tag then some (-eINVAL)
  else do
    let top ← asNode root.rootNode
    some (narrow (root.nodes top).tags)

lemma and_bit (w : BitVec 64) (i : ℕ) : w &&& bit i = if w.getLsbD i then bit i else 0 := by
  ext j hj
  rw [BitVec.getElem_and]
  by_cases hij : i = j
  · subst hij
    cases hbit : w[i] <;> simp [BitVec.getLsbD_eq_getElem hj, hbit]
  · have hclear : (bit i)[j] = false := by
      rw [← BitVec.getLsbD_eq_getElem, bit_getLsbD hj, decide_eq_false hij]
    cases w.getLsbD i <;> simp [hclear]

lemma and_bit_ne_zero (w : BitVec 64) {i : ℕ} (hi : i < 64) : w &&& bit i ≠ 0 ↔ w.getLsbD i = true := by
  rw [and_bit]
  cases w.getLsbD i with
  | false => simp
  | true =>
    refine iff_of_true (fun hzero => ?_) rfl
    have hself := bit_getLsbD (i := i) hi
    rw [if_pos rfl] at hzero
    rw [hzero] at hself
    simp at hself

lemma narrow_bit {i : ℕ} (hi : i < 31) : 0 < narrow (bit i) := by
  interval_cases i <;> decide

lemma narrow_ne_zero {w : BitVec 64} : narrow w ≠ 0 ↔ ∃ i, i < 32 ∧ w.getLsbD i = true := by
  have hzero : narrow w = 0 ↔ w.setWidth 32 = 0 := by
    rw [narrow, ← BitVec.toInt_zero (w := 32), BitVec.toInt_inj]
    rfl
  rw [Ne, hzero, BitVec.eq_of_getLsbD_eq_iff]
  simp

lemma setTag_getLsbD (node : RadixNode ι) (i : ℕ) (value : Bool) {j : ℕ} (hj : j < 64) :
    (node.setTag i value).tags.getLsbD j = if i = j then value else node.tags.getLsbD j := by
  cases value with
  | false =>
    change (node.tags &&& ~~~bit i).getLsbD j = _
    rw [BitVec.getLsbD_and, BitVec.getLsbD_not, bit_getLsbD hj]
    by_cases hij : i = j <;> simp [hij, hj]
  | true =>
    change (node.tags ||| bit i).getLsbD j = _
    rw [BitVec.getLsbD_or, bit_getLsbD hj]
    by_cases hij : i = j <;> simp [hij]

variable {root : Radix ι} {lay : Layout} {m : ℕ → Option ι} {key : ℕ} {value : Bool}

lemma Grown.setTag (h : Grown root lay m) (a i : ℕ) (value : Bool) :
    Grown (root.setNode a (·.setTag i value)) lay m := by
  refine ⟨⟨h.rep.congr_nodes rfl rfl rfl, h.low, h.maxKey, fun r n b hb => ?_⟩,
    h.rootParent.setNode rfl⟩
  by_cases hba : b = a
  · rw [hba, setNode_nodes_self]
    exact h.covered _ _ _ (hba ▸ hb)
  · rw [setNode_nodes_of_ne _ _ hba]
    exact h.covered _ _ _ hb

/-- Where a write of the tag of `key` reaches: the nodes of its way from level `r` on. -/
def TagsWritten (root root' : Radix ι) (lay : Layout) (key : ℕ) (value : Bool) (r : ℕ) : Prop :=
  ∀ r' n b, lay r' n = some b → (root'.nodes b).tags =
    if r ≤ r' ∧ n = key / 64 ^ (r' + 1) then ((root.nodes b).setTag (nextChild r' key) value).tags
    else (root.nodes b).tags

lemma TagsWritten.step (h : Rep root lay m) {r a : ℕ} {root' : Radix ι}
    (ha : lay r (key / 64 ^ (r + 1)) = some a)
    (hrest : TagsWritten (root.setNode a (·.setTag (nextChild r key) value)) root' lay key value
      (r + 1)) : TagsWritten root root' lay key value r := by
  intro r' n b hb
  rw [hrest r' n b hb]
  by_cases hba : b = a
  · obtain ⟨rfl, rfl⟩ := h.inj _ _ _ _ _ (hba ▸ hb) ha
    rw [if_neg (by omega), if_pos ⟨le_rfl, rfl⟩, hba, setNode_nodes_self]
  · rw [setNode_nodes_of_ne _ _ hba]
    by_cases hpath : r ≤ r' ∧ n = key / 64 ^ (r' + 1)
    · have hne : r ≠ r' := by
        rintro rfl
        rw [hpath.2, ha] at hb
        exact hba (Option.some.inj hb).symm
      rw [if_pos hpath, if_pos ⟨by omega, hpath.2⟩]
    · rw [if_neg hpath, if_neg fun hnext => hpath ⟨by omega, hnext.2⟩]

lemma tagUp_spec (key : ℕ) (value : Bool) : ∀ fuel (root : Radix ι) r a, root.height ≤ fuel + r + 1 → Grown root lay m →
    lay r (key / 64 ^ (r + 1)) = some a →
    ∃ root', tagUp key value fuel root (root.nodes a).parent (r + 1) = some root' ∧
      Grown root' lay m ∧ root'.height = root.height ∧ root'.live = root.live ∧
      TagsWritten root root' lay key value (r + 1) := by
  intro fuel
  induction fuel with
  | zero =>
    intro root r a hfuel h ha
    have hparent := h.rep.parent_on_path h.rootParent ha
    rw [if_neg (by omega)] at hparent
    refine ⟨root, by simp [tagUp, hparent], h, rfl, rfl, fun r' n b hb => ?_⟩
    have hr := (h.rep.bound _ _ _ hb).1
    rw [if_neg (by omega)]
  | succ fuel ih =>
    intro root r a hfuel h ha
    have hparent := h.rep.parent_on_path h.rootParent ha
    by_cases hr : r + 1 < root.height
    · obtain ⟨p, hp, -⟩ := h.rep.parents _ _ _ ha hr
      rw [Nat.div_div_eq_div_mul, ← pow_succ] at hp
      rw [if_pos hr, hp] at hparent
      obtain ⟨root', heq, hgrown, hheight, hlive, hwritten⟩ :=
        ih (root.setNode p (·.setTag (nextChild (r + 1) key) value)) (r + 1) p (by
          change root.height ≤ _
          omega) (h.setTag _ _ _) hp
      refine ⟨root', ?_, hgrown, hheight, hlive, hwritten.step h.rep hp⟩
      rw [hparent, tagUp]
      exact heq
    · rw [if_neg hr] at hparent
      refine ⟨root, by simp [tagUp, hparent], h, rfl, rfl, fun r' n b hb => ?_⟩
      have hr' := (h.rep.bound _ _ _ hb).1
      rw [if_neg (by omega)]

lemma descend_top (h : Sound root lay m) (hkey : key < 2 ^ 32) (hroot : root.rootNode.isNone = false)
    (hmax : key ≤ root.maxKey) : ∃ top, asNode root.rootNode = some top ∧
      descend root key (root.height - 1) top = some (lay 0 (key / 64)) := by
  have hh : root.height ≠ 0 := by
    intro hz
    rw [h.rep.empty hz] at hroot
    cases hroot
  obtain ⟨top, htop, hlay⟩ := h.rep.top (by omega)
  refine ⟨top, by rw [htop, asNode], descend_spec h.rep key (root.height - 1) top ?_⟩
  rw [Nat.sub_add_cancel (by omega),
    Nat.div_eq_of_lt ((le_maxKeyId_iff hkey).mp (h.maxKey ▸ hmax)), hlay]

lemma Sound.reaches (h : Sound root lay m) {x : ι} (hkey : key < 2 ^ 32) (hx : m key = some x) :
    root.rootNode.isNone = false ∧ key ≤ root.maxKey ∧ ∃ leaf, lay 0 (key / 64) = some leaf := by
  obtain ⟨leaf, hleaf⟩ := h.rep.held key x hx
  obtain ⟨hpos, hlt⟩ := h.rep.bound _ _ _ hleaf
  obtain ⟨top, htop, -⟩ := h.rep.top hpos
  refine ⟨by rw [htop]; rfl, ?_, leaf, hleaf⟩
  have hheight : root.height = root.height - 1 - 0 + 1 := by omega
  rw [h.maxKey, le_maxKeyId_iff hkey, hheight, pow_succ]
  omega

/-- A write of a tag marks or clears the nodes of the way of a key that is there, and does nothing
else. -/
lemma radixTreeTagWrite_spec (h : Grown root lay m) (hkey : key < 2 ^ 32) (tag : ℕ) (value : Bool) :
    ∃ root' out, radixTreeTagWrite root key tag value = some (root', out) ∧ Grown root' lay m ∧
      root'.height = root.height ∧ root'.live = root.live ∧
      (tag < nbTags → m key ≠ none → TagsWritten root root' lay key value 0) ∧
      (¬(tag < nbTags ∧ m key ≠ none) → root' = root) := by
  by_cases hcond : root.rootNode.isNone ∨ root.maxKey < key ∨ nbTags ≤ tag
  · refine ⟨root, none, by rw [radixTreeTagWrite, if_pos hcond], h, rfl, rfl, fun htag hm => ?_,
      fun _ => rfl⟩
    obtain ⟨x, hx⟩ := Option.ne_none_iff_exists'.mp hm
    obtain ⟨hroot, hmax, -⟩ := h.reaches hkey hx
    rw [hroot] at hcond
    simp only [Bool.false_eq_true, false_or] at hcond
    omega
  · obtain ⟨hroot, hmax, htag⟩ : root.rootNode.isNone = false ∧ key ≤ root.maxKey ∧ tag < nbTags := by
      simp only [not_or, Bool.not_eq_true] at hcond
      exact ⟨hcond.1, by omega, by omega⟩
    obtain ⟨top, htop, hdown⟩ := descend_top h.toSound hkey hroot hmax
    have hindex : nextChild 0 key = key % 64 := by rw [nextChild_eq, pow_zero, Nat.div_one]
    rw [radixTreeTagWrite, if_neg hcond]
    simp only [htop, hdown, Option.bind_eq_bind, Option.bind_some, hindex]
    cases hleaf : lay 0 (key / 64) with
    | none =>
      refine ⟨root, none, rfl, h, rfl, rfl, fun _ hm => ?_, fun _ => rfl⟩
      obtain ⟨x, hx⟩ := Option.ne_none_iff_exists'.mp hm
      obtain ⟨leaf, hleaf'⟩ := h.rep.held key x hx
      rw [hleaf] at hleaf'
      cases hleaf'
    | some leaf =>
      simp only [h.rep.leaf_slot hleaf, asItem_map, Option.bind_some]
      cases hm : m key with
      | none => exact ⟨root, none, rfl, h, rfl, rfl, fun _ hne => (hne rfl).elim, fun _ => rfl⟩
      | some x =>
        have hpath : lay 0 (key / 64 ^ (0 + 1)) = some leaf := by rwa [zero_add, pow_one]
        obtain ⟨root', heq, hgrown, hheight, hlive, hwritten⟩ :=
          tagUp_spec key value walkBound
            (root.setNode leaf (·.setTag (key % 64) value)) 0 leaf (by
              have hlow := h.low
              change root.height ≤ _
              unfold walkBound
              omega) (h.setTag _ _ _) hpath
        rw [← hindex] at hwritten
        refine ⟨root', some x, ?_, hgrown, hheight, hlive, fun _ _ => hwritten.step h.rep hpath,
          fun hnot => (hnot ⟨htag, Option.some_ne_none x⟩).elim⟩
        simp only [heq, Option.bind_some]

/-- A tree, the map of its items and the keys that were tagged last. -/
structure TagState (ι : Type) where
  tree : Radix ι
  map : ℕ → Option ι
  tagged : ℕ → Bool

inductive TagEvent (ι : Type)
  | insert (key : ℕ) (item : ι) (allocs : List ℕ)
  | set (key tag : ℕ)
  | clear (key tag : ℕ)

/-- The tagged keys after a call for `key`. -/
def TagState.mark (s : TagState ι) (key tag : ℕ) (value : Bool) : ℕ → Bool :=
  if tag < nbTags ∧ (s.map key).isSome then Function.update s.tagged key value else s.tagged

def tagStep (s : TagState ι) : TagEvent ι → Option (TagState ι)
  | .insert key item allocs =>
      if key < 2 ^ 32 ∧ Fresh s.tree allocs then do
        let (tree, out) ← radixTreeInsert s.tree key item allocs
        some { s with tree := tree, map := mapAfter s.map key item out }
      else none
  | .set key tag =>
      if key < 2 ^ 32 then do
        let (tree, _) ← radixTreeTagSet s.tree key tag
        some { s with tree := tree, tagged := s.mark key tag true }
      else none
  | .clear key tag =>
      if key < 2 ^ 32 then do
        let (tree, _) ← radixTreeTagClear s.tree key tag
        some { s with tree := tree, tagged := s.mark key tag false }
      else none

def tagMachine (ι : Type) : Machine (TagState ι) (TagEvent ι) where
  init s := ∃ heap, s = ⟨radixTreeInit heap, fun _ => none, fun _ => false⟩
  step := tagStep

structure LeafTags (s : TagState ι) (lay : Layout) : Prop where
  sound : Sound s.tree lay s.map
  small : ∀ k, s.map k ≠ none → k < 2 ^ 32
  marked : ∀ k, s.tagged k = true → s.map k ≠ none
  leaf : ∀ n a, lay 0 n = some a → ∀ i < 64, (s.tree.nodes a).tags.getLsbD i = s.tagged (64 * n + i)

/-- No deletion has left the root a parent. -/
structure LeavesOk (s : TagState ι) (lay : Layout) : Prop extends LeafTags s lay where
  rootParent : RootParentNull s.tree

lemma LeavesOk.grown {s : TagState ι} (h : LeavesOk s lay) : Grown s.tree lay s.map :=
  ⟨h.sound, h.rootParent⟩

def rootSlot (root : Radix ι) (key : ℕ) : ℕ := key / 64 ^ (root.height - 1)

/-- The bits of the root show the slots with tagged keys, and an `int` shows all of them. -/
structure RootOk (s : TagState ι) (lay : Layout) : Prop where
  root : ∀ a, lay (s.tree.height - 1) 0 = some a → ∀ i < 64,
    ((s.tree.nodes a).tags.getLsbD i = true ↔ ∃ k, s.tagged k = true ∧ rootSlot s.tree k = i)
  low : ∀ k, s.tagged k = true → k % 64 < 31 ∧ rootSlot s.tree k < 32

/-- A run in which no root is put above a tagged one, a key is tagged only in slots that an `int`
shows, and no tag is cleared beside another one under the same slot of the root. -/
def TagOk (s : TagState ι) : TagEvent ι → Prop
  | .insert key _ allocs => s.tree.maxKey < key → allocs ≠ [] → ∀ k, s.tagged k = false
  | .set key tag => tag < nbTags → s.map key ≠ none → key % 64 < 31 ∧ rootSlot s.tree key < 32
  | .clear key tag => tag < nbTags → s.map key ≠ none →
      ∀ k, s.tagged k = true → rootSlot s.tree k = rootSlot s.tree key → k = key

section
variable {s t : TagState ι} {lay lay' : Layout}

lemma LeafTags.insert (h : LeafTags s lay) (hkey : key < 2 ^ 32) {item : ι} {out : ℤ} {tree : Radix ι}
    (hsound : Sound tree lay' (mapAfter s.map key item out)) (hext : Extends s.tree lay tree lay' key) :
    LeafTags { s with tree := tree, map := mapAfter s.map key item out } lay' := by
  refine ⟨hsound, fun k hk => ?_, fun k hk => ?_, fun n a ha i hi => ?_⟩
  · by_cases hkk : k = key
    · rwa [hkk]
    · refine h.small k fun hnone => hk ?_
      change mapAfter s.map key item out k = none
      rw [mapAfter]
      split_ifs
      · rwa [Function.update_of_ne hkk]
      · exact hnone
  · have hm := h.marked k hk
    change mapAfter s.map key item out k ≠ none
    rw [mapAfter]
    split_ifs
    · by_cases hkk : k = key
      · rw [hkk, Function.update_self]
        exact Option.some_ne_none _
      · rwa [Function.update_of_ne hkk]
    · exact hm
  · change (tree.nodes a).tags.getLsbD i = s.tagged (64 * n + i)
    cases hold : lay 0 n with
    | some b =>
      obtain ⟨hkeep, htags⟩ := hext.keep 0 n b hold
      rw [ha, Option.some.injEq] at hkeep
      rw [hkeep, htags]
      exact h.leaf n b hold i hi
    | none =>
      have hzero : (tree.nodes a).tags = 0 := by
        obtain hlay | ⟨-, hzero⟩ | ⟨-, -, hzero | ⟨hpos, -⟩⟩ := hext.fresh 0 n a ha
        · rw [hold] at hlay
          cases hlay
        · exact hzero
        · exact hzero
        · exact absurd hpos (Nat.lt_irrefl 0)
      have huntagged : s.tagged (64 * n + i) = false := by
        by_contra htagged
        obtain ⟨x, hx⟩ := Option.ne_none_iff_exists'.mp (h.marked _ (by simpa using htagged))
        obtain ⟨b, hb⟩ := h.sound.rep.held _ x hx
        have hdiv : (64 * n + i) / 64 = n := by omega
        rw [hdiv, hold] at hb
        cases hb
      rw [hzero, huntagged]
      simp

lemma LeafTags.write (h : LeafTags s lay) {tag : ℕ} {tree : Radix ι}
    (hsound : Sound tree lay s.map)
    (hwritten : tag < nbTags → s.map key ≠ none → TagsWritten s.tree tree lay key value 0)
    (hsame : ¬(tag < nbTags ∧ s.map key ≠ none) → tree = s.tree) :
    LeafTags { s with tree := tree, tagged := s.mark key tag value } lay := by
  by_cases hmark : tag < nbTags ∧ s.map key ≠ none
  · obtain ⟨htag, hm⟩ := hmark
    have hmarked : s.mark key tag value = Function.update s.tagged key value := by
      rw [TagState.mark, if_pos ⟨htag, Option.isSome_iff_ne_none.mpr hm⟩]
    refine ⟨hsound, h.small, fun k hk => ?_, fun n a ha i hi => ?_⟩
    · simp only [hmarked] at hk
      by_cases hkk : k = key
      · rwa [hkk]
      · rw [Function.update_of_ne hkk] at hk
        exact h.marked k hk
    · change (tree.nodes a).tags.getLsbD i = s.mark key tag value (64 * n + i)
      have hslot : nextChild 0 key = key % 64 := by rw [nextChild_eq, pow_zero, Nat.div_one]
      rw [hwritten htag hm 0 n a ha, hmarked, zero_add, pow_one, hslot]
      by_cases hn : n = key / 64
      · rw [if_pos ⟨le_rfl, hn⟩, setTag_getLsbD _ _ _ hi, h.leaf n a ha i hi]
        by_cases hik : key % 64 = i
        · have hk : 64 * n + i = key := by omega
          rw [if_pos hik, hk, Function.update_self]
        · rw [if_neg hik, Function.update_of_ne (by omega)]
      · rw [if_neg fun hpath => hn hpath.2, h.leaf n a ha i hi, Function.update_of_ne (by omega)]
  · have hmarked : s.mark key tag value = s.tagged := by
      rw [TagState.mark, if_neg fun hsome => hmark ⟨hsome.1, Option.isSome_iff_ne_none.mp hsome.2⟩]
    rw [hsame hmark, hmarked]
    exact h

lemma LeafTags.infoSet (h : LeafTags s lay) {a : ℕ} (ha : lay 0 (key / 64) = some a)
    (hm : s.map key ≠ none) (item : ι) :
    LeafTags { s with
      tree := radixItemInfoSet s.tree ⟨a, key, key % 64⟩ item
      map := Function.update s.map key (some item) } lay := by
  have hnode : ∀ b, ((radixItemInfoSet s.tree ⟨a, key, key % 64⟩ item).nodes b).tags =
      (s.tree.nodes b).tags ∧ (Covered (s.tree.nodes b) →
        Covered ((radixItemInfoSet s.tree ⟨a, key, key % 64⟩ item).nodes b)) := by
    intro b
    by_cases hba : b = a
    · rw [radixItemInfoSet, hba, setNode_nodes_self]
      refine ⟨rfl, fun hcovered i hpos hi hchild => hcovered i hpos hi ?_⟩
      by_cases hik : i = key % 64
      · obtain ⟨x, hx⟩ := Option.ne_none_iff_exists'.mp hm
        rw [hik, h.sound.rep.leaf_slot ha, hx]
        rfl
      · simpa [RadixNode.setItem, hik] using hchild
    · rw [radixItemInfoSet, setNode_nodes_of_ne _ _ hba]
      exact ⟨rfl, id⟩
  refine ⟨⟨h.sound.rep.infoSet ha hm item, h.sound.low, h.sound.maxKey, fun r n b hb => ?_⟩,
    fun k hk => ?_, fun k hk => ?_, fun n b hb i hi => ?_⟩
  · exact (hnode b).2 (h.sound.covered r n b hb)
  · by_cases hkk : k = key
    · rw [hkk]
      exact h.small key hm
    · exact h.small k (by simpa only [Function.update_of_ne hkk] using hk)
  · by_cases hkk : k = key
    · simp [hkk]
    · simp only [Function.update_of_ne hkk]
      exact h.marked k hk
  · rw [(hnode b).1]
    exact h.leaf n b hb i hi

lemma untagged_above {root root' : Radix ι} {m : ℕ → Option ι} (hrep : Rep root lay m)
    (hext : Extends root lay root' lay' key)
    (hzero : ∀ a, lay (root.height - 1) 0 = some a → (root.nodes a).tags = 0) :
    ∀ r a, root.height - 1 ≤ r → lay' r 0 = some a → (root'.nodes a).tags = 0 := by
  intro r
  induction r with
  | zero =>
    intro a hr ha
    obtain hold | ⟨-, htags⟩ | ⟨-, -, htags | ⟨hpos, -⟩⟩ := hext.fresh 0 0 a ha
    · have hr' := (hrep.bound _ _ _ hold).1
      have htop : root.height - 1 = 0 := by omega
      rw [(hext.keep _ _ _ hold).2, hzero a (by rw [htop]; exact hold)]
    · exact htags
    · exact htags
    · exact absurd hpos (Nat.lt_irrefl 0)
  | succ r ih =>
    intro a hr ha
    obtain hold | ⟨-, htags⟩ | ⟨-, hlevel, htags | ⟨-, -, b, hb, htagged⟩⟩ := hext.fresh _ _ a ha
    · have hr' := (hrep.bound _ _ _ hold).1
      have htop : root.height - 1 = r + 1 := by omega
      rw [(hext.keep _ _ _ hold).2, hzero a (by rw [htop]; exact hold)]
    · exact htags
    · exact htags
    · exact absurd (ih b (by omega) hb) htagged

lemma RootOk.insert (hleaves : LeavesOk s lay) (h : RootOk s lay) {item : ι} {out : ℤ}
    {tree : Radix ι} {allocs : List ℕ} (hok : TagOk s (.insert key item allocs))
    (hext : Extends s.tree lay tree lay' key)
    (hsame : allocs = [] ∨ 0 < s.tree.height ∧ key ≤ s.tree.maxKey → tree.height = s.tree.height) :
    RootOk { s with tree := tree, map := mapAfter s.map key item out } lay' := by
  by_cases hnone : ∀ k, s.tagged k = false
  · refine ⟨fun a ha i _ => ?_, fun k hk => ?_⟩
    · have hzero : ∀ b, lay (s.tree.height - 1) 0 = some b → (s.tree.nodes b).tags = 0 := by
        intro b hb
        ext j hj
        have hzero : (0 : BitVec 64).getLsbD j = false := BitVec.getLsbD_zero
        rw [← BitVec.getLsbD_eq_getElem, ← BitVec.getLsbD_eq_getElem, hzero, Bool.eq_false_iff, Ne,
          h.root b hb j hj]
        rintro ⟨k, hk, -⟩
        rw [hnone k] at hk
        cases hk
      have hle : s.tree.height - 1 ≤ tree.height - 1 := Nat.sub_le_sub_right hext.height 1
      have htags := untagged_above hleaves.grown.rep hext hzero _ a hle ha
      simp only [htags, hnone]
      simp
    · exact absurd hk (by simp [hnone k])
  · obtain ⟨k, hk⟩ : ∃ k, s.tagged k = true := by simpa using hnone
    have hm := hleaves.marked k hk
    obtain ⟨x, hx⟩ := Option.ne_none_iff_exists'.mp hm
    obtain ⟨leaf, hleaf⟩ := hleaves.grown.rep.held k x hx
    have hpos := (hleaves.grown.rep.bound _ _ _ hleaf).1
    have hheight : tree.height = s.tree.height := by
      refine hsame ?_
      by_contra hcond
      rw [not_or] at hcond
      exact hnone (hok (by omega) hcond.1)
    obtain ⟨top, -, htop⟩ := hleaves.grown.rep.top hpos
    obtain ⟨hkeep, htags⟩ := hext.keep _ _ _ htop
    refine ⟨fun a ha i hi => ?_, fun j hj => ?_⟩
    · rw [hheight, hkeep, Option.some.injEq] at ha
      subst ha
      have hbits := h.root top htop i hi
      rw [← htags] at hbits
      simp only [rootSlot, hheight]
      exact hbits
    · have hlow := h.low j hj
      simp only [rootSlot, hheight]
      exact hlow

lemma RootOk.write (hleaves : LeavesOk s lay) (h : RootOk s lay) {tag : ℕ} {tree : Radix ι}
    (hheight : tree.height = s.tree.height)
    (hwritten : tag < nbTags → s.map key ≠ none → TagsWritten s.tree tree lay key value 0)
    (hsame : ¬(tag < nbTags ∧ s.map key ≠ none) → tree = s.tree)
    (hlow : value = true → tag < nbTags → s.map key ≠ none → key % 64 < 31 ∧ rootSlot s.tree key < 32)
    (hbeside : value = false → tag < nbTags → s.map key ≠ none →
      ∀ k, s.tagged k = true → rootSlot s.tree k = rootSlot s.tree key → k = key) :
    RootOk { s with tree := tree, tagged := s.mark key tag value } lay := by
  by_cases hmark : tag < nbTags ∧ s.map key ≠ none
  · obtain ⟨htag, hm⟩ := hmark
    have hmarked : s.mark key tag value = Function.update s.tagged key value := by
      rw [TagState.mark, if_pos ⟨htag, Option.isSome_iff_ne_none.mpr hm⟩]
    obtain ⟨x, hx⟩ := Option.ne_none_iff_exists'.mp hm
    obtain ⟨-, hmax, leaf, hleaf⟩ := hleaves.sound.reaches (hleaves.small key hm) hx
    have hpos := (hleaves.grown.rep.bound _ _ _ hleaf).1
    have hlt : key < 64 ^ s.tree.height :=
      (le_maxKeyId_iff (hleaves.small key hm)).mp (hleaves.grown.maxKey ▸ hmax)
    have hblock : key / 64 ^ (s.tree.height - 1 + 1) = 0 := by
      rw [Nat.sub_add_cancel (by omega)]
      exact Nat.div_eq_of_lt hlt
    have hslot : nextChild (s.tree.height - 1) key = rootSlot s.tree key := by
      rw [nextChild_eq, rootSlot]
      refine Nat.mod_eq_of_lt ((Nat.div_lt_iff_lt_mul (by positivity)).mpr ?_)
      rwa [← pow_succ', Nat.sub_add_cancel (by omega)]
    refine ⟨fun a ha i hi => ?_, fun k hk => ?_⟩
    · have ha' : lay (s.tree.height - 1) 0 = some a := by rw [← hheight]; exact ha
      have hbits := h.root a ha' i hi
      simp only [rootSlot, hheight, hmarked]
      rw [hwritten htag hm _ _ a ha', if_pos ⟨Nat.zero_le _, hblock.symm⟩, setTag_getLsbD _ _ _ hi,
        hslot]
      by_cases hi' : rootSlot s.tree key = i
      · rw [if_pos hi']
        cases value with
        | true => exact iff_of_true rfl ⟨key, Function.update_self _ _ _, hi'⟩
        | false =>
          refine iff_of_false Bool.false_ne_true ?_
          rintro ⟨k, hk, hki⟩
          by_cases hkk : k = key
          · rw [hkk, Function.update_self] at hk
            cases hk
          · rw [Function.update_of_ne hkk] at hk
            exact hkk (hbeside rfl htag hm k hk (by rw [hi']; exact hki))
      · rw [if_neg hi', hbits]
        refine exists_congr fun k => and_congr_left fun hki => ?_
        have hkk : k ≠ key := by
          rintro rfl
          exact hi' hki
        rw [Function.update_of_ne hkk]
    · simp only [rootSlot, hheight]
      simp only [hmarked] at hk
      by_cases hkk : k = key
      · rw [hkk, Function.update_self] at hk
        rw [hkk]
        exact hlow hk htag hm
      · rw [Function.update_of_ne hkk] at hk
        exact h.low k hk
  · have hmarked : s.mark key tag value = s.tagged := by
      rw [TagState.mark, if_neg fun hsome => hmark ⟨hsome.1, Option.isSome_iff_ne_none.mp hsome.2⟩]
    rw [hsame hmark, hmarked]
    exact h

/-- Every step keeps the leaves right, and a step that meets the guard the root too. -/
lemma LeavesOk.step (h : LeavesOk s lay) {e : TagEvent ι} (hstep : tagStep s e = some t) :
    ∃ lay', LeavesOk t lay' ∧ (RootOk s lay → TagOk s e → RootOk t lay') := by
  cases e with
  | insert key item allocs =>
    by_cases hlegal : key < 2 ^ 32 ∧ Fresh s.tree allocs
    · obtain ⟨tree, lay', out, heq, hgrown, hext, hsame, -⟩ := h.grown.insert hlegal.1 item hlegal.2
      simp only [tagStep, if_pos hlegal, heq, Option.bind_eq_bind, Option.bind_some,
        Option.some.injEq] at hstep
      subst hstep
      exact ⟨lay', ⟨h.insert hlegal.1 hgrown.toSound hext, hgrown.rootParent⟩, fun hroot hok => hroot.insert h hok hext hsame⟩
    · simp only [tagStep, if_neg hlegal, reduceCtorEq] at hstep
  | set key tag =>
    by_cases hkey : key < 2 ^ 32
    · obtain ⟨tree, out, heq, hgrown, hheight, -, hwritten, hsame⟩ :=
        radixTreeTagWrite_spec h.grown hkey tag true
      simp only [tagStep, if_pos hkey, radixTreeTagSet, heq, Option.bind_eq_bind, Option.bind_some,
        Option.some.injEq] at hstep
      subst hstep
      exact ⟨lay, ⟨h.write hgrown.toSound hwritten hsame, hgrown.rootParent⟩, fun hroot hok =>
        hroot.write h hheight hwritten hsame (fun _ => hok) fun hvalue => absurd hvalue (by decide)⟩
    · simp only [tagStep, if_neg hkey, reduceCtorEq] at hstep
  | clear key tag =>
    by_cases hkey : key < 2 ^ 32
    · obtain ⟨tree, out, heq, hgrown, hheight, -, hwritten, hsame⟩ :=
        radixTreeTagWrite_spec h.grown hkey tag false
      simp only [tagStep, if_pos hkey, radixTreeTagClear, heq, Option.bind_eq_bind, Option.bind_some,
        Option.some.injEq] at hstep
      subst hstep
      exact ⟨lay, ⟨h.write hgrown.toSound hwritten hsame, hgrown.rootParent⟩, fun hroot hok =>
        hroot.write h hheight hwritten hsame (fun hvalue => absurd hvalue (by decide)) fun _ => hok⟩
    · simp only [tagStep, if_neg hkey, reduceCtorEq] at hstep

lemma tags_init (heap : Radix ι) :
    LeavesOk ⟨radixTreeInit heap, fun _ => none, fun _ => false⟩ (fun _ _ => none) ∧
      RootOk (⟨radixTreeInit heap, fun _ => none, fun _ => false⟩ : TagState ι) (fun _ _ => none) := by
  refine ⟨⟨⟨(grown_init heap).toSound, fun k hk => (hk rfl).elim, fun k hk => ?_, fun n a ha => ?_⟩,
    (grown_init heap).rootParent⟩, fun a ha => ?_, fun k hk => ?_⟩
  · cases hk
  · cases ha
  · cases ha
  · cases hk

lemma tagOk_reach (hs : (tagMachine ι).Reach TagOk s) : ∃ lay, LeavesOk s lay ∧ RootOk s lay := by
  refine Machine.Reach.invariant (I := fun s => ∃ lay, LeavesOk s lay ∧ RootOk s lay) ?_ ?_ hs
  · rintro _ ⟨heap, rfl⟩
    exact ⟨_, tags_init heap⟩
  · rintro s e t ⟨lay, hleaves, hroot⟩ hok hstep
    obtain ⟨lay', hleaves', hroot'⟩ := hleaves.step hstep
    exact ⟨lay', hleaves', hroot' hroot hok⟩

lemma LeafTags.tagGet (h : LeafTags s lay) {tag : ℕ} (hm : s.map key ≠ none) (htag : tag < nbTags) :
    ∃ w : BitVec 64, radixTreeTagGet s.tree key tag = some (narrow (w &&& bit (key % 64))) ∧
      w.getLsbD (key % 64) = s.tagged key := by
  obtain ⟨x, hx⟩ := Option.ne_none_iff_exists'.mp hm
  obtain ⟨hroot, hmax, leaf, hleaf⟩ := h.sound.reaches (h.small key hm) hx
  obtain ⟨top, htop, hdown⟩ := descend_top h.sound (h.small key hm) hroot hmax
  have hindex : nextChild 0 key = key % 64 := by rw [nextChild_eq, pow_zero, Nat.div_one]
  have hcond : ¬(s.tree.rootNode.isNone ∨ s.tree.maxKey < key ∨ nbTags ≤ tag) := by
    rw [hroot]
    simp only [Bool.false_eq_true, false_or]
    omega
  refine ⟨(s.tree.nodes leaf).tags, ?_, ?_⟩
  · rw [radixTreeTagGet, if_neg hcond]
    simp [htop, hdown, hleaf, hindex, h.sound.rep.leaf_slot hleaf, hx]
  · rw [h.leaf _ _ hleaf _ (by omega), Nat.div_add_mod]

lemma LeafTags.tagGet_pos (h : LeafTags s lay) {tag : ℕ} (hm : s.map key ≠ none) (htag : tag < nbTags)
    (hlow : s.tagged key = true → key % 64 < 31) :
    ∃ v, radixTreeTagGet s.tree key tag = some v ∧ (0 < v ↔ s.tagged key = true) ∧
      (s.tagged key = false → v = 0) := by
  obtain ⟨w, hget, hbit⟩ := h.tagGet hm htag
  refine ⟨_, hget, ?_⟩
  rw [and_bit, hbit]
  cases htagged : s.tagged key with
  | true =>
    have hpos := narrow_bit (hlow htagged)
    simpa using hpos
  | false => simp [narrow]

/-- In every run that meets the guard `TagOk` the tags are what was last asked for, for each key and
for the tree once it has a root. -/
theorem radix_tags (s : TagState ι) (hs : (tagMachine ι).Reach TagOk s) :
    (∀ key tag, s.map key ≠ none → tag < nbTags →
        ∃ v, radixTreeTagGet s.tree key tag = some v ∧ (0 < v ↔ s.tagged key = true) ∧
          (s.tagged key = false → v = 0)) ∧
      ∀ tag, s.tree.height ≠ 0 → tag < nbTags → ∃ v, radixTreeTagged s.tree tag = some v ∧
        (v ≠ 0 ↔ ∃ key, s.map key ≠ none ∧ s.tagged key = true) := by
  obtain ⟨lay, hleaves, hroot⟩ := tagOk_reach hs
  refine ⟨fun key tag hm htag => ?_, fun tag hheight htag => ?_⟩
  · exact hleaves.tagGet_pos hm htag fun htagged => (hroot.low key htagged).1
  · obtain ⟨top, htop, hlay⟩ := hleaves.grown.rep.top (by omega)
    refine ⟨narrow (s.tree.nodes top).tags, ?_, ?_⟩
    · rw [radixTreeTagged, if_neg (by omega), htop]
      rfl
    · rw [narrow_ne_zero]
      constructor
      · rintro ⟨i, hi, hbit⟩
        obtain ⟨key, hkey, -⟩ := (hroot.root top hlay i (by omega)).mp hbit
        exact ⟨key, hleaves.marked key hkey, hkey⟩
      · rintro ⟨key, -, hkey⟩
        have hslot := (hroot.low key hkey).2
        exact ⟨_, hslot, (hroot.root top hlay _ (by omega)).mpr ⟨key, hkey, rfl⟩⟩

end

def tagStart : TagState ℕ :=
  ⟨radixTreeInit ⟨none, 0, 0, fun _ => zeroNode, fun _ => false⟩, fun _ => none, fun _ => false⟩

/-- Key 5 is stored and tagged. -/
theorem radix_tags_one_key : ∃ s v, (tagMachine ℕ).run tagStart [.insert 5 50 [0], .set 5 0] = some s ∧
    radixTreeTagGet s.tree 5 0 = some v ∧ 0 < v := by
  obtain ⟨s₁, hs₁, hslot⟩ : ∃ s, tagStep tagStart (.insert 5 50 [0]) = some s ∧
      rootSlot s.tree 5 = 5 := ⟨_, rfl, rfl⟩
  obtain ⟨s, hs, hrun, hm, htagged⟩ : ∃ s, tagStep s₁ (.set 5 0) = some s ∧
      (tagMachine ℕ).run tagStart [.insert 5 50 [0], .set 5 0] = some s ∧ s.map 5 = some 50 ∧
        s.tagged 5 = true := by
    obtain rfl : _ = s₁ := Option.some.inj hs₁
    exact ⟨_, rfl, rfl, rfl, rfl⟩
  have hstart : (tagMachine ℕ).Reach TagOk tagStart := .init ⟨_, rfl⟩
  have hinsert : TagOk tagStart (.insert 5 50 [0]) := fun _ _ _ => rfl
  have hset : TagOk s₁ (.set 5 0) := fun _ _ => ⟨by decide, by rw [hslot]; decide⟩
  have hreach : (tagMachine ℕ).Reach TagOk s := .step (.step hstart hinsert hs₁) hset hs
  obtain ⟨v, hv, hpos, -⟩ := (radix_tags s hreach).1 5 0 (by rw [hm]; exact Option.some_ne_none _)
    (by decide)
  exact ⟨s, v, hrun, hv, hpos.mpr htagged⟩

/-- Key 40 is tagged, and its tag reads as 0. -/
theorem radix_tag_lost : ¬∀ s : TagState ℕ, (tagMachine ℕ).Reachable s →
    (∀ key tag, s.map key ≠ none → tag < nbTags →
        ∃ v, radixTreeTagGet s.tree key tag = some v ∧ (0 < v ↔ s.tagged key = true) ∧
          (s.tagged key = false → v = 0)) ∧
      ∀ tag, s.tree.height ≠ 0 → tag < nbTags → ∃ v, radixTreeTagged s.tree tag = some v ∧
        (v ≠ 0 ↔ ∃ key, s.map key ≠ none ∧ s.tagged key = true) := by
  intro h
  obtain ⟨s, hs, hget, hm, htagged⟩ : ∃ s, (tagMachine ℕ).run tagStart
      [.insert 40 400 [0], .set 40 0] = some s ∧ radixTreeTagGet s.tree 40 0 = some 0 ∧
        s.map 40 = some 400 ∧ s.tagged 40 = true :=
    ⟨_, rfl, by decide, rfl, rfl⟩
  obtain ⟨v, hv, hpos, -⟩ := (h s (Machine.Reachable.run (.init ⟨_, rfl⟩) _ hs)).1 40 0
    (by rw [hm]; exact Option.some_ne_none _) (by decide)
  rw [hget, Option.some.injEq] at hv
  rw [← hv, htagged] at hpos
  exact absurd (hpos.mpr rfl) (by decide)

end Almos.Radix
