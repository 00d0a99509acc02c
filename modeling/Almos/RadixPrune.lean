import Almos.RadixGang
import Almos.RadixTags

/-!
# What a deletion takes from a tree

The walk up after a deletion only takes pointers away, and it frees the nodes that it leaves without
a child. The last item takes all nodes with it, and the root structure keeps pointing to the freed
root.
-/
namespace Almos.Radix
open Word

variable {ι : Type} {root root₁ root₂ root' : Radix ι} {lay lay' : Layout} {m m' : ℕ → Option ι} {key : ℕ}

/-- A tree with pointers taken away, where a node still in use that had children has some left. -/
structure Prunes (root root' : Radix ι) : Prop where
  rootNode : root'.rootNode = root.rootNode
  height : root'.height = root.height
  maxKey : root'.maxKey = root.maxKey
  live : ∀ b, root'.live b = true → root.live b = true
  parent : ∀ b, (root'.nodes b).parent = (root.nodes b).parent
  children : ∀ b i c, (root'.nodes b).children i = some c → (root.nodes b).children i = some c
  covered : ∀ b, Covered (root.nodes b) → Covered (root'.nodes b)
  kept : ∀ b, root'.live b = true → (root.nodes b).count ≠ 0 → (root'.nodes b).count ≠ 0

structure Takes (f : RadixNode ι → RadixNode ι) : Prop where
  parent : ∀ node, (f node).parent = node.parent
  children : ∀ node i c, (f node).children i = some c → node.children i = some c
  covered : ∀ node, Covered node → Covered (f node)

lemma takes_dropChild (index : ℕ) : Takes (ι := ι) (·.dropChild index) where
  parent _ := rfl
  children node i c h := by
    by_cases hi : i = index
    · simp [RadixNode.dropChild, hi] at h
    · simpa [RadixNode.dropChild, hi] using h
  covered _ h := h.dropChild index

lemma takes_setTag (index : ℕ) (tag : Bool) : Takes (ι := ι) (·.setTag index tag) where
  parent _ := rfl
  children _ _ _ h := h
  covered _ h := h

/-- A node written by `f`, and freed when it has no child left. -/
def takeNode (root : Radix ι) (a : ℕ) (f : RadixNode ι → RadixNode ι) : Radix ι :=
  if ((root.setNode a f).nodes a).count = 0 then (root.setNode a f).kmemFree a else root.setNode a f

lemma takeNode_nodes (root : Radix ι) (a b : ℕ) (f : RadixNode ι → RadixNode ι) :
    (takeNode root a f).nodes b = if b = a then f (root.nodes a) else root.nodes b := by
  have hfree : (takeNode root a f).nodes = (root.setNode a f).nodes := by
    rw [takeNode]
    split_ifs <;> rfl
  rw [hfree]
  by_cases hb : b = a
  · rw [hb, setNode_nodes_self, if_pos rfl]
  · rw [setNode_nodes_of_ne _ _ hb, if_neg hb]

namespace Prunes

lemma refl (root : Radix ι) : Prunes root root :=
  ⟨rfl, rfl, rfl, fun _ h => h, fun _ => rfl, fun _ _ _ h => h, fun _ h => h, fun _ _ h => h⟩

lemma trans (h₁ : Prunes root root₁) (h₂ : Prunes root₁ root₂) : Prunes root root₂ where
  rootNode := h₂.rootNode.trans h₁.rootNode
  height := h₂.height.trans h₁.height
  maxKey := h₂.maxKey.trans h₁.maxKey
  live b hb := h₁.live b (h₂.live b hb)
  parent b := (h₂.parent b).trans (h₁.parent b)
  children b i c hc := h₁.children b i c (h₂.children b i c hc)
  covered b hb := h₂.covered b (h₁.covered b hb)
  kept b hb hcount := h₂.kept b hb (h₁.kept b (h₂.live b hb) hcount)

lemma takeNode (root : Radix ι) {f : RadixNode ι → RadixNode ι} (hf : Takes f) (a : ℕ) :
    Prunes root (takeNode root a f) where
  rootNode := by
    rw [Radix.takeNode]
    split_ifs <;> rfl
  height := by
    rw [Radix.takeNode]
    split_ifs <;> rfl
  maxKey := by
    rw [Radix.takeNode]
    split_ifs <;> rfl
  live b hb := by
    rw [Radix.takeNode] at hb
    split_ifs at hb with hcount
    · by_cases hba : b = a
      · simp [kmemFree, hba] at hb
      · rwa [kmemFree_live_of_ne _ hba] at hb
    · exact hb
  parent b := by
    rw [takeNode_nodes]
    split_ifs with hb
    · rw [hb, hf.parent]
    · rfl
  children b i c hc := by
    rw [takeNode_nodes] at hc
    split_ifs at hc with hb
    · rw [hb]
      exact hf.children _ i c hc
    · exact hc
  covered b hb := by
    rw [takeNode_nodes]
    split_ifs with hba
    · exact hf.covered _ (hba ▸ hb)
    · exact hb
  kept b hlive hcount := by
    rw [takeNode_nodes]
    split_ifs with hba
    · intro hzero
      rw [Radix.takeNode, setNode_nodes_self, if_pos hzero, hba] at hlive
      simp [kmemFree] at hlive
    · exact hcount

end Prunes

/-- Nodes of `up` taken pointers from, one after the other. -/
inductive Climbed (up : ℕ → Prop) (root' : Radix ι) : Radix ι → Prop
  | done : Climbed up root' root'
  | write {root : Radix ι} {a : ℕ} {f : RadixNode ι → RadixNode ι} (ha : up a) (hf : Takes f)
      (rest : Climbed up root' (takeNode root a f)) : Climbed up root' root

lemma Climbed.prunes {up : ℕ → Prop} (h : Climbed up root' root) : Prunes root root' := by
  induction h with
  | done => exact .refl root'
  | write ha hf rest ih => exact (Prunes.takeNode _ hf _).trans ih

lemma Climbed.nodes {up : ℕ → Prop} (h : Climbed up root' root) {b : ℕ} (hb : ¬up b) :
    root'.nodes b = root.nodes b := by
  induction h with
  | done => rfl
  | write ha hf rest ih =>
    rw [ih, takeNode_nodes, if_neg]
    rintro rfl
    exact hb ha

lemma removeUp_climbed (key : ℕ) {up : ℕ → Prop} :
    ∀ fuel (root root' : Radix ι) parent level deleted, (∀ a, parent = some a → up a) →
      (∀ a p, up a → (root.nodes a).parent = some p → up p) →
        removeUp key fuel root parent level deleted = some root' → Climbed up root' root := by
  intro fuel
  induction fuel with
  | zero =>
    intro root root' parent level deleted _ _ h
    cases parent with
    | none =>
      obtain rfl : root = root' := by simpa [removeUp] using h
      exact .done
    | some a => simp [removeUp] at h
  | succ fuel ih =>
    intro root root' parent level deleted hparent hclosed h
    cases parent with
    | none =>
      obtain rfl : root = root' := by simpa [removeUp] using h
      exact .done
    | some a =>
      have ha := hparent a rfl
      have hgoal : ∀ f : RadixNode ι → RadixNode ι, Takes f →
          (if ((root.setNode a f).nodes a).count = 0 then
            removeUp key fuel ((root.setNode a f).kmemFree a) (root.nodes a).parent (level + 1) true
          else removeUp key fuel (root.setNode a f) (root.nodes a).parent (level + 1) false) =
            some root' → Climbed up root' root := by
        intro f hf hrest
        have hnext : ∀ c p, up c → ((takeNode root a f).nodes c).parent = some p → up p := by
          intro c p hc hp
          rw [(Prunes.takeNode root hf a).parent] at hp
          exact hclosed c p hc hp
        refine .write ha hf ?_
        rw [takeNode] at hnext ⊢
        split_ifs at hrest hnext ⊢ <;>
          exact ih _ _ _ _ _ (fun p => hclosed a p ha) hnext hrest
      cases deleted with
      | true => exact hgoal _ (takes_dropChild (nextChild level key)) (by simpa [removeUp] using h)
      | false =>
        cases htemp : asNode ((root.nodes a).children (nextChild level key)) with
        | none => simp [removeUp, htemp] at h
        | some temp =>
          exact hgoal _ (takes_setTag (nextChild level key) ((root.nodes temp).tags ≠ 0))
            (by simpa [removeUp, htemp] using h)

/-- The leaves after `key` is taken out: its own has lost the item. -/
def LeafDropped (root root' : Radix ι) (lay : Layout) (key : ℕ) : Prop :=
  ∀ n a, lay 0 n = some a → root'.nodes a =
    if n = key / 64 then (root.nodes a).dropChild (key % 64) else root.nodes a

lemma delete_prunes (h : Rep root lay m) (hmax : root.maxKey = maxKeyId root.height)
    (hlow : root.height ≤ 6) (hkey : key < 2 ^ 32) {x : ι} (hx : m key = some x) {deleted : Bool}
    (hok : DeleteOk root m key deleted) :
    ∃ root₁ lay₁, radixTreeDelete root key deleted = (shrinkTree root₁).map (·, some x) ∧
      Rep root₁ lay₁ (Function.update m key none) ∧ Prunes root root₁ ∧ LeafDropped root root₁ lay key := by
  obtain ⟨a, ha⟩ := h.held key x hx
  obtain ⟨root₁, lay₁, hup, hrep, -⟩ := removeUp_of_leaf h hmax hlow hkey hx ha hok
  have hrun : radixTreeDelete root key deleted = (shrinkTree root₁).map (·, some x) := by
    simp only [radixTreeDelete, radixItemInfoLookup_spec h hmax hkey, ha, Option.map_some,
      Option.bind_eq_bind, Option.bind_some, h.leaf_slot ha, hx, asItem, radixTreeRemoveItem, hup]
    cases shrinkTree root₁ <;> rfl
  simp only [decide_eq_true_eq] at hup
  -- the nodes passed lie above the leaves
  let up : ℕ → Prop := fun b => ∃ r, 0 < r ∧ lay r (key / 64 ^ (r + 1)) = some b
  have hleaf := Prunes.takeNode root (takes_dropChild (key % 64)) a
  have habove : ∀ r b p, lay r (key / 64 ^ (r + 1)) = some b →
      ((takeNode root a (·.dropChild (key % 64))).nodes b).parent = some p → up p := by
    intro r b p hb hp
    rw [hleaf.parent, h.parent_on_path hok.rootParent hb] at hp
    split_ifs at hp
    exact ⟨r + 1, Nat.succ_pos r, hp⟩
  have hpath : lay 0 (key / 64 ^ (0 + 1)) = some a := by rwa [zero_add, pow_one]
  have hclimbed : Climbed up root₁ (takeNode root a (·.dropChild (key % 64))) := by
    refine removeUp_climbed key walkBound _ root₁ _ 1 _ (fun p hp => ?_) (fun c p hc hp => ?_) hup
    · rw [setNode_nodes_self] at hp
      exact habove 0 a p hpath ((hleaf.parent a).trans hp)
    · obtain ⟨r, -, hr⟩ := hc
      exact habove r c p hr hp
  refine ⟨root₁, lay₁, hrun, hrep, hleaf.trans hclimbed.prunes, fun n b hb => ?_⟩
  have hnot : ¬up b := by
    rintro ⟨r, hr, hbr⟩
    have hlevel := (h.inj _ _ _ _ _ hb hbr).1
    omega
  rw [hclimbed.nodes hnot, takeNode_nodes]
  by_cases hn : n = key / 64
  · obtain rfl : a = b := Option.some.inj (ha.symm.trans (hn ▸ hb))
    rw [if_pos rfl, if_pos hn]
  · rw [if_neg hn, if_neg]
    rintro rfl
    exact hn (h.inj _ _ _ _ _ hb ha).2

lemma Prunes.lay_below (hp : Prunes root root') (h : Rep root lay m) (h' : Rep root' lay' m') :
    ∀ d r n b, r + d + 1 = root.height → lay' r n = some b → lay r n = some b := by
  intro d
  induction d with
  | zero =>
    intro r n b hr hb
    have hn := (h'.bound _ _ _ hb).2
    rw [hp.height] at hn
    have hlevel : r = root.height - 1 := by omega
    rw [hlevel, Nat.sub_self, pow_zero, Nat.lt_one_iff] at hn
    obtain ⟨c, hc, hlay⟩ := h.top (by omega)
    obtain ⟨c', hc', hlay'⟩ := h'.top (by rw [hp.height]; omega)
    rw [hp.rootNode, hc, Option.some.injEq, Ptr.node.injEq] at hc'
    rw [hp.height, ← hc'] at hlay'
    rw [hlevel, hn, hlay'] at hb
    rw [hlevel, hn, hlay, ← hb]
  | succ d ih =>
    intro r n b hr hb
    obtain ⟨p, hp', -⟩ := h'.parents r n b hb (by rw [hp.height]; omega)
    have hold := ih (r + 1) (n / 64) p (by omega) hp'
    have hn : 64 * (n / 64) + n % 64 = n := Nat.div_add_mod n 64
    have hslot : n % 64 < 64 := Nat.mod_lt _ (by decide)
    have hchild : (root'.nodes p).children (n % 64) = some (.node b) := by
      rw [h'.kids _ _ _ hp' _ hslot, kid, hn, hb, Option.map_some]
    have hchildOld := hp.children _ _ _ hchild
    rw [h.kids _ _ _ hold _ hslot, kid, hn] at hchildOld
    cases hl : lay r n with
    | none => simp [hl] at hchildOld
    | some c => simpa [hl] using hchildOld

lemma Prunes.lay_sub (hp : Prunes root root') (h : Rep root lay m) (h' : Rep root' lay' m')
    {r n b : ℕ} (hb : lay' r n = some b) : lay r n = some b := by
  have hr := (h'.bound _ _ _ hb).1
  rw [hp.height] at hr
  exact hp.lay_below h h' (root.height - 1 - r) r n b (by omega) hb

/-- A deletion that stays clear of the defects takes the item from its leaf and leaves no other leaf
changed. -/
lemma Sound.delete (h : Sound root lay m) (hkey : key < 2 ^ 32) {x : ι} (hx : m key = some x)
    {deleted : Bool} (hok : DeleteOk root m key deleted) :
    ∃ root' lay', radixTreeDelete root key deleted = some (root', some x) ∧
      Sound root' lay' (Function.update m key none) ∧ (∀ r n a, lay' r n = some a → lay r n = some a) ∧
      LeafDropped root root' lay key := by
  obtain ⟨root₁, lay₁, hdelete, hrep₁, hprunes, hleaf⟩ := delete_prunes h.rep h.maxKey h.low hkey hx hok
  obtain ⟨a, ha⟩ := h.rep.held key x hx
  have hpos : 0 < root₁.height := by
    have hr := (h.rep.bound _ _ _ ha).1
    rw [hprunes.height]
    omega
  obtain ⟨root', lay', hshrink, hrep', hshrinks, hmax⟩ := shrinkTree_spec hok.notOnlyZero hpos hrep₁
  have hsub : ∀ r n b, lay' r n = some b → lay r n = some b := fun r n b hb =>
    hprunes.lay_sub h.rep hrep₁ (hshrinks.sub r n b hb)
  refine ⟨root', lay', by rw [hdelete, hshrink]; rfl, ⟨hrep', ?_, hmax, fun r n b hb => ?_⟩, hsub,
    fun n b hb => ?_⟩
  · exact (hshrinks.height.trans hprunes.height.le).trans h.low
  · rw [hshrinks.nodes]
    exact hprunes.covered b (h.covered r n b (hsub r n b hb))
  · rw [hshrinks.nodes]
    exact hleaf n b hb

lemma LeafTags.delete {s : TagState ι} (h : LeafTags s lay) {x : ι} (hx : s.map key = some x)
    {deleted : Bool} (hok : DeleteOk s.tree s.map key deleted) :
    ∃ tree lay', radixTreeDelete s.tree key deleted = some (tree, some x) ∧
      LeafTags ⟨tree, Function.update s.map key none, Function.update s.tagged key false⟩ lay' := by
  have hkey : key < 2 ^ 32 := h.small key (by rw [hx]; exact Option.some_ne_none x)
  obtain ⟨tree, lay', hdelete, hsound, hsub, hleaf⟩ := h.sound.delete hkey hx hok
  refine ⟨tree, lay', hdelete, hsound, fun k hk => ?_, fun k hk => ?_, fun n b hb i hi => ?_⟩
  · have hkk : k ≠ key := by
      rintro rfl
      simp at hk
    exact h.small k (by simpa only [Function.update_of_ne hkk] using hk)
  · have hkk : k ≠ key := by
      rintro rfl
      simp at hk
    simp only [Function.update_of_ne hkk] at hk ⊢
    exact h.marked k hk
  · have hold := hsub 0 n b hb
    have hbit := h.leaf n b hold i hi
    rw [hleaf n b hold]
    by_cases hn : n = key / 64
    · rw [if_pos hn, RadixNode.dropChild, BitVec.getLsbD_and, BitVec.getLsbD_not, bit_getLsbD hi, hbit]
      by_cases hik : key % 64 = i
      · have hk : 64 * n + i = key := by omega
        simp [hik, hk]
      · have hk : 64 * n + i ≠ key := by omega
        simp [hik, hi, hk]
    · have hk : 64 * n + i ≠ key := by omega
      simp [if_neg hn, hbit, hk]

structure Stocked (root : Radix ι) (lay : Layout) (m : ℕ → Option ι) : Prop where
  grown : Grown root lay m
  small : ∀ k, m k ≠ none → k < 2 ^ 32
  busy : ∀ r n a, lay r n = some a → (root.nodes a).count ≠ 0

lemma exists_child {node : RadixNode ι} (hcounted : Counted node) (hcount : node.count ≠ 0) :
    ∃ i < 64, node.children i ≠ none := by
  have hcard : childCount node ≠ 0 := fun hzero => hcount (hcounted.trans hzero)
  obtain ⟨i, hi⟩ := Finset.card_ne_zero.mp hcard
  rw [Finset.mem_filter, Finset.mem_range, Option.isSome_iff_ne_none] at hi
  exact ⟨i, hi⟩

lemma only_child {node : RadixNode ι} (hcounted : Counted node) (hcount : node.count = 1) {i j : ℕ}
    (hi : i < 64) (hj : j < 64) (hchildI : node.children i ≠ none) (hchildJ : node.children j ≠ none) :
    i = j := by
  obtain ⟨c, hc⟩ := Finset.card_eq_one.mp (hcounted.symm.trans hcount)
  have hmem : ∀ k < 64, node.children k ≠ none → k = c := by
    intro k hk hchild
    have hin : k ∈ (Finset.range 64).filter fun i => (node.children i).isSome := by
      rw [Finset.mem_filter, Finset.mem_range, Option.isSome_iff_ne_none]
      exact ⟨hk, hchild⟩
    rwa [hc, Finset.mem_singleton] at hin
  rw [hmem i hi hchildI, hmem j hj hchildJ]

lemma Rep.kid_of_key (h : Rep root lay m) {r : ℕ} (hr : r < root.height) (hkey : m key ≠ none) :
    kid lay m r (key / 64 ^ (r + 1)) (key / 64 ^ r % 64) ≠ none := by
  have hblock : 64 * (key / 64 ^ (r + 1)) + key / 64 ^ r % 64 = key / 64 ^ r := by
    rw [pow_succ, ← Nat.div_div_eq_div_mul]
    exact Nat.div_add_mod _ _
  cases r with
  | zero =>
    rw [kid, hblock, pow_zero, Nat.div_one]
    simpa using hkey
  | succ r =>
    obtain ⟨a, ha⟩ := h.node_of_key hkey (show r < root.height by omega)
    rw [kid, hblock, ha]
    exact Option.some_ne_none _

namespace Stocked

section
variable (h : Stocked root lay m)
include h

lemma key_below : ∀ r n a, lay r n = some a → ∃ k, m k ≠ none ∧ k / 64 ^ (r + 1) = n := by
  intro r
  induction r with
  | zero =>
    intro n a ha
    obtain ⟨i, hi, hchild⟩ := exists_child (h.grown.rep.counted _ _ _ ha) (h.busy _ _ _ ha)
    rw [h.grown.rep.kids _ _ _ ha i hi, kid] at hchild
    refine ⟨64 * n + i, fun hnone => hchild (by rw [hnone]; rfl), ?_⟩
    rw [zero_add, pow_one]
    omega
  | succ r ih =>
    intro n a ha
    obtain ⟨i, hi, hchild⟩ := exists_child (h.grown.rep.counted _ _ _ ha) (h.busy _ _ _ ha)
    rw [h.grown.rep.kids _ _ _ ha i hi, kid] at hchild
    cases hl : lay r (64 * n + i) with
    | none => simp [hl] at hchild
    | some b =>
      obtain ⟨k, hk, hblock⟩ := ih _ b hl
      refine ⟨k, hk, ?_⟩
      rw [pow_succ, ← Nat.div_div_eq_div_mul, hblock]
      omega

lemma filled : Filled root lay m :=
  ⟨h.grown, fun r n a ha => .inr (h.key_below r n a ha), h.small⟩

lemma root_kept {k : ℕ} (hk : m k ≠ none) (hkey : m key ≠ none) (hne : k ≠ key) :
    freesRoot root key = false := by
  have hpos : 0 < root.height := by
    obtain ⟨x, hx⟩ := Option.ne_none_iff_exists'.mp hkey
    obtain ⟨a, ha⟩ := h.grown.rep.held key x hx
    exact (Nat.zero_le 0).trans_lt (h.grown.rep.bound _ _ _ ha).1
  obtain ⟨c, hroot, hc⟩ := h.grown.rep.top hpos
  have hpath : ∀ r a, lay r (key / 64 ^ (r + 1)) = some a → k / 64 ^ (r + 1) = key / 64 ^ (r + 1) →
      singlePath root key r a = false := by
    intro r
    induction r with
    | zero =>
      intro a ha hblock
      rw [singlePath, decide_eq_false_iff_not]
      intro hone
      have hslot : ∀ {j}, m j ≠ none → j / 64 ^ (0 + 1) = key / 64 ^ (0 + 1) →
          (root.nodes a).children (j / 64 ^ 0 % 64) ≠ none := by
        intro j hj hjn
        rw [h.grown.rep.kids _ _ _ ha _ (Nat.mod_lt _ (by decide)), ← hjn]
        exact h.grown.rep.kid_of_key hpos hj
      have heq := only_child (h.grown.rep.counted _ _ _ ha) hone (Nat.mod_lt _ (by decide))
        (Nat.mod_lt _ (by decide)) (hslot hk hblock) (hslot hkey rfl)
      rw [pow_zero, Nat.div_one, Nat.div_one] at heq
      rw [zero_add, pow_one] at hblock
      omega
    | succ r ih =>
      intro a ha hblock
      have hr := (h.grown.rep.bound _ _ _ ha).1
      rw [singlePath]
      by_cases hone : (root.nodes a).count = 1
      · have hslot : ∀ {j}, m j ≠ none → j / 64 ^ (r + 1 + 1) = key / 64 ^ (r + 1 + 1) →
            (root.nodes a).children (j / 64 ^ (r + 1) % 64) ≠ none := by
          intro j hj hjn
          rw [h.grown.rep.kids _ _ _ ha _ (Nat.mod_lt _ (by decide)), ← hjn]
          exact h.grown.rep.kid_of_key hr hj
        have heq := only_child (h.grown.rep.counted _ _ _ ha) hone (Nat.mod_lt _ (by decide))
          (Nat.mod_lt _ (by decide)) (hslot hk hblock) (hslot hkey rfl)
        have hsame : k / 64 ^ (r + 1) = key / 64 ^ (r + 1) := by
          rw [pow_succ 64 (r + 1), ← Nat.div_div_eq_div_mul, ← Nat.div_div_eq_div_mul] at hblock
          omega
        obtain ⟨b, hb⟩ := h.grown.rep.node_of_key hkey (show r < root.height by omega)
        rw [h.grown.rep.child_on_path ha, hb, Option.map_some]
        simp [ih b hb hsame]
      · simp [hone]
  have hblock : ∀ {j}, m j ≠ none → j / 64 ^ (root.height - 1 + 1) = 0 := by
    intro j hj
    have hlt := h.grown.rep.key_lt hj
    rw [Nat.sub_add_cancel hpos]
    exact Nat.div_eq_of_lt hlt
  rw [freesRoot, hroot, asNode]
  exact hpath _ c (by rw [hblock hkey, hc]) (by rw [hblock hk, hblock hkey])

lemma shrinkTree_same {k : ℕ} (hk : m k ≠ none) (htall : 64 ^ (root.height - 1) ≤ k) :
    shrinkTree root = some root := by
  have hlt := h.grown.rep.key_lt hk
  have hpos : 0 < root.height := by
    by_contra hzero
    have hheight : root.height = 0 := by omega
    rw [hheight, pow_zero] at hlt
    rw [hheight, Nat.zero_sub, pow_zero] at htall
    omega
  obtain ⟨c, hroot, hc⟩ := h.grown.rep.top hpos
  have hstop : ∀ fuel, shrinkLoop fuel root = some root := by
    intro fuel
    cases fuel with
    | zero => rfl
    | succ fuel =>
      by_cases hone : (root.nodes c).count = 1
      · have hslot := h.grown.rep.kid_of_key (show root.height - 1 < root.height by omega) hk
        rw [Nat.sub_add_cancel hpos, Nat.div_eq_of_lt hlt] at hslot
        have hindex : k / 64 ^ (root.height - 1) % 64 ≠ 0 := by
          have hpow : 64 ^ root.height = 64 ^ (root.height - 1) * 64 := by
            rw [← pow_succ, Nat.sub_add_cancel hpos]
          have hge := (Nat.one_le_div_iff (by positivity)).mpr htall
          have hsmall : k / 64 ^ (root.height - 1) < 64 :=
            Nat.div_lt_of_lt_mul (by rw [← hpow]; exact hlt)
          omega
        have hzero : (root.nodes c).children 0 = none := by
          by_contra hne
          have hchild : (root.nodes c).children (k / 64 ^ (root.height - 1) % 64) ≠ none := by
            rw [h.grown.rep.kids _ _ _ hc _ (Nat.mod_lt _ (by decide))]
            exact hslot
          exact hindex (only_child (h.grown.rep.counted _ _ _ hc) hone (Nat.mod_lt _ (by decide))
            (by decide) hchild hne)
        simp [shrinkLoop, hroot, asNode, hone, hzero]
      · simp [shrinkLoop, hroot, asNode, hone]
  rw [shrinkTree, hstop]
  simp [← h.grown.maxKey]

lemma leafCount_one (hkey : m key ≠ none) (honly : ∀ j, m j ≠ none → j ≠ key → j / 64 ≠ key / 64) :
    leafCount root key = some 1 := by
  obtain ⟨x, hx⟩ := Option.ne_none_iff_exists'.mp hkey
  obtain ⟨a, ha⟩ := h.grown.rep.held key x hx
  have hset : (Finset.range 64).filter (fun i => ((root.nodes a).children i).isSome) = {key % 64} := by
    ext i
    rw [Finset.mem_filter, Finset.mem_range, Finset.mem_singleton, Option.isSome_iff_ne_none]
    constructor
    · rintro ⟨hi, hchild⟩
      rw [h.grown.rep.kids _ _ _ ha i hi, kid] at hchild
      have hne : m (64 * (key / 64) + i) ≠ none := fun hnone => hchild (by rw [hnone]; rfl)
      by_contra hik
      exact honly _ hne (by omega) (by omega)
    · rintro rfl
      refine ⟨Nat.mod_lt _ (by decide), ?_⟩
      rw [h.grown.rep.leaf_slot ha, hx]
      exact Option.some_ne_none _
  have hcount : (root.nodes a).count = 1 := by
    rw [h.grown.rep.counted _ _ _ ha, childCount, hset, Finset.card_singleton]
  simp only [leafCount, radixItemInfoLookup_spec h.grown.rep h.grown.maxKey (h.small key hkey), ha,
    Option.map_some, Option.join_some, Option.bind_eq_bind, Option.bind_some, hcount]

lemma delete {x : ι} (hx : m key = some x) {k : ℕ} (hk : m k ≠ none) (hne : k ≠ key)
    (htall : 64 ^ (root.height - 1) ≤ k) {deleted : Bool}
    (hflag : deleted = true → root.height ≠ 1 → leafCount root key = some 1) :
    ∃ root' lay', radixTreeDelete root key deleted = some (root', some x) ∧
      Stocked root' lay' (Function.update m key none) ∧ root'.height = root.height := by
  have hkey : m key ≠ none := by rw [hx]; exact Option.some_ne_none x
  have hpos : k ≠ 0 := by
    have hone : 0 < 64 ^ (root.height - 1) := by positivity
    omega
  have hok : DeleteOk root m key deleted := by
    refine ⟨h.grown.rootParent, h.root_kept hk hkey hne, fun hzero => ?_, hflag⟩
    have hnone := hzero.2 k hpos
    rw [Function.update_of_ne hne] at hnone
    exact hk hnone
  obtain ⟨root₁, lay₁, hdelete, hrep, hprunes, -⟩ :=
    delete_prunes h.grown.rep h.grown.maxKey h.grown.low (h.small key hkey) hx hok
  have hsub : ∀ r n a, lay₁ r n = some a → lay r n = some a := fun _ _ _ ha =>
    hprunes.lay_sub h.grown.rep hrep ha
  have hstocked : Stocked root₁ lay₁ (Function.update m key none) := by
    refine ⟨⟨⟨hrep, ?_, ?_, ?_⟩, ?_⟩, ?_, ?_⟩
    · rw [hprunes.height]
      exact h.grown.low
    · rw [hprunes.maxKey, hprunes.height]
      exact h.grown.maxKey
    · exact fun r n a ha => hprunes.covered a (h.grown.covered r n a (hsub r n a ha))
    · intro c hc
      rw [hprunes.parent]
      exact h.grown.rootParent c (hprunes.rootNode ▸ hc)
    · intro j hj
      by_cases hjk : j = key
      · simp [hjk] at hj
      · rw [Function.update_of_ne hjk] at hj
        exact h.small j hj
    · exact fun r n a ha => hprunes.kept a (hrep.alive r n a ha) (h.busy r n a (hsub r n a ha))
  have hsame := hstocked.shrinkTree_same (k := k) (by rwa [Function.update_of_ne hne])
    (by rwa [hprunes.height])
  refine ⟨root₁, lay₁, ?_, hstocked, hprunes.height⟩
  rw [hdelete, hsame]
  rfl

end

end Stocked

structure Emptied (root : Radix ι) (c : ℕ) : Prop where
  rootNode : root.rootNode = some (.node c)
  pos : 0 < root.height
  maxKey : root.maxKey = maxKeyId root.height
  parent : (root.nodes c).parent = none
  count : (root.nodes c).count = 0
  children : ∀ i < 64, (root.nodes c).children i = none

/-- Where the walk up ends: an empty node at the top is the root, and it is freed. -/
lemma Rep.emptied {r a : ℕ} (h : Rep root lay m) (hroot : RootParentNull root)
    (hmax : root.maxKey = maxKeyId root.height) (ha : lay r (key / 64 ^ (r + 1)) = some a)
    (hr : ¬r + 1 < root.height) (hcount : (root.nodes a).count = 0) :
    (root.nodes a).parent = none ∧ Emptied (root.kmemFree a) a := by
  have hpar := h.parent_on_path hroot ha
  rw [if_neg hr] at hpar
  obtain ⟨hlt, hn⟩ := h.bound _ _ _ ha
  obtain ⟨c, hc, hlay⟩ := h.top (by omega)
  have hlevel : r = root.height - 1 := by omega
  rw [← hlevel, Nat.sub_self, pow_zero, Nat.lt_one_iff] at hn
  rw [← hlevel, ← hn, ha, Option.some.injEq] at hlay
  refine ⟨hpar, hlay ▸ hc, by change 0 < root.height; omega, hmax, hpar, hcount, fun i hi => ?_⟩
  rw [kmemFree_nodes, h.kids _ _ _ ha i hi]
  exact h.no_kids ha hcount hi

/-- The walk up from a node without children frees it and all nodes above it, if they are all there
is. -/
lemma removeUp_all (key : ℕ) : ∀ fuel r (root : Radix ι) lay a, root.height ≤ fuel + r + 1 →
    Rep root lay m → RootParentNull root → root.maxKey = maxKeyId root.height →
      (∀ r' n b, lay r' n = some b → r ≤ r' ∧ n = key / 64 ^ (r' + 1)) →
        lay r (key / 64 ^ (r + 1)) = some a → (root.nodes a).count = 0 →
          ∃ root' c, removeUp key fuel (root.kmemFree a) (root.nodes a).parent (r + 1) true =
            some root' ∧ Emptied root' c := by
  intro fuel
  induction fuel with
  | zero =>
    intro r root lay a hfuel h hroot hmax _ ha hcount
    obtain ⟨hpar, hemptied⟩ := h.emptied hroot hmax ha (by omega) hcount
    exact ⟨root.kmemFree a, a, by rw [hpar, removeUp], hemptied⟩
  | succ fuel ih =>
    intro r root lay a hfuel h hroot hmax honly ha hcount
    have hpar := h.parent_on_path hroot ha
    by_cases hr : r + 1 < root.height
    · obtain ⟨p, hp, hap⟩ := h.parents _ _ _ ha hr
      have hn : key / 64 ^ (r + 1) / 64 = key / 64 ^ (r + 2) := by
        rw [Nat.div_div_eq_div_mul, ← pow_succ]
      have hdrop := h.collapse ha hp hcount
      rw [← nextChild_eq] at hdrop
      rw [hn] at hp
      have hp₁ : lay.place r (key / 64 ^ (r + 1)) none (r + 1) (key / 64 ^ (r + 2)) = some p := by
        rw [Layout.place_of_ne _ _ (by omega), hp]
      have hroot₁ : RootParentNull (root.kmemFree a) := hroot
      have honly₁ : ∀ r' n b, lay.place r (key / 64 ^ (r + 1)) none r' n = some b →
          r + 1 ≤ r' ∧ n = key / 64 ^ (r' + 1) := by
        intro r' n b hb
        obtain ⟨hne, hl⟩ := Layout.place_none_eq_some hb
        obtain ⟨hle, hblock⟩ := honly r' n b hl
        refine ⟨?_, hblock⟩
        by_contra hlt
        obtain rfl : r' = r := by omega
        exact hne ⟨rfl, hblock⟩
      have hzero : (((root.kmemFree a).setNode p (·.dropChild (nextChild (r + 1) key))).nodes p).count =
          0 := by
        by_contra hne
        obtain ⟨i, hi, hchild⟩ := exists_child (hdrop.counted _ _ _ hp₁) hne
        rw [hdrop.kids _ _ _ hp₁ i hi, kid] at hchild
        cases hl : lay.place r (key / 64 ^ (r + 1)) none r (64 * (key / 64 ^ (r + 2)) + i) with
        | none => simp [hl] at hchild
        | some b =>
          have hle := (honly₁ r _ b hl).1
          omega
      obtain ⟨root', c, heq, hemptied⟩ := ih (r + 1) _ _ p (by simp only [setNode, kmemFree]; omega)
        hdrop (hroot₁.setNode rfl) hmax honly₁ hp₁ hzero
      refine ⟨root', c, ?_, hemptied⟩
      rw [setNode_nodes_self, kmemFree_nodes] at hzero heq
      have hcountP : wsub (root.nodes p).count 1 = 0 := hzero
      simpa [removeUp, hap, RadixNode.dropChild, hcountP] using heq
    · obtain ⟨hpar, hemptied⟩ := h.emptied hroot hmax ha hr hcount
      exact ⟨root.kmemFree a, a, by rw [hpar, removeUp], hemptied⟩

lemma Emptied.shrinkTree_same {c : ℕ} (h : Emptied root c) : shrinkTree root = some root := by
  obtain ⟨height, hheight⟩ : ∃ n, root.height = n + 1 := ⟨root.height - 1, by have := h.pos; omega⟩
  have hloop : shrinkLoop root.height root = some root := by
    rw [hheight]
    simp [shrinkLoop, h.rootNode, asNode, h.count]
  rw [shrinkTree, hloop]
  simp [← h.maxKey]

lemma Stocked.delete_last (h : Stocked root lay m) {x : ι} (hx : m key = some x)
    (honly : ∀ k, m k ≠ none → k = key) (deleted : Bool) :
    ∃ root' c, radixTreeDelete root key deleted = some (root', some x) ∧ Emptied root' c := by
  have hkey : key < 2 ^ 32 := h.small key (by rw [hx]; exact Option.some_ne_none x)
  obtain ⟨a, ha⟩ := h.grown.rep.held key x hx
  have hslot : (root.nodes a).children (key % 64) ≠ none := by
    rw [h.grown.rep.leaf_slot ha, hx]
    exact Option.some_ne_none _
  have hcounted := (h.grown.rep.counted _ _ _ ha).dropChild (Nat.mod_lt _ (by decide)) hslot
  have h₁ := h.grown.rep.set_item (f := (·.dropChild (key % 64))) ha none rfl hcounted rfl
  have hpath : ∀ r n b, lay r n = some b → 0 ≤ r ∧ n = key / 64 ^ (r + 1) := by
    intro r n b hb
    obtain ⟨k, hk, hblock⟩ := h.key_below r n b hb
    exact ⟨Nat.zero_le r, by rw [← hblock, honly k hk]⟩
  have hzero : ((root.setNode a (·.dropChild (key % 64))).nodes a).count = 0 := by
    by_contra hne
    obtain ⟨i, hi, hchild⟩ := exists_child (h₁.counted _ _ _ ha) hne
    rw [h₁.kids _ _ _ ha i hi, kid] at hchild
    by_cases hik : 64 * (key / 64) + i = key
    · simp [hik] at hchild
    · rw [Function.update_of_ne hik] at hchild
      refine hik (honly _ fun hnone => hchild ?_)
      rw [hnone]
      rfl
  have hfuel : root.height ≤ walkBound + 0 + 1 := by
    have hlow := h.grown.low
    change root.height ≤ 17
    omega
  obtain ⟨root', c, hup, hemptied⟩ := removeUp_all key walkBound 0
    (root.setNode a (·.dropChild (key % 64))) lay a hfuel h₁ (h.grown.rootParent.setNode rfl)
    h.grown.maxKey hpath (by rwa [zero_add, pow_one]) hzero
  refine ⟨root', c, ?_, hemptied⟩
  simp only [radixTreeDelete, radixItemInfoLookup_spec h.grown.rep h.grown.maxKey hkey, ha,
    Option.map_some, Option.bind_eq_bind, Option.bind_some, h.grown.rep.leaf_slot ha, hx, asItem,
    radixTreeRemoveItem, hzero, decide_true, Bool.true_or, if_true, hup, hemptied.shrinkTree_same]

lemma Emptied.walk {c : ℕ} (h : Emptied root c) (level : ℕ) (order : ℕ → ℕ) :
    ∀ d o, o + d = 64 → Walk root ⟨c, level, o, order⟩ [] := by
  intro d
  induction d using Nat.strong_induction_on with
  | _ d ih =>
    intro o ho
    by_cases hend : o = 64
    · refine .stop ?_
      simp [gangStep, hend, h.parent]
    · obtain ⟨hlo, hhi, -⟩ := nextSet_spec (root.nodes c) (show o < 64 by omega)
      have hstep : gangStep root ⟨c, level, o, order⟩ =
          some (some (⟨c, level, nextSet (root.nodes c) o, order⟩, none)) := by
        simp [gangStep, hend, h.children o (by omega)]
      exact .next hstep (ih (64 - nextSet (root.nodes c) o) (by omega) _ (by omega))

lemma Emptied.gangLookup_nil {c : ℕ} (h : Emptied root c) (maxItems : ℕ) (childOrder : ℕ → ℕ) :
    ∃ n, ∀ fuel, n ≤ fuel → radixTreeGangLookup root 0 maxItems childOrder fuel = some [] := by
  by_cases hmax : maxItems = 0
  · exact ⟨0, fun fuel _ => by simp [radixTreeGangLookup, hmax]⟩
  · have hslot : ∀ level, nextChild level 0 = 0 := fun level => by
      rw [nextChild_eq, Nat.zero_div]
    obtain ⟨order, hdown⟩ : ∃ order, gangDown root 0 (root.height - 1) c childOrder =
        some ⟨c, root.height - 1, 0, order⟩ := by
      cases root.height - 1 with
      | zero => exact ⟨_, by rw [gangDown, hslot]⟩
      | succ level => exact ⟨_, by rw [gangDown, hslot, h.children 0 (by decide)]⟩
    have hfirst : gangFirst root ⟨c, root.height - 1, 0, order⟩ = some none := by
      rw [gangFirst, h.children 0 (by decide)]
      split_ifs <;> rfl
    obtain ⟨n, hn⟩ := gangLoop_walk (h.walk (root.height - 1)
      (Function.update order (root.height - 1) 1) 63 1 rfl) maxItems
    refine ⟨n, fun fuel hfuel => ?_⟩
    have hcond : ¬(root.rootNode.isNone ∨ root.maxKey < 0 ∨ maxItems = 0) := by
      simp [h.rootNode, hmax]
    rw [radixTreeGangLookup, if_neg hcond]
    simp only [h.rootNode, asNode, Option.bind_eq_bind, Option.bind_some, hdown, hfirst,
      Option.toList_none, Nat.zero_add]
    rw [hn fuel hfuel [] (Nat.zero_le _), List.take_nil, List.append_nil]

lemma expandLoop_tall (hkey : key < 2 ^ 32) : ∀ fuel (root : Radix ι) lay allocs,
    7 ≤ fuel + root.height → Sound root lay m → Fresh root allocs →
      ∀ root' out allocs', expandLoop key fuel root allocs = some (root', out, allocs') →
        root'.height = root.height ∨ root'.height = 1 ∨ 64 ^ (root'.height - 1) ≤ key := by
  intro fuel
  induction fuel with
  | zero =>
    intro root lay allocs hfuel h
    have hlow := h.low
    omega
  | succ fuel ih =>
    intro root lay allocs hfuel h hfresh root' out allocs' heq
    by_cases hgrow : root.height = 0 ∨ root.maxKey < key
    · have hlow : root.height ≤ 5 := by
        have hle := h.low
        by_contra h6
        have h6' : root.height = 6 := by omega
        have hmax := h.maxKey
        rw [h6', maxKeyId, if_pos rfl] at hmax
        omega
      cases allocs with
      | nil =>
        left
        simp only [expandLoop, if_pos hgrow, expandTree, Option.bind_eq_bind, Option.bind_some,
          eNOMEM] at heq
        simp only [ne_eq, reduceCtorEq, not_false_eq_true, if_true, Option.some.injEq,
          Prod.mk.injEq] at heq
        rw [← heq.1]
      | cons a allocs =>
        obtain ⟨root₁, hexpand, hheight, hlive, hgrown, -⟩ :=
          h.expand hlow (hfresh.2 a List.mem_cons_self) allocs key
        have hrest : expandLoop key fuel root₁ allocs = some (root', out, allocs') := by
          rw [← heq]
          simp [expandLoop, hgrow, hexpand]
        obtain hsame | hone | hge :=
          ih root₁ _ allocs (by omega) hgrown.toSound (hfresh.tail hlive) _ _ _ hrest
        · obtain hzero | hlt := hgrow
          · exact .inr (.inl (by omega))
          · refine .inr (.inr ?_)
            have hbelow : ¬key < 64 ^ root.height := by
              rw [← le_maxKeyId_iff hkey, ← h.maxKey]
              omega
            rw [hsame, hheight, Nat.add_sub_cancel]
            omega
        · exact .inr (.inl hone)
        · exact .inr (.inr hge)
    · left
      simp only [expandLoop, if_neg hgrow, Option.some.injEq, Prod.mk.injEq] at heq
      rw [← heq.1]

lemma Grown.insert_tall (h : Grown root lay m) (hkey : key < 2 ^ 32) {item : ι} {allocs : List ℕ}
    (hfresh : Fresh root allocs) (heq : radixTreeInsert root key item allocs = some (root', 0)) :
    root'.height = root.height ∨ root'.height = 1 ∨ 64 ^ (root'.height - 1) ≤ key := by
  have hfuel : 7 ≤ expandBound + root.height := by
    unfold expandBound
    omega
  obtain ⟨root₁, lay₁, out, allocs₁, hexp, hsound₁, -, -, hfresh₁, -, hout⟩ :=
    expandLoop_sound hkey expandBound root lay allocs hfuel h.toSound hfresh
  have htall := expandLoop_tall hkey expandBound root lay allocs hfuel h.toSound hfresh _ _ _ hexp
  obtain ⟨rfl, hpos, hlt⟩ | rfl := hout
  · obtain ⟨c, hroot, hc⟩ := hsound₁.rep.top hpos
    have hblock : key / 64 ^ (root₁.height - 1 + 1) = 0 := by
      rw [Nat.sub_add_cancel hpos]
      exact Nat.div_eq_of_lt hlt
    obtain ⟨root₂, lay₂, res, hdown, -, -, -, hheight, -⟩ :=
      insertDown_sound key (root₁.height - 1) root₁ lay₁ c allocs₁ hsound₁ (by rw [hblock, hc]) hfresh₁
    have hsame : root'.height = root₁.height := by
      cases res with
      | error err =>
        simp only [radixTreeInsert, hexp, hroot, asNode, hdown, Option.bind_eq_bind, Option.bind_some,
          ne_eq, not_true_eq_false, if_false, Option.some.injEq, Prod.mk.injEq] at heq
        rw [← heq.1, hheight]
      | ok leaf =>
        simp only [radixTreeInsert, hexp, hroot, asNode, hdown, Option.bind_eq_bind, Option.bind_some,
          ne_eq, not_true_eq_false, if_false] at heq
        split_ifs at heq
        · simp only [Option.some.injEq, Prod.mk.injEq] at heq
          rw [← heq.1, hheight]
        · simp only [Option.some.injEq, Prod.mk.injEq] at heq
          rw [← heq.1]
          exact hheight
    rwa [hsame]
  · simp [radixTreeInsert, hexp, eNOMEM] at heq

end Almos.Radix
