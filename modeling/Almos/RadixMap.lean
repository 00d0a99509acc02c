import Almos.RadixRep

/-!
# The radix tree as a finite map

Lookup, insertion and deletion against the map of items. Deletion is right only
where the defects of the source stay out of reach: see `DeleteOk`.
-/
namespace Almos.Radix
open Word

variable {ι : Type} {root : Radix ι} {lay : Layout} {m : ℕ → Option ι}

structure Inv (root : Radix ι) (m : ℕ → Option ι) : Prop where
  rep : ∃ lay, Rep root lay m
  low : root.height ≤ 6
  maxKey : root.maxKey = maxKeyId root.height

theorem maxKeyId_eq {height : ℕ} (h : height ≠ 6) : maxKeyId height = 64 ^ height - 1 := by
  rw [maxKeyId, if_neg h, Nat.mul_comm, pow_mul]
  rfl

theorem le_maxKeyId_iff {height key : ℕ} (hkey : key < 2 ^ 32) :
    key ≤ maxKeyId height ↔ key < 64 ^ height := by
  by_cases h : height = 6
  · subst h
    simp only [maxKeyId, if_pos]
    omega
  · have hpos : 0 < 64 ^ height := by positivity
    rw [maxKeyId_eq h]
    omega

theorem Rep.no_leaf (h : Rep root lay m) (key : ℕ) :
    ∀ r, r < root.height → lay r (key / 64 ^ (r + 1)) = none → lay 0 (key / 64) = none := by
  intro r
  induction r with
  | zero => simp
  | succ r ih =>
    intro hr hnone
    refine ih (by omega) ?_
    cases hl : lay r (key / 64 ^ (r + 1)) with
    | none => rfl
    | some b =>
      obtain ⟨p, hp, -⟩ := h.parents _ _ _ hl hr
      rw [Nat.div_div_eq_div_mul, ← pow_succ] at hp
      simp [hnone] at hp

theorem Rep.child_on_path (h : Rep root lay m) {key r a : ℕ}
    (ha : lay (r + 1) (key / 64 ^ (r + 2)) = some a) :
    (root.nodes a).children (nextChild (r + 1) key) =
      (lay r (key / 64 ^ (r + 1))).map .node := by
  rw [h.kids _ _ _ ha _ (nextChild_lt _ _), kid, nextChild_eq, block_succ]

theorem descend_spec (h : Rep root lay m) (key : ℕ) :
    ∀ r a, lay r (key / 64 ^ (r + 1)) = some a →
      descend root key r a = some (lay 0 (key / 64)) := by
  intro r
  induction r with
  | zero =>
    intro a ha
    rw [zero_add, pow_one] at ha
    simp [descend, ha]
  | succ r ih =>
    intro a ha
    have hr := (h.bound _ _ _ ha).1
    cases hl : lay r (key / 64 ^ (r + 1)) with
    | none => simp [descend, h.child_on_path ha, hl, h.no_leaf key r (by omega) hl]
    | some b => simp [descend, h.child_on_path ha, hl, ih b hl]

theorem radixItemInfoLookup_spec (h : Rep root lay m) (hmax : root.maxKey = maxKeyId root.height)
    {key : ℕ} (hkey : key < 2 ^ 32) :
    radixItemInfoLookup root key =
      some ((lay 0 (key / 64)).map fun a => ⟨a, key, key % 64⟩) := by
  have hindex : nextChild 0 key = key % 64 := by simp [nextChild_eq]
  by_cases hh : root.height = 0
  · have hnone : lay 0 (key / 64) = none := by
      cases hl : lay 0 (key / 64) with
      | none => rfl
      | some b =>
        have := (h.bound _ _ _ hl).1
        omega
    simp [radixItemInfoLookup, h.empty hh, hnone]
  · obtain ⟨c, hroot, hc⟩ := h.top (by omega)
    have hsub : root.height - 1 + 1 = root.height := by omega
    by_cases hle : key ≤ root.maxKey
    · have hblock : key / 64 ^ (root.height - 1 + 1) = 0 := by
        rw [hsub]
        exact Nat.div_eq_of_lt ((le_maxKeyId_iff hkey).mp (hmax ▸ hle))
      have hd := descend_spec h key (root.height - 1) c (by rw [hblock, hc])
      simp [radixItemInfoLookup, hroot, Nat.not_lt.mpr hle, asNode, hd, hindex]
    · have hnone : lay 0 (key / 64) = none := by
        cases hl : lay 0 (key / 64) with
        | none => rfl
        | some b =>
          have hb := (h.bound _ _ _ hl).2
          have hlt : key < 64 ^ root.height := by
            rw [← hsub, pow_succ]
            rw [Nat.sub_zero] at hb
            omega
          exact absurd ((le_maxKeyId_iff hkey).mpr hlt) (hmax ▸ hle)
      simp [radixItemInfoLookup, hroot, Nat.lt_of_not_le hle, hnone]

theorem Rep.leaf_slot (h : Rep root lay m) {key a : ℕ} (ha : lay 0 (key / 64) = some a) :
    (root.nodes a).children (key % 64) = (m key).map .item := by
  rw [h.kids _ _ _ ha _ (by omega), kid, Nat.div_add_mod]

theorem asItem_map (v : Option ι) : asItem (v.map .item) = some v := by cases v <;> rfl

theorem Counted.setItem {node : RadixNode ι} {i : ℕ} (h : Counted node) (hi : node.children i ≠ none)
    (item : ι) : Counted (node.setItem i item) := by
  rw [Counted, childCount]
  refine h.trans ?_
  rw [childCount]
  refine congrArg Finset.card (Finset.filter_congr fun j _ => ?_)
  by_cases hj : j = i
  · subst hj
    simp [RadixNode.setItem, Option.isSome_iff_ne_none, hi]
  · simp [RadixNode.setItem, hj]

theorem Rep.infoLookup (h : Rep root lay m) (hmax : root.maxKey = maxKeyId root.height) {key : ℕ}
    (hkey : key < 2 ^ 32) (hm : m key ≠ none) :
    ∃ a, lay 0 (key / 64) = some a ∧
      radixItemInfoLookup root key = some (some ⟨a, key, key % 64⟩) := by
  obtain ⟨x, hx⟩ := Option.ne_none_iff_exists'.mp hm
  obtain ⟨a, ha⟩ := h.held key x hx
  exact ⟨a, ha, by rw [radixItemInfoLookup_spec h hmax hkey, ha]; rfl⟩

theorem Rep.infoSet (h : Rep root lay m) {key a : ℕ} (ha : lay 0 (key / 64) = some a)
    (hm : m key ≠ none) (item : ι) :
    Rep (radixItemInfoSet root ⟨a, key, key % 64⟩ item) lay (Function.update m key (some item)) := by
  have hslot : (root.nodes a).children (key % 64) ≠ none := by
    rw [h.leaf_slot ha, ne_eq, Option.map_eq_none_iff]
    exact hm
  exact h.set_item (f := (·.setItem (key % 64) item)) ha (some item) rfl
    ((h.counted _ _ _ ha).setItem hslot item) rfl

theorem radixTreeLookup_spec (h : Inv root m) {key : ℕ} (hkey : key < 2 ^ 32) :
    radixTreeLookup root key = some (m key) := by
  obtain ⟨lay, hrep⟩ := h.rep
  rw [radixTreeLookup, radixItemInfoLookup_spec hrep h.maxKey hkey]
  cases hl : lay 0 (key / 64) with
  | none =>
    have hm : m key = none := by
      cases hm : m key with
      | none => rfl
      | some x =>
        obtain ⟨a, ha⟩ := hrep.held key x hm
        simp [hl] at ha
    simp [hm]
  | some a => simp [hrep.leaf_slot hl, asItem_map]

/-- Addresses that `kmem_alloc` may deliver: distinct and not in use. -/
def Fresh (root : Radix ι) (allocs : List ℕ) : Prop :=
  allocs.Nodup ∧ ∀ a ∈ allocs, root.live a = false

theorem Fresh.tail {root' : Radix ι} {a : ℕ} {allocs : List ℕ} (h : Fresh root (a :: allocs))
    (hlive : root'.live = Function.update root.live a true) : Fresh root' allocs := by
  obtain ⟨hnodup, hfree⟩ := h
  obtain ⟨hmem, hnodup⟩ := List.nodup_cons.mp hnodup
  refine ⟨hnodup, ?_⟩
  intro b hb
  have hne : b ≠ a := by
    rintro rfl
    exact hmem hb
  rw [hlive, Function.update_of_ne hne]
  exact hfree b (List.mem_cons_of_mem _ hb)

/-- The expansion loop ends with a tree tall enough for the key, or short of memory. -/
theorem expandLoop_spec {key : ℕ} (hkey : key < 2 ^ 32) :
    ∀ fuel (root : Radix ι) allocs, 7 ≤ fuel + root.height → Inv root m → Fresh root allocs →
      ∃ root' out allocs', expandLoop key fuel root allocs = some (root', out, allocs') ∧
        Inv root' m ∧ Fresh root' allocs' ∧
        (out = 0 ∧ 0 < root'.height ∧ key < 64 ^ root'.height ∧
            allocs'.length + root'.height = allocs.length + root.height ∨
          out = -eNOMEM ∧ allocs.length + root.height ≤ 5) := by
  intro fuel
  induction fuel with
  | zero =>
    intro root allocs hfuel h
    have := h.low
    omega
  | succ fuel ih =>
    intro root allocs hfuel h hfresh
    by_cases hgrow : root.height = 0 ∨ root.maxKey < key
    · have hlow : root.height ≤ 5 := by
        have hle := h.low
        by_contra h6
        have h6' : root.height = 6 := by omega
        have hm := h.maxKey
        rw [h6', maxKeyId, if_pos rfl] at hm
        omega
      cases allocs with
      | nil => exact ⟨root, -eNOMEM, [], by simp [expandLoop, hgrow, expandTree, eNOMEM], h, hfresh,
          .inr ⟨rfl, by simpa using hlow⟩⟩
      | cons a allocs =>
        obtain ⟨lay, hrep⟩ := h.rep
        obtain ⟨root₁, heq, hrep₁, hheight, hmax, hlive, -, -⟩ :=
          hrep.expand (hfresh.2 a (by simp)) allocs
        have h₁ : Inv root₁ m := ⟨⟨_, hrep₁⟩, by omega, by rw [hmax, hheight]⟩
        obtain ⟨root', out, allocs', hloop, hinv, hfr, hout⟩ :=
          ih root₁ allocs (by omega) h₁ (hfresh.tail hlive)
        refine ⟨root', out, allocs', ?_, hinv, hfr, ?_⟩
        · simp [expandLoop, hgrow, heq, hloop]
        · obtain ⟨ho, hpos, hlt, hlen⟩ | ⟨ho, hlen⟩ := hout
          · left
            refine ⟨ho, hpos, hlt, ?_⟩
            rw [hlen, hheight, List.length_cons]
            omega
          · right
            rw [List.length_cons]
            exact ⟨ho, by omega⟩
    · have hcond : 0 < root.height ∧ key ≤ root.maxKey := by omega
      refine ⟨root, 0, allocs, by simp [expandLoop, hgrow], h, hfresh, .inl ⟨rfl, hcond.1, ?_, rfl⟩⟩
      exact (le_maxKeyId_iff hkey).mp (h.maxKey ▸ hcond.2)

/-- The way down of an insertion ends at the leaf of the key, or short of memory. -/
theorem insertDown_spec (key : ℕ) :
    ∀ r (root : Radix ι) lay cur allocs, Rep root lay m → lay r (key / 64 ^ (r + 1)) = some cur →
      Fresh root allocs →
      ∃ root' lay' res, insertDown key r root cur allocs = some (root', res) ∧ Rep root' lay' m ∧
        root'.height = root.height ∧ root'.maxKey = root.maxKey ∧
        ((∃ leaf, res = .ok leaf ∧ lay' 0 (key / 64) = some leaf) ∨
          res = .error (-eNOMEM) ∧ allocs.length < r) := by
  intro r
  induction r with
  | zero =>
    intro root lay cur allocs h hcur _
    rw [zero_add, pow_one] at hcur
    exact ⟨root, lay, .ok cur, rfl, h, rfl, rfl, .inl ⟨cur, rfl, hcur⟩⟩
  | succ r ih =>
    intro root lay cur allocs h hcur hfresh
    have hchild := h.child_on_path hcur
    cases hl : lay r (key / 64 ^ (r + 1)) with
    | some b =>
      rw [hl, Option.map_some] at hchild
      obtain ⟨root', lay', res, heq, hrep, hheight, hmax, hres⟩ := ih root lay b allocs h hl hfresh
      refine ⟨root', lay', res, ?_, hrep, hheight, hmax, ?_⟩
      · simp [insertDown, hchild, asNode, heq]
      · obtain hok | ⟨herr, hlen⟩ := hres
        · exact .inl hok
        · exact .inr ⟨herr, by omega⟩
    | none =>
      rw [hl, Option.map_none] at hchild
      cases allocs with
      | nil =>
        refine ⟨root, lay, .error (-eNOMEM), ?_, h, rfl, rfl, .inr ⟨rfl, by simp⟩⟩
        simp [insertDown, hchild, createNode, eNOMEM]
      | cons a allocs =>
        have hblock : 64 * (key / 64 ^ (r + 2)) + nextChild (r + 1) key = key / 64 ^ (r + 1) := by
          rw [nextChild_eq, block_succ]
        have hrep₁ := h.create hcur (nextChild_lt _ _) (hblock ▸ hl) (hfresh.2 a (by simp)) allocs
        rw [hblock] at hrep₁
        have hnew := Layout.place_self lay r (key / 64 ^ (r + 1)) (some a)
        have hcur₁ : lay.place r (key / 64 ^ (r + 1)) (some a) (r + 1) (key / 64 ^ (r + 2)) =
            some cur := by
          rw [Layout.place_of_ne _ _ (by omega), hcur]
        have hchild₁ := hrep₁.child_on_path hcur₁
        rw [hnew, Option.map_some] at hchild₁
        obtain ⟨root', lay', res, heq, hrep, hheight, hmax, hres⟩ :=
          ih _ _ a allocs hrep₁ hnew (hfresh.tail rfl)
        refine ⟨root', lay', res, ?_, hrep, hheight, hmax, ?_⟩
        · simp only [insertDown, hchild, Option.isNone_none, if_true]
          have herr : (createNode root cur (nextChild (r + 1) key) (a :: allocs)).2 =
            (0, allocs) := rfl
          simp [hchild₁, asNode, heq, herr]
        · obtain hok | ⟨herr, hlen⟩ := hres
          · exact .inl hok
          · exact .inr ⟨herr, by simp only [List.length_cons]; omega⟩

def insertNodes : ℕ := 11

theorem radixTreeInsert_spec (h : Inv root m) {key : ℕ} (hkey : key < 2 ^ 32) (item : ι)
    {allocs : List ℕ} (hfresh : Fresh root allocs) :
    ∃ root' out, radixTreeInsert root key item allocs = some (root', out) ∧
      (out = 0 ∧ m key = none ∧ Inv root' (Function.update m key (some item)) ∨
        out = -eEXIST ∧ m key ≠ none ∧ Inv root' m ∨
        out = -eNOMEM ∧ allocs.length < insertNodes ∧ Inv root' m) := by
  obtain ⟨root₁, out, allocs₁, hexp, hinv₁, hfr₁, hout⟩ :=
    expandLoop_spec hkey expandBound root allocs (by unfold expandBound; omega) h hfresh
  obtain ⟨rfl, hpos, hlt, hlen⟩ | ⟨rfl, hlen⟩ := hout
  · obtain ⟨lay, hrep⟩ := hinv₁.rep
    obtain ⟨c, hroot, hc⟩ := hrep.top hpos
    have hsub : root₁.height - 1 + 1 = root₁.height := by omega
    have hblock : key / 64 ^ (root₁.height - 1 + 1) = 0 := by
      rw [hsub]
      exact Nat.div_eq_of_lt hlt
    obtain ⟨root₂, lay₂, res, hdown, hrep₂, hheight, hmax, hres⟩ :=
      insertDown_spec key (root₁.height - 1) root₁ lay c allocs₁ hrep (by rw [hblock, hc]) hfr₁
    have hinv₂ : Inv root₂ m :=
      ⟨⟨lay₂, hrep₂⟩, by rw [hheight]; exact hinv₁.low, by rw [hmax, hheight]; exact hinv₁.maxKey⟩
    have hindex : nextChild 0 key = key % 64 := by simp [nextChild_eq]
    obtain ⟨leaf, rfl, hleaf⟩ | ⟨rfl, hshort⟩ := hres
    · have hslot := hrep₂.leaf_slot hleaf
      cases hm : m key with
      | some x =>
        rw [hm, Option.map_some] at hslot
        refine ⟨root₂, -eEXIST, ?_, .inr (.inl ⟨rfl, by simp, hinv₂⟩)⟩
        simp [radixTreeInsert, hexp, hroot, asNode, hdown, hindex, hslot]
      | none =>
        rw [hm, Option.map_none] at hslot
        refine ⟨root₂.setNode leaf (·.addChild (key % 64) (.item item)), 0, ?_,
          .inl ⟨rfl, rfl, ?_⟩⟩
        · simp [radixTreeInsert, hexp, hroot, asNode, hdown, hindex, hslot]
        · have hcount := (hrep₂.counted _ _ _ hleaf).addChild (.item item) (by omega) hslot
          exact ⟨⟨lay₂, hrep₂.set_item hleaf (some item) rfl hcount rfl⟩, hinv₂.low, hinv₂.maxKey⟩
    · refine ⟨root₂, -eNOMEM, ?_, .inr (.inr ⟨rfl, ?_, hinv₂⟩)⟩
      · simp [radixTreeInsert, hexp, hroot, asNode, hdown]
      · have hlow := hinv₁.low
        unfold insertNodes
        omega
  · refine ⟨root₁, -eNOMEM, ?_, .inr (.inr ⟨rfl, ?_, hinv₁⟩)⟩
    · simp [radixTreeInsert, hexp, eNOMEM]
    · unfold insertNodes
      omega

/-- The root has no parent. Shrinking leaves the old parent in the new root. -/
def RootParentNull (root : Radix ι) : Prop :=
  ∀ c, root.rootNode = some (.node c) → (root.nodes c).parent = none

theorem RootParentNull.setNode (h : RootParentNull root) {a : ℕ}
    {f : RadixNode ι → RadixNode ι} (hf : (f (root.nodes a)).parent = (root.nodes a).parent) :
    RootParentNull (root.setNode a f) := by
  intro c hc
  by_cases hca : c = a
  · subst hca
    rw [setNode_nodes_self, hf]
    exact h c hc
  · rw [setNode_nodes_of_ne _ _ hca]
    exact h c hc

theorem Rep.parent_on_path (h : Rep root lay m) (hroot : RootParentNull root) {key r a : ℕ}
    (ha : lay r (key / 64 ^ (r + 1)) = some a) :
    (root.nodes a).parent = if r + 1 < root.height then lay (r + 1) (key / 64 ^ (r + 2)) else none := by
  by_cases hr : r + 1 < root.height
  · obtain ⟨p, hp, hap⟩ := h.parents _ _ _ ha hr
    rw [Nat.div_div_eq_div_mul, ← pow_succ] at hp
    rw [if_pos hr, hp, hap]
  · obtain ⟨hlt, hn⟩ := h.bound _ _ _ ha
    obtain ⟨c, hc, hlc⟩ := h.top (by omega)
    have hlevel : root.height - 1 = r := by omega
    rw [hlevel, Nat.sub_self, pow_zero, Nat.lt_one_iff] at hn
    rw [hlevel] at hlc
    rw [hn, hlc, Option.some.injEq] at ha
    rw [if_neg hr, ← ha]
    exact hroot c hc

/-- Some node above level `r` on the way of the key has another child. -/
def Shared (root : Radix ι) (lay : Layout) (key r : ℕ) : Prop :=
  ∃ r' b, r < r' ∧ lay r' (key / 64 ^ (r' + 1)) = some b ∧ (root.nodes b).count ≠ 1

/-- The walk up from the node of level `r`, either with that node kept or with it freed
because it had no child left. -/
theorem removeUp_spec (key : ℕ) :
    ∀ fuel r (root : Radix ι) lay a, root.height ≤ fuel + r + 1 → Rep root lay m →
      RootParentNull root → lay r (key / 64 ^ (r + 1)) = some a →
      (∃ root' lay', removeUp key fuel root (root.nodes a).parent (r + 1) false = some root' ∧
        Rep root' lay' m ∧ root'.height = root.height) ∧
      ((root.nodes a).count = 0 → Shared root lay key r →
        ∃ root' lay', removeUp key fuel (root.kmemFree a) (root.nodes a).parent (r + 1) true =
            some root' ∧ Rep root' lay' m ∧ root'.height = root.height) := by
  intro fuel
  induction fuel with
  | zero =>
    intro r root lay a hfuel h hroot ha
    have hpar := h.parent_on_path hroot ha
    rw [if_neg (by omega)] at hpar
    refine ⟨⟨root, lay, by simp [removeUp, hpar], h, rfl⟩, ?_⟩
    rintro - ⟨r', b, hr', hb, -⟩
    have := (h.bound _ _ _ hb).1
    omega
  | succ fuel ih =>
    intro r root lay a hfuel h hroot ha
    have hpar := h.parent_on_path hroot ha
    by_cases hr : r + 1 < root.height
    · obtain ⟨p, hp, hap⟩ := h.parents _ _ _ ha hr
      rw [Nat.div_div_eq_div_mul, ← pow_succ] at hp
      have hchild := h.child_on_path hp
      rw [ha, Option.map_some] at hchild
      have hslot : nextChild (r + 1) key < 64 := nextChild_lt _ _
      refine ⟨?_, ?_⟩
      · -- the child stays: only its tag is passed on
        let tag : Bool := (root.nodes a).tags ≠ 0
        have htag : Rep (root.setNode p (·.setTag (nextChild (r + 1) key) tag)) lay m :=
          h.congr_nodes rfl rfl rfl
        have hcount : (root.nodes p).count ≠ 0 := h.count_ne_zero hp hslot (by simp [hchild])
        obtain ⟨⟨root', lay', heq, hrep, hheight⟩, -⟩ :=
          ih (r + 1) _ lay p (by simp only [setNode]; omega) htag (hroot.setNode rfl) hp
        refine ⟨root', lay', ?_, hrep, hheight⟩
        rw [setNode_nodes_self] at heq
        simpa [removeUp, hap, hchild, asNode, RadixNode.setTag, hcount, tag] using heq
      · intro hz hshared
        have hn : key / 64 ^ (r + 1) / 64 = key / 64 ^ (r + 2) := by
          rw [Nat.div_div_eq_div_mul, ← pow_succ]
        have hpa : p ≠ a := by
          rintro rfl
          have := h.inj _ _ _ _ _ hp ha
          omega
        have hdrop := h.collapse ha (hn ▸ hp) hz
        rw [← nextChild_eq] at hdrop
        have hp₁ : lay.place r (key / 64 ^ (r + 1)) none (r + 1) (key / 64 ^ (r + 2)) = some p := by
          rw [Layout.place_of_ne _ _ (by omega), hp]
        have hroot₁ : RootParentNull (root.kmemFree a) := hroot
        obtain ⟨hkept, hfreed⟩ := ih (r + 1) _ _ p (by simp only [setNode, kmemFree]; omega)
          hdrop (hroot₁.setNode rfl) hp₁
        rw [setNode_nodes_self, kmemFree_nodes] at hkept hfreed
        by_cases hzero : wsub (root.nodes p).count 1 = 0
        · have hone : (root.nodes p).count = 1 := by
            have hc := h.counted _ _ _ hp
            have hle := childCount_le (root.nodes p)
            have hne := h.count_ne_zero hp hslot (by simp [hchild])
            unfold Counted at hc
            rw [wsub_of_le (by omega) (by omega)] at hzero
            omega
          have hshared₁ : Shared ((root.kmemFree a).setNode p (·.dropChild (nextChild (r + 1) key)))
              (lay.place r (key / 64 ^ (r + 1)) none) key (r + 1) := by
            obtain ⟨r', b, hr', hb, hcb⟩ := hshared
            have hne : r' ≠ r + 1 := by
              rintro rfl
              obtain rfl : b = p := Option.some.inj (hb.symm.trans hp)
              exact hcb hone
            have hbp : b ≠ p := by
              rintro rfl
              have := h.inj _ _ _ _ _ hb hp
              omega
            refine ⟨r', b, by omega, ?_, ?_⟩
            · rw [Layout.place_of_ne _ _ (by omega), hb]
            · rw [setNode_nodes_of_ne _ _ hbp]
              exact hcb
          obtain ⟨root', lay', heq, hrep, hheight⟩ := hfreed hzero hshared₁
          refine ⟨root', lay', ?_, hrep, hheight⟩
          simpa [removeUp, hap, RadixNode.dropChild, hzero] using heq
        · obtain ⟨root', lay', heq, hrep, hheight⟩ := hkept
          refine ⟨root', lay', ?_, hrep, hheight⟩
          simpa [removeUp, hap, RadixNode.dropChild, hzero] using heq
    · rw [if_neg hr] at hpar
      refine ⟨⟨root, lay, by simp [removeUp, hpar], h, rfl⟩, ?_⟩
      rintro - ⟨r', b, hr', hb, -⟩
      have := (h.bound _ _ _ hb).1
      omega

def OnlyZero (m : ℕ → Option ι) : Prop := m 0 ≠ none ∧ ∀ k, k ≠ 0 → m k = none

/-- A leaf that is the root and has only its first slot in use stores key zero alone. -/
theorem Rep.onlyZero (h : Rep root lay m) {c : ℕ} (hheight : root.height = 1)
    (hc : lay 0 0 = some c) (hone : (root.nodes c).count = 1)
    (hzero : (root.nodes c).children 0 ≠ none) : OnlyZero m := by
  have hcc : childCount (root.nodes c) = 1 := by
    rw [← h.counted _ _ _ hc]
    exact hone
  refine ⟨?_, ?_⟩
  · intro hm
    rw [h.kids _ _ _ hc 0 (by omega)] at hzero
    simp [kid, hm] at hzero
  · intro k hk
    cases hm : m k with
    | none => rfl
    | some x =>
      obtain ⟨b, hb⟩ := h.held k x hm
      have hlt := (h.bound _ _ _ hb).2
      simp only [hheight, Nat.sub_self, pow_zero] at hlt
      have hk64 : k < 64 := by omega
      have hnone := children_of_childCount_eq_one hcc hk64 hzero hk
      rw [h.kids _ _ _ hc k hk64] at hnone
      simp [kid, hm] at hnone

structure Shrinks (root : Radix ι) (lay : Layout) (root' : Radix ι) (lay' : Layout) : Prop where
  nodes : root'.nodes = root.nodes
  height : root'.height ≤ root.height
  sub : ∀ r n a, lay' r n = some a → lay r n = some a

theorem Shrinks.refl (root : Radix ι) (lay : Layout) : Shrinks root lay root lay :=
  ⟨rfl, le_rfl, fun _ _ _ h => h⟩

theorem shrinkLoop_spec (hm : ¬OnlyZero m) :
    ∀ fuel (root : Radix ι) lay, 0 < root.height → Rep root lay m →
      ∃ root' lay', shrinkLoop fuel root = some root' ∧ Rep root' lay' m ∧
        Shrinks root lay root' lay' := by
  intro fuel
  induction fuel with
  | zero =>
    intro root lay _ h
    exact ⟨root, lay, rfl, h, .refl root lay⟩
  | succ fuel ih =>
    intro root lay hpos h
    obtain ⟨c, hroot, hc⟩ := h.top hpos
    by_cases hone : (root.nodes c).count = 1
    · cases hzero : (root.nodes c).children 0 with
      | none => exact ⟨root, lay, by simp [shrinkLoop, hroot, asNode, hone, hzero], h, .refl root lay⟩
      | some child =>
        by_cases hheight : root.height = 1
        · have hc' : lay 0 0 = some c := by simpa [hheight] using hc
          exact absurd (h.onlyZero hheight hc' hone (by simp [hzero])) hm
        · have hshrunk := h.shrink (by omega) hc hone hzero
          obtain ⟨root', lay', heq, hrep, hshrinks⟩ :=
            ih _ _ (by change 0 < root.height - 1; omega) hshrunk
          refine ⟨root', lay', ?_, hrep, hshrinks.nodes, hshrinks.height.trans (Nat.sub_le _ _),
            fun r n a ha => (Layout.place_none_eq_some (hshrinks.sub r n a ha)).2⟩
          simp [shrinkLoop, hroot, asNode, hone, hzero, heq]
    · exact ⟨root, lay, by simp [shrinkLoop, hroot, asNode, hone], h, .refl root lay⟩

theorem shrinkTree_spec (hm : ¬OnlyZero m) (hpos : 0 < root.height) (h : Rep root lay m) :
    ∃ root' lay', shrinkTree root = some root' ∧ Rep root' lay' m ∧ Shrinks root lay root' lay' ∧
      root'.maxKey = maxKeyId root'.height := by
  obtain ⟨root', lay', heq, hrep, hshrinks⟩ := shrinkLoop_spec hm root.height root lay hpos h
  have hsame : Rep { root' with maxKey := maxKeyId root'.height } lay' m :=
    ⟨hrep.alive, hrep.bound, hrep.inj, hrep.kids, hrep.counted, hrep.parents, hrep.held,
      hrep.top, hrep.empty⟩
  exact ⟨_, lay', by simp [shrinkTree, heq], hsame, ⟨hshrinks.nodes, hshrinks.height, hshrinks.sub⟩,
    rfl⟩

/-- Every node on the way of the key, from a node of level `r` down, has a single child. -/
def singlePath (root : Radix ι) (key : ℕ) : ℕ → ℕ → Bool
  | 0, a => (root.nodes a).count = 1
  | r + 1, a =>
      (root.nodes a).count = 1 &&
        match (root.nodes a).children (nextChild (r + 1) key) with
        | some (.node b) => singlePath root key r b
        | _ => true

/-- Deleting this key empties every node on its way, the root included. -/
def freesRoot (root : Radix ι) (key : ℕ) : Bool :=
  match asNode root.rootNode with
  | none => false
  | some c => singlePath root key (root.height - 1) c

def leafCount (root : Radix ι) (key : ℕ) : Option ℕ := do
  let info ← (radixItemInfoLookup root key).join
  some (root.nodes info.node).count

/-- The deletions of a present key that stay clear of the defects: the root is not one left
by a shrink with a pointer to its freed parent, it is not freed itself, the tree does not
shrink to a bare item, and the unset flag is not read as true by the parent of the leaf. -/
structure DeleteOk (root : Radix ι) (m : ℕ → Option ι) (key : ℕ) (deleted : Bool) : Prop where
  rootParent : RootParentNull root
  rootKept : freesRoot root key = false
  notOnlyZero : ¬OnlyZero (Function.update m key none)
  flag : deleted = true → root.height ≠ 1 → leafCount root key = some 1

/-- Conditions of `DeleteOk` that can be computed, where a key past zero stays. -/
def deleteTest (root : Radix ι) (m : ℕ → Option ι) (key : ℕ) (deleted : Bool) : Bool :=
  (asNode root.rootNode).all (fun c => (root.nodes c).parent = none) && !freesRoot root key &&
    (List.range 64).any (fun k => k ≠ 0 && k ≠ key && (m k).isSome) &&
    (!deleted || leafCount root key = some 1)

theorem rootParentNull_of_test
    (h : (asNode root.rootNode).all (fun c => (root.nodes c).parent = none) = true) :
    RootParentNull root := by
  intro c hc
  rw [hc] at h
  simpa [asNode] using h

theorem deleteOk_of_test {key : ℕ} {deleted : Bool} (h : deleteTest root m key deleted = true) :
    DeleteOk root m key deleted := by
  simp only [deleteTest, Bool.and_eq_true, Bool.not_eq_true', Bool.or_eq_true] at h
  obtain ⟨⟨⟨hroot, hfrees⟩, hkept⟩, hflag⟩ := h
  obtain ⟨k, -, hk⟩ := List.any_eq_true.1 hkept
  simp only [Bool.and_eq_true, decide_eq_true_eq] at hk
  refine ⟨rootParentNull_of_test hroot, hfrees, fun hzero => ?_, fun hdeleted _ => ?_⟩
  · have hnone := hzero.2 k hk.1.1
    rw [Function.update_of_ne hk.1.2] at hnone
    simp [hnone] at hk
  · simpa [hdeleted] using hflag

theorem exists_shared (h : Rep root lay m) (key : ℕ) :
    ∀ r a, lay r (key / 64 ^ (r + 1)) = some a → lay 0 (key / 64) ≠ none →
      singlePath root key r a = false →
      ∃ r' b, lay r' (key / 64 ^ (r' + 1)) = some b ∧ (root.nodes b).count ≠ 1 := by
  intro r
  induction r with
  | zero =>
    intro a ha _ hs
    exact ⟨0, a, ha, by simpa [singlePath] using hs⟩
  | succ r ih =>
    intro a ha hleaf hs
    by_cases hone : (root.nodes a).count = 1
    · have hr := (h.bound _ _ _ ha).1
      cases hl : lay r (key / 64 ^ (r + 1)) with
      | none => exact absurd (h.no_leaf key r (by omega) hl) hleaf
      | some b =>
        refine ih b hl hleaf ?_
        simpa [singlePath, hone, h.child_on_path ha, hl] using hs
    · exact ⟨r + 1, a, ha, hone⟩

theorem removeUp_of_leaf (h : Rep root lay m) (hmax : root.maxKey = maxKeyId root.height)
    (hlow : root.height ≤ 6) {key a : ℕ} (hkey : key < 2 ^ 32) {x : ι} (hx : m key = some x)
    (ha : lay 0 (key / 64) = some a) {deleted : Bool} (hok : DeleteOk root m key deleted) :
    let root₁ := root.setNode a (·.dropChild (key % 64))
    let empty : Bool := (root₁.nodes a).count = 0
    ∃ root' lay', removeUp key walkBound (if empty then root₁.kmemFree a else root₁)
        (root₁.nodes a).parent 1 (empty || deleted) = some root' ∧
      Rep root' lay' (Function.update m key none) ∧ root'.height = root.height := by
  intro root₁ empty
  have hslot : (root.nodes a).children (key % 64) ≠ none := by simp [h.leaf_slot ha, hx]
  have hcount := (h.counted _ _ _ ha).dropChild (by omega) hslot
  have h₁ : Rep root₁ lay (Function.update m key none) := h.set_item ha none rfl hcount rfl
  have hrp₁ : RootParentNull root₁ := hok.rootParent.setNode rfl
  have hwalk : root₁.height ≤ walkBound + 0 + 1 := by
    change root.height ≤ 17
    omega
  obtain ⟨hkept, hfreed⟩ := removeUp_spec key walkBound 0 root₁ lay a hwalk h₁ hrp₁ (by simpa using ha)
  have hcount₁ : (root₁.nodes a).count = (root.nodes a).count - 1 := by
    have hne := h.count_ne_zero ha (by omega) hslot
    have hle := childCount_le (root.nodes a)
    have hc := h.counted _ _ _ ha
    unfold Counted at hc
    rw [setNode_nodes_self]
    exact wsub_of_le (by omega) (by omega)
  by_cases hz : (root₁.nodes a).count = 0
  · have hempty : empty = true := by simpa [empty] using hz
    obtain ⟨c, hroot, hc⟩ := h.top (by have := (h.bound _ _ _ ha).1; omega)
    have hlt : key / 64 ^ (root.height - 1 + 1) = 0 := by
      have hb := (h.bound _ _ _ ha)
      have hsub : root.height - 1 + 1 = root.height := by omega
      refine Nat.div_eq_of_lt ?_
      rw [pow_succ]
      rw [Nat.sub_zero] at hb
      omega
    have hsingle := hok.rootKept
    simp only [freesRoot, hroot, asNode] at hsingle
    obtain ⟨r', b, hb, hcb⟩ := exists_shared h key _ c (by rw [hlt, hc]) (by simp [ha]) hsingle
    have hone : (root.nodes a).count = 1 := by
      have hne := h.count_ne_zero ha (by omega) hslot
      omega
    have hba : b ≠ a := by
      rintro rfl
      exact hcb hone
    have hr' : 0 < r' := by
      by_contra h0
      obtain rfl : r' = 0 := by omega
      rw [zero_add, pow_one] at hb
      exact hba (Option.some.inj (hb.symm.trans ha))
    have hshared : Shared root₁ lay key 0 :=
      ⟨r', b, hr', hb, by rw [setNode_nodes_of_ne _ _ hba]; exact hcb⟩
    obtain ⟨root', lay', heq, hrep, hheight⟩ := hfreed hz hshared
    exact ⟨root', lay', by simpa [hempty] using heq, hrep, hheight⟩
  · have hempty : empty = false := by simpa [empty] using hz
    cases deleted with
    | false =>
      obtain ⟨root', lay', heq, hrep, hheight⟩ := hkept
      exact ⟨root', lay', by simpa [hempty] using heq, hrep, hheight⟩
    | true =>
      by_cases hh : root.height = 1
      · have hpar := h₁.parent_on_path hrp₁ (by simpa using ha : lay 0 (key / 64 ^ (0 + 1)) = some a)
        rw [if_neg (by change ¬0 + 1 < root.height; omega)] at hpar
        exact ⟨root₁, lay, by simp [hempty, hpar, removeUp], h₁, rfl⟩
      · have hleaf := hok.flag rfl hh
        simp only [leafCount, radixItemInfoLookup_spec h hmax hkey, ha, Option.map_some,
          Option.join_some, Option.bind_eq_bind, Option.bind_some, Option.some.injEq] at hleaf
        omega

theorem radixTreeDelete_spec (h : Inv root m) {key : ℕ} (hkey : key < 2 ^ 32) (deleted : Bool)
    (hok : m key ≠ none → DeleteOk root m key deleted) :
    ∃ root', radixTreeDelete root key deleted = some (root', m key) ∧
      Inv root' (Function.update m key none) := by
  obtain ⟨lay, hrep⟩ := h.rep
  have hinfo := radixItemInfoLookup_spec hrep h.maxKey hkey
  cases hm : m key with
  | none =>
    refine ⟨root, ?_, ?_⟩
    · cases hl : lay 0 (key / 64) with
      | none => simp [radixTreeDelete, hinfo, hl]
      | some a => simp [radixTreeDelete, hinfo, hl, hrep.leaf_slot hl, hm, asItem]
    · rw [← hm, Function.update_eq_self]
      exact h
  | some x =>
    obtain ⟨a, ha⟩ := hrep.held key x hm
    have hdel := hok (by simp [hm])
    obtain ⟨root₁, lay₁, hup, hrep₁, hheight⟩ :=
      removeUp_of_leaf hrep h.maxKey h.low hkey hm ha hdel
    have hpos : 0 < root₁.height := by
      have := (hrep.bound _ _ _ ha).1
      omega
    obtain ⟨root', lay', hshrink, hrep', hshrinks, hmax⟩ :=
      shrinkTree_spec hdel.notOnlyZero hpos hrep₁
    have hlow : root'.height ≤ 6 := by
      have hle := hshrinks.height
      have hlow := h.low
      omega
    refine ⟨root', ?_, ⟨lay', hrep'⟩, hlow, hmax⟩
    simp only [radixTreeDelete, hinfo, ha, Option.map_some, Option.bind_eq_bind, Option.bind_some,
      hrep.leaf_slot ha, hm, asItem, radixTreeRemoveItem, hup, hshrink]

/-- A tree and the map its history of calls should have built. -/
structure State (ι : Type) where
  tree : Radix ι
  map : ℕ → Option ι

/-- A call, with the addresses that the allocator delivers or the value of the unset flag. -/
inductive Event (ι : Type)
  | insert (key : ℕ) (item : ι) (allocs : List ℕ)
  | delete (key : ℕ) (deleted : Bool)

instance (root : Radix ι) (allocs : List ℕ) : Decidable (Fresh root allocs) :=
  inferInstanceAs (Decidable (_ ∧ _))

def step (s : State ι) : Event ι → Option (State ι)
  | .insert key item allocs =>
      if key < 2 ^ 32 ∧ insertNodes ≤ allocs.length ∧ Fresh s.tree allocs then do
        let (tree, _) ← radixTreeInsert s.tree key item allocs
        some ⟨tree, if (s.map key).isNone then Function.update s.map key (some item) else s.map⟩
      else none
  | .delete key deleted =>
      if key < 2 ^ 32 then do
        let (tree, _) ← radixTreeDelete s.tree key deleted
        some ⟨tree, Function.update s.map key none⟩
      else none

/-- Trees started by `radix_tree_init` in any heap. -/
def machine (ι : Type) : Machine (State ι) (Event ι) where
  init s := ∃ heap, s = ⟨radixTreeInit heap, fun _ => none⟩
  step := step

/-- The guard of a run: insertions are free, deletions of a present key meet `DeleteOk`. -/
def EventOk (s : State ι) : Event ι → Prop
  | .insert _ _ _ => True
  | .delete key deleted => s.map key ≠ none → DeleteOk s.tree s.map key deleted

theorem inv_init (heap : Radix ι) : Inv (radixTreeInit heap) fun _ => none := by
  refine ⟨⟨fun _ _ => none, ?_⟩, Nat.zero_le _, rfl⟩
  constructor <;> simp [radixTreeInit]

theorem inv_step {s t : State ι} {e : Event ι} (h : Inv s.tree s.map) (hok : EventOk s e)
    (hstep : step s e = some t) : Inv t.tree t.map := by
  cases e with
  | insert key item allocs =>
    by_cases hlegal : key < 2 ^ 32 ∧ insertNodes ≤ allocs.length ∧ Fresh s.tree allocs
    · obtain ⟨root', out, heq, hout⟩ := radixTreeInsert_spec h hlegal.1 item hlegal.2.2
      simp only [step, if_pos hlegal, heq, Option.bind_eq_bind, Option.bind_some,
        Option.some.injEq] at hstep
      subst hstep
      obtain ⟨-, hm, hinv⟩ | ⟨-, hm, hinv⟩ | ⟨-, hshort, -⟩ := hout
      · simpa [hm] using hinv
      · simpa [hm] using hinv
      · exact absurd hlegal.2.1 (Nat.not_le.mpr hshort)
    · simp only [step, if_neg hlegal, reduceCtorEq] at hstep
  | delete key deleted =>
    by_cases hlegal : key < 2 ^ 32
    · obtain ⟨root', heq, hinv⟩ := radixTreeDelete_spec h hlegal deleted hok
      simp only [step, if_pos hlegal, heq, Option.bind_eq_bind, Option.bind_some,
        Option.some.injEq] at hstep
      subst hstep
      exact hinv
    · simp only [step, if_neg hlegal, reduceCtorEq] at hstep

theorem inv_reach {s : State ι} (hs : (machine ι).Reach EventOk s) : Inv s.tree s.map := by
  refine Machine.Reach.invariant (I := fun s => Inv s.tree s.map) ?_ ?_ hs
  · rintro _ ⟨heap, rfl⟩
    exact inv_init heap
  · intro s e t hi hok hstep
    exact inv_step hi hok hstep

/-- In every run whose deletions meet `DeleteOk` the tree is the finite map: lookups give the
stored items, an insertion reports a present key and only that, and a deletion returns the
stored item and leaves the other keys alone. -/
theorem radix_finite_map (s : State ι) (hs : (machine ι).Reach EventOk s) :
    (∀ key < 2 ^ 32, radixTreeLookup s.tree key = some (s.map key)) ∧
      (∀ key item allocs, key < 2 ^ 32 → insertNodes ≤ allocs.length → Fresh s.tree allocs →
        ∃ tree, radixTreeInsert s.tree key item allocs =
            some (tree, if (s.map key).isNone then 0 else -eEXIST) ∧
          ∀ k < 2 ^ 32, radixTreeLookup tree k =
            if k = key ∧ (s.map key).isNone then some (some item) else radixTreeLookup s.tree k) ∧
      (∀ key deleted, key < 2 ^ 32 → EventOk s (.delete key deleted) →
        ∃ tree, radixTreeDelete s.tree key deleted = some (tree, s.map key) ∧
          ∀ k < 2 ^ 32, radixTreeLookup tree k =
            if k = key then some none else radixTreeLookup s.tree k) := by
  have h := inv_reach hs
  refine ⟨fun key hkey => radixTreeLookup_spec h hkey, ?_, ?_⟩
  · intro key item allocs hkey hlen hfresh
    obtain ⟨tree, out, heq, hout⟩ := radixTreeInsert_spec h hkey item hfresh
    obtain ⟨rfl, hm, hinv⟩ | ⟨rfl, hm, hinv⟩ | ⟨-, hshort, -⟩ := hout
    · refine ⟨tree, by simp [heq, hm], ?_⟩
      intro k hk
      rw [radixTreeLookup_spec hinv hk, radixTreeLookup_spec h hk]
      by_cases hkk : k = key
      · simp [hkk, hm]
      · simp [hkk]
    · refine ⟨tree, by simp [heq, hm], ?_⟩
      intro k hk
      rw [radixTreeLookup_spec hinv hk, radixTreeLookup_spec h hk]
      simp [hm]
    · omega
  · intro key deleted hkey hok
    obtain ⟨tree, heq, hinv⟩ := radixTreeDelete_spec h hkey deleted hok
    refine ⟨tree, heq, ?_⟩
    intro k hk
    rw [radixTreeLookup_spec hinv hk, radixTreeLookup_spec h hk]
    by_cases hkk : k = key
    · simp [hkk]
    · simp [hkk]

def start : State ℕ := ⟨radixTreeInit ⟨none, 0, 0, fun _ => zeroNode, fun _ => false⟩, fun _ => none⟩

/-- Eleven addresses from `a` on. -/
def supply (a : ℕ) : List ℕ := List.range' a insertNodes

def twoKeys : State ℕ :=
  match (machine ℕ).run start [.insert 5 50 (supply 0), .insert 6 60 (supply 20)] with
  | some s => s
  | none => start

theorem twoKeys_reach : (machine ℕ).Reach EventOk twoKeys := by
  have h₁ : (machine ℕ).Reach EventOk start := .init ⟨_, rfl⟩
  obtain ⟨s, hs⟩ : ∃ s, step start (.insert 5 50 (supply 0)) = some s := ⟨_, rfl⟩
  have h₂ : (machine ℕ).Reach EventOk s :=
    .step (e := .insert 5 50 (supply 0)) h₁ trivial hs
  refine .step (e := .insert 6 60 (supply 20)) h₂ trivial ?_
  obtain rfl : _ = s := Option.some.inj hs
  rfl

theorem radix_finite_map_two_keys :
    ∃ tree, radixTreeDelete twoKeys.tree 5 true = some (tree, some 50) ∧
      radixTreeLookup tree 6 = some (some 60) := by
  have hok : EventOk twoKeys (.delete 5 true) := by
    intro _
    refine ⟨?_, by rfl, ?_, fun _ h => absurd rfl h⟩
    · intro c hc
      obtain rfl : 0 = c := by injection hc with hc; injection hc
      rfl
    · intro h
      exact absurd (h.2 6 (by decide)) (by decide)
  obtain ⟨tree, hdel, hrest⟩ :=
    (radix_finite_map twoKeys twoKeys_reach).2.2 5 true (by decide) hok
  refine ⟨tree, hdel, ?_⟩
  rw [hrest 6 (by decide)]
  rfl

/-- With keys 0, 1 and 64 stored, deleting key 1 while the unset flag holds a non-zero value
loses key 0. -/
theorem radix_delete_loses_key : ¬∀ s : State ℕ, (machine ℕ).Reachable s →
    ∀ key < 2 ^ 32, radixTreeLookup s.tree key = some (s.map key) := by
  intro h
  obtain ⟨s, hs, hlook, hmap⟩ : ∃ s, (machine ℕ).run start
      [.insert 0 100 (supply 0), .insert 1 101 (supply 20), .insert 64 164 (supply 40),
        .delete 1 true] = some s ∧ radixTreeLookup s.tree 0 = some none ∧ s.map 0 = some 100 :=
    ⟨_, rfl, rfl, rfl⟩
  have hbad := h s (Machine.Reachable.run (.init ⟨_, rfl⟩) _ hs) 0 (by decide)
  simp [hlook, hmap] at hbad

end Almos.Radix
