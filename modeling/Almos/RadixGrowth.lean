import Mathlib
import Almos.RadixInsert

/-!
# What an insertion adds to a tree

Nodes stay where they are and keep their tags. A new node lies on the way of the key or was put
above the old root, and the bitmaps show every child past the first.
-/
namespace Almos.Radix
open Word

variable {ι : Type} {root root₁ root₂ : Radix ι} {lay lay₁ lay₂ : Layout} {m : ℕ → Option ι} {key : ℕ}

def Covered (node : RadixNode ι) : Prop :=
  ∀ i, 0 < i → i < 64 → (node.children i).isSome → node.bitmap.getLsbD i = true

lemma Covered.addChild {node : RadixNode ι} (h : Covered node) (i : ℕ) (c : Ptr ι) :
    Covered (node.addChild i c) := by
  intro j hpos hj hchild
  rw [RadixNode.addChild, BitVec.getLsbD_or, bit_getLsbD hj]
  by_cases hij : i = j
  · simp [hij]
  · simp only [RadixNode.addChild, Function.update_of_ne (Ne.symm hij)] at hchild
    simp [h j hpos hj hchild]

lemma Covered.dropChild {node : RadixNode ι} (h : Covered node) (i : ℕ) :
    Covered (node.dropChild i) := by
  intro j hpos hj hchild
  by_cases hij : i = j
  · simp [RadixNode.dropChild, hij] at hchild
  · simp only [RadixNode.dropChild, Function.update_of_ne (Ne.symm hij)] at hchild
    rw [RadixNode.dropChild, BitVec.getLsbD_and, BitVec.getLsbD_not, bit_getLsbD hj,
      h j hpos hj hchild]
    simp [hij, hj]

structure Sound (root : Radix ι) (lay : Layout) (m : ℕ → Option ι) : Prop where
  rep : Rep root lay m
  low : root.height ≤ 6
  maxKey : root.maxKey = maxKeyId root.height
  covered : ∀ r n a, lay r n = some a → Covered (root.nodes a)

structure Grown (root : Radix ι) (lay : Layout) (m : ℕ → Option ι) : Prop extends Sound root lay m where
  rootParent : RootParentNull root

lemma Sound.inv (h : Sound root lay m) : Inv root m := ⟨⟨lay, h.rep⟩, h.low, h.maxKey⟩

lemma Rep.node_above (h : Rep root lay m) {r a : ℕ} (ha : lay r (key / 64 ^ (r + 1)) = some a) :
    ∀ d, r + d < root.height → ∃ b, lay (r + d) (key / 64 ^ (r + d + 1)) = some b := by
  intro d
  induction d with
  | zero => exact fun _ => ⟨a, ha⟩
  | succ d ih =>
    intro hr
    obtain ⟨b, hb⟩ := ih (by omega)
    obtain ⟨p, hp, -⟩ := h.parents _ _ _ hb (by omega)
    rw [Nat.div_div_eq_div_mul, ← pow_succ] at hp
    exact ⟨p, hp⟩

lemma Rep.key_lt (h : Rep root lay m) (hkey : m key ≠ none) : key < 64 ^ root.height := by
  obtain ⟨x, hx⟩ := Option.ne_none_iff_exists'.mp hkey
  obtain ⟨a, ha⟩ := h.held key x hx
  obtain ⟨hpos, hlt⟩ := h.bound _ _ _ ha
  have hheight : root.height = root.height - 1 - 0 + 1 := by omega
  rw [hheight, pow_succ]
  omega

lemma Rep.node_of_key (h : Rep root lay m) (hkey : m key ≠ none) {r : ℕ} (hr : r < root.height) :
    ∃ a, lay r (key / 64 ^ (r + 1)) = some a := by
  obtain ⟨x, hx⟩ := Option.ne_none_iff_exists'.mp hkey
  obtain ⟨a, ha⟩ := h.held key x hx
  have hleaf : lay 0 (key / 64 ^ (0 + 1)) = some a := by rwa [zero_add, pow_one]
  obtain ⟨b, hb⟩ := h.node_above hleaf r (by omega)
  rw [Nat.zero_add] at hb
  exact ⟨b, hb⟩

def Summary (root : Radix ι) (lay : Layout) (r : ℕ) (tags : BitVec 64) : Prop :=
  0 < r ∧ tags = bit 63 ∧ ∃ b, lay (r - 1) 0 = some b ∧ (root.nodes b).tags ≠ 0

/-- What an insertion of `key` adds. -/
structure Extends (root : Radix ι) (lay : Layout) (root' : Radix ι) (lay' : Layout) (key : ℕ) :
    Prop where
  height : root.height ≤ root'.height
  keep : ∀ r n a, lay r n = some a → lay' r n = some a ∧ (root'.nodes a).tags = (root.nodes a).tags
  fresh : ∀ r n a, lay' r n = some a → lay r n = some a ∨
    n = key / 64 ^ (r + 1) ∧ (root'.nodes a).tags = 0 ∨
      n = 0 ∧ root.height ≤ r ∧ ((root'.nodes a).tags = 0 ∨ Summary root' lay' r (root'.nodes a).tags)

namespace Extends

lemma refl (root : Radix ι) (lay : Layout) (key : ℕ) : Extends root lay root lay key :=
  ⟨le_rfl, fun _ _ _ h => ⟨h, rfl⟩, fun _ _ _ h => .inl h⟩

lemma trans (h₁ : Extends root lay root₁ lay₁ key) (h₂ : Extends root₁ lay₁ root₂ lay₂ key) :
    Extends root lay root₂ lay₂ key := by
  refine ⟨h₁.height.trans h₂.height, fun r n a ha => ?_, fun r n a ha => ?_⟩
  · obtain ⟨hlay₁, htags₁⟩ := h₁.keep r n a ha
    obtain ⟨hlay₂, htags₂⟩ := h₂.keep r n a hlay₁
    exact ⟨hlay₂, htags₂.trans htags₁⟩
  · obtain hold | hpath | ⟨hn, hr, htags⟩ := h₂.fresh r n a ha
    · have htags₂ := (h₂.keep r n a hold).2
      obtain holder | ⟨hn, htags⟩ | ⟨hn, hr, htags⟩ := h₁.fresh r n a hold
      · exact .inl holder
      · exact .inr (.inl ⟨hn, htags₂.trans htags⟩)
      · refine .inr (.inr ⟨hn, hr, ?_⟩)
        rw [htags₂]
        obtain hzero | ⟨hpos, hlast, b, hb, htagged⟩ := htags
        · exact .inl hzero
        · obtain ⟨hb₂, hbtags⟩ := h₂.keep _ _ _ hb
          exact .inr ⟨hpos, hlast, b, hb₂, hbtags ▸ htagged⟩
    · exact .inr (.inl hpath)
    · exact .inr (.inr ⟨hn, h₁.height.trans hr, htags⟩)

end Extends

lemma expandTree_bits (h : Rep root lay m) {a : ℕ} (hfresh : root.live a = false)
    (allocs : List ℕ) : ∃ root', expandTree root (a :: allocs) = some (root', 0, allocs) ∧
      (root'.nodes a).children = Function.update (fun _ => none) 0 root.rootNode ∧
      ((root'.nodes a).tags = 0 ∨
        root.height ≠ 0 ∧ (root'.nodes a).tags = bit 63 ∧
          ∃ c, root.rootNode = some (.node c) ∧ (root.nodes c).tags ≠ 0) ∧
      ∀ b, b ≠ a → (root'.nodes b).children = (root.nodes b).children ∧
        (root'.nodes b).tags = (root.nodes b).tags ∧
        (root'.nodes b).bitmap = (root.nodes b).bitmap := by
  by_cases hz : root.height = 0
  · have hroot := h.empty hz
    refine ⟨_, by simp [expandTree, hz, setNode, kmemAlloc]; rfl, ?_⟩
    simp +contextual [hroot, zeroNode]
  · obtain ⟨c, hroot, hc⟩ := h.top (by omega)
    have hca : c ≠ a := h.ne_fresh hfresh hc
    refine ⟨_, by simp [expandTree, hz, hroot, asNode, setNode, kmemAlloc]; rfl, ?_, ?_, fun b hb => ?_⟩
    · simp [hca.symm, zeroNode, hroot]
    · by_cases htags : (root.nodes c).tags = 0
      · exact .inl (by simp [hca, hca.symm, htags])
      · refine .inr ⟨hz, ?_, c, hroot, htags⟩
        simp only [ne_eq, hca, hca.symm, not_false_eq_true, Function.update_self, Function.update_of_ne]
        exact if_neg htags
    · by_cases hbc : b = c
      · subst hbc
        simp [hb]
      · simp [hb, hbc]

lemma Sound.expand (h : Sound root lay m) (hlow : root.height ≤ 5) {a : ℕ}
    (hfresh : root.live a = false) (allocs : List ℕ) (key : ℕ) :
    ∃ root', expandTree root (a :: allocs) = some (root', 0, allocs) ∧
      root'.height = root.height + 1 ∧ root'.live = Function.update root.live a true ∧
      Grown root' (lay.place root.height 0 (some a)) m ∧
      Extends root lay root' (lay.place root.height 0 (some a)) key := by
  obtain ⟨root', heq, hrep, hheight, hmax, hlive, hparent, hroot⟩ := h.rep.expand hfresh allocs
  obtain ⟨root₁, heq₁, hchildren, htags, hrest⟩ := expandTree_bits h.rep hfresh allocs
  obtain rfl : root' = root₁ := congrArg Prod.fst (Option.some.inj (heq.symm.trans heq₁))
  refine ⟨root', heq, hheight, hlive, ⟨⟨hrep, by omega, by rw [hmax, hheight], ?_⟩, ?_⟩,
    ⟨by omega, ?_, ?_⟩⟩
  · intro r n b hb
    obtain ⟨-, -, hold⟩ | ⟨rfl, -⟩ := (h.rep.place_cases hfresh hb).symm
    · obtain ⟨hsame, -, hbitmap⟩ := hrest b (h.rep.ne_fresh hfresh hold)
      intro i hpos hi hchild
      rw [hsame] at hchild
      rw [hbitmap]
      exact h.covered _ _ _ hold i hpos hi hchild
    · intro i hpos hi hchild
      rw [hchildren, Function.update_of_ne (by omega)] at hchild
      cases hchild
  · intro c hc
    rw [hroot, Option.some.injEq, Ptr.node.injEq] at hc
    rw [← hc, hparent]
  · intro r n b hb
    exact ⟨Layout.place_keep h.rep.top_none hb, (hrest b (h.rep.ne_fresh hfresh hb)).2.1⟩
  · intro r n b hb
    obtain ⟨-, -, hold⟩ | ⟨rfl, rfl, rfl⟩ := (h.rep.place_cases hfresh hb).symm
    · exact .inl hold
    · refine .inr (.inr ⟨rfl, le_rfl, ?_⟩)
      obtain hzero | ⟨hheight, hlast, c, hc, htagged⟩ := htags
      · exact .inl hzero
      · obtain ⟨c', hc', hlay⟩ := h.rep.top (by omega)
        rw [hc, Option.some.injEq, Ptr.node.injEq] at hc'
        subst hc'
        refine .inr ⟨by omega, hlast, c, Layout.place_keep h.rep.top_none hlay, ?_⟩
        rw [(hrest c (h.rep.ne_fresh hfresh hlay)).2.1]
        exact htagged

lemma expandLoop_sound (hkey : key < 2 ^ 32) :
    ∀ fuel (root : Radix ι) lay allocs, 7 ≤ fuel + root.height → Sound root lay m →
      Fresh root allocs →
      ∃ root' lay' out allocs', expandLoop key fuel root allocs = some (root', out, allocs') ∧
        Sound root' lay' m ∧ (RootParentNull root → RootParentNull root') ∧
        Extends root lay root' lay' key ∧ Fresh root' allocs' ∧
        (allocs = [] ∨ 0 < root.height ∧ key ≤ root.maxKey → root'.height = root.height) ∧
        (out = 0 ∧ 0 < root'.height ∧ key < 64 ^ root'.height ∨ out = -eNOMEM) := by
  intro fuel
  induction fuel with
  | zero =>
    intro root lay allocs hfuel h
    have hlow := h.low
    omega
  | succ fuel ih =>
    intro root lay allocs hfuel h hfresh
    by_cases hgrow : root.height = 0 ∨ root.maxKey < key
    · have hlow : root.height ≤ 5 := by
        have hle := h.low
        by_contra h6
        have h6' : root.height = 6 := by omega
        have hm := h.maxKey
        rw [h6', maxKeyId, if_pos rfl] at hm
        omega
      cases allocs with
      | nil =>
        refine ⟨root, lay, -eNOMEM, [], ?_, h, id, Extends.refl _ _ _, hfresh, fun _ => rfl, .inr rfl⟩
        simp [expandLoop, hgrow, expandTree, eNOMEM]
      | cons a allocs =>
        obtain ⟨root₁, heq, hheight, hlive, hgrown, hext⟩ :=
          h.expand hlow (hfresh.2 a List.mem_cons_self) allocs key
        obtain ⟨root', lay', out, allocs', hloop, hsound, hparent, hext', hfresh', -, hout⟩ :=
          ih root₁ _ allocs (by omega) hgrown.toSound (hfresh.tail hlive)
        refine ⟨root', lay', out, allocs', ?_, hsound, fun _ => hparent hgrown.rootParent,
          hext.trans hext', hfresh', ?_, hout⟩
        · simp [expandLoop, hgrow, heq, hloop]
        · rintro (hnil | hcond)
          · cases hnil
          · omega
    · have hcond : 0 < root.height ∧ key ≤ root.maxKey := by omega
      refine ⟨root, lay, 0, allocs, by simp [expandLoop, hgrow], h, id, Extends.refl _ _ _, hfresh,
        fun _ => rfl, .inl ⟨rfl, hcond.1, ?_⟩⟩
      exact (le_maxKeyId_iff hkey).mp (h.maxKey ▸ hcond.2)

lemma Sound.create (h : Sound root lay m) {r p a : ℕ}
    (hp : lay (r + 1) (key / 64 ^ (r + 2)) = some p) (hnone : lay r (key / 64 ^ (r + 1)) = none)
    (hfresh : root.live a = false) (allocs : List ℕ) :
    Sound (createNode root p (nextChild (r + 1) key) (a :: allocs)).1
        (lay.place r (key / 64 ^ (r + 1)) (some a)) m ∧
      (RootParentNull root →
        RootParentNull (createNode root p (nextChild (r + 1) key) (a :: allocs)).1) ∧
      Extends root lay (createNode root p (nextChild (r + 1) key) (a :: allocs)).1
        (lay.place r (key / 64 ^ (r + 1)) (some a)) key := by
  have hblock : 64 * (key / 64 ^ (r + 2)) + nextChild (r + 1) key = key / 64 ^ (r + 1) := by
    rw [nextChild_eq, block_succ]
  have hrep := h.rep.create hp (nextChild_lt _ _) (hblock ▸ hnone) hfresh allocs
  rw [hblock] at hrep
  have hpa := h.rep.ne_fresh hfresh hp
  have hnodeA : ((createNode root p (nextChild (r + 1) key) (a :: allocs)).1.nodes a) =
      { (zeroNode : RadixNode ι) with parent := some p } := by
    simp [createNode, setNode, kmemAlloc, hpa.symm]
  have hnodeP : ((createNode root p (nextChild (r + 1) key) (a :: allocs)).1.nodes p) =
      (root.nodes p).addChild (nextChild (r + 1) key) (.node a) := by
    simp [createNode, setNode, kmemAlloc, hpa]
  have hnode : ∀ b, b ≠ a → b ≠ p →
      (createNode root p (nextChild (r + 1) key) (a :: allocs)).1.nodes b = root.nodes b := by
    intro b hba hbp
    simp [createNode, setNode, kmemAlloc, hba, hbp]
  refine ⟨⟨hrep, h.low, h.maxKey, ?_⟩, ?_, ⟨le_rfl, ?_, ?_⟩⟩
  · intro r' n b hb
    obtain ⟨-, -, hold⟩ | ⟨rfl, -⟩ := (h.rep.place_cases hfresh hb).symm
    · by_cases hbp : b = p
      · rw [hbp, hnodeP]
        exact (h.covered _ _ _ hp).addChild _ _
      · rw [hnode b (h.rep.ne_fresh hfresh hold) hbp]
        exact h.covered _ _ _ hold
    · intro i _ _ hchild
      rw [hnodeA] at hchild
      cases hchild
  · intro hnull c hc
    obtain ⟨c', hc', hlay⟩ := h.rep.top (by have hr := (h.rep.bound _ _ _ hp).1; omega)
    have hroot : root.rootNode = some (.node c) := hc
    rw [hc', Option.some.injEq, Ptr.node.injEq] at hroot
    subst hroot
    have hparent := hnull _ hc'
    by_cases hcp : c' = p
    · rw [hcp, hnodeP]
      rw [hcp] at hparent
      exact hparent
    · rw [hnode _ (h.rep.ne_fresh hfresh hlay) hcp]
      exact hparent
  · intro r' n b hb
    refine ⟨Layout.place_keep hnone hb, ?_⟩
    by_cases hbp : b = p
    · rw [hbp, hnodeP]
      rfl
    · rw [hnode b (h.rep.ne_fresh hfresh hb) hbp]
  · intro r' n b hb
    obtain ⟨-, -, hold⟩ | ⟨rfl, rfl, rfl⟩ := (h.rep.place_cases hfresh hb).symm
    · exact .inl hold
    · exact .inr (.inl ⟨rfl, by rw [hnodeA]; rfl⟩)

lemma insertDown_sound (key : ℕ) :
    ∀ r (root : Radix ι) lay cur allocs, Sound root lay m → lay r (key / 64 ^ (r + 1)) = some cur →
      Fresh root allocs →
      ∃ root' lay' res, insertDown key r root cur allocs = some (root', res) ∧ Sound root' lay' m ∧
        (RootParentNull root → RootParentNull root') ∧
        Extends root lay root' lay' key ∧ root'.height = root.height ∧
        ((∃ leaf, res = .ok leaf ∧ lay' 0 (key / 64) = some leaf) ∨ res = .error (-eNOMEM)) := by
  intro r
  induction r with
  | zero =>
    intro root lay cur allocs h hcur _
    rw [zero_add, pow_one] at hcur
    exact ⟨root, lay, .ok cur, rfl, h, id, Extends.refl _ _ _, rfl, .inl ⟨cur, rfl, hcur⟩⟩
  | succ r ih =>
    intro root lay cur allocs h hcur hfresh
    have hchild := h.rep.child_on_path hcur
    cases hl : lay r (key / 64 ^ (r + 1)) with
    | some b =>
      rw [hl, Option.map_some] at hchild
      obtain ⟨root', lay', res, heq, hrest⟩ := ih root lay b allocs h hl hfresh
      refine ⟨root', lay', res, ?_, hrest⟩
      simp [insertDown, hchild, asNode, heq]
    | none =>
      rw [hl, Option.map_none] at hchild
      cases allocs with
      | nil =>
        refine ⟨root, lay, .error (-eNOMEM), ?_, h, id, Extends.refl _ _ _, rfl, .inr rfl⟩
        simp [insertDown, hchild, createNode, eNOMEM]
      | cons a allocs =>
        obtain ⟨hsound₁, hparent₁, hext₁⟩ := h.create hcur hl (hfresh.2 a List.mem_cons_self) allocs
        have hnew := Layout.place_self lay r (key / 64 ^ (r + 1)) (some a)
        have hchild₁ := hsound₁.rep.child_on_path (hext₁.keep _ _ _ hcur).1
        rw [hnew, Option.map_some] at hchild₁
        obtain ⟨root', lay', res, heq, hsound, hparent, hext, hheight, hres⟩ :=
          ih _ _ a allocs hsound₁ hnew (hfresh.tail rfl)
        refine ⟨root', lay', res, ?_, hsound, fun hnull => hparent (hparent₁ hnull),
          hext₁.trans hext, hheight, hres⟩
        have herr : (createNode root cur (nextChild (r + 1) key) (a :: allocs)).2 = (0, allocs) := rfl
        simp only [insertDown, hchild, Option.isNone_none, if_true]
        simp [hchild₁, asNode, heq, herr]

lemma Sound.set_item (h : Sound root lay m) {leaf : ℕ} (hleaf : lay 0 (key / 64) = some leaf)
    (hnone : m key = none) (item : ι) :
    Sound (root.setNode leaf (·.addChild (key % 64) (.item item))) lay
        (Function.update m key (some item)) ∧
      Extends root lay (root.setNode leaf (·.addChild (key % 64) (.item item))) lay key := by
  have hslot := h.rep.leaf_slot hleaf
  rw [hnone, Option.map_none] at hslot
  have hcount := (h.rep.counted _ _ _ hleaf).addChild (.item item) (by omega) hslot
  have htags : ∀ a, ((root.setNode leaf (·.addChild (key % 64) (.item item))).nodes a).tags =
      (root.nodes a).tags := by
    intro a
    by_cases ha : a = leaf
    · rw [ha, setNode_nodes_self]
      rfl
    · rw [setNode_nodes_of_ne _ _ ha]
  refine ⟨⟨h.rep.set_item hleaf (some item) rfl hcount rfl, h.low, h.maxKey, fun r n a ha => ?_⟩,
    le_rfl, fun r n a ha => ⟨ha, htags a⟩, fun r n a ha => .inl ha⟩
  by_cases hal : a = leaf
  · rw [hal, setNode_nodes_self]
    exact (h.covered _ _ _ hleaf).addChild _ _
  · rw [setNode_nodes_of_ne _ _ hal]
    exact h.covered _ _ _ ha

theorem Sound.insert (h : Sound root lay m) (hkey : key < 2 ^ 32) (item : ι) {allocs : List ℕ}
    (hfresh : Fresh root allocs) :
    ∃ root' lay' out, radixTreeInsert root key item allocs = some (root', out) ∧
      Sound root' lay' (mapAfter m key item out) ∧ (RootParentNull root → RootParentNull root') ∧
      Extends root lay root' lay' key ∧
      (allocs = [] ∨ 0 < root.height ∧ key ≤ root.maxKey → root'.height = root.height) ∧
      (out = 0 ∧ m key = none ∨ out ≠ 0) := by
  obtain ⟨root₁, lay₁, out, allocs₁, hexp, hsound₁, hparent₁, hext₁, hfresh₁, hsame, hout⟩ :=
    expandLoop_sound hkey expandBound root lay allocs (by unfold expandBound; omega) h hfresh
  obtain ⟨rfl, hpos, hlt⟩ | rfl := hout
  · obtain ⟨c, hroot, hc⟩ := hsound₁.rep.top hpos
    have hblock : key / 64 ^ (root₁.height - 1 + 1) = 0 := by
      rw [Nat.sub_add_cancel hpos]
      exact Nat.div_eq_of_lt hlt
    obtain ⟨root₂, lay₂, res, hdown, hsound₂, hparent₂, hext₂, hheight, hres⟩ :=
      insertDown_sound key (root₁.height - 1) root₁ lay₁ c allocs₁ hsound₁ (by rw [hblock, hc]) hfresh₁
    have hindex : nextChild 0 key = key % 64 := by simp [nextChild_eq]
    have hsame₂ := fun hcond => hheight.trans (hsame hcond)
    have hparent := fun hnull => hparent₂ (hparent₁ hnull)
    obtain ⟨leaf, rfl, hleaf⟩ | rfl := hres
    · have hslot := hsound₂.rep.leaf_slot hleaf
      cases hm : m key with
      | some x =>
        rw [hm, Option.map_some] at hslot
        refine ⟨root₂, lay₂, -eEXIST, ?_, by simpa [mapAfter, eEXIST] using hsound₂, hparent,
          hext₁.trans hext₂, hsame₂, .inr (by decide)⟩
        simp [radixTreeInsert, hexp, hroot, asNode, hdown, hindex, hslot]
      | none =>
        rw [hm, Option.map_none] at hslot
        obtain ⟨hsound₃, hext₃⟩ := hsound₂.set_item hleaf hm item
        refine ⟨_, lay₂, 0, ?_, by simpa [mapAfter] using hsound₃,
          fun hnull => (hparent hnull).setNode rfl, (hext₁.trans hext₂).trans hext₃, hsame₂,
          .inl ⟨rfl, rfl⟩⟩
        simp [radixTreeInsert, hexp, hroot, asNode, hdown, hindex, hslot]
    · refine ⟨root₂, lay₂, -eNOMEM, ?_, by simpa [mapAfter, eNOMEM] using hsound₂, hparent,
        hext₁.trans hext₂, hsame₂, .inr (by decide)⟩
      simp [radixTreeInsert, hexp, hroot, asNode, hdown]
  · refine ⟨root₁, lay₁, -eNOMEM, ?_, by simpa [mapAfter, eNOMEM] using hsound₁, hparent₁, hext₁,
      hsame, .inr (by decide)⟩
    simp [radixTreeInsert, hexp, eNOMEM]

theorem Grown.insert (h : Grown root lay m) (hkey : key < 2 ^ 32) (item : ι) {allocs : List ℕ}
    (hfresh : Fresh root allocs) :
    ∃ root' lay' out, radixTreeInsert root key item allocs = some (root', out) ∧
      Grown root' lay' (mapAfter m key item out) ∧ Extends root lay root' lay' key ∧
      (allocs = [] ∨ 0 < root.height ∧ key ≤ root.maxKey → root'.height = root.height) ∧
      (out = 0 ∧ m key = none ∨ out ≠ 0) := by
  obtain ⟨root', lay', out, heq, hsound, hparent, hrest⟩ := h.toSound.insert hkey item hfresh
  exact ⟨root', lay', out, heq, ⟨hsound, hparent h.rootParent⟩, hrest⟩

lemma grown_init (heap : Radix ι) :
    Grown (radixTreeInit heap) (fun _ _ => none) (fun _ => none : ℕ → Option ι) := by
  refine ⟨⟨?_, Nat.zero_le _, rfl, fun r n a ha => ?_⟩, fun c hc => ?_⟩
  · constructor <;> simp [radixTreeInit]
  · cases ha
  · cases hc

end Almos.Radix
