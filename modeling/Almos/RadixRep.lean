import Almos.Radix

/-!
# What a radix tree represents

A layout says which address, if any, holds the node of a given level for a given
block of keys: the node of level `r` and block `n` serves the keys from
`n * 64 ^ (r + 1)` on. `Rep` relates a tree to a layout and to the map of its items.
Each kind of write to the tree has its lemma here.
-/
namespace Almos.Radix
open Word

variable {ι : Type}

theorem nextChild_eq (level key : ℕ) : nextChild level key = key / 64 ^ level % 64 := by
  unfold nextChild
  rw [Nat.shiftRight_and_distrib, Nat.shiftLeft_shiftRight, Nat.and_comm,
    Nat.and_two_pow_sub_one_eq_mod _ 6, Nat.shiftRight_eq_div_pow, Nat.mul_comm level 6, pow_mul]
  rfl

theorem nextChild_lt (level key : ℕ) : nextChild level key < 64 := by
  rw [nextChild_eq]
  omega

theorem block_succ (level key : ℕ) :
    64 * (key / 64 ^ (level + 1)) + key / 64 ^ level % 64 = key / 64 ^ level := by
  rw [pow_succ, ← Nat.div_div_eq_div_mul]
  exact Nat.div_add_mod _ _

def childCount (node : RadixNode ι) : ℕ :=
  ((Finset.range 64).filter fun i => (node.children i).isSome).card

theorem childCount_le (node : RadixNode ι) : childCount node ≤ 64 := by
  simpa [childCount] using Finset.card_filter_le (Finset.range 64) fun i => (node.children i).isSome

theorem childCount_addChild {node : RadixNode ι} {i : ℕ} (c : Ptr ι) (hi : i < 64)
    (h : node.children i = none) : childCount (node.addChild i c) = childCount node + 1 := by
  have hset : (Finset.range 64).filter (fun j => ((node.addChild i c).children j).isSome) =
      insert i ((Finset.range 64).filter fun j => (node.children j).isSome) := by
    ext j
    simp only [Finset.mem_filter, Finset.mem_insert, Finset.mem_range]
    by_cases hj : j = i
    · simp [RadixNode.addChild, hj, hi]
    · simp [RadixNode.addChild, hj]
  simp [childCount, hset, h]

theorem childCount_dropChild {node : RadixNode ι} {i : ℕ} (hi : i < 64)
    (h : node.children i ≠ none) : childCount node = childCount (node.dropChild i) + 1 := by
  have hset : (Finset.range 64).filter (fun j => ((node.dropChild i).children j).isSome) =
      ((Finset.range 64).filter fun j => (node.children j).isSome).erase i := by
    ext j
    simp only [Finset.mem_filter, Finset.mem_erase, Finset.mem_range]
    by_cases hj : j = i
    · simp [RadixNode.dropChild, hj]
    · simp [RadixNode.dropChild, hj]
  have hmem : i ∈ (Finset.range 64).filter fun j => (node.children j).isSome := by
    simpa [hi, Option.isSome_iff_ne_none] using h
  unfold childCount
  rw [hset, Finset.card_erase_add_one hmem]

theorem children_of_childCount_eq_zero {node : RadixNode ι} (h : childCount node = 0) {i : ℕ}
    (hi : i < 64) : node.children i = none := by
  have hempty := Finset.card_eq_zero.mp h
  by_contra hne
  have hmem : i ∈ (Finset.range 64).filter fun j => (node.children j).isSome := by
    simpa [hi, Option.isSome_iff_ne_none] using hne
  simp [hempty] at hmem

theorem children_of_childCount_eq_one {node : RadixNode ι} (h : childCount node = 1) {i : ℕ}
    (hi : i < 64) (h0 : node.children 0 ≠ none) (hne : i ≠ 0) : node.children i = none := by
  obtain ⟨j, hj⟩ := Finset.card_eq_one.mp h
  have hmem : ∀ k < 64, node.children k ≠ none → k = j := by
    intro k hk hc
    have : k ∈ (Finset.range 64).filter fun j => (node.children j).isSome := by
      simpa [hk, Option.isSome_iff_ne_none] using hc
    simpa [hj] using this
  by_contra hc
  have hi' := hmem i hi hc
  have h0' := hmem 0 (by omega) h0
  omega

def Counted (node : RadixNode ι) : Prop := node.count = childCount node

theorem Counted.addChild {node : RadixNode ι} {i : ℕ} (c : Ptr ι) (hc : Counted node)
    (hi : i < 64) (h : node.children i = none) : Counted (node.addChild i c) := by
  have hle := childCount_le (node.addChild i c)
  have hadd := childCount_addChild c hi h
  unfold Counted at *
  rw [hadd, ← hc]
  exact wadd_of_lt (by omega)

theorem Counted.dropChild {node : RadixNode ι} {i : ℕ} (hc : Counted node)
    (hi : i < 64) (h : node.children i ≠ none) : Counted (node.dropChild i) := by
  have hle := childCount_le node
  have hdrop := childCount_dropChild hi h
  unfold Counted at *
  calc wsub node.count 1 = node.count - 1 := wsub_of_le (by omega) (by omega)
    _ = childCount (node.dropChild i) := by omega

def Layout : Type := ℕ → ℕ → Option ℕ

def Layout.place (lay : Layout) (r n : ℕ) (v : Option ℕ) : Layout :=
  fun r' n' => if r' = r ∧ n' = n then v else lay r' n'

/-- What slot `i` of the node of level `r` and block `n` must hold. -/
def kid (lay : Layout) (m : ℕ → Option ι) : ℕ → ℕ → ℕ → Option (Ptr ι)
  | 0, n, i => (m (64 * n + i)).map .item
  | r + 1, n, i => (lay r (64 * n + i)).map .node

structure Rep (root : Radix ι) (lay : Layout) (m : ℕ → Option ι) : Prop where
  alive : ∀ r n a, lay r n = some a → root.live a = true
  bound : ∀ r n a, lay r n = some a → r < root.height ∧ n < 64 ^ (root.height - 1 - r)
  inj : ∀ r n r' n' a, lay r n = some a → lay r' n' = some a → r = r' ∧ n = n'
  kids : ∀ r n a, lay r n = some a → ∀ i < 64, (root.nodes a).children i = kid lay m r n i
  counted : ∀ r n a, lay r n = some a → Counted (root.nodes a)
  parents : ∀ r n a, lay r n = some a → r + 1 < root.height →
    ∃ p, lay (r + 1) (n / 64) = some p ∧ (root.nodes a).parent = some p
  held : ∀ k x, m k = some x → ∃ a, lay 0 (k / 64) = some a
  top : 0 < root.height → ∃ a, root.rootNode = some (.node a) ∧ lay (root.height - 1) 0 = some a
  empty : root.height = 0 → root.rootNode = none

@[simp] theorem setNode_nodes_self (root : Radix ι) (a : ℕ) (f : RadixNode ι → RadixNode ι) :
    (root.setNode a f).nodes a = f (root.nodes a) := by simp [setNode]

theorem setNode_nodes_of_ne (root : Radix ι) {a b : ℕ} (f : RadixNode ι → RadixNode ι)
    (h : b ≠ a) : (root.setNode a f).nodes b = root.nodes b := by simp [setNode, h]

@[simp] theorem kmemFree_nodes (root : Radix ι) (a : ℕ) : (root.kmemFree a).nodes = root.nodes := rfl

theorem kmemFree_live_of_ne (root : Radix ι) {a b : ℕ} (h : b ≠ a) :
    (root.kmemFree a).live b = root.live b := by simp [kmemFree, h]

namespace Layout

theorem place_self (lay : Layout) (r n : ℕ) (v : Option ℕ) : lay.place r n v r n = v := by
  simp [place]

theorem place_of_ne (lay : Layout) {r n r' n' : ℕ} (v : Option ℕ) (h : ¬(r' = r ∧ n' = n)) :
    lay.place r n v r' n' = lay r' n' := by simp [place, h]

theorem place_none_eq_some {lay : Layout} {r n r' n' a : ℕ}
    (h : lay.place r n none r' n' = some a) : ¬(r' = r ∧ n' = n) ∧ lay r' n' = some a := by
  by_cases hpos : r' = r ∧ n' = n
  · simp [place, hpos] at h
  · exact ⟨hpos, by simpa [place, hpos] using h⟩

end Layout

theorem kid_update_of_ne (lay : Layout) (m : ℕ → Option ι) {k r n i : ℕ} (v : Option ι)
    (h : r = 0 → 64 * n + i ≠ k) : kid lay (Function.update m k v) r n i = kid lay m r n i := by
  cases r with
  | zero => simp [kid, h rfl]
  | succ r => rfl

theorem kid_place_of_ne (lay : Layout) (m : ℕ → Option ι) {r N r' n i : ℕ} (v : Option ℕ)
    (h : r' = r + 1 → 64 * n + i ≠ N) : kid (lay.place r N v) m r' n i = kid lay m r' n i := by
  cases r' with
  | zero => rfl
  | succ r' =>
    have hne : ¬(r' = r ∧ 64 * n + i = N) := fun hpos => h (by omega) hpos.2
    simp [kid, Layout.place_of_ne lay v hne]

section Writes
variable {root : Radix ι} {lay : Layout} {m : ℕ → Option ι}

theorem Rep.kid_eq_none (h : Rep root lay m) {r n i : ℕ} (hr : r < root.height)
    (hnone : lay r n = none) (hi : i < 64) : kid lay m r n i = none := by
  have hdiv : (64 * n + i) / 64 = n := by omega
  cases r with
  | zero =>
    cases hm : m (64 * n + i) with
    | none => simp [kid, hm]
    | some x =>
      obtain ⟨a, ha⟩ := h.held _ _ hm
      simp [hdiv, hnone] at ha
  | succ r =>
    cases hl : lay r (64 * n + i) with
    | none => simp [kid, hl]
    | some b =>
      obtain ⟨p, hp, -⟩ := h.parents _ _ _ hl hr
      simp [hdiv, hnone] at hp

theorem Rep.congr_nodes (h : Rep root lay m) {a : ℕ} {f : RadixNode ι → RadixNode ι}
    (hchildren : (f (root.nodes a)).children = (root.nodes a).children)
    (hcount : (f (root.nodes a)).count = (root.nodes a).count)
    (hparent : (f (root.nodes a)).parent = (root.nodes a).parent) :
    Rep (root.setNode a f) lay m := by
  have hsame : ∀ b, ((root.setNode a f).nodes b).children = (root.nodes b).children ∧
      ((root.setNode a f).nodes b).count = (root.nodes b).count ∧
      ((root.setNode a f).nodes b).parent = (root.nodes b).parent := by
    intro b
    by_cases hb : b = a
    · subst hb
      simp [hchildren, hcount, hparent]
    · simp [setNode_nodes_of_ne root f hb]
  refine ⟨h.alive, h.bound, h.inj, ?_, ?_, ?_, h.held, h.top, h.empty⟩
  · intro r n b hb i hi
    rw [(hsame b).1]
    exact h.kids r n b hb i hi
  · intro r n b hb
    have hc := h.counted r n b hb
    simpa [Counted, childCount, hsame b] using hc
  · intro r n b hb hr
    rw [(hsame b).2.2]
    exact h.parents r n b hb hr

theorem Rep.set_item (h : Rep root lay m) {k a : ℕ} (ha : lay 0 (k / 64) = some a)
    {f : RadixNode ι → RadixNode ι} (v : Option ι)
    (hchildren : (f (root.nodes a)).children =
      Function.update (root.nodes a).children (k % 64) (v.map .item))
    (hcount : Counted (f (root.nodes a)))
    (hparent : (f (root.nodes a)).parent = (root.nodes a).parent) :
    Rep (root.setNode a f) lay (Function.update m k v) := by
  refine ⟨h.alive, h.bound, h.inj, ?_, ?_, ?_, ?_, h.top, h.empty⟩
  · intro r n b hb i hi
    by_cases hba : b = a
    · subst hba
      obtain ⟨rfl, rfl⟩ := h.inj _ _ _ _ _ hb ha
      rw [setNode_nodes_self, hchildren]
      by_cases hik : i = k % 64
      · have hk : 64 * (k / 64) + k % 64 = k := Nat.div_add_mod k 64
        simp [kid, hik, hk]
      · rw [Function.update_of_ne hik, kid_update_of_ne lay m v fun _ => by omega]
        exact h.kids 0 (k / 64) b hb i hi
    · rw [setNode_nodes_of_ne root f hba, kid_update_of_ne lay m v]
      · exact h.kids r n b hb i hi
      · rintro rfl hk
        have hn : n = k / 64 := by omega
        subst hn
        exact hba (Option.some.inj (hb.symm.trans ha))
  · intro r n b hb
    by_cases hba : b = a
    · subst hba
      simpa using hcount
    · rw [setNode_nodes_of_ne root f hba]
      exact h.counted r n b hb
  · intro r n b hb hr
    obtain ⟨p, hp, hbp⟩ := h.parents r n b hb hr
    refine ⟨p, hp, ?_⟩
    by_cases hba : b = a
    · subst hba
      simpa [hparent] using hbp
    · rw [setNode_nodes_of_ne root f hba]
      exact hbp
  · intro j x hj
    by_cases hjk : j = k
    · exact ⟨a, hjk ▸ ha⟩
    · exact h.held j x (by simpa [hjk] using hj)

theorem Rep.ne_fresh (h : Rep root lay m) {a : ℕ} (hfresh : root.live a = false) {r n b : ℕ}
    (hb : lay r n = some b) : b ≠ a := by
  rintro rfl
  have halive := h.alive _ _ _ hb
  rw [hfresh] at halive
  cases halive

/-- What the layout with a new node has at a place: the new node, or what was there. -/
theorem Rep.place_cases (h : Rep root lay m) {a : ℕ} (hfresh : root.live a = false) {r n r' n' b : ℕ}
    (hb : lay.place r n (some a) r' n' = some b) :
    (b = a ∧ r' = r ∧ n' = n) ∨ (b ≠ a ∧ ¬(r' = r ∧ n' = n) ∧ lay r' n' = some b) := by
  by_cases hpos : r' = r ∧ n' = n
  · simp only [Layout.place, if_pos hpos, Option.some.injEq] at hb
    exact .inl ⟨hb.symm, hpos⟩
  · rw [Layout.place_of_ne lay _ hpos] at hb
    exact .inr ⟨h.ne_fresh hfresh hb, hpos, hb⟩

theorem Layout.place_keep {lay : Layout} {r n r' n' a b : ℕ} (hnone : lay r n = none)
    (hb : lay r' n' = some b) : lay.place r n (some a) r' n' = some b := by
  rw [Layout.place_of_ne, hb]
  rintro ⟨rfl, rfl⟩
  rw [hnone] at hb
  cases hb

theorem Rep.place_inj (h : Rep root lay m) {a : ℕ} (hfresh : root.live a = false)
    {r n r₁ n₁ r₂ n₂ b : ℕ} (h₁ : lay.place r n (some a) r₁ n₁ = some b)
    (h₂ : lay.place r n (some a) r₂ n₂ = some b) : r₁ = r₂ ∧ n₁ = n₂ := by
  obtain ⟨hb, hr₁, hn₁⟩ | ⟨hb, -, h₁⟩ := h.place_cases hfresh h₁
  · obtain ⟨-, hr₂, hn₂⟩ | ⟨hb', -⟩ := h.place_cases hfresh h₂
    · omega
    · exact absurd hb hb'
  · obtain ⟨hb', -⟩ | ⟨-, -, h₂⟩ := h.place_cases hfresh h₂
    · exact absurd hb' hb
    · exact h.inj _ _ _ _ _ h₁ h₂

theorem Rep.top_none (h : Rep root lay m) : lay root.height 0 = none := by
  cases hl : lay root.height 0 with
  | none => rfl
  | some b => exact absurd (h.bound _ _ _ hl).1 (lt_irrefl _)

theorem Rep.create (h : Rep root lay m) {r n i p a : ℕ} (hp : lay (r + 1) n = some p)
    (hi : i < 64) (hnone : lay r (64 * n + i) = none) (hfresh : root.live a = false)
    (allocs : List ℕ) :
    Rep (createNode root p i (a :: allocs)).1 (lay.place r (64 * n + i) (some a)) m := by
  obtain ⟨hr, hn⟩ := h.bound _ _ _ hp
  have hpa : p ≠ a := h.ne_fresh hfresh hp
  have hdiv : (64 * n + i) / 64 = n := by omega
  have hslot : (root.nodes p).children i = none := by
    rw [h.kids _ _ _ hp i hi, kid, hnone, Option.map_none]
  have hnodeA : (createNode root p i (a :: allocs)).1.nodes a =
      { zeroNode with parent := some p } := by
    simp [createNode, setNode, kmemAlloc, hpa.symm]
  have hnodeP : (createNode root p i (a :: allocs)).1.nodes p =
      (root.nodes p).addChild i (.node a) := by
    simp [createNode, setNode, kmemAlloc, hpa]
  have hnode : ∀ b, b ≠ a → b ≠ p → (createNode root p i (a :: allocs)).1.nodes b = root.nodes b := by
    intro b hb hb'
    simp [createNode, setNode, kmemAlloc, hb, hb']
  refine ⟨?_, ?_, ?_, ?_, ?_, ?_, ?_, ?_, h.empty⟩
  · intro r' n' b hb
    obtain ⟨rfl, -⟩ | ⟨hba, -, hl⟩ := h.place_cases hfresh hb
    · simp [createNode, setNode, kmemAlloc]
    · simpa [createNode, setNode, kmemAlloc, hba] using h.alive _ _ _ hl
  · intro r' n' b hb
    change r' < root.height ∧ n' < 64 ^ (root.height - 1 - r')
    obtain ⟨rfl, rfl, rfl⟩ | ⟨-, -, hl⟩ := h.place_cases hfresh hb
    · have hexp : root.height - 1 - r' = root.height - 1 - (r' + 1) + 1 := by omega
      rw [hexp, pow_succ]
      omega
    · exact h.bound _ _ _ hl
  · exact fun _ _ _ _ _ h₁ h₂ => h.place_inj hfresh h₁ h₂
  · intro r' n' b hb j hj
    obtain ⟨rfl, rfl, rfl⟩ | ⟨hba, -, hl⟩ := h.place_cases hfresh hb
    · rw [hnodeA, kid_place_of_ne lay m _ (by omega), h.kid_eq_none (by omega) hnone hj]
      rfl
    · by_cases hbp : b = p
      · subst hbp
        obtain ⟨rfl, rfl⟩ := h.inj _ _ _ _ _ hl hp
        rw [hnodeP]
        by_cases hji : j = i
        · subst hji
          simp [RadixNode.addChild, kid, Layout.place_self]
        · rw [kid_place_of_ne lay m _ fun _ => by omega, ← h.kids _ _ _ hl j hj]
          simp [RadixNode.addChild, hji]
      · rw [hnode b hba hbp, kid_place_of_ne lay m]
        · exact h.kids _ _ _ hl j hj
        · rintro rfl hpos
          have hn' : n' = n := by omega
          subst hn'
          exact hbp (Option.some.inj (hl.symm.trans hp))
  · intro r' n' b hb
    obtain ⟨rfl, -, -⟩ | ⟨hba, -, hl⟩ := h.place_cases hfresh hb
    · rw [hnodeA]
      simp [Counted, childCount, zeroNode]
    · by_cases hbp : b = p
      · subst hbp
        rw [hnodeP]
        exact (h.counted _ _ _ hl).addChild _ hi hslot
      · rw [hnode b hba hbp]
        exact h.counted _ _ _ hl
  · intro r' n' b hb hr'
    obtain ⟨rfl, rfl, rfl⟩ | ⟨hba, -, hl⟩ := h.place_cases hfresh hb
    · refine ⟨p, Layout.place_keep hnone (by rwa [hdiv]), ?_⟩
      rw [hnodeA]
    · obtain ⟨q, hq, hbq⟩ := h.parents _ _ _ hl hr'
      refine ⟨q, Layout.place_keep hnone hq, ?_⟩
      by_cases hbp : b = p
      · subst hbp
        rw [hnodeP]
        exact hbq
      · rw [hnode b hba hbp]
        exact hbq
  · intro k x hk
    obtain ⟨b, hb⟩ := h.held k x hk
    exact ⟨b, Layout.place_keep hnone hb⟩
  · intro hh
    obtain ⟨b, hroot, hb⟩ := h.top hh
    exact ⟨b, hroot, Layout.place_keep hnone hb⟩

theorem Rep.no_kids (h : Rep root lay m) {r n a : ℕ} (ha : lay r n = some a)
    (hz : (root.nodes a).count = 0) {i : ℕ} (hi : i < 64) : kid lay m r n i = none := by
  have hc : childCount (root.nodes a) = 0 := by
    rw [← h.counted _ _ _ ha]
    exact hz
  rw [← h.kids _ _ _ ha i hi]
  exact children_of_childCount_eq_zero hc hi

theorem Rep.count_ne_zero (h : Rep root lay m) {r n a i : ℕ} (ha : lay r n = some a)
    (hi : i < 64) (hchild : (root.nodes a).children i ≠ none) : (root.nodes a).count ≠ 0 := by
  intro hz
  rw [h.kids _ _ _ ha i hi] at hchild
  exact hchild (h.no_kids ha hz hi)

theorem Rep.collapse (h : Rep root lay m) {r n a p : ℕ} (ha : lay r n = some a)
    (hp : lay (r + 1) (n / 64) = some p) (hz : (root.nodes a).count = 0) :
    Rep ((root.kmemFree a).setNode p (·.dropChild (n % 64))) (lay.place r n none) m := by
  have hr := (h.bound _ _ _ hp).1
  have hn : 64 * (n / 64) + n % 64 = n := Nat.div_add_mod n 64
  have hkids : ∀ i < 64, kid lay m r n i = none := fun i hi => h.no_kids ha hz hi
  have hkeep : ∀ r' n' b, r' ≠ r ∨ n' ≠ n → lay r' n' = some b →
      lay.place r n none r' n' = some b := by
    intro r' n' b hne hb
    rw [Layout.place_of_ne _ _ (by omega), hb]
  have hslot : (root.nodes p).children (n % 64) ≠ none := by
    rw [h.kids _ _ _ hp _ (by omega), kid, hn, ha]
    simp
  refine ⟨?_, ?_, ?_, ?_, ?_, ?_, ?_, ?_, h.empty⟩
  · intro r' n' b hb
    obtain ⟨hne, hl⟩ := Layout.place_none_eq_some hb
    have hba : b ≠ a := by
      rintro rfl
      exact hne (h.inj _ _ _ _ _ hl ha)
    change (root.kmemFree a).live b = true
    rw [kmemFree_live_of_ne root hba]
    exact h.alive _ _ _ hl
  · intro r' n' b hb
    exact h.bound _ _ _ (Layout.place_none_eq_some hb).2
  · intro r₁ n₁ r₂ n₂ b h₁ h₂
    exact h.inj _ _ _ _ _ (Layout.place_none_eq_some h₁).2 (Layout.place_none_eq_some h₂).2
  · intro r' n' b hb i hi
    obtain ⟨hne, hl⟩ := Layout.place_none_eq_some hb
    by_cases hbp : b = p
    · subst hbp
      obtain ⟨rfl, rfl⟩ := h.inj _ _ _ _ _ hl hp
      rw [setNode_nodes_self, kmemFree_nodes]
      by_cases hin : i = n % 64
      · simp [hin, RadixNode.dropChild, kid, hn, Layout.place_self]
      · rw [kid_place_of_ne lay m _ fun _ => by omega, ← h.kids _ _ _ hl i hi]
        simp [RadixNode.dropChild, hin]
    · rw [setNode_nodes_of_ne _ _ hbp, kmemFree_nodes, kid_place_of_ne lay m]
      · exact h.kids _ _ _ hl i hi
      · rintro rfl hpos
        have hn' : n' = n / 64 := by omega
        subst hn'
        exact hbp (Option.some.inj (hl.symm.trans hp))
  · intro r' n' b hb
    obtain ⟨-, hl⟩ := Layout.place_none_eq_some hb
    by_cases hbp : b = p
    · subst hbp
      rw [setNode_nodes_self, kmemFree_nodes]
      exact (h.counted _ _ _ hl).dropChild (by omega) hslot
    · rw [setNode_nodes_of_ne _ _ hbp, kmemFree_nodes]
      exact h.counted _ _ _ hl
  · intro r' n' b hb hr'
    obtain ⟨-, hl⟩ := Layout.place_none_eq_some hb
    obtain ⟨q, hq, hbq⟩ := h.parents _ _ _ hl hr'
    refine ⟨q, hkeep _ _ _ ?_ hq, ?_⟩
    · -- the freed node is no parent
      by_contra hpos
      obtain ⟨rfl, rfl⟩ : r = r' + 1 ∧ n = n' / 64 := by omega
      have hnone := hkids (n' % 64) (by omega)
      rw [kid, Nat.div_add_mod, hl] at hnone
      simp at hnone
    · by_cases hbp : b = p
      · subst hbp
        rw [setNode_nodes_self, kmemFree_nodes]
        exact hbq
      · rw [setNode_nodes_of_ne _ _ hbp, kmemFree_nodes]
        exact hbq
  · intro k x hk
    obtain ⟨b, hb⟩ := h.held k x hk
    refine ⟨b, hkeep _ _ _ ?_ hb⟩
    by_contra hpos
    obtain ⟨rfl, rfl⟩ : r = 0 ∧ n = k / 64 := by omega
    have hnone := hkids (k % 64) (by omega)
    rw [kid, Nat.div_add_mod, hk] at hnone
    simp at hnone
  · intro hh
    obtain ⟨b, hroot, hb⟩ := h.top hh
    have hh' : r ≠ root.height - 1 := by omega
    exact ⟨b, hroot, hkeep _ _ _ (.inl hh'.symm) hb⟩

/-- All nodes of a tree whose root has only its first child lie below that child. -/
theorem Rep.bound_of_single (h : Rep root lay m) {c : ℕ}
    (hc : lay (root.height - 1) 0 = some c) (hone : (root.nodes c).count = 1)
    (hzero : (root.nodes c).children 0 ≠ none) :
    ∀ d r n a, r + d + 2 = root.height → lay r n = some a → n < 64 ^ d := by
  intro d
  induction d with
  | zero =>
    intro r n a hr ha
    have hb := (h.bound _ _ _ ha).2
    have hexp : root.height - 1 - r = 1 := by omega
    rw [hexp, pow_one] at hb
    by_contra hn
    have hcc : childCount (root.nodes c) = 1 := by
      rw [← h.counted _ _ _ hc]
      exact hone
    have hnone := children_of_childCount_eq_one hcc hb hzero (by omega)
    have htop : root.height - 1 = r + 1 := by omega
    rw [h.kids _ _ _ hc n hb, htop, kid] at hnone
    simp [ha] at hnone
  | succ d ih =>
    intro r n a hr ha
    obtain ⟨p, hp, -⟩ := h.parents _ _ _ ha (by omega)
    have hlt := ih (r + 1) (n / 64) p (by omega) hp
    rw [pow_succ]
    omega

/-- A root whose only child is its first one is freed and the child takes its place. -/
theorem Rep.shrink (h : Rep root lay m) {c : ℕ} (hheight : 2 ≤ root.height)
    (hc : lay (root.height - 1) 0 = some c) (hone : (root.nodes c).count = 1)
    {child : Ptr ι} (hzero : (root.nodes c).children 0 = some child) :
    Rep ({ root with rootNode := some child, height := root.height - 1 }.kmemFree c)
      (lay.place (root.height - 1) 0 none) m := by
  have hbelow := h.bound_of_single hc hone (by simp [hzero])
  have htop : root.height - 1 = root.height - 2 + 1 := by omega
  have hchild : (lay (root.height - 2) 0).map Ptr.node = some child := by
    have hk := h.kids _ _ _ hc 0 (by omega)
    rw [htop, kid, hzero] at hk
    exact hk.symm
  have hkeep : ∀ r n b, r < root.height - 1 → lay r n = some b →
      lay.place (root.height - 1) 0 none r n = some b := by
    intro r n b hr hb
    rw [Layout.place_of_ne _ _ (by omega), hb]
  have hlow : ∀ r n b, lay.place (root.height - 1) 0 none r n = some b →
      lay r n = some b ∧ r + 2 ≤ root.height := by
    intro r n b hb
    obtain ⟨hne, hl⟩ := Layout.place_none_eq_some hb
    obtain ⟨hr, hn⟩ := h.bound _ _ _ hl
    refine ⟨hl, ?_⟩
    by_contra hr'
    obtain rfl : r = root.height - 1 := by omega
    simp only [Nat.sub_self, pow_zero] at hn
    omega
  have hkid : ∀ r n i, r + 2 ≤ root.height →
      kid (lay.place (root.height - 1) 0 none) m r n i = kid lay m r n i := fun r n i hr =>
    kid_place_of_ne lay m _ (by omega)
  refine ⟨?_, ?_, ?_, ?_, ?_, ?_, ?_, ?_, ?_⟩
  · intro r n b hb
    obtain ⟨hl, hr⟩ := hlow _ _ _ hb
    have hbc : b ≠ c := by
      rintro rfl
      have := h.inj _ _ _ _ _ hl hc
      omega
    rw [kmemFree_live_of_ne _ hbc]
    exact h.alive _ _ _ hl
  · intro r n b hb
    obtain ⟨hl, hr⟩ := hlow _ _ _ hb
    change r < root.height - 1 ∧ n < 64 ^ (root.height - 1 - 1 - r)
    exact ⟨by omega, hbelow _ r n b (by omega) hl⟩
  · intro r₁ n₁ r₂ n₂ b h₁ h₂
    exact h.inj _ _ _ _ _ (hlow _ _ _ h₁).1 (hlow _ _ _ h₂).1
  · intro r n b hb i hi
    obtain ⟨hl, hr⟩ := hlow _ _ _ hb
    rw [hkid r n i hr]
    exact h.kids _ _ _ hl i hi
  · intro r n b hb
    exact h.counted _ _ _ (hlow _ _ _ hb).1
  · intro r n b hb hr
    obtain ⟨q, hq, hbq⟩ := h.parents _ _ _ (hlow _ _ _ hb).1
      (Nat.lt_of_lt_of_le hr (Nat.sub_le _ _))
    exact ⟨q, hkeep _ _ _ hr hq, hbq⟩
  · intro k x hk
    obtain ⟨b, hb⟩ := h.held k x hk
    exact ⟨b, hkeep _ _ _ (by omega) hb⟩
  · intro _
    cases hl : lay (root.height - 2) 0 with
    | none => simp [hl] at hchild
    | some b =>
      simp only [hl, Option.map_some, Option.some.injEq] at hchild
      exact ⟨b, by rw [hchild]; rfl, hkeep _ _ _ (by change root.height - 1 - 1 < _; omega) hl⟩
  · intro hz
    change root.height - 1 = 0 at hz
    omega

theorem expandTree_spec (h : Rep root lay m) {a : ℕ} (hfresh : root.live a = false)
    (allocs : List ℕ) : ∃ root', expandTree root (a :: allocs) = some (root', 0, allocs) ∧
      root'.rootNode = some (.node a) ∧ root'.height = root.height + 1 ∧
      root'.maxKey = maxKeyId (root.height + 1) ∧ root'.live = Function.update root.live a true ∧
      (root'.nodes a).children = Function.update (fun _ => none) 0 root.rootNode ∧
      (root'.nodes a).parent = none ∧
      (root'.nodes a).count = (if root.height = 0 then 0 else 1) ∧
      ∀ b, b ≠ a → (root'.nodes b).children = (root.nodes b).children ∧
        (root'.nodes b).count = (root.nodes b).count ∧
        (root'.nodes b).parent =
          if asNode root.rootNode = some b then some a else (root.nodes b).parent := by
  by_cases hz : root.height = 0
  · have hroot := h.empty hz
    refine ⟨_, by simp [expandTree, hz, setNode, kmemAlloc]; rfl, rfl, ?_⟩
    simp +contextual [hz, hroot, zeroNode, asNode]
  · obtain ⟨c, hroot, hc⟩ := h.top (by omega)
    have hca : c ≠ a := h.ne_fresh hfresh hc
    refine ⟨_, by simp [expandTree, hz, hroot, asNode, setNode, kmemAlloc]; rfl, rfl, ?_⟩
    refine ⟨rfl, rfl, rfl, ?_, ?_, ?_, ?_⟩
    · simp [hca.symm, zeroNode, hroot]
    · simp [hca.symm, zeroNode]
    · simp [hca.symm, hz]
    · intro b hb
      by_cases hbc : b = c
      · subst hbc
        simp [hb, hroot, asNode]
      · have hne : c ≠ b := Ne.symm hbc
        simp [hb, hbc, hroot, hne, asNode]

/-- The old root, if there is one, is what the first slot of the new root holds. -/
theorem Rep.expand_slots (h : Rep root lay m) (a : ℕ) {i : ℕ} (hi : i < 64) :
    Function.update (fun _ => none) 0 root.rootNode i =
      kid (lay.place root.height 0 (some a)) m root.height 0 i := by
  rw [kid_place_of_ne lay m _ (by omega)]
  cases hh : root.height with
  | zero =>
    have hm : m i = none := by
      cases hmi : m i with
      | none => rfl
      | some x =>
        obtain ⟨b, hb⟩ := h.held i x hmi
        have := (h.bound _ _ _ hb).1
        omega
    by_cases hi0 : i = 0
    · subst hi0
      simp [kid, hm, h.empty hh]
    · simp [kid, hm, hi0]
  | succ r =>
    obtain ⟨c, hc, hl⟩ := h.top (by omega)
    have hr : root.height - 1 = r := by omega
    rw [hr] at hl
    by_cases hi0 : i = 0
    · subst hi0
      simp [kid, hl, hc]
    · have hnone : lay r i = none := by
        cases hb : lay r i with
        | none => rfl
        | some b =>
          have hbd := (h.bound _ _ _ hb).2
          simp only [hh, Nat.add_sub_cancel, Nat.sub_self, pow_zero] at hbd
          omega
      simp [kid, hi0, hnone]

theorem Rep.expand_counted (h : Rep root lay m) {node : RadixNode ι}
    (hchildren : node.children = Function.update (fun _ => none) 0 root.rootNode)
    (hcount : node.count = if root.height = 0 then 0 else 1) : Counted node := by
  unfold Counted childCount
  rw [hcount, hchildren]
  cases hh : root.height with
  | zero => simp [h.empty hh]
  | succ r =>
    obtain ⟨c, hc, -⟩ := h.top (by omega)
    rw [hc]
    rfl

/-- The old root gets the new one as its parent, and no other node a new one. -/
theorem Rep.expand_parent (h : Rep root lay m) (a : ℕ) {r n b : ℕ} (hl : lay r n = some b) :
    ∃ q, lay.place root.height 0 (some a) (r + 1) (n / 64) = some q ∧
      (if asNode root.rootNode = some b then some a else (root.nodes b).parent) = some q := by
  have hr := (h.bound _ _ _ hl).1
  by_cases hrt : r + 1 < root.height
  · obtain ⟨q, hq, hbq⟩ := h.parents _ _ _ hl hrt
    refine ⟨q, Layout.place_keep h.top_none hq, ?_⟩
    rw [if_neg, hbq]
    intro hrb
    obtain ⟨c, hc, hlc⟩ := h.top (by omega)
    simp only [hc, asNode, Option.some.injEq] at hrb
    have := h.inj _ _ _ _ _ hl (hrb ▸ hlc)
    omega
  · have hn := (h.bound _ _ _ hl).2
    obtain rfl : r = root.height - 1 := by omega
    simp only [Nat.sub_self, pow_zero, Nat.lt_one_iff] at hn
    subst hn
    obtain ⟨c, hc, hlc⟩ := h.top (by omega)
    obtain rfl : b = c := Option.some.inj (hl.symm.trans hlc)
    refine ⟨a, ?_, by simp [hc, asNode]⟩
    rw [Nat.sub_add_cancel (by omega)]
    exact Layout.place_self _ _ _ _

theorem Rep.expand (h : Rep root lay m) {a : ℕ} (hfresh : root.live a = false)
    (allocs : List ℕ) : ∃ root', expandTree root (a :: allocs) = some (root', 0, allocs) ∧
      Rep root' (lay.place root.height 0 (some a)) m ∧ root'.height = root.height + 1 ∧
      root'.maxKey = maxKeyId (root.height + 1) ∧ root'.live = Function.update root.live a true ∧
      (root'.nodes a).parent = none ∧ root'.rootNode = some (.node a) := by
  obtain ⟨root', heq, hroot, hheight, hmax, hlive, hchildren, hparent, hcount, hrest⟩ :=
    expandTree_spec h hfresh allocs
  refine ⟨root', heq, ⟨fun r n b hb => ?_, fun r n b hb => ?_, fun _ _ _ _ _ h₁ h₂ =>
    h.place_inj hfresh h₁ h₂, fun r n b hb i hi => ?_, fun r n b hb => ?_, fun r n b hb hr => ?_,
    fun k x hk => ?_, fun _ => ⟨a, hroot, ?_⟩, fun hz => absurd hz (by omega)⟩, hheight, hmax, hlive,
    hparent, hroot⟩
  · rw [hlive]
    obtain ⟨rfl, -⟩ | ⟨hba, -, hl⟩ := h.place_cases hfresh hb
    · simp
    · simpa [hba] using h.alive _ _ _ hl
  · rw [hheight]
    obtain ⟨-, rfl, rfl⟩ | ⟨-, -, hl⟩ := h.place_cases hfresh hb
    · simp
    · obtain ⟨hr, hn⟩ := h.bound _ _ _ hl
      refine ⟨by omega, ?_⟩
      have hexp : root.height + 1 - 1 - r = root.height - 1 - r + 1 := by omega
      rw [hexp, pow_succ]
      omega
  · obtain ⟨rfl, rfl, rfl⟩ | ⟨hba, -, hl⟩ := h.place_cases hfresh hb
    · rw [hchildren, h.expand_slots b hi]
    · have hr := (h.bound _ _ _ hl).1
      rw [(hrest b hba).1, kid_place_of_ne lay m _ (by omega)]
      exact h.kids _ _ _ hl i hi
  · obtain ⟨rfl, -, -⟩ | ⟨hba, -, hl⟩ := h.place_cases hfresh hb
    · exact h.expand_counted hchildren hcount
    · simpa [Counted, childCount, hrest b hba] using h.counted _ _ _ hl
  · obtain ⟨-, rfl, rfl⟩ | ⟨hba, -, hl⟩ := h.place_cases hfresh hb
    · omega
    · rw [(hrest b hba).2.2]
      exact h.expand_parent a hl
  · obtain ⟨b, hb⟩ := h.held k x hk
    exact ⟨b, Layout.place_keep h.top_none hb⟩
  · rw [hheight, Nat.add_sub_cancel]
    exact Layout.place_self _ _ _ _

end Writes

end Almos.Radix
