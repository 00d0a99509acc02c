import Almos.RadixMap

/-!
# The shape of a radix tree

Nodes in use, parents, counters, bitmaps and the largest key. Putting a root above an
existing one marks the last bit of its bitmap although the old root goes in the first
slot, so the shape is kept exactly as long as the tree stays a single leaf.
-/
namespace Almos.Radix
open Word

variable {ι : Type}

/-- `Visits root d holder p`: following children from the root leads to the pointer `p` at
depth `d`, held by the node `holder`, where the height of the tree calls for a node. -/
inductive Visits (root : Radix ι) : ℕ → Option ℕ → Ptr ι → Prop
  | top {p : Ptr ι} (h : root.rootNode = some p) : Visits root 0 none p
  | child {d a i : ℕ} {holder : Option ℕ} {p : Ptr ι} (prior : Visits root d holder (.node a))
      (deep : d + 1 < root.height) (slot : i < 64) (h : (root.nodes a).children i = some p) :
      Visits root (d + 1) (some a) p

/-- Bit `i` of the bitmap tells whether slot `i` is in use. -/
def BitmapRight (node : RadixNode ι) : Prop :=
  ∀ i < 64, node.bitmap.getLsbD i = (node.children i).isSome

structure WellFormed (root : Radix ι) : Prop where
  nodes : ∀ d holder p, Visits root d holder p → ∃ a, p = .node a ∧ root.live a = true ∧
    (root.nodes a).parent = holder ∧ Counted (root.nodes a) ∧ BitmapRight (root.nodes a)
  maxKey : root.maxKey = min (64 ^ root.height) (2 ^ 32) - 1

theorem bit_getLsbD {i j : ℕ} (hj : j < 64) : (bit i).getLsbD j = decide (i = j) := by
  by_cases hij : i = j
  · subst hij
    simp [bit, hj]
  · simp [bit, BitVec.getLsbD_twoPow, hij]

theorem BitmapRight.addChild {node : RadixNode ι} (h : BitmapRight node) (i : ℕ)
    (c : Ptr ι) : BitmapRight (node.addChild i c) := by
  intro j hj
  by_cases hij : i = j
  · subst hij
    simp [RadixNode.addChild, bit_getLsbD hj]
  · simp [RadixNode.addChild, bit_getLsbD hj, hij, Ne.symm hij, h j hj]

theorem BitmapRight.dropChild {node : RadixNode ι} (h : BitmapRight node) (i : ℕ) :
    BitmapRight (node.dropChild i) := by
  intro j hj
  by_cases hij : i = j
  · subst hij
    simp [RadixNode.dropChild, bit_getLsbD hj]
  · have hne : j ≠ i := Ne.symm hij
    simp only [RadixNode.dropChild, BitVec.getLsbD_and, BitVec.getLsbD_not, bit_getLsbD hj, hij, hj,
      decide_true, decide_false, Bool.not_false, Bool.and_true, Function.update_of_ne hne]
    exact h j hj

structure LeafRoot (root : Radix ι) (m : ℕ → Option ι) (c : ℕ) : Prop where
  rootNode : root.rootNode = some (.node c)
  height : root.height = 1
  maxKey : root.maxKey = 63
  alive : root.live c = true
  parent : (root.nodes c).parent = none
  children : ∀ i < 64, (root.nodes c).children i = (m i).map .item
  counted : Counted (root.nodes c)
  bitmap : BitmapRight (root.nodes c)
  above : ∀ k, 64 ≤ k → m k = none

structure NoRoot (root : Radix ι) (m : ℕ → Option ι) : Prop where
  rootNode : root.rootNode = none
  height : root.height = 0
  maxKey : root.maxKey = 0
  map : ∀ k, m k = none

def Flat (root : Radix ι) (m : ℕ → Option ι) : Prop := NoRoot root m ∨ ∃ c, LeafRoot root m c

theorem Flat.wellFormed {root : Radix ι} {m : ℕ → Option ι} (h : Flat root m) :
    WellFormed root := by
  obtain h | ⟨c, h⟩ := h
  · refine ⟨?_, by rw [h.maxKey, h.height]; rfl⟩
    intro d holder p hp
    cases hp with
    | top hp => simp [h.rootNode] at hp
    | child _ deep _ _ => simp [h.height] at deep
  · refine ⟨?_, by rw [h.maxKey, h.height]; rfl⟩
    intro d holder p hp
    cases hp with
    | top hp =>
      obtain rfl : Ptr.node c = p := by simpa [h.rootNode] using hp
      exact ⟨c, rfl, h.alive, h.parent, h.counted, h.bitmap⟩
    | child _ deep _ _ => simp [h.height] at deep

def InsertOk (root : Radix ι) (key : ℕ) (allocs : List ℕ) : Prop :=
  (root.height ≠ 0 → root.maxKey < key → allocs = []) ∧
    (root.height = 0 → 63 < key → allocs.length ≤ 1)

structure DeleteKeeps (root : Radix ι) (m : ℕ → Option ι) (key : ℕ) : Prop where
  rootKept : freesRoot root key = false
  notOnlyZero : ¬OnlyZero (Function.update m key none)

variable {root : Radix ι} {m : ℕ → Option ι} {c : ℕ}

theorem LeafRoot.lookup (h : LeafRoot root m c) {key : ℕ} (hkey : key < 64) :
    radixItemInfoLookup root key = some (some ⟨c, key, key⟩) := by
  have hindex : nextChild 0 key = key := by
    rw [nextChild_eq, pow_zero, Nat.div_one]
    omega
  have hle : ¬63 < key := by omega
  simp [radixItemInfoLookup, h.rootNode, h.maxKey, hle, asNode, h.height, descend, hindex]

theorem LeafRoot.lookup_above (h : LeafRoot root m c) {key : ℕ} (hkey : ¬key < 64) :
    radixItemInfoLookup root key = some none := by
  have hgt : 63 < key := by omega
  simp [radixItemInfoLookup, h.rootNode, h.maxKey, hgt]

/-- The map of the tree after an insertion that reported `out`. -/
def mapAfter (m : ℕ → Option ι) (key : ℕ) (item : ι) (out : ℤ) : ℕ → Option ι :=
  if out = 0 then Function.update m key (some item) else m

theorem LeafRoot.insert_item (h : LeafRoot root m c) {key : ℕ} (hkey : key < 64) (item : ι)
    (hnone : m key = none) :
    LeafRoot (root.setNode c (·.addChild key (.item item))) (Function.update m key (some item)) c := by
  have hslot : (root.nodes c).children key = none := by rw [h.children key hkey, hnone]; rfl
  refine ⟨h.rootNode, h.height, h.maxKey, h.alive, ?_, ?_, ?_, ?_, ?_⟩
  · simpa [RadixNode.addChild] using h.parent
  · intro i hi
    by_cases hik : i = key
    · subst hik
      simp [RadixNode.addChild]
    · simpa [RadixNode.addChild, hik] using h.children i hi
  · simpa using h.counted.addChild (.item item) hkey hslot
  · simpa using h.bitmap.addChild key (.item item)
  · intro k hk
    have hne : k ≠ key := by omega
    simpa [hne] using h.above k hk

theorem LeafRoot.insertDown (h : LeafRoot root m c) (key : ℕ) (allocs : List ℕ) :
    Radix.insertDown key (root.height - 1) root c allocs = some (root, .ok c) := by
  rw [h.height]
  rfl

theorem expandLoop_succ (key fuel : ℕ) {root₁ : Radix ι} {allocs allocs₁ : List ℕ}
    (hgrow : root.height = 0 ∨ root.maxKey < key)
    (heq : expandTree root allocs = some (root₁, 0, allocs₁)) :
    expandLoop key (fuel + 1) root allocs = expandLoop key fuel root₁ allocs₁ := by
  simp [expandLoop, hgrow, heq]

/-- An insertion whose expansion comes to a tree of one leaf and does not put a root above it. -/
theorem LeafRoot.insert (h : LeafRoot root m c) {key fuel : ℕ} (item : ι) {allocs allocs₀ : List ℕ}
    {root₀ : Radix ι} (hstart : expandLoop key expandBound root₀ allocs₀ =
      expandLoop key (fuel + 1) root allocs) (hok : 63 < key → allocs = []) :
    ∃ root' out, radixTreeInsert root₀ key item allocs₀ = some (root', out) ∧
      LeafRoot root' (mapAfter m key item out) c := by
  by_cases hkey : key < 64
  · have hexp : expandLoop key (fuel + 1) root allocs = some (root, 0, allocs) := by
      have hle : ¬63 < key := by omega
      simp [expandLoop, h.height, h.maxKey, hle]
    have hindex : nextChild 0 key = key := by
      rw [nextChild_eq, pow_zero, Nat.div_one]
      omega
    have hslot := h.children key hkey
    cases hm : m key with
    | some x =>
      rw [hm, Option.map_some] at hslot
      refine ⟨root, -eEXIST, ?_, by simpa [mapAfter, eEXIST] using h⟩
      simp [radixTreeInsert, hstart, hexp, h.rootNode, asNode, h.insertDown, hindex, hslot]
    | none =>
      rw [hm, Option.map_none] at hslot
      refine ⟨_, 0, ?_, by simpa [mapAfter] using h.insert_item hkey item hm⟩
      simp [radixTreeInsert, hstart, hexp, h.rootNode, asNode, h.insertDown, hindex, hslot]
  · obtain rfl := hok (by omega)
    have hgt : 63 < key := by omega
    refine ⟨root, -eNOMEM, ?_, by simpa [mapAfter, eNOMEM] using h⟩
    simp [radixTreeInsert, hstart, expandLoop, expandTree, h.maxKey, hgt, eNOMEM]

theorem NoRoot.expand (h : NoRoot root m) (a : ℕ) (allocs : List ℕ) :
    ∃ root', expandTree root (a :: allocs) = some (root', 0, allocs) ∧ LeafRoot root' m a := by
  refine ⟨_, by simp [expandTree, h.height, setNode, kmemAlloc]; rfl, ?_⟩
  refine ⟨rfl, rfl, rfl, by simp, by simp [zeroNode], ?_, ?_, ?_, fun k _ => h.map k⟩
  · intro i _
    simp [zeroNode, h.rootNode, h.map]
  · simp [Counted, childCount, zeroNode, h.rootNode]
  · intro i _
    simp [zeroNode, h.rootNode]

theorem NoRoot.insert (h : NoRoot root m) {key : ℕ} (item : ι) {allocs : List ℕ}
    (hok : 63 < key → allocs.length ≤ 1) :
    ∃ root' out, radixTreeInsert root key item allocs = some (root', out) ∧
      Flat root' (mapAfter m key item out) := by
  cases allocs with
  | nil =>
    refine ⟨root, -eNOMEM, ?_, .inl (by simpa [mapAfter, eNOMEM] using h)⟩
    simp [radixTreeInsert, expandLoop, expandBound, expandTree, h.height, eNOMEM]
  | cons a allocs =>
    obtain ⟨root₁, hexp, hleaf⟩ := h.expand a allocs
    have hloop := expandLoop_succ key 7 (.inl h.height) hexp
    obtain ⟨root', out, heq, hleaf'⟩ := hleaf.insert item hloop (by
      intro hgt
      simpa using hok hgt)
    exact ⟨root', out, heq, .inr ⟨a, hleaf'⟩⟩

theorem Flat.insert (h : Flat root m) {key : ℕ} (item : ι) {allocs : List ℕ}
    (hok : InsertOk root key allocs) :
    ∃ root' out, radixTreeInsert root key item allocs = some (root', out) ∧
      Flat root' (mapAfter m key item out) := by
  obtain h | ⟨c, h⟩ := h
  · exact h.insert item (hok.2 h.height)
  · have hstart : expandLoop key expandBound root allocs = expandLoop key (7 + 1) root allocs := rfl
    obtain ⟨root', out, heq, hleaf⟩ := h.insert item hstart (by
      intro hgt
      exact hok.1 (by simp [h.height]) (by rw [h.maxKey]; exact hgt))
    exact ⟨root', out, heq, .inr ⟨c, hleaf⟩⟩

theorem LeafRoot.drop_item (h : LeafRoot root m c) {key : ℕ} (hkey : key < 64)
    (hsome : m key ≠ none) :
    LeafRoot (root.setNode c (·.dropChild key)) (Function.update m key none) c := by
  have hslot : (root.nodes c).children key ≠ none := by
    rw [h.children key hkey]
    simpa using hsome
  refine ⟨h.rootNode, h.height, h.maxKey, h.alive, ?_, ?_, ?_, ?_, ?_⟩
  · simpa [RadixNode.dropChild] using h.parent
  · intro i hi
    by_cases hik : i = key
    · subst hik
      simp [RadixNode.dropChild]
    · simpa [RadixNode.dropChild, hik] using h.children i hi
  · simpa using h.counted.dropChild hkey hslot
  · simpa using h.bitmap.dropChild key
  · intro k hk
    have hne : k ≠ key := by omega
    simpa [hne] using h.above k hk

theorem LeafRoot.shrinkTree (h : LeafRoot root m c) (hm : ¬OnlyZero m) :
    Radix.shrinkTree root = some root := by
  have hloop : shrinkLoop root.height root = some root := by
    rw [h.height]
    by_cases hone : (root.nodes c).count = 1
    · cases hzero : (root.nodes c).children 0 with
      | none => simp [shrinkLoop, h.rootNode, asNode, hone, hzero]
      | some child =>
        refine absurd ⟨?_, ?_⟩ hm
        · intro h0
          rw [h.children 0 (by omega), h0] at hzero
          simp at hzero
        · intro k hk
          by_cases hlt : k < 64
          · have hnone := children_of_childCount_eq_one (h.counted ▸ hone) hlt (by simp [hzero]) hk
            rw [h.children k hlt] at hnone
            simpa using hnone
          · exact h.above k (by omega)
    · simp [shrinkLoop, h.rootNode, asNode, hone]
  have hmax : maxKeyId root.height = root.maxKey := by
    rw [h.height, h.maxKey]
    rfl
  simp [Radix.shrinkTree, hloop, hmax]

theorem LeafRoot.delete (h : LeafRoot root m c) {key : ℕ} (deleted : Bool)
    (hok : m key ≠ none → DeleteKeeps root m key) :
    ∃ root', radixTreeDelete root key deleted = some (root', m key) ∧
      LeafRoot root' (Function.update m key none) c := by
  cases hm : m key with
  | none =>
    refine ⟨root, ?_, by rw [← hm, Function.update_eq_self]; exact h⟩
    by_cases hkey : key < 64
    · simp [radixTreeDelete, h.lookup hkey, h.children key hkey, hm, asItem]
    · simp [radixTreeDelete, h.lookup_above hkey]
  | some x =>
    have hkey : key < 64 := by
      by_contra hge
      simp [h.above key (by omega)] at hm
    obtain ⟨hkept, hzero⟩ := hok (by simp [hm])
    have hdrop := h.drop_item hkey (by simp [hm])
    have hparent : ((root.nodes c).dropChild key).parent = none := h.parent
    have hcount : ((root.nodes c).dropChild key).count ≠ 0 := by
      have hne : (root.nodes c).count ≠ 1 := by
        simpa [freesRoot, h.rootNode, asNode, h.height, singlePath] using hkept
      have hslot : (root.nodes c).children key ≠ none := by simp [h.children key hkey, hm]
      have hc := childCount_dropChild hkey hslot
      have hb := h.counted.dropChild hkey hslot
      have ha := h.counted
      unfold Counted at ha hb
      omega
    refine ⟨root.setNode c (·.dropChild key), ?_, hdrop⟩
    simp [radixTreeDelete, h.lookup hkey, h.children key hkey, hm, asItem, radixTreeRemoveItem,
      hcount, hparent, removeUp, hdrop.shrinkTree hzero]

theorem Flat.delete (h : Flat root m) {key : ℕ} (deleted : Bool)
    (hok : m key ≠ none → DeleteKeeps root m key) :
    ∃ root', radixTreeDelete root key deleted = some (root', m key) ∧
      Flat root' (Function.update m key none) := by
  obtain h | ⟨c, h⟩ := h
  · have hm := h.map key
    refine ⟨root, ?_, .inl (by rw [← hm, Function.update_eq_self]; exact h)⟩
    simp [radixTreeDelete, radixItemInfoLookup, h.rootNode, hm]
  · obtain ⟨root', heq, hleaf⟩ := h.delete deleted hok
    exact ⟨root', heq, .inr ⟨c, hleaf⟩⟩

/-- One call, where any node allocation may fail. The map follows what the call reports. -/
def shapeStep (s : State ι) : Event ι → Option (State ι)
  | .insert key item allocs =>
      if key < 2 ^ 32 ∧ Fresh s.tree allocs then do
        let (tree, out) ← radixTreeInsert s.tree key item allocs
        some ⟨tree, mapAfter s.map key item out⟩
      else none
  | .delete key deleted =>
      if key < 2 ^ 32 then do
        let (tree, _) ← radixTreeDelete s.tree key deleted
        some ⟨tree, Function.update s.map key none⟩
      else none

def shapeMachine (ι : Type) : Machine (State ι) (Event ι) where
  init s := ∃ heap, s = ⟨radixTreeInit heap, fun _ => none⟩
  step := shapeStep

/-- No insertion puts a root above an existing one, no deletion frees or replaces the root. -/
def ShapeOk (s : State ι) : Event ι → Prop
  | .insert key _ allocs => InsertOk s.tree key allocs
  | .delete key _ => s.map key ≠ none → DeleteKeeps s.tree s.map key

theorem flat_step {s t : State ι} {e : Event ι} (h : Flat s.tree s.map) (hok : ShapeOk s e)
    (hstep : shapeStep s e = some t) : Flat t.tree t.map := by
  cases e with
  | insert key item allocs =>
    by_cases hlegal : key < 2 ^ 32 ∧ Fresh s.tree allocs
    · obtain ⟨root', out, heq, hflat⟩ := h.insert item hok
      simp only [shapeStep, if_pos hlegal, heq, Option.bind_eq_bind, Option.bind_some,
        Option.some.injEq] at hstep
      subst hstep
      exact hflat
    · simp only [shapeStep, if_neg hlegal, reduceCtorEq] at hstep
  | delete key deleted =>
    by_cases hlegal : key < 2 ^ 32
    · obtain ⟨root', heq, hflat⟩ := h.delete deleted hok
      simp only [shapeStep, if_pos hlegal, heq, Option.bind_eq_bind, Option.bind_some,
        Option.some.injEq] at hstep
      subst hstep
      exact hflat
    · simp only [shapeStep, if_neg hlegal, reduceCtorEq] at hstep

/-- In every run that meets `ShapeOk` the representation is well formed, and no call of such
a run follows a null pointer or takes an item for a node. -/
theorem radix_well_formed (s : State ι) (hs : (shapeMachine ι).Reach ShapeOk s) :
    WellFormed s.tree ∧ ∀ e, ShapeOk s e →
      match e with
      | .insert key item allocs => (radixTreeInsert s.tree key item allocs).isSome
      | .delete key deleted => (radixTreeDelete s.tree key deleted).isSome := by
  have h : Flat s.tree s.map := by
    refine Machine.Reach.invariant (I := fun s => Flat s.tree s.map) ?_ ?_ hs
    · intro s hs
      obtain ⟨heap, rfl⟩ := hs
      exact .inl ⟨rfl, rfl, rfl, fun _ => rfl⟩
    · intro s e t hi hok hstep
      exact flat_step hi hok hstep
  refine ⟨h.wellFormed, ?_⟩
  intro e hok
  cases e with
  | insert key item allocs =>
    obtain ⟨root', out, heq, -⟩ := h.insert item hok
    simp [heq]
  | delete key deleted =>
    obtain ⟨root', heq, -⟩ := h.delete deleted hok
    simp [heq]

/-- One insertion of key 7 keeps the guard. -/
theorem radix_well_formed_one_key : ∃ s, (shapeMachine ℕ).run start [.insert 7 70 [0]] = some s ∧
    WellFormed s.tree := by
  obtain ⟨s, hs⟩ : ∃ s, shapeStep start (.insert 7 70 [0]) = some s := ⟨_, rfl⟩
  have h₁ : (shapeMachine ℕ).Reach ShapeOk start := .init ⟨_, rfl⟩
  have hok : ShapeOk start (.insert 7 70 [0]) := ⟨fun h => absurd rfl h, fun _ => by decide⟩
  refine ⟨s, hs, (radix_well_formed s (.step h₁ hok hs)).1⟩

/-- Key 64 put in an empty tree: the root holds the first leaf in slot 0 and bit 0 is clear. -/
theorem radix_bitmap_wrong : ¬∀ s : State ℕ, (shapeMachine ℕ).Reachable s → WellFormed s.tree := by
  intro h
  obtain ⟨s, hs, hroot, hslot, hbit⟩ : ∃ s, (shapeMachine ℕ).run start
      [.insert 64 640 [0, 1, 2]] = some s ∧ s.tree.rootNode = some (.node 1) ∧
        (s.tree.nodes 1).children 0 = some (.node 0) ∧ (s.tree.nodes 1).bitmap.getLsbD 0 = false :=
    ⟨_, rfl, rfl, rfl, rfl⟩
  have hwf := h s (Machine.Reachable.run (.init ⟨_, rfl⟩) _ hs)
  obtain ⟨a, ha, -, -, -, hbitmap⟩ := hwf.nodes _ _ _ (.top hroot)
  obtain rfl : 1 = a := by injection ha
  have hbad := hbitmap 0 (by omega)
  rw [hbit, hslot] at hbad
  simp at hbad

end Almos.Radix
