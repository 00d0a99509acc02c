import Mathlib
import Almos.Bits
import Almos.RadixGrowth
import Almos.StaleWalk

/-!
# Gang lookup

The items from a first key on, in key order. The walk keeps the slot it is in for every level, but
moves that slot by one only when it comes back from a child, whatever child the bitmap search took
it to. It then enters the same child once more for each empty slot before it.
-/
namespace Almos.Radix
open Word

variable {ι : Type}

/-- The variables of the loop; the slots taken are kept by level. -/
structure GangState where
  currentNode : ℕ
  level : ℕ
  nextChild : ℕ
  childOrder : ℕ → ℕ

def wordsOf (bitmap : BitVec 64) : Bits.Bitmap := fun i => bitmap.extractLsb' (32 * i) 32

def nextSet (node : RadixNode ι) (slot : ℕ) : ℕ :=
  (Bits.bitmapFfs2 (wordsOf node.bitmap) (slot + 1) 8).getD 64

def gangDown (root : Radix ι) (first : ℕ) : ℕ → ℕ → (ℕ → ℕ) → Option GangState
  | 0, currentNode, childOrder =>
      let next := nextChild 0 first
      some ⟨currentNode, 0, next, Function.update childOrder 0 next⟩
  | level + 1, currentNode, childOrder =>
      let next := nextChild (level + 1) first
      let childOrder := Function.update childOrder (level + 1) next
      match (root.nodes currentNode).children next with
      | none => some ⟨currentNode, level + 1, next, childOrder⟩
      | some (.node a) => gangDown root first level a childOrder
      | some (.item _) => none

def gangStep (root : Radix ι) (st : GangState) : Option (Option (GangState × Option ι)) :=
  let node := root.nodes st.currentNode
  if st.nextChild = 64 then
    match node.parent with
    | none => some none
    | some parent =>
        if st.level + 1 < root.height then
          let next := st.childOrder (st.level + 1) + 1
          some (some (⟨parent, st.level + 1, next,
            Function.update st.childOrder (st.level + 1) next⟩, none))
        else none
  else
    match node.children st.nextChild, st.level with
    | none, _ => some (some ({ st with nextChild := nextSet node st.nextChild }, none))
    | some (.item x), 0 => some (some ({ st with nextChild := nextSet node st.nextChild }, some x))
    | some (.node a), level + 1 =>
        some (some (⟨a, level, 0, Function.update st.childOrder level 0⟩, none))
    | some _, _ => none

def gangLoop (root : Radix ι) (maxItems : ℕ) : ℕ → GangState → List ι → Option (List ι)
  | 0, _, _ => none
  | fuel + 1, st, results =>
      if results.length < maxItems then do
        match ← gangStep root st with
        | none => some results
        | some (st, found) => gangLoop root maxItems fuel st (results ++ found.toList)
      else some results

def gangFirst (root : Radix ι) (st : GangState) : Option (Option ι) :=
  if st.level = 0 then asItem ((root.nodes st.currentNode).children st.nextChild) else some none

/-- The results; `childOrder` is what the uninitialised array holds. -/
def radixTreeGangLookup (root : Radix ι) (first maxItems : ℕ) (childOrder : ℕ → ℕ) (fuel : ℕ) :
    Option (List ι) :=
  if root.rootNode.isNone ∨ root.maxKey < first ∨ maxItems = 0 then some []
  else do
    let top ← asNode root.rootNode
    let st ← gangDown root first (root.height - 1) top childOrder
    let found ← gangFirst root st
    let next := st.nextChild + 1
    gangLoop root maxItems fuel
      { st with nextChild := next, childOrder := Function.update st.childOrder st.level next }
      found.toList

lemma bitmapState_wordsOf (bitmap : BitVec 64) (i : ℕ) :
    Bits.bitmapState (wordsOf bitmap) i = bitmap.getLsbD i := by
  have hmod : i % Bits.cpuWidth < 32 := Nat.mod_lt _ (by decide)
  have hdiv : 32 * (i / Bits.cpuWidth) + i % Bits.cpuWidth = i := Nat.div_add_mod i 32
  rw [Bits.bitmapState, wordsOf, BitVec.getLsbD_extractLsb', hdiv]
  simp [hmod]

lemma nextSet_spec (node : RadixNode ι) {slot : ℕ} (hslot : slot < 64) :
    slot < nextSet node slot ∧ nextSet node slot ≤ 64 ∧
      ∀ i, slot < i → i < nextSet node slot → node.bitmap.getLsbD i = false := by
  by_cases hlast : slot = 63
  · have hend : nextSet node slot = 64 := by
      rw [hlast]
      rfl
    rw [hend]
    exact ⟨hslot, le_rfl, fun i hlo hhi => by omega⟩
  · have hleast : Bits.LeastSet (wordsOf node.bitmap) (slot + 1) (8 * 8)
        (Bits.bitmapFfs2 (wordsOf node.bitmap) (slot + 1) 8) :=
      Bits.bitmapFfs2_spec _ (by omega) (by decide)
    rw [nextSet]
    cases hfound : Bits.bitmapFfs2 (wordsOf node.bitmap) (slot + 1) 8 with
    | none =>
      rw [hfound] at hleast
      refine ⟨hslot, le_rfl, fun i hlo hhi => ?_⟩
      rw [Option.getD_none] at hhi
      rw [← bitmapState_wordsOf]
      exact hleast i hlo (by omega)
    | some c =>
      rw [hfound] at hleast
      obtain ⟨hlo, hhi, -, hbefore⟩ := hleast
      refine ⟨hlo, (show c < 64 from hhi).le, fun i hslot' hi => ?_⟩
      rw [Option.getD_some] at hi
      rw [← bitmapState_wordsOf]
      exact hbefore i hslot' hi

/-- From a state, the rounds of the loop find these items one after the other. -/
inductive Walk (root : Radix ι) : GangState → List ι → Prop
  | stop {st : GangState} (h : gangStep root st = some none) : Walk root st []
  | next {st st' : GangState} {found : Option ι} {l : List ι}
      (h : gangStep root st = some (some (st', found))) (rest : Walk root st' l) :
      Walk root st (found.toList ++ l)

variable {root : Radix ι} {lay : Layout} {m : ℕ → Option ι} {st : GangState} {l : List ι}

lemma gangLoop_walk (h : Walk root st l) (maxItems : ℕ) :
    ∃ n, ∀ fuel, n ≤ fuel → ∀ results : List ι, results.length ≤ maxItems →
      gangLoop root maxItems fuel st results = some (results ++ l.take (maxItems - results.length)) := by
  induction h with
  | stop hstop =>
    refine ⟨1, fun fuel hfuel results hlen => ?_⟩
    obtain ⟨fuel, rfl⟩ := Nat.exists_eq_add_of_le' hfuel
    rw [gangLoop]
    by_cases hmax : results.length < maxItems
    · simp [hmax, hstop]
    · simp [hmax]
  | @next st st' found l hstep _ ih =>
    obtain ⟨n, hn⟩ := ih
    refine ⟨n + 1, fun fuel hfuel results hlen => ?_⟩
    obtain ⟨fuel, rfl⟩ := Nat.exists_eq_add_of_le' (show 1 ≤ fuel by omega)
    rw [gangLoop]
    by_cases hmax : results.length < maxItems
    · have hfound : found.toList.length ≤ 1 := by cases found <;> simp
      have hlen' : (results ++ found.toList).length ≤ maxItems := by
        rw [List.length_append]
        omega
      have hrest := hn fuel (by omega) (results ++ found.toList) hlen'
      have htake : found.toList.take (maxItems - results.length) = found.toList :=
        List.take_of_length_le (by omega)
      rw [if_pos hmax, hstep, Option.bind_eq_bind, Option.bind_some]
      change gangLoop root maxItems fuel st' (results ++ found.toList) = _
      rw [hrest, List.take_append, htake, List.length_append, List.append_assoc, Nat.sub_sub]
    · have hzero : maxItems - results.length = 0 := by omega
      rw [if_neg hmax, hzero, List.take_zero, List.append_nil]

def itemsOf (m : ℕ → Option ι) (ks : List ℕ) : List ι := ks.filterMap m

lemma itemsOf_append (ks ks' : List ℕ) : itemsOf m (ks ++ ks') = itemsOf m ks ++ itemsOf m ks' :=
  List.filterMap_append

def present (m : ℕ → Option ι) (k : ℕ) : Bool := (m k).isSome

def hasNode (lay : Layout) (r n : ℕ) : Bool := (lay r n).isSome

section
variable (h : Grown root lay m)
include h

lemma gangStep_up {r n a : ℕ} (ha : lay r n = some a) (hr : r + 1 < root.height)
    (order : ℕ → ℕ) : ∃ p, lay (r + 1) (n / 64) = some p ∧
      gangStep root ⟨a, r, 64, order⟩ = some (some (⟨p, r + 1, order (r + 1) + 1,
        Function.update order (r + 1) (order (r + 1) + 1)⟩, none)) := by
  obtain ⟨p, hp, hparent⟩ := h.rep.parents r n a ha hr
  exact ⟨p, hp, by simp [gangStep, hparent, hr]⟩

lemma walk_seek {r n a c : ℕ} (ha : lay r n = some a) (hc : c ≤ 64)
    (hchild : c < 64 → kid lay m r n c ≠ none) {order : ℕ → ℕ}
    (hwalk : Walk root ⟨a, r, c, order⟩ l) :
    ∀ d o, o + d = c → (∀ i, o ≤ i → i < c → kid lay m r n i = none) →
      Walk root ⟨a, r, o, order⟩ l := by
  intro d
  induction d using Nat.strong_induction_on with
  | _ d ih =>
    intro o ho hempty
    by_cases hoc : o = c
    · rw [hoc]
      exact hwalk
    · have hnone : (root.nodes a).children o = none := by
        rw [h.rep.kids _ _ _ ha o (by omega)]
        exact hempty o le_rfl (by omega)
      obtain ⟨hlo, hhi, hclear⟩ := nextSet_spec (root.nodes a) (show o < 64 by omega)
      have hnext : nextSet (root.nodes a) o ≤ c := by
        by_contra hgt
        have hbit := hclear c (by omega) (by omega)
        have hsome : ((root.nodes a).children c).isSome := by
          rw [h.rep.kids _ _ _ ha c (by omega)]
          exact Option.isSome_iff_ne_none.mpr (hchild (by omega))
        rw [h.covered _ _ _ ha c (by omega) (by omega) hsome] at hbit
        cases hbit
      have hstep : gangStep root ⟨a, r, o, order⟩ =
          some (some (⟨a, r, nextSet (root.nodes a) o, order⟩, none)) := by
        have hne : o ≠ 64 := by omega
        simp [gangStep, hne, hnone]
      exact .next hstep (ih (c - nextSet (root.nodes a) o) (by omega) _ (by omega)
        fun i hi hic => hempty i (by omega) hic)

lemma walk_leaf {n a : ℕ} (ha : lay 0 n = some a) {order : ℕ → ℕ}
    (hwalk : Walk root ⟨a, 0, 64, order⟩ l) :
    ∀ d o, o + d = 64 →
      Walk root ⟨a, 0, o, order⟩ (itemsOf m (StaleWalk.keys (present m) (64 * n + o) d) ++ l) := by
  intro d
  induction d using Nat.strong_induction_on with
  | _ d ih =>
    intro o ho
    by_cases hend : o = 64
    · obtain rfl : d = 0 := by omega
      rw [hend]
      exact hwalk
    · have hkid := h.rep.kids _ _ _ ha o (by omega)
      obtain ⟨hlo, hhi, hclear⟩ := nextSet_spec (root.nodes a) (show o < 64 by omega)
      have hrest := ih (64 - nextSet (root.nodes a) o) (by omega) (nextSet (root.nodes a) o) (by omega)
      have hskip : StaleWalk.keys (present m) (64 * n + (o + 1)) (nextSet (root.nodes a) o - (o + 1)) =
          [] := by
        refine StaleWalk.keys_eq_nil.mpr fun k hk hk' => ?_
        have hnone : kid lay m 0 n (k - 64 * n) = none := by
          by_contra hsome
          rw [← h.rep.kids _ _ _ ha _ (by omega)] at hsome
          have hbit := h.covered _ _ _ ha (k - 64 * n) (by omega) (by omega)
            (Option.isSome_iff_ne_none.mpr hsome)
          rw [hclear _ (by omega) (by omega)] at hbit
          cases hbit
        have hkey : 64 * n + (k - 64 * n) = k := by omega
        rw [kid, hkey, Option.map_eq_none_iff] at hnone
        rw [present, hnone]
        rfl
      have hsplit : StaleWalk.keys (present m) (64 * n + o) d =
          StaleWalk.keys (present m) (64 * n + o) 1 ++
            StaleWalk.keys (present m) (64 * n + nextSet (root.nodes a) o)
              (64 - nextSet (root.nodes a) o) := by
        have hd : d = 1 + ((nextSet (root.nodes a) o - (o + 1)) + (64 - nextSet (root.nodes a) o)) := by
          omega
        have hnext : 64 * n + (o + 1) + (nextSet (root.nodes a) o - (o + 1)) =
            64 * n + nextSet (root.nodes a) o := by omega
        rw [hd, StaleWalk.keys_append, StaleWalk.keys_append, Nat.add_assoc (64 * n) o 1, hskip,
          List.nil_append, hnext]
      have hone : itemsOf m (StaleWalk.keys (present m) (64 * n + o) 1) = (m (64 * n + o)).toList := by
        cases hm : m (64 * n + o) with
        | none => simp [itemsOf, StaleWalk.keys, present, hm]
        | some x => simp [itemsOf, StaleWalk.keys, present, hm]
      have hstep : gangStep root ⟨a, 0, o, order⟩ =
          some (some (⟨a, 0, nextSet (root.nodes a) o, order⟩, m (64 * n + o))) := by
        rw [kid] at hkid
        cases hm : m (64 * n + o) with
        | none => simp [gangStep, hend, hkid, hm]
        | some x => simp [gangStep, hend, hkid, hm]
      rw [hsplit, itemsOf_append, hone, List.append_assoc]
      exact .next hstep hrest

/-- The rest of a node above the leaves, if the nodes below it are walked as they should. -/
lemma walk_node {r n a : ℕ} (ha : lay (r + 1) n = some a)
    (hchild : ∀ i b (order : ℕ → ℕ) l, lay r (64 * n + i) = some b → order r = 0 →
      (∀ order' : ℕ → ℕ, (∀ j, r < j → order' j = order j) → Walk root ⟨b, r, 64, order'⟩ l) →
      Walk root ⟨b, r, 0, order⟩
        (itemsOf m (StaleWalk.visit 64 (present m) (hasNode lay) r (64 * n + i)) ++ l)) :
    ∀ d o (order : ℕ → ℕ), o + d = 64 → order (r + 1) = o →
      (∀ order' : ℕ → ℕ, (∀ j, r + 1 < j → order' j = order j) → Walk root ⟨a, r + 1, 64, order'⟩ l) →
      Walk root ⟨a, r + 1, o, order⟩
        (itemsOf m (StaleWalk.stale (StaleWalk.slots 64 (present m) (hasNode lay) r n) d o) ++ l) := by
  intro d
  induction d with
  | zero =>
    intro o order ho _ hwalk
    obtain rfl : o = 64 := by omega
    exact hwalk order fun _ _ => rfl
  | succ d ih =>
    intro o order ho horder hwalk
    have hslot : ∀ i, StaleWalk.slots 64 (present m) (hasNode lay) r n i = none →
        kid lay m (r + 1) n i = none := by
      intro i hi
      rw [StaleWalk.slots, hasNode] at hi
      rw [kid]
      cases hl : lay r (64 * n + i) with
      | none => rfl
      | some b => simp [hl] at hi
    rw [StaleWalk.stale, itemsOf_append, List.append_assoc]
    cases hfirst : StaleWalk.firstSlot (StaleWalk.slots 64 (present m) (hasNode lay) r n) (d + 1) o with
    | none =>
      have hnone := StaleWalk.firstSlot_none hfirst
      rw [Option.getD_none, StaleWalk.stale_nil fun i hi hid => hnone i (by omega) (by omega)]
      exact walk_seek h ha le_rfl (fun hlt => absurd hlt (Nat.lt_irrefl _)) (hwalk order fun _ _ => rfl)
        (d + 1) o ho fun i hi hid => hslot i (hnone i hi (by omega))
    | some items =>
      obtain ⟨c, hlo, hhi, hc, hbefore⟩ := StaleWalk.firstSlot_some hfirst
      obtain ⟨b, hb, rfl⟩ : ∃ b, lay r (64 * n + c) = some b ∧
          items = StaleWalk.visit 64 (present m) (hasNode lay) r (64 * n + c) := by
        rw [StaleWalk.slots] at hc
        split_ifs at hc with hnode
        obtain ⟨b, hb⟩ := Option.isSome_iff_exists.mp hnode
        exact ⟨b, hb, (Option.some.inj hc).symm⟩
      have hkid : kid lay m (r + 1) n c = some (.node b) := by rw [kid, hb, Option.map_some]
      have hchildren : (root.nodes a).children c = some (.node b) := by
        rw [h.rep.kids _ _ _ ha c (by omega), hkid]
      have hc64 : c ≠ 64 := by omega
      have hdown : gangStep root ⟨a, r + 1, c, order⟩ =
          some (some (⟨b, r, 0, Function.update order r 0⟩, none)) := by
        simp [gangStep, hc64, hchildren]
      rw [Option.getD_some]
      refine walk_seek h ha (by omega) (fun _ => by rw [hkid]; exact Option.some_ne_none _) ?_
        (c - o) o (by omega) fun i hi hic => hslot i (hbefore i hi hic)
      refine .next hdown (hchild c b _ _ hb (Function.update_self _ _ _) fun order' horder' => ?_)
      -- back from the child, the slot moves by one from where it was
      have hr := (h.rep.bound _ _ _ ha).1
      obtain ⟨p, hp, hup⟩ := gangStep_up h hb hr order'
      have hdiv : (64 * n + c) / 64 = n := by omega
      rw [hdiv, ha, Option.some.injEq] at hp
      subst hp
      have hkept : ∀ j, r < j → order' j = order j := by
        intro j hj
        rw [horder' j hj, Function.update_of_ne (by omega)]
      have hcursor : order' (r + 1) + 1 = o + 1 := by rw [hkept _ (by omega), horder]
      rw [hcursor] at hup
      refine .next hup (ih (o + 1) _ (by omega) (Function.update_self _ _ _) fun order'' horder'' => ?_)
      refine hwalk order'' fun j hj => ?_
      rw [horder'' j hj, Function.update_of_ne (by omega), hkept j (by omega)]

lemma walk_visit : ∀ r n a (order : ℕ → ℕ) l, lay r n = some a → order r = 0 →
    (∀ order' : ℕ → ℕ, (∀ j, r < j → order' j = order j) → Walk root ⟨a, r, 64, order'⟩ l) →
    Walk root ⟨a, r, 0, order⟩
      (itemsOf m (StaleWalk.visit 64 (present m) (hasNode lay) r n) ++ l) := by
  intro r
  induction r with
  | zero =>
    intro n a order l ha _ hwalk
    exact walk_leaf h ha (hwalk order fun _ _ => rfl) 64 0 rfl
  | succ r ih =>
    intro n a order l ha horder hwalk
    exact walk_node h ha (fun i b order' l' hb hzero hwalk' => ih _ b order' l' hb hzero hwalk') 64 0
      order rfl horder hwalk

lemma walk_climb (first : ℕ) : ∀ n r a (order : ℕ → ℕ), r + n + 1 = root.height →
    lay r (first / 64 ^ (r + 1)) = some a →
    (∀ j, r < j → j < root.height → order j = nextChild j first) →
    Walk root ⟨a, r, 64, order⟩
      (itemsOf m (StaleWalk.climb 64 (present m) (hasNode lay) first r n)) := by
  intro n
  induction n with
  | zero =>
    intro r a order hr ha _
    have hparent := h.rep.parent_on_path h.rootParent ha
    rw [if_neg (by omega)] at hparent
    exact .stop (by simp [gangStep, hparent])
  | succ n ih =>
    intro r a order hr ha horder
    obtain ⟨p, hp, hup⟩ := gangStep_up h ha (by omega) order
    rw [Nat.div_div_eq_div_mul, ← pow_succ] at hp
    rw [horder (r + 1) (by omega) (by omega), nextChild_eq] at hup
    have hslot : first / 64 ^ (r + 1) % 64 < 64 := Nat.mod_lt _ (by decide)
    rw [StaleWalk.climb, itemsOf_append]
    refine .next hup (walk_node h hp (fun i b order' l hb hzero hwalk =>
      walk_visit h r _ b order' l hb hzero hwalk) _ _ _ (by omega) (Function.update_self _ _ _)
        fun order' horder' => ih (r + 1) p order' (by omega) hp fun j hj hjh => ?_)
    rw [horder' j hj, Function.update_of_ne (by omega), horder j (by omega) hjh]

end

section
variable (h : Grown root lay m)
include h

/-- The way down ends in the leaf of `first` or where the next node is missing. -/
lemma gangDown_spec (first : ℕ) : ∀ level a (order : ℕ → ℕ),
    lay level (first / 64 ^ (level + 1)) = some a →
    ∃ b r order', gangDown root first level a order = some ⟨b, r, nextChild r first, order'⟩ ∧
      lay r (first / 64 ^ (r + 1)) = some b ∧ r ≤ level ∧
      (r = 0 ∨ lay (r - 1) (first / 64 ^ r) = none) ∧
      (∀ j, r ≤ j → j ≤ level → order' j = nextChild j first) ∧
      ∀ j, level < j → order' j = order j := by
  intro level
  induction level with
  | zero =>
    intro a order ha
    refine ⟨a, 0, _, rfl, ha, le_rfl, .inl rfl, fun j _ hj => ?_, fun j hj => ?_⟩
    · rw [Nat.le_zero.mp hj, Function.update_self]
    · rw [Function.update_of_ne (by omega)]
  | succ level ih =>
    intro a order ha
    have hchild := h.rep.child_on_path ha
    cases hl : lay level (first / 64 ^ (level + 1)) with
    | none =>
      rw [hl, Option.map_none] at hchild
      refine ⟨a, level + 1, Function.update order (level + 1) (nextChild (level + 1) first), ?_, ha,
        le_rfl, .inr hl, fun j hlo hhi => ?_, fun j hj => ?_⟩
      · simp [gangDown, hchild]
      · rw [Nat.le_antisymm hhi hlo, Function.update_self]
      · rw [Function.update_of_ne (by omega)]
    | some c =>
      rw [hl, Option.map_some] at hchild
      obtain ⟨b, r, order', heq, hb, hr, hend, hpath, habove⟩ :=
        ih c (Function.update order (level + 1) (nextChild (level + 1) first)) hl
      refine ⟨b, r, order', ?_, hb, by omega, hend, fun j hlo hhi => ?_, fun j hj => ?_⟩
      · simp only [gangDown, hchild]
        exact heq
      · by_cases hj : j = level + 1
        · rw [hj, habove _ (by omega), Function.update_self]
        · exact hpath j hlo (by omega)
      · rw [habove j (by omega), Function.update_of_ne (by omega)]

lemma climb_missing {first r : ℕ} (hr : r + 1 < root.height)
    (hnone : lay (r + 1) (first / 64 ^ (r + 2)) = none) (n : ℕ) :
    StaleWalk.climb 64 (present m) (hasNode lay) first r (n + 1) =
      StaleWalk.climb 64 (present m) (hasNode lay) first (r + 1) n := by
  rw [StaleWalk.climb, StaleWalk.stale_nil, List.nil_append]
  intro i _ hi
  have hslot : first / 64 ^ (r + 1) % 64 < 64 := Nat.mod_lt _ (by decide)
  have hkid := h.rep.kid_eq_none hr hnone (show i < 64 by omega)
  rw [kid, Option.map_eq_none_iff] at hkid
  simp [StaleWalk.slots, hasNode, hkid]

lemma missing_below {first q : ℕ} (hq : q < root.height)
    (hnone : lay q (first / 64 ^ (q + 1)) = none) : ∀ d j, j + d = q → lay j (first / 64 ^ (j + 1)) = none := by
  intro d
  induction d with
  | zero =>
    rintro j rfl
    exact hnone
  | succ d ih =>
    intro j hj
    cases hl : lay j (first / 64 ^ (j + 1)) with
    | none => rfl
    | some a =>
      obtain ⟨p, hp, -⟩ := h.rep.parents _ _ _ hl (by omega)
      rw [Nat.div_div_eq_div_mul, ← pow_succ, ih (j + 1) (by omega)] at hp
      cases hp

lemma climb_skip {first : ℕ} : ∀ q n, q < root.height → lay q (first / 64 ^ (q + 1)) = none →
    StaleWalk.climb 64 (present m) (hasNode lay) first 0 (q + n) =
      StaleWalk.climb 64 (present m) (hasNode lay) first q n := by
  intro q
  induction q with
  | zero =>
    intro n _ _
    rw [Nat.zero_add]
  | succ q ih =>
    intro n hq hnone
    have hbelow := missing_below h hq hnone 1 q rfl
    rw [Nat.add_right_comm, Nat.add_assoc, ih (n + 1) (by omega) hbelow, climb_missing h hq hnone]

lemma radixTreeGangLookup_walk {first maxItems : ℕ} (hmax : first ≤ root.maxKey)
    (hfirst : first < 2 ^ 32) (hitems : 0 < maxItems) (order : ℕ → ℕ) :
    ∃ n, ∀ fuel, n ≤ fuel → radixTreeGangLookup root first maxItems order fuel =
      some ((itemsOf m (StaleWalk.walkFrom 64 (present m) (hasNode lay) first
        (root.height - 1))).take maxItems) := by
  by_cases hh : root.height = 0
  · have hm : ∀ k, present m k = false := by
      intro k
      cases hk : m k with
      | none => simp [present, hk]
      | some x =>
        obtain ⟨a, ha⟩ := h.rep.held k x hk
        have hlt := (h.rep.bound _ _ _ ha).1
        omega
    have hkeys : StaleWalk.keys (present m) first (64 - first % 64) = [] :=
      StaleWalk.keys_eq_nil.mpr fun k _ _ => hm k
    refine ⟨0, fun fuel _ => ?_⟩
    simp [radixTreeGangLookup, h.rep.empty hh, StaleWalk.walkFrom, hkeys, hh, StaleWalk.climb, itemsOf]
  obtain ⟨top, hroot, htop⟩ := h.rep.top (by omega)
  have hheight : root.height - 1 + 1 = root.height := by omega
  have hblock : first / 64 ^ (root.height - 1 + 1) = 0 := by
    rw [hheight]
    exact Nat.div_eq_of_lt ((le_maxKeyId_iff hfirst).mp (h.maxKey ▸ hmax))
  obtain ⟨a, r, order', hdown, ha, hr, hend, hpath, -⟩ :=
    gangDown_spec h first (root.height - 1) top order (by rw [hblock, htop])
  have hslot := nextChild_lt r first
  obtain ⟨found, l, hfound, hwalk, hl⟩ : ∃ (found : Option ι) (l : List ι),
      gangFirst root ⟨a, r, nextChild r first, order'⟩ = some found ∧
      Walk root ⟨a, r, nextChild r first + 1,
        Function.update order' r (nextChild r first + 1)⟩ l ∧
      found.toList ++ l = itemsOf m (StaleWalk.walkFrom 64 (present m) (hasNode lay) first
        (root.height - 1)) := by
    have hclimb := fun order'' : ℕ → ℕ => walk_climb h first (root.height - 1 - r) r a order''
      (by omega) ha
    cases r with
    | zero =>
      have hindex : nextChild 0 first = first % 64 := by rw [nextChild_eq, pow_zero, Nat.div_one]
      rw [zero_add, pow_one] at ha
      rw [hindex]
      rw [hindex] at hslot
      refine ⟨m first, _, ?_, walk_leaf h ha (hclimb _ fun j hj hjh => ?_) (64 - (first % 64 + 1))
        (first % 64 + 1) (by omega), ?_⟩
      · rw [gangFirst, if_pos rfl, h.rep.leaf_slot ha, asItem_map]
      · rw [Function.update_of_ne (by omega), hpath j (by omega) (by omega)]
      · have hsplit : 64 - first % 64 = 1 + (64 - (first % 64 + 1)) := by omega
        have hnext : 64 * (first / 64) + (first % 64 + 1) = first + 1 := by omega
        have hone : itemsOf m (StaleWalk.keys (present m) first 1) = (m first).toList := by
          cases hm : m first with
          | none => simp [itemsOf, StaleWalk.keys, present, hm]
          | some x => simp [itemsOf, StaleWalk.keys, present, hm]
        rw [StaleWalk.walkFrom, hsplit, StaleWalk.keys_append, itemsOf_append, itemsOf_append, hone,
          hnext, List.append_assoc, Nat.sub_zero]
    | succ r =>
      obtain hzero | hnone := hend
      · cases hzero
      rw [Nat.add_sub_cancel] at hnone
      refine ⟨none, _, if_neg (Nat.succ_ne_zero r), walk_node h ha (fun i b order'' l hb hzero hwalk =>
        walk_visit h r _ b order'' l hb hzero hwalk) (64 - (nextChild (r + 1) first + 1)) _ _
          (by omega) (Function.update_self _ _ _) fun order'' horder => hclimb _ fun j hj hjh => ?_, ?_⟩
      · rw [horder j hj, Function.update_of_ne (by omega), hpath j (by omega) (by omega)]
      · have hkeys : StaleWalk.keys (present m) first (64 - first % 64) = [] := by
          refine StaleWalk.keys_eq_nil.mpr fun k hlo hhi => ?_
          have hk : k / 64 = first / 64 := by omega
          cases hm : m k with
          | none => simp [present, hm]
          | some x =>
            obtain ⟨b, hb⟩ := h.rep.held k x hm
            have hleaf := h.rep.no_leaf first r (by omega) hnone
            rw [hk, hleaf] at hb
            cases hb
        have hskip := climb_skip h r (root.height - 1 - (r + 1) + 1) (by omega) hnone
        have hn : r + (root.height - 1 - (r + 1) + 1) = root.height - 1 := by omega
        rw [hn] at hskip
        rw [StaleWalk.walkFrom, hkeys, List.nil_append, hskip, StaleWalk.climb, itemsOf_append,
          nextChild_eq]
        rfl
  obtain ⟨n, hn⟩ := gangLoop_walk hwalk maxItems
  refine ⟨n, fun fuel hfuel => ?_⟩
  have hlen : found.toList.length ≤ maxItems := by
    have hone : found.toList.length ≤ 1 := by cases found <;> simp
    omega
  have htake : found.toList.take maxItems = found.toList := List.take_of_length_le hlen
  have hcond : ¬(root.rootNode.isNone ∨ root.maxKey < first ∨ maxItems = 0) := by
    rw [hroot]
    simp only [Option.isNone_some, Bool.false_eq_true, false_or]
    omega
  rw [radixTreeGangLookup, if_neg hcond]
  simp only [hroot, asNode, Option.bind_eq_bind, Option.bind_some, hdown, hfound]
  rw [hn fuel hfuel _ hlen, ← hl, List.take_append, htake]

end

def InsertDone (s : State ι) : Event ι → Prop
  | .insert key item allocs => ∃ tree, radixTreeInsert s.tree key item allocs = some (tree, 0)
  | .delete _ _ => False

def Tight (lay : Layout) (m : ℕ → Option ι) : Prop :=
  ∀ r n a, lay r n = some a → n = 0 ∨ ∃ k, m k ≠ none ∧ k / 64 ^ (r + 1) = n

structure Filled (root : Radix ι) (lay : Layout) (m : ℕ → Option ι) : Prop where
  grown : Grown root lay m
  tight : Tight lay m
  small : ∀ k, m k ≠ none → k < 2 ^ 32

lemma filled_init (heap : Radix ι) :
    Filled (radixTreeInit heap) (fun _ _ => none) (fun _ => none : ℕ → Option ι) :=
  ⟨grown_init heap, fun _ _ _ ha => (Option.some_ne_none _ ha.symm).elim,
    fun _ hk => (hk rfl).elim⟩

lemma Filled.insert (h : Filled root lay m) {key : ℕ} (hkey : key < 2 ^ 32) {item : ι}
    {allocs : List ℕ} (hfresh : Fresh root allocs) {root' : Radix ι}
    (heq : radixTreeInsert root key item allocs = some (root', 0)) :
    ∃ lay', Filled root' lay' (Function.update m key (some item)) ∧ Extends root lay root' lay' key := by
  obtain ⟨root₁, lay', out, heq₁, hgrown, hext, -, -⟩ := h.grown.insert hkey item hfresh
  rw [heq, Option.some.injEq, Prod.mk.injEq] at heq₁
  obtain ⟨rfl, rfl⟩ := heq₁
  rw [mapAfter, if_pos rfl] at hgrown
  refine ⟨lay', ⟨hgrown, fun r n a ha => ?_, fun k hk => ?_⟩, hext⟩
  · obtain hold | ⟨hn, -⟩ | ⟨hn, -⟩ := hext.fresh r n a ha
    · obtain hzero | ⟨k, hk, hkn⟩ := h.tight r n a hold
      · exact .inl hzero
      · refine .inr ⟨k, ?_, hkn⟩
        by_cases hkk : k = key
        · rw [hkk, Function.update_self]
          exact Option.some_ne_none _
        · rwa [Function.update_of_ne hkk]
    · refine .inr ⟨key, ?_, hn.symm⟩
      rw [Function.update_self]
      exact Option.some_ne_none _
    · exact .inl hn
  · by_cases hkk : k = key
    · rwa [hkk]
    · rw [Function.update_of_ne hkk] at hk
      exact h.small k hk

lemma insertDone_filled {s : State ι} (hs : (shapeMachine ι).Reach InsertDone s) :
    ∃ lay, Filled s.tree lay s.map := by
  refine Machine.Reach.invariant (I := fun s => ∃ lay, Filled s.tree lay s.map) ?_ ?_ hs
  · rintro _ ⟨heap, rfl⟩
    exact ⟨_, filled_init heap⟩
  · rintro s e t ⟨lay, h⟩ hok hnext
    have hstep : shapeStep s e = some t := hnext
    cases e with
    | delete key deleted => exact hok.elim
    | insert key item allocs =>
      obtain ⟨tree, heq⟩ := hok
      by_cases hlegal : key < 2 ^ 32 ∧ Fresh s.tree allocs
      · obtain ⟨lay', hfilled, -⟩ := h.insert hlegal.1 hlegal.2 heq
        simp only [shapeStep, if_pos hlegal, heq, Option.bind_eq_bind, Option.bind_some,
          Option.some.injEq] at hstep
        subst hstep
        exact ⟨lay', by simpa [mapAfter] using hfilled⟩
      · simp only [shapeStep, if_neg hlegal, reduceCtorEq] at hstep

section
variable (h : Filled root lay m)
include h

lemma Filled.nodes : StaleWalk.Nodes 64 (present m) (hasNode lay) := by
  refine ⟨by decide, fun r n hn => ⟨fun hnode => ?_, fun hkeys => ?_⟩⟩
  · obtain ⟨a, ha⟩ := Option.isSome_iff_exists.mp hnode
    obtain hzero | ⟨k, hk, hkn⟩ := h.tight r n a ha
    · exact absurd hzero hn
    · refine List.ne_nil_of_mem ((StaleWalk.mem_blockKeys (k := k) (by decide)).mpr ⟨?_, ?_⟩)
      · omega
      · exact Option.isSome_iff_ne_none.mpr hk
  · obtain ⟨k, hk⟩ := List.exists_mem_of_ne_nil _ hkeys
    obtain ⟨⟨hlo, hhi⟩, hpresent⟩ := (StaleWalk.mem_blockKeys (by decide)).mp hk
    have hkn : k / 64 ^ (r + 1) = n := by omega
    have hr : r < root.height := by
      by_contra hge
      have hlt := (h.grown.rep.key_lt (Option.isSome_iff_ne_none.mp hpresent)).trans_le (Nat.pow_le_pow_right (by decide : 0 < 64)
        (show root.height ≤ r + 1 by omega))
      rw [Nat.div_eq_of_lt hlt] at hkn
      exact hn hkn.symm
    obtain ⟨a, ha⟩ := h.grown.rep.node_of_key (Option.isSome_iff_ne_none.mp hpresent) hr
    rw [hasNode, ← hkn, ha]
    rfl

end

lemma take_itemsOf {ks : List ℕ} (hpresent : ∀ k ∈ ks, present m k = true) (M : ℕ) :
    (itemsOf m ks).take M = itemsOf m (ks.take M) := by
  induction ks generalizing M with
  | nil => simp [itemsOf]
  | cons k ks ih =>
    obtain ⟨x, hx⟩ := Option.isSome_iff_exists.mp (hpresent k List.mem_cons_self)
    have hrest := ih fun j hj => hpresent j (List.mem_cons_of_mem _ hj)
    rw [itemsOf] at hrest ⊢
    cases M with
    | zero => rfl
    | succ M => simpa [hx, itemsOf] using hrest M

def DistinctItems (m : ℕ → Option ι) : Prop := ∀ j k x, m j = some x → m k = some x → j = k

lemma itemsOf_inj (hdistinct : DistinctItems m) : ∀ {ks ks' : List ℕ},
    (∀ k ∈ ks, present m k = true) → (∀ k ∈ ks', present m k = true) →
      itemsOf m ks = itemsOf m ks' → ks = ks' := by
  intro ks
  induction ks with
  | nil =>
    intro ks' _ hpresent' heq
    cases ks' with
    | nil => rfl
    | cons k ks' =>
      obtain ⟨x, hx⟩ := Option.isSome_iff_exists.mp (hpresent' k List.mem_cons_self)
      simp [itemsOf, hx] at heq
  | cons k ks ih =>
    intro ks' hpresent hpresent' heq
    obtain ⟨x, hx⟩ := Option.isSome_iff_exists.mp (hpresent k List.mem_cons_self)
    cases ks' with
    | nil => simp [itemsOf, hx] at heq
    | cons k' ks' =>
      obtain ⟨x', hx'⟩ := Option.isSome_iff_exists.mp (hpresent' k' List.mem_cons_self)
      simp only [itemsOf, List.filterMap_cons, hx, hx', List.cons.injEq] at heq
      obtain ⟨rfl, hrest⟩ := heq
      rw [hdistinct k k' x hx hx', ih (fun j hj => hpresent j (List.mem_cons_of_mem _ hj))
        (fun j hj => hpresent' j (List.mem_cons_of_mem _ hj)) hrest]

/-- The items of all keys from `first` on, in key order. -/
def itemsFrom (m : ℕ → Option ι) (first : ℕ) : List ι :=
  (List.range' first (2 ^ 32 - first)).filterMap m

lemma itemsFrom_eq (first bound : ℕ) (hsmall : ∀ k, present m k = true → k < 2 ^ 32)
    (hbound : ∀ k, present m k = true → k < bound) :
    itemsFrom m first = itemsOf m (StaleWalk.keys (present m) first (bound - first)) := by
  have hpresent : ∀ ks : List ℕ, ks.filterMap m = itemsOf m (ks.filter (present m)) := by
    intro ks
    induction ks with
    | nil => rfl
    | cons k ks ih =>
      cases hk : m k with
      | none => simpa [present, hk] using ih
      | some x => simpa [itemsOf, present, hk] using ih
  rw [itemsFrom, hpresent]
  exact congrArg (itemsOf m) (StaleWalk.keys_bound hsmall hbound)

lemma Filled.gang_lookup_walk (h : Filled root lay m) {first maxItems : ℕ}
    (hfirst : first ≤ root.maxKey) (hmax : 0 < maxItems) (childOrder : ℕ → ℕ) :
    ∃ ks, (∃ n, ∀ fuel, n ≤ fuel →
        radixTreeGangLookup root first maxItems childOrder fuel = some (itemsOf m ks)) ∧
      (∀ k ∈ ks, present m k = true) ∧
      ∃ ks', (∀ k ∈ ks', present m k = true) ∧ (itemsFrom m first).take maxItems = itemsOf m ks' ∧
        (ks = ks' ↔ StaleWalk.FromKey 64 (present m) first maxItems) := by
  have hbound : maxKeyId root.height < 2 ^ 32 := by
    have hlow := h.grown.low
    interval_cases root.height <;> decide
  have hkey : first < 2 ^ 32 := by
    have hle := h.grown.maxKey ▸ hfirst
    omega
  have htop : 64 ^ root.height ≤ 64 ^ (root.height - 1 + 1) :=
    Nat.pow_le_pow_right (by decide) (by omega)
  have hlt : first < 64 ^ (root.height - 1 + 1) :=
    ((le_maxKeyId_iff hkey).mp (h.grown.maxKey ▸ hfirst)).trans_le htop
  have habove : ∀ k, 64 ^ (root.height - 1 + 1) ≤ k → present m k = false := by
    intro k hk
    by_contra hpresent
    rw [Bool.not_eq_false] at hpresent
    have hlow := h.grown.rep.key_lt (Option.isSome_iff_ne_none.mp hpresent)
    omega
  have hsmall : ∀ k, present m k = true → k < 2 ^ 32 := fun k hk =>
    h.small k (Option.isSome_iff_ne_none.mp hk)
  have hright := itemsFrom_eq first (64 ^ (root.height - 1 + 1)) hsmall
    fun k hk => (h.grown.rep.key_lt (Option.isSome_iff_ne_none.mp hk)).trans_le htop
  obtain ⟨n, hn⟩ := radixTreeGangLookup_walk h.grown hfirst hkey hmax childOrder
  have hwalk : ∀ k ∈ StaleWalk.walkFrom 64 (present m) (hasNode lay) first (root.height - 1),
      present m k = true := fun k hk => StaleWalk.key_of_mem_walkFrom h.nodes hk
  have hkeys : ∀ k ∈ StaleWalk.keys (present m) first (64 ^ (root.height - 1 + 1) - first),
      present m k = true := fun k hk => (StaleWalk.mem_keys.mp hk).2
  refine ⟨_, ⟨n, fun fuel hfuel => ?_⟩, fun k hk => hwalk k (List.mem_of_mem_take hk), _,
    fun k hk => hkeys k (List.mem_of_mem_take hk), ?_, StaleWalk.walkFrom_take_iff h.nodes hlt habove⟩
  · rw [hn fuel hfuel, take_itemsOf hwalk]
  · rw [hright, take_itemsOf hkeys]

/-- The lookup ends, and what it gives is right exactly if `maxItems` does not go beyond the first
block that has a key, starts after `first` and follows an empty block of the same node after
`first`. For the way back the items must tell their keys. -/
theorem gang_lookup (s : State ι) (hs : (shapeMachine ι).Reach InsertDone s) (first maxItems : ℕ)
    (hfirst : first ≤ s.tree.maxKey) (hmax : 1 ≤ maxItems) (childOrder : ℕ → ℕ) :
    ∃ results, (∃ n, ∀ fuel, n ≤ fuel →
        radixTreeGangLookup s.tree first maxItems childOrder fuel = some results) ∧
      (StaleWalk.FromKey 64 (present s.map) first maxItems →
        results = (itemsFrom s.map first).take maxItems) ∧
      (DistinctItems s.map → results = (itemsFrom s.map first).take maxItems →
        StaleWalk.FromKey 64 (present s.map) first maxItems) := by
  obtain ⟨lay, h⟩ := insertDone_filled hs
  obtain ⟨ks, hlookup, hks, ks', hks', hright, hiff⟩ := h.gang_lookup_walk hfirst hmax childOrder
  refine ⟨itemsOf s.map ks, hlookup, fun hcond => ?_, fun hdistinct heq => ?_⟩
  · rw [hright, hiff.mpr hcond]
  · rw [hright] at heq
    exact hiff.mp (itemsOf_inj hdistinct hks hks' heq)

def stores (s : State ι) : Event ι → Bool
  | .insert key item allocs =>
      match radixTreeInsert s.tree key item allocs with
      | some (_, out) => out = 0
      | none => false
  | .delete _ _ => false

lemma insertDone_of_stores (s : State ι) (e : Event ι) (h : stores s e = true) : InsertDone s e := by
  cases e with
  | delete key deleted => cases h
  | insert key item allocs =>
    cases heq : radixTreeInsert s.tree key item allocs with
    | none => simp [stores, heq] at h
    | some result =>
      obtain ⟨tree, out⟩ := result
      simp only [stores, heq, decide_eq_true_eq] at h
      exact ⟨tree, by rw [heq, h]⟩

lemma stores_reach {es : List (Event ℕ)} {s : State ℕ}
    (h : ((shapeMachine ℕ).restrict stores).run start es = some s) :
    (shapeMachine ℕ).Reach InsertDone s :=
  Machine.Reachable.of_restrict insertDone_of_stores (Machine.Reachable.run (.init ⟨_, rfl⟩) es h)

/-- Keys 5 and 6 in one leaf. -/
theorem gang_lookup_leaf : ∃ s, ((shapeMachine ℕ).restrict stores).run start
      [.insert 5 50 [0], .insert 6 60 []] = some s ∧
    ∃ n, ∀ fuel, n ≤ fuel → radixTreeGangLookup s.tree 3 2 (fun _ => 0) fuel =
      some ((itemsFrom s.map 3).take 2) := by
  obtain ⟨s, hs, hfirst, hmap⟩ : ∃ s, ((shapeMachine ℕ).restrict stores).run start
      [.insert 5 50 [0], .insert 6 60 []] = some s ∧ 3 ≤ s.tree.maxKey ∧
        s.map = Function.update (Function.update (fun _ => none) 5 (some 50)) 6 (some 60) :=
    ⟨_, rfl, by decide, rfl⟩
  obtain ⟨results, ⟨n, hn⟩, hright, -⟩ :=
    gang_lookup s (stores_reach hs) 3 2 hfirst (by decide) fun _ => 0
  refine ⟨s, hs, n, fun fuel hfuel => ?_⟩
  rw [hn fuel hfuel, hright]
  intro r c hgap _
  -- both keys are in the first block of every level
  obtain ⟨k, hk⟩ := List.exists_mem_of_ne_nil _ hgap.2.1
  obtain ⟨⟨hlo, hhi⟩, hpresent⟩ := (StaleWalk.mem_blockKeys (by decide)).mp hk
  have hsmall : k < 64 := by
    by_contra hge
    have h5 : k ≠ 5 := by omega
    have h6 : k ≠ 6 := by omega
    simp [present, hmap, h5, h6] at hpresent
  have hle : 64 ≤ 64 ^ (r + 1) := Nat.le_self_pow (Nat.succ_ne_zero r) 64
  rw [Nat.div_eq_of_lt (hsmall.trans_le hle)] at hlo hhi
  have hzero : c = 0 := by omega
  exact absurd (by rw [hzero]) hgap.1

/-- Keys 0 and 320: the walk comes to key 320 five times. -/
theorem gang_lookup_repeats : ¬∀ s : State ℕ, (shapeMachine ℕ).Reach InsertDone s →
    ∀ first maxItems, first ≤ s.tree.maxKey → 1 ≤ maxItems → ∀ childOrder fuel results,
      radixTreeGangLookup s.tree first maxItems childOrder fuel = some results →
        results = (itemsFrom s.map first).take maxItems := by
  intro h
  obtain ⟨s, hs, hfirst, hmap, hlookup⟩ : ∃ s, ((shapeMachine ℕ).restrict stores).run start
      [.insert 0 100 [0], .insert 320 420 [1, 2]] = some s ∧ 0 ≤ s.tree.maxKey ∧
        s.map = Function.update (Function.update (fun _ => none) 0 (some 100)) 320 (some 420) ∧
        radixTreeGangLookup s.tree 0 10 (fun _ => 0) 60 = some [100, 420, 420, 420, 420, 420] :=
    ⟨_, rfl, by decide, rfl, by decide +kernel⟩
  have hbad := h s (stores_reach hs) 0 10 hfirst (by decide) _ _ _ hlookup
  have hnodup : (itemsFrom s.map 0).Nodup := by
    refine List.Nodup.filterMap (fun j k x hj hk => ?_) List.nodup_range'
    rw [hmap] at hj hk
    simp only [Function.update_apply, Option.mem_def] at hj hk
    split_ifs at hj hk <;> simp only [Option.some.injEq] at hj hk <;> omega
  have htake := hnodup.sublist (List.take_sublist 10 _)
  rw [← hbad] at htake
  exact absurd htake (by decide)

end Almos.Radix
