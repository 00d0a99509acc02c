import Mathlib
import Almos.RadixGang
import Almos.RadixTags

/-!
# Gang lookup by tag

The walk tests in every node the bit of the slot that the first key has in its leaf, for that is
where `next_child` was left, and it reads past the children when it climbs out of a last slot.
-/
namespace Almos.Radix
open Word

variable {ι : Type}

/-- The way down to the leaf of the key. A missing node is used as one, which has no result. -/
def gangTagDown (root : Radix ι) (first : ℕ) : ℕ → ℕ → (ℕ → ℕ) → Option GangState
  | 0, currentNode, childOrder =>
      let next := nextChild 0 first
      some ⟨currentNode, 0, next, Function.update childOrder 0 next⟩
  | level + 1, currentNode, childOrder => do
      let next := nextChild (level + 1) first
      let a ← asNode ((root.nodes currentNode).children next)
      gangTagDown root first level a (Function.update childOrder (level + 1) next)

def tagClimb (root : Radix ι) (st : GangState) : Option (Option GangState) :=
  if st.childOrder st.level = 64 then
    match (root.nodes st.currentNode).parent with
    | none => some none
    | some parent =>
        if st.level + 1 < root.height then
          some (some { st with
            currentNode := parent
            level := st.level + 1
            childOrder := Function.update st.childOrder (st.level + 1)
              (st.childOrder (st.level + 1) + 1) })
        else none
  else some (some st)

def GangState.advance (st : GangState) : GangState :=
  { st with childOrder := Function.update st.childOrder st.level (st.childOrder st.level + 1) }

/-- The rest of a round: the child of the slot is taken, if its node has the bit of `next_child`. -/
def tagVisit (root : Radix ι) (st : GangState) : Option (GangState × Option ι) :=
  let node := root.nodes st.currentNode
  let slot := st.childOrder st.level
  if 64 ≤ slot then none
  else
    match node.children slot, st.level with
    | none, _ => some (st.advance, none)
    | some (.item x), 0 =>
        if node.tags &&& bit st.nextChild ≠ 0 then some (st.advance, some x)
        else some (st.advance, none)
    | some (.node a), level + 1 =>
        if node.tags &&& bit st.nextChild ≠ 0 then
          some ({ st with
            currentNode := a, level := level, childOrder := Function.update st.childOrder level 0 },
            none)
        else some (st.advance, none)
    | some _, _ => none

def gangTagStep (root : Radix ι) (st : GangState) : Option (Option (GangState × Option ι)) := do
  match ← tagClimb root st with
  | none => some none
  | some st => do
      let next ← tagVisit root st
      some (some next)

def gangTagLoop (root : Radix ι) (maxItems : ℕ) : ℕ → GangState → List ι → Option (List ι)
  | 0, _, _ => none
  | fuel + 1, st, results =>
      if results.length < maxItems then do
        match ← gangTagStep root st with
        | none => some results
        | some (st, found) => gangTagLoop root maxItems fuel st (results ++ found.toList)
      else some results

def gangTagFrom (root : Radix ι) (skip first maxItems : ℕ) (childOrder : ℕ → ℕ) (fuel : ℕ) :
    Option (List ι) :=
  if root.rootNode.isNone ∨ root.maxKey < first ∨ maxItems = 0 then some []
  else do
    let top ← asNode root.rootNode
    let st ← gangTagDown root first (root.height - 1) top childOrder
    gangTagLoop root maxItems fuel
      { st with childOrder := Function.update st.childOrder st.level (st.childOrder st.level + skip) } []

/-- For `TAG_PG_DIRTY`; `childOrder` is what the uninitialised array holds. -/
def radixTreeGangLookupTag (root : Radix ι) (first maxItems : ℕ) (childOrder : ℕ → ℕ) (fuel : ℕ) :
    Option (List ι) :=
  gangTagFrom root 1 first maxItems childOrder fuel

def radixTreeGangLookupTagSlot (root : Radix ι) (first maxItems : ℕ) (childOrder : ℕ → ℕ)
    (fuel : ℕ) : Option (List ι) :=
  gangTagFrom root 0 first maxItems childOrder fuel

/-- From a state, the rounds find these items and then come to the end of the tree, or to a step
that has no result. -/
inductive TagWalk (root : Radix ι) : GangState → List ι → Bool → Prop
  | stop {st : GangState} (h : gangTagStep root st = some none) : TagWalk root st [] true
  | stuck {st : GangState} (h : gangTagStep root st = none) : TagWalk root st [] false
  | next {st st' : GangState} {found : Option ι} {l : List ι} {ok : Bool}
      (h : gangTagStep root st = some (some (st', found))) (rest : TagWalk root st' l ok) :
      TagWalk root st (found.toList ++ l) ok

variable {root : Radix ι} {lay : Layout} {m : ℕ → Option ι} {st st' : GangState} {l : List ι} {ok : Bool}

lemma TagWalk.congr (h : TagWalk root st l ok) (hstep : gangTagStep root st' = gangTagStep root st) :
    TagWalk root st' l ok := by
  cases h with
  | stop h => exact .stop (hstep.trans h)
  | stuck h => exact .stuck (hstep.trans h)
  | next h rest => exact .next (hstep.trans h) rest

lemma gangTagLoop_ends (h : TagWalk root st l ok) (maxItems : ℕ) :
    ∃ n, ∀ fuel, n ≤ fuel → ∀ results : List ι, results.length ≤ maxItems →
      ok = true ∨ maxItems ≤ results.length + l.length →
        gangTagLoop root maxItems fuel st results =
          some (results ++ l.take (maxItems - results.length)) := by
  induction h with
  | @stop st hstop =>
    refine ⟨1, fun fuel hfuel results hlen _ => ?_⟩
    obtain ⟨fuel, rfl⟩ := Nat.exists_eq_add_of_le' hfuel
    rw [gangTagLoop]
    by_cases hmax : results.length < maxItems
    · simp [hmax, hstop]
    · simp [hmax]
  | @stuck st hstuck =>
    refine ⟨1, fun fuel hfuel results hlen hend => ?_⟩
    obtain ⟨fuel, rfl⟩ := Nat.exists_eq_add_of_le' hfuel
    obtain hfalse | hmax := hend
    · cases hfalse
    · have hnot : ¬results.length < maxItems := by
        rw [List.length_nil] at hmax
        omega
      simp [gangTagLoop, hnot]
  | @next st st' found l ok hstep _ ih =>
    obtain ⟨n, hn⟩ := ih
    refine ⟨n + 1, fun fuel hfuel results hlen hend => ?_⟩
    obtain ⟨fuel, rfl⟩ := Nat.exists_eq_add_of_le' (show 1 ≤ fuel by omega)
    rw [gangTagLoop]
    by_cases hmax : results.length < maxItems
    · have hfound : found.toList.length ≤ 1 := by cases found <;> simp
      have hlen' : (results ++ found.toList).length ≤ maxItems := by
        rw [List.length_append]
        omega
      have hend' : ok = true ∨ maxItems ≤ (results ++ found.toList).length + l.length := by
        rw [List.length_append] at hend ⊢
        exact hend.imp_right fun hle => by omega
      have hrest := hn fuel (by omega) (results ++ found.toList) hlen' hend'
      have htake : found.toList.take (maxItems - results.length) = found.toList :=
        List.take_of_length_le (by omega)
      rw [if_pos hmax, hstep, Option.bind_eq_bind, Option.bind_some]
      change gangTagLoop root maxItems fuel st' (results ++ found.toList) = _
      rw [hrest, List.take_append, htake, List.length_append, List.append_assoc, Nat.sub_sub]
    · have hzero : maxItems - results.length = 0 := by omega
      rw [if_neg hmax, hzero, List.take_zero, List.append_nil]

lemma gangTagLoop_stuck (h : TagWalk root st l ok) {maxItems : ℕ} (hok : ok = false) :
    ∀ fuel (results : List ι), results.length + l.length < maxItems →
      gangTagLoop root maxItems fuel st results = none := by
  induction h with
  | stop => cases hok
  | @stuck st hstuck =>
    intro fuel results hlen
    cases fuel with
    | zero => rfl
    | succ fuel =>
      rw [List.length_nil, Nat.add_zero] at hlen
      simp [gangTagLoop, hlen, hstuck]
  | @next st st' found l ok hstep _ ih =>
    intro fuel results hlen
    rw [List.length_append] at hlen
    cases fuel with
    | zero => rfl
    | succ fuel =>
      have hrest := ih hok fuel (results ++ found.toList) (by
        rw [List.length_append]
        omega)
      rw [gangTagLoop, if_pos (by omega), hstep, Option.bind_eq_bind, Option.bind_some]
      exact hrest

def nodeAfter (root : Radix ι) (key : ℕ) : ℕ → Option ℕ
  | 0 => asNode root.rootNode
  | d + 1 =>
      (nodeAfter root key d).bind fun a =>
        asNode ((root.nodes a).children (nextChild (root.height - 1 - d) key))

/-- The node of level `r` on the way of a key. -/
def nodeOn (root : Radix ι) (key r : ℕ) : Option ℕ := nodeAfter root key (root.height - 1 - r)

/-- The node of level `r` on the way of a key has the bit that the walk tests. -/
def hasBit (root : Radix ι) (first key r : ℕ) : Bool :=
  ((nodeOn root key r).map fun a => (root.nodes a).tags.getLsbD (first % 64)).getD false

/-- The walk enters the node of level `r` on the way of a key: the nodes above it, from where the
way leaves that of the first key, have the bit. -/
def enters (root : Radix ι) (first key r : ℕ) : Bool :=
  (List.range root.height).all fun r' =>
    decide (r' ≤ r) || decide (key / 64 ^ r' = first / 64 ^ r') || hasBit root first key r'

def shows (root : Radix ι) (first key : ℕ) : Bool := enters root first key 0 && hasBit root first key 0

/-- The walk enters a node in the last slot of its parent, and climbs out past the children. -/
structure Trap (root : Radix ι) (first r c : ℕ) : Prop where
  last : c % 64 = 63
  below : r + 1 < root.height
  inside : c * 64 ^ (r + 1) < 64 ^ root.height
  node : (nodeOn root (c * 64 ^ (r + 1)) r).isSome
  after : first < (c + 1) * 64 ^ (r + 1)
  entered : enters root first (c * 64 ^ (r + 1)) r = true

section
variable (h : Grown root lay m)
include h

lemma nodeAfter_eq {key : ℕ} (hkey : key < 64 ^ root.height) :
    ∀ d, d < root.height →
      nodeAfter root key d = lay (root.height - 1 - d) (key / 64 ^ (root.height - d)) := by
  intro d
  induction d with
  | zero =>
    intro hd
    obtain ⟨top, htop, hlay⟩ := h.rep.top hd
    rw [nodeAfter, htop, asNode, Nat.sub_zero, Nat.sub_zero, Nat.div_eq_of_lt hkey, hlay]
  | succ d ih =>
    intro hd
    have hlevel : root.height - 1 - d = root.height - 1 - (d + 1) + 1 := by omega
    have hexp : root.height - d = root.height - 1 - (d + 1) + 2 := by omega
    have hexp' : root.height - (d + 1) = root.height - 1 - (d + 1) + 1 := by omega
    rw [nodeAfter, ih (by omega), hexp, hexp', hlevel]
    cases hl : lay (root.height - 1 - (d + 1) + 1) (key / 64 ^ (root.height - 1 - (d + 1) + 2)) with
    | none =>
      cases hl' : lay (root.height - 1 - (d + 1)) (key / 64 ^ (root.height - 1 - (d + 1) + 1)) with
      | none => rfl
      | some a =>
        obtain ⟨p, hp, -⟩ := h.rep.parents _ _ _ hl' (by omega)
        rw [Nat.div_div_eq_div_mul, ← pow_succ, hl] at hp
        cases hp
    | some a =>
      rw [Option.bind_some, h.rep.child_on_path hl]
      cases lay (root.height - 1 - (d + 1)) (key / 64 ^ (root.height - 1 - (d + 1) + 1)) <;> rfl

lemma nodeOn_eq {key r : ℕ} (hkey : key < 64 ^ root.height) (hr : r < root.height) :
    nodeOn root key r = lay r (key / 64 ^ (r + 1)) := by
  have hlevel : root.height - 1 - (root.height - 1 - r) = r := by omega
  have hexp : root.height - (root.height - 1 - r) = r + 1 := by omega
  rw [nodeOn, nodeAfter_eq h hkey _ (by omega), hlevel, hexp]

lemma hasBit_iff {first key r : ℕ} (hkey : key < 64 ^ root.height) (hr : r < root.height) :
    hasBit root first key r = true ↔
      ∃ a, lay r (key / 64 ^ (r + 1)) = some a ∧ (root.nodes a).tags.getLsbD (first % 64) = true := by
  rw [hasBit, nodeOn_eq h hkey hr]
  cases lay r (key / 64 ^ (r + 1)) <;> simp

omit h in
lemma enters_iff {first key r : ℕ} : enters root first key r = true ↔
    ∀ r', r < r' → r' < root.height → key / 64 ^ r' ≠ first / 64 ^ r' →
      hasBit root first key r' = true := by
  rw [enters, List.all_eq_true]
  refine forall_congr' fun r' => ?_
  rw [List.mem_range, Bool.or_eq_true, Bool.or_eq_true, decide_eq_true_eq, decide_eq_true_eq]
  constructor
  · intro hall hr hheight hne
    obtain (hle | heq) | hbit := hall hheight
    · omega
    · exact absurd heq hne
    · exact hbit
  · intro hall hheight
    by_cases hr : r' ≤ r
    · exact .inl (.inl hr)
    · by_cases heq : key / 64 ^ r' = first / 64 ^ r'
      · exact .inl (.inr heq)
      · exact .inr (hall (by omega) hheight heq)

/-- What the walk does below a node depends on the key only through its block there. -/
lemma enters_congr {first key key' r : ℕ} (hkey : key < 64 ^ root.height)
    (hkey' : key' < 64 ^ root.height) (hblock : key / 64 ^ (r + 1) = key' / 64 ^ (r + 1))
    (henters : enters root first key r = true) : enters root first key' r = true := by
  have hdiv : ∀ e, r + 1 ≤ e → key / 64 ^ e = key' / 64 ^ e := by
    intro e he
    have hexp : 64 ^ e = 64 ^ (r + 1) * 64 ^ (e - (r + 1)) := by
      rw [← pow_add, Nat.add_sub_cancel' he]
    rw [hexp, ← Nat.div_div_eq_div_mul, ← Nat.div_div_eq_div_mul, hblock]
  rw [enters_iff] at henters ⊢
  intro r' hr hheight hne
  have hbit := henters r' hr hheight (by rw [hdiv r' hr]; exact hne)
  rw [hasBit_iff h hkey hheight, hdiv (r' + 1) (by omega)] at hbit
  rwa [hasBit_iff h hkey' hheight]

end

/-- A state at slot `o` of the node of level `r` and block `n`. -/
structure At (root : Radix ι) (lay : Layout) (first a r n o : ℕ) (order : ℕ → ℕ) : Prop where
  node : lay r n = some a
  slot : o ≤ 64
  cursor : order r = o
  above : ∀ j, r < j → j < root.height → order j = n / 64 ^ (j - 1 - r) % 64
  entered : ∀ key, key < 64 ^ root.height → key / 64 ^ (r + 1) = n → enters root first key r = true
  block : first / 64 ^ (r + 1) ≤ n
  past : 0 < r → first / 64 ^ r < 64 * n + o

def position (r n o : ℕ) : ℕ := (64 * n + o) * 64 ^ r

/-- The block `c` of level `r'` ends after the state, or the state is at the end of it or above. -/
def Ahead (r n o r' c : ℕ) : Prop :=
  position r n o < (c + 1) * 64 ^ (r' + 1) ∨
    o = 64 ∧ position r n o = (c + 1) * 64 ^ (r' + 1) ∧ r ≤ r'

/-- Where the walk ends: at the end of the tree, or at the end of the first trap ahead. -/
structure Ends (root : Radix ι) (first : ℕ) (ahead : ℕ → ℕ → Prop) (e : ℕ) (ok : Bool) : Prop where
  top : ok = true → e = 64 ^ root.height ∧ ∀ r c, Trap root first r c → ¬ahead r c
  trap : ok = false → (∃ r c, Trap root first r c ∧ e = (c + 1) * 64 ^ (r + 1)) ∧
    ∀ r c, Trap root first r c → ahead r c → e ≤ (c + 1) * 64 ^ (r + 1)

lemma Ends.congr {first e : ℕ} {ahead ahead' : ℕ → ℕ → Prop} (h : Ends root first ahead e ok)
    (hiff : ∀ r c, Trap root first r c → (ahead' r c ↔ ahead r c)) : Ends root first ahead' e ok :=
  ⟨fun hok => ⟨(h.top hok).1, fun r c htrap hahead => (h.top hok).2 r c htrap ((hiff r c htrap).mp hahead)⟩,
    fun hok => ⟨(h.trap hok).1, fun r c htrap hahead => (h.trap hok).2 r c htrap ((hiff r c htrap).mp hahead)⟩⟩

lemma position_succ (r n o : ℕ) : position r n (o + 1) = position r n o + 64 ^ r := by
  rw [position, position]
  ring

lemma position_end (r n : ℕ) : position r n 64 = (n + 1) * 64 ^ (r + 1) := by
  rw [position]
  ring

lemma position_child (r n o : ℕ) : position r (64 * n + o) 0 = position (r + 1) n o := by
  rw [position, position]
  ring

lemma position_climb (r n : ℕ) : position (r + 1) (n / 64) (n % 64 + 1) = position r n 64 := by
  rw [position_end, position]
  congr 1
  omega

/-- Multiples of a block of level `r` between two slots of a node of that level. -/
lemma block_end {r r' n o c : ℕ} (ho : o < 64) (hr : r ≤ r')
    (hlo : position r n o < (c + 1) * 64 ^ (r' + 1))
    (hhi : (c + 1) * 64 ^ (r' + 1) ≤ position r n (o + 1)) :
    o = 63 ∧ (c + 1) * 64 ^ (r' + 1) = position r n (o + 1) := by
  have hexp : 64 ^ (r' + 1) = 64 * 64 ^ (r' - r) * 64 ^ r := by
    rw [← pow_succ', ← pow_add]
    congr 1
    omega
  rw [hexp, ← Nat.mul_assoc] at hlo hhi ⊢
  rw [position] at hlo hhi ⊢
  have hlo' := Nat.lt_of_mul_lt_mul_right hlo
  have hhi' := Nat.le_of_mul_le_mul_right hhi (by positivity)
  have hmul : (c + 1) * (64 * 64 ^ (r' - r)) = 64 * ((c + 1) * 64 ^ (r' - r)) := by ring
  rw [hmul] at hlo' hhi' ⊢
  refine ⟨by omega, ?_⟩
  congr 1
  omega

lemma ahead_skip {r n o r' c : ℕ} (ho : o < 64)
    (hinner : r' < r → ¬(position r n o < (c + 1) * 64 ^ (r' + 1) ∧
      (c + 1) * 64 ^ (r' + 1) ≤ position r n (o + 1))) :
    Ahead r n o r' c ↔ Ahead r n (o + 1) r' c := by
  have hsucc := position_succ r n o
  have hpos : 0 < 64 ^ r := by positivity
  constructor
  · rintro (hlt | ⟨hend, -⟩)
    · by_cases hle : (c + 1) * 64 ^ (r' + 1) ≤ position r n (o + 1)
      · have hr : r ≤ r' := by
          by_contra hlevel
          exact hinner (by omega) ⟨hlt, hle⟩
        obtain ⟨hlast, heq⟩ := block_end ho hr hlt hle
        exact .inr ⟨by omega, heq.symm, hr⟩
      · exact .inl (by omega)
    · omega
  · rintro (hlt | ⟨-, heq, -⟩)
    · exact .inl (by omega)
    · exact .inl (by omega)

section
variable (h : Grown root lay m)
include h

lemma position_le {r n o a : ℕ} (ha : lay r n = some a) (ho : o ≤ 64) :
    position r n o ≤ 64 ^ root.height := by
  obtain ⟨hr, hn⟩ := h.rep.bound _ _ _ ha
  have hexp : 64 ^ root.height = 64 ^ (root.height - 1 - r) * 64 * 64 ^ r := by
    rw [← pow_succ, ← pow_add]
    congr 1
    omega
  rw [position, hexp]
  exact Nat.mul_le_mul_right _ (by omega)

lemma At.block_lt {first a r n o : ℕ} {order : ℕ → ℕ} (hat : At root lay first a r n o order) :
    n * 64 ^ (r + 1) < 64 ^ root.height := by
  have hend := position_le h hat.node le_rfl
  rw [position_end] at hend
  refine Nat.lt_of_lt_of_le ?_ hend
  exact Nat.mul_lt_mul_of_pos_right (Nat.lt_succ_self n) (by positivity)

omit h in
lemma enters_mono {first key r r' : ℕ} (hr : r ≤ r') (henters : enters root first key r = true) :
    enters root first key r' = true := by
  rw [enters_iff] at henters ⊢
  exact fun j hj => henters j (by omega)

omit h in
lemma At.skip {first a r n o : ℕ} {order : ℕ → ℕ} (hat : At root lay first a r n o order)
    (ho : o < 64) : At root lay first a r n (o + 1) (Function.update order r (o + 1)) := by
  refine ⟨hat.node, ho, Function.update_self _ _ _, fun j hj hjh => ?_, hat.entered, hat.block,
    fun hr => ?_⟩
  · rw [Function.update_of_ne (by omega), hat.above j hj hjh]
  · have hpast := hat.past hr
    omega

lemma At.descend {first a b r n o : ℕ} {order : ℕ → ℕ} (hat : At root lay first a (r + 1) n o order)
    (ho : o < 64) (hb : lay r (64 * n + o) = some b)
    (hbit : (root.nodes a).tags.getLsbD (first % 64) = true) :
    At root lay first b r (64 * n + o) 0 (Function.update order r 0) := by
  have hpast := hat.past (Nat.succ_pos r)
  refine ⟨hb, Nat.zero_le _, Function.update_self _ _ _, fun j hj hjh => ?_, fun key hkey hblock => ?_,
    hpast.le, fun hr => ?_⟩
  · rw [Function.update_of_ne (by omega)]
    by_cases hjr : j = r + 1
    · have hexp : j - 1 - r = 0 := by omega
      rw [hjr, hat.cursor, ← hjr, hexp, pow_zero, Nat.div_one]
      omega
    · have hexp : j - 1 - r = j - 1 - (r + 1) + 1 := by omega
      have hdiv : (64 * n + o) / 64 = n := by omega
      rw [hat.above j (by omega) hjh, hexp, pow_succ', ← Nat.div_div_eq_div_mul, hdiv]
  · have hnode : key / 64 ^ (r + 1 + 1) = n := by
      rw [pow_succ, ← Nat.div_div_eq_div_mul, hblock]
      omega
    rw [enters_iff]
    intro r' hr hheight hne
    by_cases hrr : r' = r + 1
    · rw [hasBit_iff h hkey hheight]
      subst hrr
      exact ⟨a, by rw [hnode]; exact hat.node, hbit⟩
    · exact (enters_iff.mp (hat.entered key hkey hnode)) r' (by omega) hheight hne
  · rw [Nat.add_zero]
    have hlt := hpast
    rw [pow_succ, ← Nat.div_div_eq_div_mul] at hlt
    omega

lemma At.climb {first a p r n : ℕ} {order : ℕ → ℕ} (hat : At root lay first a r n 64 order)
    (hr : r + 1 < root.height) (hp : lay (r + 1) (n / 64) = some p) :
    At root lay first p (r + 1) (n / 64) (n % 64 + 1)
      (Function.update order (r + 1) (order (r + 1) + 1)) := by
  have hcursor : order (r + 1) = n % 64 := by
    have hexp : r + 1 - 1 - r = 0 := by omega
    rw [hat.above (r + 1) (by omega) hr, hexp, pow_zero, Nat.div_one]
  refine ⟨hp, by omega, by rw [Function.update_self, hcursor], fun j hj hjh => ?_,
    fun key hkey hblock => ?_, ?_, fun _ => ?_⟩
  · have hexp : j - 1 - r = j - 1 - (r + 1) + 1 := by omega
    rw [Function.update_of_ne (by omega), hat.above j (by omega) hjh, hexp, pow_succ',
      ← Nat.div_div_eq_div_mul]
  · have hlt := hat.block_lt h
    have hown := hat.entered (n * 64 ^ (r + 1)) hlt (Nat.mul_div_cancel _ (by positivity))
    refine enters_congr h hlt hkey ?_ (enters_mono (Nat.le_succ r) hown)
    rw [hblock, pow_succ 64 (r + 1), ← Nat.div_div_eq_div_mul, Nat.mul_div_cancel _ (by positivity)]
  · rw [pow_succ, ← Nat.div_div_eq_div_mul]
    exact Nat.div_le_div_right hat.block
  · have hblock := hat.block
    omega

lemma At.passed {first a r n o : ℕ} {order : ℕ → ℕ} (hat : At root lay first a (r + 1) n o order)
    (ho : o < 64) (hblocked : lay r (64 * n + o) = none ∨
      (root.nodes a).tags.getLsbD (first % 64) = false) :
    (∀ k, position (r + 1) n o ≤ k → k < position (r + 1) n (o + 1) →
        (present m k && shows root first k) = false) ∧
      ∀ r' c, Trap root first r' c → r' < r + 1 →
        ¬(position (r + 1) n o < (c + 1) * 64 ^ (r' + 1) ∧
          (c + 1) * 64 ^ (r' + 1) ≤ position (r + 1) n (o + 1)) := by
  have hr := (h.rep.bound _ _ _ hat.node).1
  have hpast := hat.past (Nat.succ_pos r)
  have htop := position_le h hat.node (show o + 1 ≤ 64 by omega)
  have hblock : ∀ k, position (r + 1) n o ≤ k → k < position (r + 1) n (o + 1) →
      k / 64 ^ (r + 1) = 64 * n + o := by
    intro k hlo hhi
    rw [position] at hlo hhi
    exact Nat.div_eq_of_lt_le hlo hhi
  -- the node would have to have the bit
  have hbitless : ∀ k, k < 64 ^ root.height → k / 64 ^ (r + 1) = 64 * n + o →
      hasBit root first k (r + 1) = true → (root.nodes a).tags.getLsbD (first % 64) = true := by
    intro k hk hkn hbit
    obtain ⟨b, hb, hbit⟩ := (hasBit_iff h hk hr).mp hbit
    have hn : k / 64 ^ (r + 1 + 1) = n := by
      rw [pow_succ, ← Nat.div_div_eq_div_mul, hkn]
      omega
    rw [hn, hat.node, Option.some.injEq] at hb
    rwa [hb]
  refine ⟨fun k hlo hhi => ?_, fun r' c htrap hlevel hrange => ?_⟩
  · by_contra hshown
    rw [Bool.not_eq_false, Bool.and_eq_true, shows, Bool.and_eq_true] at hshown
    obtain ⟨hpresent, henters, -⟩ := hshown
    have hk := h.rep.key_lt (Option.isSome_iff_ne_none.mp hpresent)
    have hkn := hblock k hlo hhi
    obtain hnone | hbit := hblocked
    · obtain ⟨b, hb⟩ := h.rep.node_of_key (Option.isSome_iff_ne_none.mp hpresent)
        (show r < root.height by omega)
      rw [hkn, hnone] at hb
      cases hb
    · have hset := hbitless k hk hkn
        (enters_iff.mp henters (r + 1) (by omega) hr (by rw [hkn]; exact hpast.ne'))
      rw [hbit] at hset
      cases hset
  · obtain ⟨hlo, hhi⟩ := hrange
    have hnode := htrap.node
    have henters := htrap.entered
    have hexp : 64 ^ (r + 1) = 64 ^ (r - r') * 64 ^ (r' + 1) := by
      rw [← pow_add]
      congr 1
      omega
    have hstart : position (r + 1) n o ≤ c * 64 ^ (r' + 1) := by
      rw [position, hexp, ← Nat.mul_assoc] at hlo ⊢
      have hlt := Nat.lt_of_mul_lt_mul_right hlo
      exact Nat.mul_le_mul_right _ (by omega)
    have hpos : 0 < 64 ^ (r' + 1) := by positivity
    have hstop : c * 64 ^ (r' + 1) < position (r + 1) n (o + 1) := by
      rw [Nat.add_mul, Nat.one_mul] at hhi
      omega
    have hk : c * 64 ^ (r' + 1) < 64 ^ root.height := by omega
    have hkn := hblock _ hstart hstop
    obtain hnone | hbit := hblocked
    · rw [nodeOn_eq h hk (by omega)] at hnode
      obtain ⟨b, hb⟩ := Option.isSome_iff_exists.mp hnode
      obtain ⟨b', hb'⟩ := h.rep.node_above hb (r - r') (by omega)
      rw [Nat.add_sub_cancel' (by omega), hkn, hnone] at hb'
      cases hb'
    · have hset := hbitless _ hk hkn
        (enters_iff.mp henters (r + 1) hlevel hr (by rw [hkn]; exact hpast.ne'))
      rw [hbit] at hset
      cases hset

end

def shown (root : Radix ι) (m : ℕ → Option ι) (first key : ℕ) : Bool :=
  present m key && shows root first key

def Collects (root : Radix ι) (m : ℕ → Option ι) (first a r n o : ℕ) (order : ℕ → ℕ) : Prop :=
  ∃ e ok, position r n o ≤ e ∧ e ≤ 64 ^ root.height ∧
    TagWalk root ⟨a, r, first % 64, order⟩ (itemsOf m (StaleWalk.keys (shown root m first)
      (position r n o) (e - position r n o))) ok ∧ Ends root first (Ahead r n o) e ok

lemma Collects.skip {first a r n o : ℕ} {order order' : ℕ → ℕ} (ho : o < 64)
    (hstep : gangTagStep root ⟨a, r, first % 64, order⟩ =
      some (some (⟨a, r, first % 64, order'⟩, none)))
    (hkeys : ∀ k, position r n o ≤ k → k < position r n (o + 1) → shown root m first k = false)
    (htraps : ∀ r' c, Trap root first r' c → r' < r → ¬(position r n o < (c + 1) * 64 ^ (r' + 1) ∧
      (c + 1) * 64 ^ (r' + 1) ≤ position r n (o + 1)))
    (hrest : Collects root m first a r n (o + 1) order') : Collects root m first a r n o order := by
  obtain ⟨e, ok, hlo, hhi, hwalk, hends⟩ := hrest
  have hsucc := position_succ r n o
  have hpos : 0 < 64 ^ r := by positivity
  have hsplit : StaleWalk.keys (shown root m first) (position r n o) (e - position r n o) =
      StaleWalk.keys (shown root m first) (position r n (o + 1)) (e - position r n (o + 1)) := by
    have hn : e - position r n o = 64 ^ r + (e - position r n (o + 1)) := by omega
    have hnil : StaleWalk.keys (shown root m first) (position r n o) (64 ^ r) = [] :=
      StaleWalk.keys_eq_nil.mpr fun k hk hk' => hkeys k hk (by omega)
    rw [hn, StaleWalk.keys_append, hnil, List.nil_append, hsucc]
  refine ⟨e, ok, by omega, hhi, ?_, hends.congr fun r' c htrap =>
    ahead_skip ho fun hr => htraps r' c htrap hr⟩
  rw [hsplit]
  exact .next hstep hwalk

lemma Collects.leaf {first a n o : ℕ} {order order' : ℕ → ℕ} (ho : o < 64)
    (hstep : gangTagStep root ⟨a, 0, first % 64, order⟩ =
      some (some (⟨a, 0, first % 64, order'⟩, if shown root m first (64 * n + o) then m (64 * n + o)
        else none)))
    (hrest : Collects root m first a 0 n (o + 1) order') : Collects root m first a 0 n o order := by
  obtain ⟨e, ok, hlo, hhi, hwalk, hends⟩ := hrest
  have hpos : position 0 n o = 64 * n + o := by rw [position, pow_zero, Nat.mul_one]
  have hsucc := position_succ 0 n o
  rw [pow_zero] at hsucc
  have hsplit : itemsOf m (StaleWalk.keys (shown root m first) (position 0 n o) (e - position 0 n o)) =
      (if shown root m first (64 * n + o) then m (64 * n + o) else none).toList ++
        itemsOf m (StaleWalk.keys (shown root m first) (position 0 n (o + 1))
          (e - position 0 n (o + 1))) := by
    have hn : e - position 0 n o = (e - position 0 n (o + 1)) + 1 := by omega
    rw [hn, StaleWalk.keys_succ, itemsOf_append, hsucc, hpos]
    congr 1
    cases hshown : shown root m first (64 * n + o) with
    | false => simp [itemsOf]
    | true => cases hm : m (64 * n + o) <;> simp [itemsOf, hm]
  refine ⟨e, ok, by omega, hhi, ?_, hends.congr fun r' c htrap =>
    ahead_skip ho fun hr => absurd hr (Nat.not_lt_zero _)⟩
  rw [hsplit]
  exact .next hstep hwalk

section
variable (h : Grown root lay m)
include h

lemma shown_leaf {first a n o : ℕ} {order : ℕ → ℕ} (hat : At root lay first a 0 n o order)
    (ho : o < 64) : shown root m first (64 * n + o) =
      ((m (64 * n + o)).isSome && (root.nodes a).tags.getLsbD (first % 64)) := by
  have hn : (64 * n + o) / 64 = n := by omega
  have hpos := (h.rep.bound _ _ _ hat.node).1
  have hend := position_le h hat.node (show o + 1 ≤ 64 by omega)
  rw [position, pow_zero, Nat.mul_one] at hend
  have hkey : 64 * n + o < 64 ^ root.height := by omega
  have hleaf : (64 * n + o) / 64 ^ (0 + 1) = n := by rwa [zero_add, pow_one]
  have hbit : hasBit root first (64 * n + o) 0 = (root.nodes a).tags.getLsbD (first % 64) := by
    rw [hasBit, nodeOn_eq h hkey hpos, hleaf, hat.node]
    rfl
  rw [shown, shows, hat.entered _ hkey hleaf, Bool.true_and, hbit, present]

section
variable {first a b p r n o : ℕ} {order : ℕ → ℕ}

omit h in
lemma At.climb_step (hat : At root lay first a r n 64 order) (htop : r + 1 < root.height)
    (hparent : (root.nodes a).parent = some p) : gangTagStep root ⟨a, r, first % 64, order⟩ =
      (tagVisit root ⟨p, r + 1, first % 64,
        Function.update order (r + 1) (order (r + 1) + 1)⟩).bind fun next => some (some next) := by
  simp [gangTagStep, tagClimb, hat.cursor, hparent, htop]

/-- In the last slot of its parent the end of a node is a trap: the visit is past the children. -/
lemma At.last_end (hat : At root lay first a r n 64 order) (htop : r + 1 < root.height)
    (hlast : n % 64 = 63) : Collects root m first a r n 64 order := by
  obtain ⟨p, hp, hparent⟩ := h.rep.parents _ _ _ hat.node htop
  have hslot : Function.update order (r + 1) (order (r + 1) + 1) (r + 1) = 64 := by
    rw [(hat.climb h htop hp).cursor, hlast]
  have hstuck : gangTagStep root ⟨a, r, first % 64, order⟩ = none := by
    rw [hat.climb_step htop hparent, tagVisit]
    simp only [hslot]
    rfl
  have hlt := hat.block_lt h
  have hdiv : n * 64 ^ (r + 1) / 64 ^ (r + 1) = n := Nat.mul_div_cancel _ (by positivity)
  have htrapped : Trap root first r n := by
    refine ⟨hlast, htop, hlt, ?_, ?_, hat.entered _ hlt hdiv⟩
    · rw [nodeOn_eq h hlt (h.rep.bound _ _ _ hat.node).1, hdiv, hat.node]
      rfl
    · exact (Nat.div_lt_iff_lt_mul (by positivity)).mp (Nat.lt_succ_of_le hat.block)
  refine ⟨position r n 64, false, le_rfl, position_le h hat.node le_rfl, ?_,
    ⟨fun hok => absurd hok (by decide), fun _ => ⟨⟨r, n, htrapped, position_end r n⟩,
      fun r' c _ hahead => ?_⟩⟩⟩
  · rw [Nat.sub_self]
    exact .stuck hstuck
  · obtain hlt | ⟨-, heq, -⟩ := hahead
    · exact hlt.le
    · exact heq.le

/-- In another slot the walk goes on at the next child of the parent. -/
lemma At.inner_end (hat : At root lay first a r n 64 order) (htop : r + 1 < root.height)
    (hp : lay (r + 1) (n / 64) = some p) (hparent : (root.nodes a).parent = some p)
    (hlast : n % 64 ≠ 63)
    (hrest : Collects root m first p (r + 1) (n / 64) (n % 64 + 1)
      (Function.update order (r + 1) (order (r + 1) + 1))) :
    Collects root m first a r n 64 order := by
  have hslot : Function.update order (r + 1) (order (r + 1) + 1) (r + 1) ≠ 64 := by
    rw [(hat.climb h htop hp).cursor]
    omega
  have hsame : gangTagStep root ⟨a, r, first % 64, order⟩ = gangTagStep root
      ⟨p, r + 1, first % 64, Function.update order (r + 1) (order (r + 1) + 1)⟩ := by
    rw [hat.climb_step htop hparent]
    simp only [gangTagStep, tagClimb, if_neg hslot, Option.bind_eq_bind, Option.bind_some]
  obtain ⟨e, ok, hlo, hhi, hwalk, hends⟩ := hrest
  rw [position_climb] at hlo hwalk
  refine ⟨e, ok, hlo, hhi, hwalk.congr hsame, hends.congr fun r' c htrapped => ?_⟩
  rw [Ahead, Ahead, position_climb]
  constructor
  · rintro (hlt | ⟨-, heq, hlevel⟩)
    · exact .inl hlt
    · -- no trap ends here, for this node is in no last slot
      rw [position_end] at heq
      have hexp : 64 ^ (r' + 1) = 64 ^ (r' - r) * 64 ^ (r + 1) := by
        rw [← pow_add]
        congr 1
        omega
      rw [hexp, ← Nat.mul_assoc] at heq
      have hn' := Nat.eq_of_mul_eq_mul_right (by positivity) heq
      by_cases hrr : r' = r
      · rw [hrr, Nat.sub_self, pow_zero, Nat.mul_one] at hn'
        have hc := htrapped.last
        omega
      · obtain ⟨d, hd⟩ := Nat.exists_eq_add_of_lt (show r < r' by omega)
        have hpow : 64 ^ (r' - r) = 64 * 64 ^ d := by
          rw [← pow_succ']
          congr 1
          omega
        rw [hpow, Nat.mul_left_comm] at hn'
        omega
  · rintro (hlt | ⟨hlast, -⟩)
    · exact .inl hlt
    · omega

/-- At the end of the root the walk is over. -/
lemma At.root_end (hat : At root lay first a r n 64 order) (htop : ¬r + 1 < root.height) :
    Collects root m first a r n 64 order := by
  obtain ⟨hr, hn⟩ := h.rep.bound _ _ _ hat.node
  have hparent := @Rep.parent_on_path ι root lay m h.rep h.rootParent (n * 64 ^ (r + 1)) r a
    (by rw [Nat.mul_div_cancel _ (by positivity)]; exact hat.node)
  rw [if_neg htop] at hparent
  have hheight : root.height = r + 1 := by omega
  have hzero : n = 0 := by
    rw [hheight, Nat.add_sub_cancel, Nat.sub_self, pow_zero] at hn
    omega
  have hpos : position r n 64 = 64 ^ root.height := by
    rw [position_end, hzero, hheight, Nat.zero_add, Nat.one_mul]
  refine ⟨64 ^ root.height, true, hpos.le, le_rfl, ?_, ⟨fun _ => ⟨rfl, fun r' c htrap hahead => ?_⟩,
    fun hok => absurd hok (by decide)⟩⟩
  · rw [hpos, Nat.sub_self]
    exact .stop (by simp [gangTagStep, tagClimb, hat.cursor, hparent])
  · have hbelow := htrap.below
    obtain hlt | ⟨-, -, hle⟩ := hahead
    · have hexp : 64 ^ root.height = 64 ^ (root.height - (r' + 1)) * 64 ^ (r' + 1) := by
        rw [← pow_add]
        congr 1
        omega
      have hinside := htrap.inside
      rw [hpos] at hlt
      rw [hexp] at hinside hlt
      have hc := Nat.lt_of_mul_lt_mul_right hinside
      have hc' := Nat.lt_of_mul_lt_mul_right hlt
      omega
    · omega

omit h in
lemma At.visit_step (hat : At root lay first a r n o order) (ho : o < 64) :
    gangTagStep root ⟨a, r, first % 64, order⟩ =
      (tagVisit root ⟨a, r, first % 64, order⟩).bind fun next => some (some next) := by
  have hne : order r ≠ 64 := by
    rw [hat.cursor]
    omega
  simp [gangTagStep, tagClimb, hne]

omit h in
lemma At.advance_eq (hat : At root lay first a r n o order) :
    (⟨a, r, first % 64, order⟩ : GangState).advance =
      ⟨a, r, first % 64, Function.update order r (o + 1)⟩ := by
  simp only [GangState.advance, hat.cursor]

omit h in
lemma tag_clear {node : RadixNode ι} (hbit : node.tags.getLsbD (first % 64) = false) :
    ¬node.tags &&& bit (first % 64) ≠ 0 := by
  rw [and_bit_ne_zero _ (show first % 64 < 64 by omega), hbit]
  exact Bool.false_ne_true

lemma At.visit_leaf (hat : At root lay first a 0 n o order) (ho : o < 64)
    (hrest : Collects root m first a 0 n (o + 1) (Function.update order 0 (o + 1))) :
    Collects root m first a 0 n o order := by
  refine Collects.leaf ho ?_ hrest
  rw [hat.visit_step ho, shown_leaf h hat ho, tagVisit]
  simp only [hat.cursor, if_neg (Nat.not_le.mpr ho), h.rep.kids _ _ _ hat.node o ho, kid,
    hat.advance_eq]
  cases hm : m (64 * n + o) with
  | none => rfl
  | some x =>
    simp only [Option.map_some]
    cases hbit : (root.nodes a).tags.getLsbD (first % 64) with
    | true =>
      rw [if_pos ((and_bit_ne_zero _ (show first % 64 < 64 by omega)).mpr hbit)]
      rfl
    | false =>
      rw [if_neg (tag_clear hbit)]
      rfl

lemma At.visit_blocked (hat : At root lay first a (r + 1) n o order) (ho : o < 64)
    (hblocked : lay r (64 * n + o) = none ∨ (root.nodes a).tags.getLsbD (first % 64) = false)
    (hrest : Collects root m first a (r + 1) n (o + 1) (Function.update order (r + 1) (o + 1))) :
    Collects root m first a (r + 1) n o order := by
  obtain ⟨hkeys, htraps⟩ := hat.passed h ho hblocked
  refine Collects.skip ho ?_ hkeys htraps hrest
  rw [hat.visit_step ho, tagVisit]
  simp only [hat.cursor, if_neg (Nat.not_le.mpr ho), h.rep.kids _ _ _ hat.node o ho, kid,
    hat.advance_eq]
  cases hl : lay r (64 * n + o) with
  | none => rfl
  | some b =>
    have hbit := hblocked.resolve_left (by rw [hl]; exact Option.some_ne_none b)
    simp only [Option.map_some]
    rw [if_neg (tag_clear hbit)]
    rfl

lemma At.visit_child (hat : At root lay first a (r + 1) n o order) (ho : o < 64)
    (hl : lay r (64 * n + o) = some b) (hbit : (root.nodes a).tags.getLsbD (first % 64) = true)
    (hrest : Collects root m first b r (64 * n + o) 0 (Function.update order r 0)) :
    Collects root m first a (r + 1) n o order := by
  obtain ⟨e, ok, hlo, hhi, hwalk, hends⟩ := hrest
  rw [position_child] at hlo hwalk
  have hvisit : gangTagStep root ⟨a, r + 1, first % 64, order⟩ =
      some (some (⟨b, r, first % 64, Function.update order r 0⟩, none)) := by
    rw [hat.visit_step ho, tagVisit]
    simp only [hat.cursor, if_neg (Nat.not_le.mpr ho), h.rep.kids _ _ _ hat.node o ho, kid, hl,
      Option.map_some]
    rw [if_pos ((and_bit_ne_zero _ (show first % 64 < 64 by omega)).mpr hbit)]
    rfl
  refine ⟨e, ok, hlo, hhi, .next hvisit hwalk, hends.congr fun r' c _ => ?_⟩
  rw [Ahead, Ahead, position_child]
  omega

end

/-- The walk shows the keys below the nodes with the bit, up to the first trap. -/
lemma At.collects (first : ℕ) : ∀ μ a r n o (order : ℕ → ℕ), At root lay first a r n o order →
    (64 ^ root.height - position r n o) * (root.height + 1) +
      (if o = 64 then root.height else r) = μ →
    Collects root m first a r n o order := by
  intro μ
  induction μ using Nat.strong_induction_on with
  | _ μ ih =>
    intro a r n o order hat hμ
    have hr := (h.rep.bound _ _ _ hat.node).1
    by_cases ho : o = 64
    · subst ho
      rw [if_pos rfl] at hμ
      by_cases htop : r + 1 < root.height
      · by_cases hlast : n % 64 = 63
        · exact hat.last_end h htop hlast
        · obtain ⟨p, hp, hparent⟩ := h.rep.parents _ _ _ hat.node htop
          refine hat.inner_end h htop hp hparent hlast (ih _ ?_ _ _ _ _ _ (hat.climb h htop hp) rfl)
          rw [position_climb, if_neg (by omega), ← hμ]
          omega
      · exact hat.root_end h htop
    · have ho' : o < 64 := Nat.lt_of_le_of_ne hat.slot ho
      -- the next slot is nearer to the end of the tree
      have hrest := ih ((64 ^ root.height - position r n (o + 1)) * (root.height + 1) +
        (if o + 1 = 64 then root.height else r)) (by
          have hsucc := position_succ r n o
          have hend := position_le h hat.node (show o + 1 ≤ 64 from ho')
          have hpos : 0 < 64 ^ r := by positivity
          have hle : (if o + 1 = 64 then root.height else r) ≤ root.height := by
            split_ifs <;> omega
          have hmul : (64 ^ root.height - position r n (o + 1) + 1) * (root.height + 1) ≤
              (64 ^ root.height - position r n o) * (root.height + 1) :=
            Nat.mul_le_mul_right _ (by omega)
          rw [Nat.add_mul, Nat.one_mul] at hmul
          omega) a r n (o + 1) _ (hat.skip ho') rfl
      cases r with
      | zero => exact hat.visit_leaf h ho' hrest
      | succ r =>
        cases hl : lay r (64 * n + o) with
        | none => exact hat.visit_blocked h ho' (.inl hl) hrest
        | some b =>
          cases hbit : (root.nodes a).tags.getLsbD (first % 64) with
          | false => exact hat.visit_blocked h ho' (.inr hbit) hrest
          | true =>
            refine hat.visit_child h ho' hl hbit (ih _ ?_ _ _ _ _ _ (hat.descend h ho' hl hbit) rfl)
            rw [position_child, if_neg (by decide), ← hμ, if_neg ho]
            omega

end

section
variable (h : Grown root lay m)
include h

lemma gangTagDown_spec (first : ℕ) : ∀ level a (order : ℕ → ℕ),
    lay level (first / 64 ^ (level + 1)) = some a →
    (lay 0 (first / 64) = none → gangTagDown root first level a order = none) ∧
      ∀ leaf, lay 0 (first / 64) = some leaf → ∃ order',
        gangTagDown root first level a order = some ⟨leaf, 0, first % 64, order'⟩ ∧
          (∀ j, j ≤ level → order' j = nextChild j first) ∧ ∀ j, level < j → order' j = order j := by
  intro level
  induction level with
  | zero =>
    intro a order ha
    rw [zero_add, pow_one] at ha
    have hindex : nextChild 0 first = first % 64 := by rw [nextChild_eq, pow_zero, Nat.div_one]
    refine ⟨fun hnone => ?_, fun leaf hleaf => ⟨Function.update order 0 (first % 64), ?_,
      fun j hj => ?_, fun j hj => ?_⟩⟩
    · rw [ha] at hnone
      cases hnone
    · rw [ha, Option.some.injEq] at hleaf
      rw [gangTagDown, hleaf, hindex]
    · rw [Nat.le_zero.mp hj, Function.update_self, hindex]
    · rw [Function.update_of_ne (by omega)]
  | succ level ih =>
    intro a order ha
    have hr := (h.rep.bound _ _ _ ha).1
    have hchild := h.rep.child_on_path ha
    cases hl : lay level (first / 64 ^ (level + 1)) with
    | none =>
      rw [hl, Option.map_none] at hchild
      refine ⟨fun _ => by simp [gangTagDown, hchild, asNode], fun leaf hleaf => ?_⟩
      rw [h.rep.no_leaf first level (by omega) hl] at hleaf
      cases hleaf
    | some b =>
      rw [hl, Option.map_some] at hchild
      obtain ⟨hmissing, hfound⟩ :=
        ih b (Function.update order (level + 1) (nextChild (level + 1) first)) hl
      have hstep : gangTagDown root first (level + 1) a order = gangTagDown root first level b
          (Function.update order (level + 1) (nextChild (level + 1) first)) := by
        simp [gangTagDown, hchild, asNode]
      rw [hstep]
      refine ⟨hmissing, fun leaf hleaf => ?_⟩
      obtain ⟨order', heq, hpath, habove⟩ := hfound leaf hleaf
      refine ⟨order', heq, fun j hj => ?_, fun j hj => ?_⟩
      · by_cases hjl : j = level + 1
        · rw [hjl, habove _ (by omega), Function.update_self]
        · exact hpath j (by omega)
      · rw [habove j (by omega), Function.update_of_ne (by omega)]

omit h in
lemma At.start {first leaf skip : ℕ} {order : ℕ → ℕ} (hleaf : lay 0 (first / 64) = some leaf)
    (hskip : skip ≤ 1) (hpath : ∀ j, j < root.height → order j = nextChild j first) :
    At root lay first leaf 0 (first / 64) (first % 64 + skip)
      (Function.update order 0 (first % 64 + skip)) := by
  refine ⟨hleaf, by omega, Function.update_self _ _ _, fun j hj hjh => ?_, fun key _ hblock => ?_, ?_,
    fun hr => absurd hr (Nat.lt_irrefl 0)⟩
  · obtain ⟨j, rfl⟩ := Nat.exists_eq_succ_of_ne_zero (Nat.pos_iff_ne_zero.mp hj)
    rw [Function.update_of_ne (by omega), hpath _ hjh, nextChild_eq, Nat.succ_sub_one, Nat.sub_zero,
      Nat.pow_succ', Nat.div_div_eq_div_mul]
  · rw [enters_iff]
    intro r' hr _ hne
    refine absurd ?_ hne
    obtain ⟨e, rfl⟩ := Nat.exists_eq_succ_of_ne_zero (Nat.pos_iff_ne_zero.mp hr)
    rw [zero_add, pow_one] at hblock
    rw [Nat.pow_succ', ← Nat.div_div_eq_div_mul, ← Nat.div_div_eq_div_mul, hblock]
  · rw [zero_add, pow_one]

end

/-- The items of the tagged keys from `first` on, in key order. -/
def taggedItems (s : TagState ι) (first : ℕ) : List ι :=
  (List.range' first (2 ^ 32 - first)).filterMap fun k => if s.tagged k then s.map k else none

/-- Where a lookup by tag is right: the first key has a leaf and is not a tagged one that is left
out, the bits that the walk tests tell the tags as far as it has to go, and it has its items before
it climbs past the children of a node. -/
structure TagLookupOk (s : TagState ι) (first maxItems skip : ℕ) : Prop where
  leaf : (nodeOn s.tree first 0).isSome
  start : skip ≠ 0 → s.tagged first = false
  agree : ∀ k, first + skip ≤ k → s.map k ≠ none → StaleWalk.span s.tagged first k < maxItems →
    shows s.tree first k = s.tagged k
  trap : ∀ r c, Trap s.tree first r c →
    maxItems ≤ StaleWalk.span s.tagged first ((c + 1) * 64 ^ (r + 1))

def LooksUp (s : TagState ι) (first maxItems : ℕ) (lookup : ℕ → Option (List ι)) : Prop :=
  ∃ n, ∀ fuel, n ≤ fuel → lookup fuel = some ((taggedItems s first).take maxItems)

section
variable {s : TagState ι}

lemma taggedItems_eq (first bound : ℕ) (hsmall : ∀ k, s.tagged k = true → k < 2 ^ 32)
    (hbound : ∀ k, s.tagged k = true → k < bound) :
    taggedItems s first = itemsOf s.map (StaleWalk.keys s.tagged first (bound - first)) := by
  have hfilter : ∀ ks : List ℕ, (ks.filterMap fun k => if s.tagged k then s.map k else none) =
      itemsOf s.map (ks.filter s.tagged) := by
    intro ks
    induction ks with
    | nil => rfl
    | cons k ks ih =>
      cases hk : s.tagged k with
      | false => simpa [hk] using ih
      | true => cases hm : s.map k <;> simpa [itemsOf, hk, hm] using ih
  rw [taggedItems, hfilter]
  exact congrArg (itemsOf s.map) (StaleWalk.keys_bound hsmall hbound)

/-- The keys that the walk shows from its start on, as a selection from the first key on. -/
lemma keys_from (key : ℕ → Bool) {first skip e : ℕ} (hlo : first + skip ≤ e) :
    StaleWalk.keys (fun k => decide (first + skip ≤ k) && key k) first (e - first) =
      StaleWalk.keys key (first + skip) (e - (first + skip)) := by
  have hn : e - first = skip + (e - (first + skip)) := by omega
  have hnil : StaleWalk.keys (fun k => decide (first + skip ≤ k) && key k) first skip = [] :=
    StaleWalk.keys_eq_nil.mpr fun k _ hk => by
      rw [decide_eq_false (by omega), Bool.false_and]
  rw [hn, StaleWalk.keys_append, hnil, List.nil_append]
  refine List.filter_congr fun k hk => ?_
  rw [List.mem_range'_1] at hk
  rw [decide_eq_true hk.1, Bool.true_and]

lemma LeavesOk.shown_iff (h : LeavesOk s lay) {first maxItems skip e : ℕ} (hmax : 0 < maxItems)
    (hskip : skip ≤ 1) (hleaf : (nodeOn s.tree first 0).isSome) (hlo : first + skip ≤ e)
    (hhi : e ≤ 64 ^ s.tree.height)
    (hends : Ends s.tree first (Ahead 0 (first / 64) (first % 64 + skip)) e ok) :
    (ok = true ∨ maxItems ≤ (StaleWalk.keys (fun k => decide (first + skip ≤ k) &&
        shown s.tree s.map first k) first (e - first)).length) ∧
      (StaleWalk.keys (fun k => decide (first + skip ≤ k) && shown s.tree s.map first k) first
        (e - first)).take maxItems =
          (StaleWalk.keys s.tagged first (64 ^ s.tree.height - first)).take maxItems ↔
      TagLookupOk s first maxItems skip := by
  have hahead : ∀ r c, Trap s.tree first r c → Ahead 0 (first / 64) (first % 64 + skip) r c := by
    intro r c htrap
    have hpos : position 0 (first / 64) (first % 64 + skip) = first + skip := by
      rw [position, pow_zero]
      omega
    rw [Ahead, hpos]
    have hafter := htrap.after
    by_cases heq : first + skip = (c + 1) * 64 ^ (r + 1)
    · refine .inr ⟨?_, heq, Nat.zero_le r⟩
      have hone : skip = 1 := by omega
      rw [pow_succ, ← Nat.mul_assoc] at heq
      omega
    · exact .inl (by omega)
  -- pointwise agreement, in the form of the condition
  have hagree : (∀ k, first ≤ k → k < 64 ^ s.tree.height → StaleWalk.span s.tagged first k < maxItems →
      (decide (first + skip ≤ k) && shown s.tree s.map first k) = s.tagged k) ↔
        (skip ≠ 0 → s.tagged first = false) ∧
          ∀ k, first + skip ≤ k → s.map k ≠ none → StaleWalk.span s.tagged first k < maxItems →
            shows s.tree first k = s.tagged k := by
    constructor
    · intro hall
      refine ⟨fun hne => ?_, fun k hk hm hspan => ?_⟩
      · have hfirst := hall first le_rfl (by omega) (by rw [StaleWalk.span_self]; exact hmax)
        rw [← hfirst, decide_eq_false (by omega), Bool.false_and]
      · have hkey := hall k (by omega) (h.grown.rep.key_lt hm) hspan
        rw [decide_eq_true hk, Bool.true_and, shown, present,
          Option.isSome_iff_ne_none.mpr hm, Bool.true_and] at hkey
        exact hkey
    · rintro ⟨hstart, hrest⟩ k hk _ hspan
      by_cases hfrom : first + skip ≤ k
      · rw [decide_eq_true hfrom, Bool.true_and, shown, present]
        by_cases hm : s.map k = none
        · have huntagged : s.tagged k = false := by
            by_contra htagged
            exact h.marked k (by simpa using htagged) hm
          rw [hm, huntagged]
          rfl
        · rw [Option.isSome_iff_ne_none.mpr hm, Bool.true_and]
          exact hrest k hfrom hm hspan
      · have hkey : k = first := by omega
        rw [decide_eq_false hfrom, Bool.false_and, hkey, hstart (by omega)]
  cases ok with
  | true =>
    obtain ⟨he, hno⟩ := hends.top rfl
    have hnotrap : ∀ r c, ¬Trap s.tree first r c := fun r c htrap => hno r c htrap (hahead r c htrap)
    rw [he, StaleWalk.take_keys_iff, Nat.add_sub_cancel' (show first ≤ 64 ^ s.tree.height by omega),
      hagree]
    exact ⟨fun hcond => ⟨hleaf, hcond.2.1, hcond.2.2, fun r c htrap => absurd htrap (hnotrap r c)⟩,
      fun hok => ⟨.inl rfl, hok.start, hok.agree⟩⟩
  | false =>
    obtain ⟨⟨r, c, htrap, he⟩, hleast⟩ := hends.trap rfl
    have hcut := @StaleWalk.take_cut_iff (fun k => decide (first + skip ≤ k) &&
      shown s.tree s.map first k) s.tagged _ _ _ maxItems (show first ≤ e by omega) hhi
    simp only [Bool.false_eq_true, false_or]
    rw [hcut, hagree]
    constructor
    · rintro ⟨⟨hstart, hshows⟩, hspan⟩
      exact ⟨hleaf, hstart, hshows, fun r' c' htrap' =>
        hspan.trans (StaleWalk.span_mono (hleast r' c' htrap' (hahead r' c' htrap')))⟩
    · intro hok
      exact ⟨⟨hok.start, hok.agree⟩, by rw [he]; exact hok.trap r c htrap⟩

lemma LeavesOk.gangTagFrom_iff (h : LeavesOk s lay) {first maxItems skip : ℕ}
    (hfirst : first ≤ s.tree.maxKey) (hmax : 0 < maxItems) (hskip : skip ≤ 1) (childOrder : ℕ → ℕ) :
    (s.tree.rootNode.isNone ∨ TagLookupOk s first maxItems skip →
        LooksUp s first maxItems (gangTagFrom s.tree skip first maxItems childOrder)) ∧
      (DistinctItems s.map → LooksUp s first maxItems (gangTagFrom s.tree skip first maxItems childOrder) →
        s.tree.rootNode.isNone ∨ TagLookupOk s first maxItems skip) := by
  have hsmall : ∀ k, s.tagged k = true → k < 2 ^ 32 := fun k hk => h.small k (h.marked k hk)
  have hbelow : ∀ k, s.tagged k = true → k < 64 ^ s.tree.height := fun k hk =>
    h.grown.rep.key_lt (h.marked k hk)
  have hright := taggedItems_eq first (64 ^ s.tree.height) hsmall hbelow
  by_cases hh : s.tree.height = 0
  · have hroot : s.tree.rootNode.isNone := by rw [h.grown.rep.empty hh]; rfl
    have hnil : StaleWalk.keys s.tagged first (64 ^ s.tree.height - first) = [] := by
      refine StaleWalk.keys_eq_nil.mpr fun k _ _ => ?_
      by_contra hk
      obtain ⟨x, hx⟩ := Option.ne_none_iff_exists'.mp (h.marked k (by simpa using hk))
      obtain ⟨a, ha⟩ := h.grown.rep.held k x hx
      have hlt := (h.grown.rep.bound _ _ _ ha).1
      omega
    refine ⟨fun _ => ⟨0, fun fuel _ => ?_⟩, fun _ _ => .inl hroot⟩
    rw [gangTagFrom, if_pos (.inl hroot), hright, hnil]
    simp [itemsOf]
  obtain ⟨top, hroot, htop⟩ := h.grown.rep.top (by omega)
  have hkey : first < 2 ^ 32 := by
    have hbound : maxKeyId s.tree.height < 2 ^ 32 := by
      have hlow := h.grown.low
      interval_cases s.tree.height <;> decide
    have hle := h.grown.maxKey ▸ hfirst
    omega
  have hlt : first < 64 ^ s.tree.height := (le_maxKeyId_iff hkey).mp (h.grown.maxKey ▸ hfirst)
  have hsome : ¬(s.tree.rootNode.isNone = true) := by rw [hroot]; exact Bool.false_ne_true
  have hcond : ¬(s.tree.rootNode.isNone ∨ s.tree.maxKey < first ∨ maxItems = 0) := by
    rw [not_or]
    exact ⟨hsome, by omega⟩
  have hblock : lay (s.tree.height - 1) (first / 64 ^ (s.tree.height - 1 + 1)) = some top := by
    rw [Nat.sub_add_cancel (by omega), Nat.div_eq_of_lt hlt, htop]
  obtain ⟨hmissing, hfound⟩ := gangTagDown_spec h.grown first _ _ childOrder hblock
  have hnode := nodeOn_eq h.grown hlt (show 0 < s.tree.height by omega)
  rw [zero_add, pow_one] at hnode
  have hlookup : ∀ fuel, gangTagFrom s.tree skip first maxItems childOrder fuel =
      (gangTagDown s.tree first (s.tree.height - 1) top childOrder).bind fun st =>
        gangTagLoop s.tree maxItems fuel ⟨st.currentNode, st.level, st.nextChild,
          Function.update st.childOrder st.level (st.childOrder st.level + skip)⟩ [] := by
    intro fuel
    rw [gangTagFrom, if_neg hcond, hroot]
    rfl
  cases hl : lay 0 (first / 64) with
  | none =>
    rw [hl] at hnode
    refine ⟨fun hok => ?_, fun _ hlooks => ?_⟩
    · obtain hnone | hok := hok
      · exact absurd hnone hsome
      · have hleaf := hok.leaf
        rw [hnode] at hleaf
        cases hleaf
    · obtain ⟨n, hn⟩ := hlooks
      have hend := hn n le_rfl
      rw [hlookup, hmissing hl] at hend
      cases hend
  | some leaf =>
    rw [hl] at hnode
    obtain ⟨order, hdown, hpath, -⟩ := hfound leaf hl
    have hcursor : order 0 = first % 64 := by
      rw [hpath 0 (Nat.zero_le _), nextChild_eq, pow_zero, Nat.div_one]
    have hat : At s.tree lay first leaf 0 (first / 64) (first % 64 + skip) _ :=
      At.start hl hskip fun j hj => hpath j (by omega)
    obtain ⟨e, ok, hlo, hhi, hwalk, hends⟩ := hat.collects h.grown first _ _ _ _ _ _ rfl
    have hpos : position 0 (first / 64) (first % 64 + skip) = first + skip := by
      rw [position, pow_zero]
      omega
    rw [hpos] at hlo hwalk
    rw [← keys_from _ hlo] at hwalk
    have hiff := h.shown_iff hmax hskip (by rw [hnode]; rfl) hlo hhi hends
    have hloop : ∀ fuel, gangTagFrom s.tree skip first maxItems childOrder fuel =
        gangTagLoop s.tree maxItems fuel ⟨leaf, 0, first % 64,
          Function.update order 0 (first % 64 + skip)⟩ [] := by
      intro fuel
      rw [hlookup, hdown, Option.bind_some]
      simp only [hcursor]
    have hpresent : ∀ k ∈ StaleWalk.keys (fun k => decide (first + skip ≤ k) &&
        shown s.tree s.map first k) first (e - first), present s.map k = true := by
      intro k hk
      have hshown := (StaleWalk.mem_keys.mp hk).2
      rw [Bool.and_eq_true, shown, Bool.and_eq_true] at hshown
      exact hshown.2.1
    have htagged : ∀ k ∈ StaleWalk.keys s.tagged first (64 ^ s.tree.height - first),
        present s.map k = true := fun k hk =>
      Option.isSome_iff_ne_none.mpr (h.marked k (StaleWalk.mem_keys.mp hk).2)
    have hlength : ∀ ks : List ℕ, (∀ k ∈ ks, present s.map k = true) →
        (itemsOf s.map ks).length = ks.length := by
      intro ks hks
      rw [itemsOf, List.filterMap_length_eq_length]
      exact hks
    obtain ⟨n, hn⟩ := gangTagLoop_ends hwalk maxItems
    rw [hlength _ hpresent] at hn
    refine ⟨fun hok => ?_, fun hdistinct hlooks => .inr (hiff.mp ?_)⟩
    · obtain hnone | hok := hok
      · exact absurd hnone hsome
      · obtain ⟨hends', htake⟩ := hiff.mpr hok
        refine ⟨n, fun fuel hfuel => ?_⟩
        rw [hloop, hn fuel hfuel [] (Nat.zero_le _) (by simpa using hends'), hright,
          take_itemsOf htagged, List.nil_append, List.length_nil, Nat.sub_zero,
          take_itemsOf hpresent, htake]
    · obtain ⟨n', hn'⟩ := hlooks
      have hends' : ok = true ∨ maxItems ≤ (StaleWalk.keys (fun k => decide (first + skip ≤ k) &&
          shown s.tree s.map first k) first (e - first)).length := by
        by_contra hnot
        rw [not_or, Bool.not_eq_true] at hnot
        have hshort : ([] : List ι).length + (StaleWalk.keys (fun k => decide (first + skip ≤ k) &&
            shown s.tree s.map first k) first (e - first)).length < maxItems := by
          rw [List.length_nil]
          omega
        rw [← hlength _ hpresent] at hshort
        have hstuck := gangTagLoop_stuck hwalk hnot.1 n' [] hshort
        have hend := hn' n' le_rfl
        rw [hloop, hstuck] at hend
        cases hend
      refine ⟨hends', ?_⟩
      have hend := hn' (max n n') (le_max_right _ _)
      rw [hloop, hn _ (le_max_left _ _) [] (Nat.zero_le _) (by simpa using hends'), hright,
        take_itemsOf htagged, List.nil_append, List.length_nil, Nat.sub_zero,
        take_itemsOf hpresent, Option.some.injEq] at hend
      exact itemsOf_inj hdistinct (fun k hk => hpresent k (List.mem_of_mem_take hk))
        (fun k hk => htagged k (List.mem_of_mem_take hk)) hend

end

def SetOnly (_ : TagState ι) : TagEvent ι → Prop
  | .clear _ _ => False
  | _ => True

lemma setOnly_leaves {s : TagState ι} (hs : (tagMachine ι).Reach SetOnly s) : ∃ lay, LeavesOk s lay := by
  refine Machine.Reach.invariant (I := fun s => ∃ lay, LeavesOk s lay) ?_ ?_ hs
  · rintro _ ⟨heap, rfl⟩
    exact ⟨_, (tags_init heap).1⟩
  · rintro s e t ⟨lay, h⟩ _ hstep
    obtain ⟨lay', h', -⟩ := h.step hstep
    exact ⟨lay', h'⟩

/-- Both lookups by tag end with the first tagged items exactly under their condition. For the way
back the items must tell their keys. -/
theorem gang_lookup_tag (s : TagState ι) (hs : (tagMachine ι).Reach SetOnly s) (first maxItems : ℕ)
    (hfirst : first ≤ s.tree.maxKey) (hmax : 1 ≤ maxItems) (childOrder : ℕ → ℕ) :
    ((s.tree.rootNode.isNone ∨ TagLookupOk s first maxItems 1 →
          LooksUp s first maxItems (radixTreeGangLookupTag s.tree first maxItems childOrder)) ∧
        (DistinctItems s.map →
          LooksUp s first maxItems (radixTreeGangLookupTag s.tree first maxItems childOrder) →
            s.tree.rootNode.isNone ∨ TagLookupOk s first maxItems 1)) ∧
      (s.tree.rootNode.isNone ∨ TagLookupOk s first maxItems 0 →
          LooksUp s first maxItems (radixTreeGangLookupTagSlot s.tree first maxItems childOrder)) ∧
        (DistinctItems s.map →
          LooksUp s first maxItems (radixTreeGangLookupTagSlot s.tree first maxItems childOrder) →
            s.tree.rootNode.isNone ∨ TagLookupOk s first maxItems 0) := by
  obtain ⟨lay, h⟩ := setOnly_leaves hs
  exact ⟨h.gangTagFrom_iff hfirst hmax le_rfl childOrder,
    h.gangTagFrom_iff hfirst hmax (Nat.zero_le 1) childOrder⟩

/-- Keys 5 and 6 in one leaf, key 5 tagged: the lookup of slots from key 5 on would show both, and it
is asked for one. -/
theorem gang_lookup_tag_slot_one : ∃ s, (tagMachine ℕ).run tagStart
      [.insert 5 50 [0], .insert 6 60 [], .set 5 0] = some s ∧
    LooksUp s 5 1 (radixTreeGangLookupTagSlot s.tree 5 1 fun _ => 0) := by
  obtain ⟨s₁, hs₁⟩ : ∃ s, tagStep tagStart (.insert 5 50 [0]) = some s := ⟨_, rfl⟩
  obtain ⟨s₂, hs₂⟩ : ∃ s, tagStep s₁ (.insert 6 60 []) = some s := by
    obtain rfl : _ = s₁ := Option.some.inj hs₁
    exact ⟨_, rfl⟩
  obtain ⟨s, hs, hrun, hmax, hheight, hleaf, hshow, htagged⟩ : ∃ s, tagStep s₂ (.set 5 0) = some s ∧
      (tagMachine ℕ).run tagStart [.insert 5 50 [0], .insert 6 60 [], .set 5 0] = some s ∧
        5 ≤ s.tree.maxKey ∧ s.tree.height = 1 ∧ (nodeOn s.tree 5 0).isSome ∧
        shows s.tree 5 5 = true ∧ s.tagged = Function.update (fun _ => false) 5 true := by
    obtain rfl : _ = s₁ := Option.some.inj hs₁
    obtain rfl : _ = s₂ := Option.some.inj hs₂
    exact ⟨_, rfl, rfl, by decide, rfl, rfl, by decide, rfl⟩
  have hstart : (tagMachine ℕ).Reach SetOnly tagStart := .init ⟨_, rfl⟩
  have hok₁ : SetOnly tagStart (.insert 5 50 [0]) := trivial
  have hok₂ : SetOnly s₁ (.insert 6 60 []) := trivial
  have hok₃ : SetOnly s₂ (.set 5 0) := trivial
  have hreach : (tagMachine ℕ).Reach SetOnly s := .step (.step (.step hstart hok₁ hs₁) hok₂ hs₂) hok₃ hs
  refine ⟨s, hrun, (gang_lookup_tag s hreach 5 1 hmax le_rfl fun _ => 0).2.1 (.inr ?_)⟩
  refine ⟨hleaf, fun hne => absurd rfl hne, fun k hk _ hspan => ?_, fun r c htrap => ?_⟩
  · by_cases h5 : k = 5
    · rw [h5, hshow, htagged, Function.update_self]
    · rw [StaleWalk.span_succ (by omega), htagged, Function.update_self, if_pos rfl] at hspan
      omega
  · have hbelow := htrap.below
    omega

/-- Keys 0 and 1 with key 0 tagged, looked up from key 0 on: the first key is left out, and key 1 is
shown for the bit of key 0. -/
theorem gang_lookup_tag_wrong : ¬∀ s : TagState ℕ, (tagMachine ℕ).Reach SetOnly s →
    ∀ first maxItems, first ≤ s.tree.maxKey → 1 ≤ maxItems → ∀ childOrder,
      LooksUp s first maxItems (radixTreeGangLookupTag s.tree first maxItems childOrder) := by
  intro h
  obtain ⟨s₁, hs₁⟩ : ∃ s, tagStep tagStart (.insert 0 100 [0]) = some s := ⟨_, rfl⟩
  obtain ⟨s₂, hs₂⟩ : ∃ s, tagStep s₁ (.insert 1 101 []) = some s := by
    obtain rfl : _ = s₁ := Option.some.inj hs₁
    exact ⟨_, rfl⟩
  obtain ⟨s, hs, hroot, hmap, htagged⟩ : ∃ s, tagStep s₂ (.set 0 0) = some s ∧
      s.tree.rootNode.isNone = false ∧
        s.map = Function.update (Function.update (fun _ => none) 0 (some 100)) 1 (some 101) ∧
          s.tagged 0 = true := by
    obtain rfl : _ = s₁ := Option.some.inj hs₁
    obtain rfl : _ = s₂ := Option.some.inj hs₂
    exact ⟨_, rfl, rfl, rfl, rfl⟩
  have hstart : (tagMachine ℕ).Reach SetOnly tagStart := .init ⟨_, rfl⟩
  have hok₁ : SetOnly tagStart (.insert 0 100 [0]) := trivial
  have hok₂ : SetOnly s₁ (.insert 1 101 []) := trivial
  have hok₃ : SetOnly s₂ (.set 0 0) := trivial
  have hreach : (tagMachine ℕ).Reach SetOnly s := .step (.step (.step hstart hok₁ hs₁) hok₂ hs₂) hok₃ hs
  obtain ⟨lay, hleaves⟩ := setOnly_leaves hreach
  have hlooks := h s hreach 0 10 (Nat.zero_le _) (by decide) fun _ => 0
  have hdistinct : DistinctItems s.map := by
    intro j k x hj hk
    rw [hmap] at hj hk
    simp only [Function.update_apply] at hj hk
    split_ifs at hj hk <;> simp only [Option.some.injEq] at hj hk <;> omega
  obtain hnone | hok := (hleaves.gangTagFrom_iff (Nat.zero_le _) (by decide) le_rfl fun _ => 0).2
    hdistinct hlooks
  · rw [hroot] at hnone
    cases hnone
  · have hstart := hok.start one_ne_zero
    rw [htagged] at hstart
    cases hstart

end Almos.Radix
