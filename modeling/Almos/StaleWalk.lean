import Mathlib

/-!
# Walks with a stale cursor

A tree over the natural numbers: the node of level `r` and block `b` covers `d ^ (r + 1)` keys and
has `d` slots. A walk that comes back from a child moves its cursor by one and not past the child,
so it enters a child again for each empty slot before it. The first `M` keys of the walk are right
exactly when it is stopped before it enters a child again.
-/
namespace Almos.StaleWalk

section
variable {α : Type*} {A A' B B' : List α} {M : ℕ}

/-- Prefixes of two lists agree part by part if the first part is not too short and what it holds
does not come later on the other side. -/
lemma take_append_iff (hlength : A'.length ≤ A.length) (hnot : ∀ x ∈ A, x ∉ B') :
    (A ++ B).take M = (A' ++ B').take M ↔
      A.take M = A'.take M ∧ B.take (M - A'.length) = B'.take (M - A'.length) := by
  by_cases hM : M ≤ A'.length
  · rw [List.take_append_of_le_length (hM.trans hlength), List.take_append_of_le_length hM,
      Nat.sub_eq_zero_of_le hM]
    simp
  · have hlen : (A ++ B).take M = (A' ++ B').take M → A.length = A'.length := by
      intro h
      by_contra hne
      have hlt : A'.length < A.length := by omega
      have hget := congrArg (fun l => l[A'.length]?) h
      simp only [List.getElem?_take_of_lt (Nat.lt_of_not_le hM), List.getElem?_append_left hlt,
        List.getElem?_append_right le_rfl, Nat.sub_self] at hget
      have hmem : A[A'.length] ∈ B' := by
        rw [List.getElem?_eq_getElem hlt] at hget
        exact List.mem_of_getElem? hget.symm
      exact hnot _ (List.getElem_mem hlt) hmem
    constructor
    · intro h
      have heq := hlen h
      rw [List.take_append, List.take_append, heq] at h
      have hlenTake : (A.take M).length = (A'.take M).length := by
        rw [List.length_take, List.length_take, heq]
      exact List.append_inj h hlenTake
    · rintro ⟨hA, hB⟩
      have heq : A.length = A'.length := by
        have hlenTake := congrArg List.length hA
        rw [List.length_take, List.length_take] at hlenTake
        omega
      rw [List.take_append, List.take_append, heq, hA, hB]

lemma take_twice_iff (hne : A ≠ []) (hlength : A'.length ≤ A.length) (hnot : ∀ x ∈ A, x ∉ B') :
    (A ++ (A ++ B)).take M = (A' ++ B').take M ↔ A.take M = A'.take M ∧ M ≤ A'.length := by
  rw [take_append_iff hlength hnot]
  refine and_congr_right fun _ => ⟨fun h => ?_, fun h => ?_⟩
  · by_contra hM
    obtain ⟨x, rest, rfl⟩ := List.exists_cons_of_ne_nil hne
    obtain ⟨n, hn⟩ : ∃ n, M - A'.length = n + 1 := ⟨M - A'.length - 1, by omega⟩
    rw [hn, List.cons_append, List.take_succ_cons] at h
    have hmem : x ∈ B'.take (n + 1) := h ▸ List.mem_cons_self
    exact hnot x List.mem_cons_self (List.mem_of_mem_take hmem)
  · rw [Nat.sub_eq_zero_of_le h, List.take_zero, List.take_zero]

end

section
variable (key : ℕ → Bool)

def keys (lo n : ℕ) : List ℕ := (List.range' lo n).filter key

variable {key} {lo n k : ℕ}

lemma mem_keys : k ∈ keys key lo n ↔ (lo ≤ k ∧ k < lo + n) ∧ key k = true := by
  rw [keys, List.mem_filter, List.mem_range'_1]

lemma keys_append (lo n n' : ℕ) : keys key lo (n + n') = keys key lo n ++ keys key (lo + n) n' := by
  rw [keys, keys, keys, ← List.filter_append, List.range'_append_1]

lemma keys_sorted : (keys key lo n).Pairwise (· < ·) :=
  (List.pairwise_lt_range' (s := lo) (n := n)).filter _

lemma keys_nodup : (keys key lo n).Nodup := keys_sorted.imp fun h => h.ne

lemma keys_zero : keys key lo 0 = [] := rfl

lemma keys_eq_nil : keys key lo n = [] ↔ ∀ k, lo ≤ k → k < lo + n → key k = false := by
  rw [List.eq_nil_iff_forall_not_mem]
  refine forall_congr' fun k => ?_
  rw [mem_keys]
  cases key k <;> simp

lemma keys_bound {a b : ℕ} (ha : ∀ k, key k = true → k < a) (hb : ∀ k, key k = true → k < b) :
    keys key lo (a - lo) = keys key lo (b - lo) := by
  have hsame : ∀ {a b : ℕ}, a ≤ b → (∀ k, key k = true → k < a) →
      keys key lo (a - lo) = keys key lo (b - lo) := by
    intro a b hab ha
    have hn : b - lo = (a - lo) + (b - max a lo) := by omega
    have hnil : keys key (lo + (a - lo)) (b - max a lo) = [] := by
      refine keys_eq_nil.mpr fun k hlo _ => ?_
      by_contra hk
      have hlt := ha k (by simpa using hk)
      omega
    rw [hn, keys_append, hnil, List.append_nil]
  obtain hle | hle := Nat.le_total a b
  · exact hsame hle ha
  · exact (hsame hle hb).symm

end

section
variable (d : ℕ) (key : ℕ → Bool) (node : ℕ → ℕ → Bool)

/-- The first slot in use among `n` slots from `o` on. -/
def firstSlot (slot : ℕ → Option (List ℕ)) : ℕ → ℕ → Option (List ℕ)
  | 0, _ => none
  | n + 1, o =>
      match slot o with
      | some l => some l
      | none => firstSlot slot n (o + 1)

/-- The slots are entered with a cursor that goes through `n` slots from `o` on. -/
def stale (slot : ℕ → Option (List ℕ)) : ℕ → ℕ → List ℕ
  | 0, _ => []
  | n + 1, o => (firstSlot slot (n + 1) o).getD [] ++ stale slot n (o + 1)

/-- What the walk meets below the node of level `r` and block `b`. -/
def visit : ℕ → ℕ → List ℕ
  | 0, b => keys key (d * b) d
  | r + 1, b =>
      stale (fun i => if node r (d * b + i) then some (visit r (d * b + i)) else none) d 0

/-- The slots of a node of level `r + 1`. -/
def slots (r b : ℕ) (i : ℕ) : Option (List ℕ) :=
  if node r (d * b + i) then some (visit d key node r (d * b + i)) else none

/-- The keys of `n` blocks of level `r`. -/
def blockKeys (r b n : ℕ) : List ℕ := keys key (b * d ^ (r + 1)) (n * d ^ (r + 1))

structure Nodes : Prop where
  pos : 0 < d
  node_iff : ∀ r b, b ≠ 0 → (node r b = true ↔ blockKeys d key r b 1 ≠ [])

end

variable {d : ℕ} {key : ℕ → Bool} {node : ℕ → ℕ → Bool} {r b o n M : ℕ}

lemma firstSlot_none {slot : ℕ → Option (List ℕ)} (h : firstSlot slot n o = none) :
    ∀ i, o ≤ i → i < o + n → slot i = none := by
  induction n generalizing o with
  | zero =>
    intro i hlo hhi
    omega
  | succ n ih =>
    intro i hlo hhi
    rw [firstSlot] at h
    cases hslot : slot o with
    | some l => simp [hslot] at h
    | none =>
      rw [hslot] at h
      by_cases hi : i = o
      · rw [hi, hslot]
      · exact ih h i (by omega) (by omega)

lemma firstSlot_some {slot : ℕ → Option (List ℕ)} {l : List ℕ} (h : firstSlot slot n o = some l) :
    ∃ c, o ≤ c ∧ c < o + n ∧ slot c = some l ∧ ∀ i, o ≤ i → i < c → slot i = none := by
  induction n generalizing o with
  | zero => simp [firstSlot] at h
  | succ n ih =>
    rw [firstSlot] at h
    cases hslot : slot o with
    | some l' =>
      rw [hslot] at h
      exact ⟨o, le_rfl, by omega, by rw [hslot, ← h], fun i hlo hhi => by omega⟩
    | none =>
      rw [hslot] at h
      obtain ⟨c, hlo, hhi, hc, hbefore⟩ := ih h
      refine ⟨c, by omega, by omega, hc, fun i hlo' hhi' => ?_⟩
      by_cases hi : i = o
      · rw [hi, hslot]
      · exact hbefore i (by omega) hhi'

lemma stale_nil {slot : ℕ → Option (List ℕ)} (h : ∀ i, o ≤ i → i < o + n → slot i = none) :
    stale slot n o = [] := by
  induction n generalizing o with
  | zero => rfl
  | succ n ih =>
    rw [stale, ih fun i hi hid => h i (by omega) (by omega), List.append_nil]
    cases hfirst : firstSlot slot (n + 1) o with
    | none => rfl
    | some l =>
      obtain ⟨c, hlo, hhi, hc, -⟩ := firstSlot_some hfirst
      rw [h c hlo hhi] at hc
      cases hc

lemma blockKeys_append (r b n n' : ℕ) :
    blockKeys d key r b (n + n') = blockKeys d key r b n ++ blockKeys d key r (b + n) n' := by
  rw [blockKeys, Nat.add_mul, keys_append, ← Nat.add_mul]
  rfl

lemma blockKeys_slots (r b : ℕ) : blockKeys d key (r + 1) b 1 = blockKeys d key r (d * b) d := by
  have hlo : b * d ^ (r + 1 + 1) = d * b * d ^ (r + 1) := by ring
  have hn : 1 * d ^ (r + 1 + 1) = d * d ^ (r + 1) := by ring
  rw [blockKeys, hlo, hn]
  rfl

lemma mem_blockKeys {k : ℕ} (hd : 0 < d) :
    k ∈ blockKeys d key r b n ↔ (b ≤ k / d ^ (r + 1) ∧ k / d ^ (r + 1) < b + n) ∧ key k = true := by
  have hpos : 0 < d ^ (r + 1) := pow_pos hd _
  rw [blockKeys, mem_keys, ← Nat.add_mul, Nat.le_div_iff_mul_le hpos, Nat.div_lt_iff_lt_mul hpos]

section
variable (h : Nodes d key node)
include h

lemma slot_none {i : ℕ} (hne : d * b + i ≠ 0) (hslot : slots d key node r b i = none) :
    blockKeys d key r (d * b + i) 1 = [] := by
  by_contra hkeys
  simp [slots, (h.node_iff r _ hne).mpr hkeys] at hslot

/-- The slots of a node give what the walk meets below them, and nothing else. -/
lemma mem_stale {k : ℕ} (hchild : ∀ i, d * b + i ≠ 0 →
      (k ∈ visit d key node r (d * b + i) ↔ k ∈ blockKeys d key r (d * b + i) 1)) :
    ∀ n o, d * b + o ≠ 0 →
      (k ∈ stale (slots d key node r b) n o ↔ k ∈ blockKeys d key r (d * b + o) n) := by
  intro n
  induction n with
  | zero =>
    intro o _
    rw [stale, blockKeys, Nat.zero_mul, keys_zero]
  | succ n ih =>
    intro o hne
    have hsplit : blockKeys d key r (d * b + o) (n + 1) =
        blockKeys d key r (d * b + o) 1 ++ blockKeys d key r (d * b + (o + 1)) n := by
      rw [Nat.add_comm n 1, blockKeys_append, Nat.add_assoc]
    rw [stale, hsplit, List.mem_append, List.mem_append, ih _ (by omega)]
    cases hfirst : firstSlot (slots d key node r b) (n + 1) o with
    | none =>
      rw [slot_none h hne (firstSlot_none hfirst o le_rfl (by omega))]
      rfl
    | some l =>
      obtain ⟨c, hlo, hhi, hc, hbefore⟩ := firstSlot_some hfirst
      have hl : l = visit d key node r (d * b + c) := by
        rw [slots] at hc
        split_ifs at hc
        exact (Option.some.inj hc).symm
      rw [Option.getD_some, hl, hchild c (by omega)]
      by_cases hco : c = o
      · rw [hco]
      · have hsub : k ∈ blockKeys d key r (d * b + c) 1 →
            k ∈ blockKeys d key r (d * b + (o + 1)) n := by
          rw [mem_blockKeys h.pos, mem_blockKeys h.pos]
          rintro ⟨⟨hle, hlt⟩, hk⟩
          exact ⟨⟨by omega, by omega⟩, hk⟩
        rw [slot_none h hne (hbefore o le_rfl (by omega))]
        simp only [List.not_mem_nil, false_or]
        exact ⟨fun hor => hor.elim hsub id, Or.inr⟩

lemma visit_spec : ∀ r b, b ≠ 0 → ∀ k, k ∈ visit d key node r b ↔ k ∈ blockKeys d key r b 1 := by
  intro r
  induction r with
  | zero =>
    intro b _ k
    have hlo : b * d ^ (0 + 1) = d * b := by ring
    rw [visit, blockKeys, hlo, Nat.zero_add, pow_one, Nat.one_mul]
  | succ r ih =>
    intro b hb k
    have hpos : 0 < d * b := Nat.mul_pos h.pos (Nat.pos_of_ne_zero hb)
    have hall := mem_stale h (fun i hne => ih (d * b + i) hne k) d 0 (by omega)
    rw [Nat.add_zero, ← blockKeys_slots] at hall
    exact hall

lemma length_le_visit (hb : b ≠ 0) :
    (blockKeys d key r b 1).length ≤ (visit d key node r b).length := by
  have hsub : (blockKeys d key r b 1).Subperm (visit d key node r b) :=
    keys_nodup.subperm fun k hk => (visit_spec h r b hb k).mpr hk
  exact hsub.length_le

lemma visit_ne_nil (hb : b ≠ 0) (hnode : node r b = true) : visit d key node r b ≠ [] := by
  obtain ⟨k, hk⟩ := List.exists_mem_of_ne_nil _ ((h.node_iff r b hb).mp hnode)
  exact List.ne_nil_of_mem ((visit_spec h r b hb k).mpr hk)

end

section
variable (d : ℕ) (key : ℕ → Bool)

/-- The number of keys from `lo` up to `hi`. -/
def span (lo hi : ℕ) : ℕ := (keys key lo (hi - lo)).length

/-- The block has a key and the slot before it, in the same node, has none. -/
def Gap (r c : ℕ) : Prop :=
  c % d ≠ 0 ∧ blockKeys d key r c 1 ≠ [] ∧ blockKeys d key r (c - 1) 1 = []

/-- Below the node, a prefix of `M` keys ends at the latest with the first block after a gap. -/
def Below (r b M : ℕ) : Prop :=
  ∀ r' c, r' < r → c / d ^ (r - r') = b → Gap d key r' c →
    M ≤ span key (b * d ^ (r + 1)) ((c + 1) * d ^ (r' + 1))

/-- The same for the slots of a node from `o` on; the cursor starts at `o`. -/
def FromSlot (r b o M : ℕ) : Prop :=
  (∀ i, o < i → i < d → Gap d key r (d * b + i) →
      M ≤ span key ((d * b + o) * d ^ (r + 1)) ((d * b + i + 1) * d ^ (r + 1))) ∧
    ∀ i, o ≤ i → i < d → Below d key r (d * b + i)
      (M - span key ((d * b + o) * d ^ (r + 1)) ((d * b + i) * d ^ (r + 1)))

end

lemma span_add {lo mid hi : ℕ} (hlo : lo ≤ mid) (hhi : mid ≤ hi) :
    span key lo hi = span key lo mid + span key mid hi := by
  have hlen : hi - lo = (mid - lo) + (hi - mid) := by omega
  have hmid : lo + (mid - lo) = mid := by omega
  rw [span, hlen, keys_append, List.length_append, hmid]
  rfl

lemma span_self (lo : ℕ) : span key lo lo = 0 := by rw [span, Nat.sub_self, keys_zero, List.length_nil]

lemma span_mono {lo hi hi' : ℕ} (h : hi ≤ hi') : span key lo hi ≤ span key lo hi' := by
  by_cases hlo : lo ≤ hi
  · rw [span_add hlo h]
    omega
  · rw [span, Nat.sub_eq_zero_of_le (by omega), keys_zero]
    exact Nat.zero_le _

lemma length_blockKeys (r b n : ℕ) :
    (blockKeys d key r b n).length = span key (b * d ^ (r + 1)) ((b + n) * d ^ (r + 1)) := by
  rw [span, ← Nat.sub_mul, Nat.add_sub_cancel_left]
  rfl

lemma below_zero : Below d key r b 0 := fun _ _ _ _ _ => Nat.zero_le _

lemma below_of_nil (hd : 0 < d) (h : blockKeys d key r b 1 = []) : Below d key r b M := by
  intro r' c hr hc hgap
  obtain ⟨k, hk⟩ := List.exists_mem_of_ne_nil _ hgap.2.1
  obtain ⟨⟨hlo, hhi⟩, hkey⟩ := (mem_blockKeys hd).mp hk
  have hkc : k / d ^ (r' + 1) = c := by omega
  have hkb : k / d ^ (r + 1) = b := by
    have hexp : d ^ (r + 1) = d ^ (r' + 1) * d ^ (r - r') := by
      rw [← pow_add]
      congr 1
      omega
    rw [hexp, ← Nat.div_div_eq_div_mul, hkc, hc]
  have hmem : k ∈ blockKeys d key r b 1 := (mem_blockKeys hd).mpr ⟨by omega, hkey⟩
  rw [h] at hmem
  cases hmem

lemma below_succ (hd : 0 < d) : Below d key (r + 1) b M ↔ FromSlot d key r b 0 M := by
  have hstart : b * d ^ (r + 1 + 1) = (d * b + 0) * d ^ (r + 1) := by ring
  constructor
  · intro h
    refine ⟨fun i hi hid hgap => ?_, fun i hi hid r' c hr hc hgap => ?_⟩
    · have hdiv : (d * b + i) / d ^ (r + 1 - r) = b := by
        rw [Nat.add_sub_cancel_left, pow_one, Nat.mul_add_div hd, Nat.div_eq_of_lt hid, Nat.add_zero]
      have hcount := h r (d * b + i) (by omega) hdiv hgap
      rw [hstart] at hcount
      exact hcount
    · have hdiv : c / d ^ (r + 1 - r') = b := by
        rw [Nat.sub_add_comm hr.le, pow_succ, ← Nat.div_div_eq_div_mul, hc, Nat.mul_add_div hd,
          Nat.div_eq_of_lt hid, Nat.add_zero]
      have hcount := h r' c (by omega) hdiv hgap
      have hend : (d * b + i) * d ^ (r + 1) ≤ (c + 1) * d ^ (r' + 1) := by
        have hle : (d * b + i) * d ^ (r - r') ≤ c := by
          rw [← hc]
          exact Nat.div_mul_le_self _ _
        have hexp : d ^ (r + 1) = d ^ (r - r') * d ^ (r' + 1) := by
          rw [← pow_add]
          congr 1
          omega
        rw [hexp, ← Nat.mul_assoc]
        exact Nat.mul_le_mul_right _ (by omega)
      have hsum := @span_add key _ _ _
        (Nat.mul_le_mul_right (d ^ (r + 1)) (by omega : d * b + 0 ≤ d * b + i)) hend
      rw [hstart] at hcount
      omega
  · rintro ⟨hgaps, hbelow⟩ r' c hr hc hgap
    rw [hstart]
    by_cases hrr : r' = r
    · subst hrr
      rw [Nat.add_sub_cancel_left, pow_one] at hc
      have hmod := Nat.div_add_mod c d
      have hlt := Nat.mod_lt c hd
      rw [hc] at hmod
      rw [← hmod] at hgap ⊢
      refine hgaps (c % d) ?_ hlt hgap
      by_contra hzero
      obtain ⟨hne, -⟩ := hgap
      rw [Nat.mul_add_mod, Nat.mod_mod] at hne
      omega
    · have hr' : r' < r := by omega
      have hmod := Nat.div_add_mod (c / d ^ (r - r')) d
      have hlt := Nat.mod_lt (c / d ^ (r - r')) hd
      have hdiv : c / d ^ (r - r') / d = b := by
        rw [Nat.div_div_eq_div_mul, ← pow_succ, ← Nat.sub_add_comm hr'.le, hc]
      rw [hdiv] at hmod
      have hcount := hbelow (c / d ^ (r - r') % d) (Nat.zero_le _) hlt r' c hr' hmod.symm hgap
      have hend : (d * b + c / d ^ (r - r') % d) * d ^ (r + 1) ≤ (c + 1) * d ^ (r' + 1) := by
        have hle : c / d ^ (r - r') * d ^ (r - r') ≤ c := Nat.div_mul_le_self _ _
        have hexp : d ^ (r + 1) = d ^ (r - r') * d ^ (r' + 1) := by
          rw [← pow_add]
          congr 1
          omega
        rw [hmod, hexp, ← Nat.mul_assoc]
        exact Nat.mul_le_mul_right _ (by omega)
      have hsum := @span_add key _ _ _
        (Nat.mul_le_mul_right (d ^ (r + 1)) (by omega : d * b + 0 ≤ d * b + c / d ^ (r - r') % d)) hend
      omega

lemma blockKeys_nil (hd : 0 < d) (h : ∀ i, i < n → blockKeys d key r (b + i) 1 = []) :
    blockKeys d key r b n = [] := by
  by_contra hne
  obtain ⟨k, hk⟩ := List.exists_mem_of_ne_nil _ hne
  obtain ⟨⟨hlo, hhi⟩, hkey⟩ := (mem_blockKeys hd).mp hk
  have hnil := h (k / d ^ (r + 1) - b) (by omega)
  have hmem : k ∈ blockKeys d key r (b + (k / d ^ (r + 1) - b)) 1 :=
    (mem_blockKeys hd).mpr ⟨by omega, hkey⟩
  rw [hnil] at hmem
  cases hmem

/-- The first slot has keys: it is right by itself, and so are the others after it. -/
lemma fromSlot_of_keys (ho : o < d) (hkeys : blockKeys d key r (d * b + o) 1 ≠ []) :
    FromSlot d key r b o M ↔ Below d key r (d * b + o) M ∧
      FromSlot d key r b (o + 1) (M - (blockKeys d key r (d * b + o) 1).length) := by
  have hspan : ∀ {i}, o + 1 ≤ i → span key ((d * b + o) * d ^ (r + 1)) ((d * b + i) * d ^ (r + 1)) =
      (blockKeys d key r (d * b + o) 1).length +
        span key ((d * b + (o + 1)) * d ^ (r + 1)) ((d * b + i) * d ^ (r + 1)) := by
    intro i hi
    rw [length_blockKeys, ← Nat.add_assoc]
    exact span_add (Nat.mul_le_mul_right _ (by omega)) (Nat.mul_le_mul_right _ (by omega))
  constructor
  · rintro ⟨hgaps, hbelow⟩
    refine ⟨?_, fun i hi hid hgap => ?_, fun i hi hid => ?_⟩
    · have hfirst := hbelow o le_rfl ho
      rw [span_self, Nat.sub_zero] at hfirst
      exact hfirst
    · have hcount := hgaps i (by omega) hid hgap
      rw [Nat.add_assoc, hspan (by omega)] at hcount
      rw [Nat.add_assoc (d * b) i 1]
      omega
    · have hrest := hbelow i (by omega) hid
      rw [hspan hi] at hrest
      rwa [Nat.sub_sub]
  · rintro ⟨hfirst, hgaps, hbelow⟩
    refine ⟨fun i hi hid hgap => ?_, fun i hi hid => ?_⟩
    · by_cases hio : i = o + 1
      · obtain ⟨-, -, hempty⟩ := hgap
        rw [hio, ← Nat.add_assoc, Nat.add_sub_cancel] at hempty
        exact absurd hempty hkeys
      · have hcount := hgaps i (by omega) hid hgap
        rw [Nat.add_assoc, hspan (by omega)]
        rw [Nat.add_assoc (d * b) i 1] at hcount
        omega
    · by_cases hio : i = o
      · rw [hio, span_self, Nat.sub_zero]
        exact hfirst
      · have hrest := hbelow i (by omega) hid
        rw [Nat.sub_sub, ← hspan (by omega)] at hrest
        exact hrest

lemma fromSlot_of_gap {c : ℕ} (hd : 0 < d) (hoc : o < c) (hc : c < d)
    (hempty : ∀ i, o ≤ i → i < c → blockKeys d key r (d * b + i) 1 = [])
    (hkeys : blockKeys d key r (d * b + c) 1 ≠ []) :
    FromSlot d key r b o M ↔ Below d key r (d * b + c) M ∧
      M ≤ (blockKeys d key r (d * b + c) 1).length := by
  have hbefore : ∀ {i}, o ≤ i → i ≤ c →
      span key ((d * b + o) * d ^ (r + 1)) ((d * b + i) * d ^ (r + 1)) = 0 := by
    intro i hi hic
    have hnil : blockKeys d key r (d * b + o) (i - o) = [] := by
      refine blockKeys_nil hd fun j hj => ?_
      rw [Nat.add_assoc]
      exact hempty (o + j) (by omega) (by omega)
    have hlen := @length_blockKeys d key r (d * b + o) (i - o)
    rw [hnil, List.length_nil, Nat.add_assoc, Nat.add_sub_cancel' hi] at hlen
    exact hlen.symm
  have hfirst : span key ((d * b + o) * d ^ (r + 1)) ((d * b + c + 1) * d ^ (r + 1)) =
      (blockKeys d key r (d * b + c) 1).length := by
    rw [length_blockKeys, span_add (Nat.mul_le_mul_right _ (by omega : d * b + o ≤ d * b + c))
      (Nat.mul_le_mul_right _ (by omega)), hbefore (by omega) le_rfl, Nat.zero_add]
  constructor
  · rintro ⟨hgaps, hbelow⟩
    have hgap : Gap d key r (d * b + c) := by
      refine ⟨?_, hkeys, ?_⟩
      · rw [Nat.mul_add_mod, Nat.mod_eq_of_lt hc]
        omega
      · have hprev : d * b + c - 1 = d * b + (c - 1) := by omega
        rw [hprev]
        exact hempty (c - 1) (by omega) (by omega)
    have hcount := hgaps c hoc hc hgap
    rw [hfirst] at hcount
    have hrest := hbelow c (by omega) hc
    rw [hbefore (by omega) le_rfl, Nat.sub_zero] at hrest
    exact ⟨hrest, hcount⟩
  · rintro ⟨hrest, hcount⟩
    rw [← hfirst] at hcount
    have hmono : ∀ {i}, c < i → M ≤
        span key ((d * b + o) * d ^ (r + 1)) ((d * b + i) * d ^ (r + 1)) := by
      intro i hi
      exact hcount.trans (span_mono (Nat.mul_le_mul_right _ (by omega)))
    refine ⟨fun i hi hid hgap => ?_, fun i hi hid => ?_⟩
    · have hci : c ≤ i := by
        by_contra hlt
        exact hgap.2.1 (hempty i (by omega) (by omega))
      exact hcount.trans (span_mono (Nat.mul_le_mul_right _ (by omega)))
    · by_cases hic : i ≤ c
      · rw [hbefore hi hic, Nat.sub_zero]
        by_cases heq : i = c
        · rw [heq]
          exact hrest
        · exact below_of_nil hd (hempty i hi (by omega))
      · rw [Nat.sub_eq_zero_of_le (hmono (by omega))]
        exact below_zero

lemma fromSlot_of_nil (hd : 0 < d)
    (hempty : ∀ i, o ≤ i → i < d → blockKeys d key r (d * b + i) 1 = []) :
    FromSlot d key r b o M :=
  ⟨fun i hi hid hgap => absurd (hempty i (by omega) hid) hgap.2.1,
    fun i hi hid => below_of_nil hd (hempty i hi hid)⟩

section
variable (h : Nodes d key node)
include h

lemma slot_some {i : ℕ} {l : List ℕ} (hne : d * b + i ≠ 0)
    (hslot : slots d key node r b i = some l) :
    l = visit d key node r (d * b + i) ∧ visit d key node r (d * b + i) ≠ [] ∧
      blockKeys d key r (d * b + i) 1 ≠ [] := by
  rw [slots] at hslot
  split_ifs at hslot with hnode
  exact ⟨(Option.some.inj hslot).symm, visit_ne_nil h hne hnode, (h.node_iff r _ hne).mp hnode⟩

lemma visit_not_mem {c c' n : ℕ} (hc : c ≠ 0) (hlt : c < c') :
    ∀ x ∈ visit d key node r c, x ∉ blockKeys d key r c' n := by
  intro x hx hx'
  have hlo := (mem_blockKeys h.pos).mp ((visit_spec h r c hc x).mp hx)
  have hhi := (mem_blockKeys h.pos).mp hx'
  omega

lemma stale_take_iff
    (hchild : ∀ i M, d * b + i ≠ 0 → ((visit d key node r (d * b + i)).take M =
      (blockKeys d key r (d * b + i) 1).take M ↔ Below d key r (d * b + i) M)) :
    ∀ n o M, o + n = d → d * b + o ≠ 0 →
      ((stale (slots d key node r b) n o).take M = (blockKeys d key r (d * b + o) n).take M ↔
        FromSlot d key r b o M) := by
  intro n
  induction n with
  | zero =>
    intro o M hod _
    refine iff_of_true ?_ (fromSlot_of_nil h.pos fun i hi hid => by omega)
    rw [stale, blockKeys, Nat.zero_mul, keys_zero]
  | succ n ih =>
    intro o M hod hne
    have hsplit : blockKeys d key r (d * b + o) (n + 1) =
        blockKeys d key r (d * b + o) 1 ++ blockKeys d key r (d * b + (o + 1)) n := by
      rw [Nat.add_comm n 1, blockKeys_append, Nat.add_assoc]
    have hnext := ih (o + 1)
    cases hslot : slots d key node r b o with
    | some l =>
      obtain ⟨rfl, -, hkeys⟩ := slot_some h hne hslot
      have hstale : stale (slots d key node r b) (n + 1) o =
          visit d key node r (d * b + o) ++ stale (slots d key node r b) n (o + 1) := by
        simp only [stale, firstSlot, hslot, Option.getD_some]
      rw [hstale, hsplit, take_append_iff (length_le_visit h hne)
        (visit_not_mem h hne (by omega)), hchild o M hne, hnext _ (by omega) (by omega),
        fromSlot_of_keys (by omega) hkeys]
    | none =>
      have hkeysNil := slot_none h hne hslot
      have hfirst : firstSlot (slots d key node r b) (n + 1) o =
          firstSlot (slots d key node r b) n (o + 1) := by
        simp only [firstSlot, hslot]
      cases hrest : firstSlot (slots d key node r b) n (o + 1) with
      | none =>
        have hempty : ∀ i, o ≤ i → i < d → blockKeys d key r (d * b + i) 1 = [] := by
          intro i hi hid
          by_cases hio : i = o
          · rw [hio, hkeysNil]
          · exact slot_none h (by omega) (firstSlot_none hrest i (by omega) (by omega))
        refine iff_of_true ?_ (fromSlot_of_nil h.pos hempty)
        rw [stale, hfirst, hrest, Option.getD_none, List.nil_append, hsplit, hkeysNil,
          List.nil_append, hnext M (by omega) (by omega)]
        exact fromSlot_of_nil h.pos fun i hi hid => hempty i (by omega) hid
      | some l =>
        obtain ⟨c, hlo, hhi, hc, hbefore⟩ := firstSlot_some hrest
        obtain ⟨rfl, hnonempty, hkeys⟩ := slot_some h (by omega) hc
        have hempty : ∀ i, o ≤ i → i < c → blockKeys d key r (d * b + i) 1 = [] := by
          intro i hi hic
          by_cases hio : i = o
          · rw [hio, hkeysNil]
          · exact slot_none h (by omega) (hbefore i (by omega) hic)
        obtain ⟨n', rfl⟩ : ∃ n', n = n' + 1 := ⟨n - 1, by omega⟩
        have hstale : stale (slots d key node r b) (n' + 1 + 1) o =
            visit d key node r (d * b + c) ++ (visit d key node r (d * b + c) ++
              stale (slots d key node r b) n' (o + 1 + 1)) := by
          rw [stale, hfirst, hrest, Option.getD_some, stale, hrest, Option.getD_some]
        have hkeysSplit : blockKeys d key r (d * b + o) (n' + 1 + 1) =
            blockKeys d key r (d * b + c) 1 ++ blockKeys d key r (d * b + (c + 1)) (d - (c + 1)) := by
          have hn : n' + 1 + 1 = (c - o) + (1 + (d - (c + 1))) := by omega
          have hnil : blockKeys d key r (d * b + o) (c - o) = [] := by
            refine blockKeys_nil h.pos fun j hj => ?_
            rw [Nat.add_assoc]
            exact hempty (o + j) (by omega) (by omega)
          have hoc : d * b + o + (c - o) = d * b + c := by omega
          rw [hn, blockKeys_append, hnil, List.nil_append, hoc, blockKeys_append, Nat.add_assoc]
        rw [hstale, hkeysSplit, take_twice_iff hnonempty (length_le_visit h (by omega))
          (visit_not_mem h (by omega) (by omega)), hchild c M (by omega),
          fromSlot_of_gap h.pos (by omega) (by omega) hempty hkeys]

theorem visit_take_iff : ∀ r b M, b ≠ 0 →
    ((visit d key node r b).take M = (blockKeys d key r b 1).take M ↔ Below d key r b M) := by
  intro r
  induction r with
  | zero =>
    intro b M _
    have hlo : b * d ^ (0 + 1) = d * b := by ring
    refine iff_of_true ?_ fun r' c hr => absurd hr (Nat.not_lt_zero _)
    rw [visit, blockKeys, hlo, Nat.zero_add, pow_one, Nat.one_mul]
  | succ r ih =>
    intro b M hb
    have hpos : 0 < d * b := Nat.mul_pos h.pos (Nat.pos_of_ne_zero hb)
    have hstale := stale_take_iff h (r := r) (b := b) (fun i M hne => ih _ M hne) d 0 M (by omega)
      (by omega)
    rw [Nat.add_zero, ← blockKeys_slots, ← below_succ h.pos] at hstale
    exact hstale

end

section
variable (d : ℕ) (key : ℕ → Bool) (node : ℕ → ℕ → Bool) (first : ℕ)

/-- The end of the block of level `r` that `first` is in. -/
def pathEnd (r : ℕ) : ℕ := (first / d ^ (r + 1) + 1) * d ^ (r + 1)

/-- The way up from level `r`: the slots after the one of `first` in `n` nodes. -/
def climb : ℕ → ℕ → List ℕ
  | _, 0 => []
  | r, n + 1 =>
      let s := first / d ^ (r + 1) % d
      stale (slots d key node r (first / d ^ (r + 2))) (d - (s + 1)) (s + 1) ++ climb (r + 1) n

/-- The whole walk in a tree with `n` levels above the leaves. -/
def walkFrom (n : ℕ) : List ℕ := keys key first (d - first % d) ++ climb d key node first 0 n

/-- A prefix of `M` keys from `first` on ends at the latest with the first block after a gap. -/
def FromKey (M : ℕ) : Prop :=
  ∀ r c, Gap d key r c → first < (c - 1) * d ^ (r + 1) → M ≤ span key first ((c + 1) * d ^ (r + 1))

/-- The same for the keys after the path block of level `r`, up to that of level `r + n`. -/
def Climbed (r n M : ℕ) : Prop :=
  ∀ r' c, r' < r + n → Gap d key r' c → pathEnd d first r ≤ (c - 1) * d ^ (r' + 1) →
    (c + 1) * d ^ (r' + 1) ≤ pathEnd d first (r + n) →
      M ≤ span key (pathEnd d first r) ((c + 1) * d ^ (r' + 1))

end

lemma block_path (first r : ℕ) :
    d * (first / d ^ (r + 2)) + first / d ^ (r + 1) % d = first / d ^ (r + 1) := by
  rw [pow_succ d (r + 1), ← Nat.div_div_eq_div_mul]
  exact Nat.div_add_mod _ _

section
variable {first : ℕ} (hd : 0 < d)
include hd

lemma lt_pathEnd (r : ℕ) : first < pathEnd d first r := by
  rw [pathEnd, Nat.add_mul, Nat.one_mul]
  exact Nat.lt_div_mul_add (pow_pos hd _)

lemma pathEnd_le {c : ℕ} (h : first < c * d ^ (r + 1)) : pathEnd d first r ≤ c * d ^ (r + 1) := by
  rw [pathEnd]
  exact Nat.mul_le_mul_right _ ((Nat.div_lt_iff_lt_mul (pow_pos hd _)).mpr h)

lemma pathEnd_mono {r' : ℕ} (h : r ≤ r') : pathEnd d first r ≤ pathEnd d first r' := by
  have hexp : d ^ (r' + 1) = d ^ (r' - r) * d ^ (r + 1) := by
    rw [← pow_add]
    congr 1
    omega
  have hlt : first < pathEnd d first r' := lt_pathEnd hd r'
  have hmul : pathEnd d first r' = (first / d ^ (r' + 1) + 1) * d ^ (r' - r) * d ^ (r + 1) := by
    rw [pathEnd, Nat.mul_assoc, ← hexp]
  rw [hmul] at hlt ⊢
  exact pathEnd_le hd hlt

lemma Gap.pred_div {c : ℕ} (h : Gap d key r c) {e : ℕ} (he : e ≠ 0) : (c - 1) / d ^ e = c / d ^ e := by
  obtain ⟨e, rfl⟩ := Nat.exists_eq_succ_of_ne_zero he
  have hone : (c - 1) / d = c / d := by
    have hmod := Nat.div_add_mod c d
    have hlt := Nat.mod_lt c hd
    have hne := h.1
    have hpred : c - 1 = d * (c / d) + (c % d - 1) := by omega
    have hrest : (c % d - 1) / d = 0 := Nat.div_eq_of_lt (by omega)
    rw [hpred, Nat.mul_add_div hd, hrest, Nat.add_zero]
  rw [Nat.pow_succ', ← Nat.div_div_eq_div_mul, ← Nat.div_div_eq_div_mul, hone]

lemma climbed_succ (n M : ℕ) :
    Climbed d key first r (n + 1) M ↔
      FromSlot d key r (first / d ^ (r + 2)) (first / d ^ (r + 1) % d + 1) M ∧
        Climbed d key first (r + 1) n
          (M - span key (pathEnd d first r) (pathEnd d first (r + 1))) := by
  have hpath := block_path (d := d) first r
  have hslot := Nat.mod_lt (first / d ^ (r + 1)) hd
  have hsucc : first / d ^ (r + 2) = first / d ^ (r + 1) / d := by
    rw [pow_succ d (r + 1), ← Nat.div_div_eq_div_mul]
  have hstart : (d * (first / d ^ (r + 2)) + (first / d ^ (r + 1) % d + 1)) * d ^ (r + 1) =
      pathEnd d first r := by
    rw [← Nat.add_assoc, hpath, pathEnd]
  have hend : pathEnd d first (r + 1) = (d * (first / d ^ (r + 2)) + d) * d ^ (r + 1) := by
    rw [pathEnd]
    ring
  have hn : r + (n + 1) = r + 1 + n := by omega
  have hup : pathEnd d first (r + 1) ≤ pathEnd d first (r + 1 + n) :=
    pathEnd_mono hd (Nat.le_add_right _ _)
  constructor
  · intro h
    refine ⟨⟨fun i hi hid hgap => ?_, fun i hi hid r' c hr hc hgap => ?_⟩,
      fun r' c hr hgap hlo hhi => ?_⟩
    · rw [hstart]
      refine h r _ (by omega) hgap ?_ ?_
      · exact Nat.mul_le_mul_right _ (by omega)
      · rw [hn]
        refine le_trans ?_ hup
        rw [hend]
        exact Nat.mul_le_mul_right _ (by omega)
    · have hpred := hgap.pred_div hd (e := r - r') (by omega)
      have hexp : d ^ (r + 1) = d ^ (r - r') * d ^ (r' + 1) := by
        rw [← pow_add]
        congr 1
        omega
      have hlo : (d * (first / d ^ (r + 2)) + i) * d ^ (r - r') ≤ c - 1 := by
        rw [← hc, ← hpred]
        exact Nat.div_mul_le_self _ _
      have hhi : c < (d * (first / d ^ (r + 2)) + i + 1) * d ^ (r - r') := by
        rw [← hc]
        exact Nat.lt_mul_of_div_lt (Nat.lt_succ_self _) (pow_pos hd _)
      have hmid : (d * (first / d ^ (r + 2)) + i) * d ^ (r + 1) ≤ (c + 1) * d ^ (r' + 1) := by
        rw [hexp, ← Nat.mul_assoc]
        exact Nat.mul_le_mul_right _ (by omega)
      have hbefore : pathEnd d first r ≤ (d * (first / d ^ (r + 2)) + i) * d ^ (r + 1) := by
        rw [← hstart]
        exact Nat.mul_le_mul_right _ (by omega)
      have hcount := h r' c (by omega) hgap ?_ ?_
      · rw [hstart]
        rw [span_add hbefore hmid] at hcount
        omega
      · refine hbefore.trans ?_
        rw [hexp, ← Nat.mul_assoc]
        exact Nat.mul_le_mul_right _ hlo
      · rw [hn]
        refine le_trans ?_ hup
        rw [hend]
        calc (c + 1) * d ^ (r' + 1)
            ≤ (d * (first / d ^ (r + 2)) + i + 1) * d ^ (r - r') * d ^ (r' + 1) :=
              Nat.mul_le_mul_right _ hhi
          _ = (d * (first / d ^ (r + 2)) + i + 1) * d ^ (r + 1) := by rw [hexp, Nat.mul_assoc]
          _ ≤ (d * (first / d ^ (r + 2)) + d) * d ^ (r + 1) :=
              Nat.mul_le_mul_right _ (by omega)
    · have hmono : pathEnd d first r ≤ pathEnd d first (r + 1) := pathEnd_mono hd (Nat.le_succ r)
      have hcount := h r' c (by omega) hgap (hmono.trans hlo) (by rw [hn]; exact hhi)
      have hle : pathEnd d first (r + 1) ≤ (c + 1) * d ^ (r' + 1) :=
        hlo.trans (Nat.mul_le_mul_right _ (by omega))
      rw [span_add hmono hle] at hcount
      omega
  · rintro ⟨⟨hgaps, hbelow⟩, hrest⟩ r' c hr hgap hlo hhi
    have hmono : pathEnd d first r ≤ pathEnd d first (r + 1) := pathEnd_mono hd (Nat.le_succ r)
    by_cases hnext : pathEnd d first (r + 1) ≤ (c - 1) * d ^ (r' + 1)
    · have hcount := hrest r' c (by omega) hgap hnext (by rwa [hn] at hhi)
      have hle : pathEnd d first (r + 1) ≤ (c + 1) * d ^ (r' + 1) :=
        hnext.trans (Nat.mul_le_mul_right _ (by omega))
      rw [span_add hmono hle]
      omega
    · have hrr : r' ≤ r := by
        by_contra hgt
        have hlt : first < (c - 1) * d ^ (r' + 1) := (lt_pathEnd hd r).trans_le hlo
        exact hnext ((pathEnd_mono hd (by omega)).trans (pathEnd_le hd hlt))
      rw [Nat.not_le, hend] at hnext
      by_cases heq : r' = r
      · subst heq
        have hle := Nat.le_of_mul_le_mul_right (hstart ▸ hlo) (pow_pos hd _)
        have hlt := Nat.lt_of_mul_lt_mul_right hnext
        have hc : c ≠ d * (first / d ^ (r' + 2)) + d := by
          rintro rfl
          refine hgap.1 ?_
          rw [Nat.add_mod_right, Nat.mul_mod_right]
        obtain ⟨i, rfl⟩ := Nat.exists_eq_add_of_le (show d * (first / d ^ (r' + 2)) ≤ c by omega)
        have hcount := hgaps i (by omega) (by omega) hgap
        rwa [hstart] at hcount
      · have hpred := hgap.pred_div hd (e := r - r') (by omega)
        have hexp : d ^ (r + 1) = d ^ (r - r') * d ^ (r' + 1) := by
          rw [← pow_add]
          congr 1
          omega
        have hpos : 0 < d ^ (r' + 1) := pow_pos hd _
        have hle : d * (first / d ^ (r + 2)) + (first / d ^ (r + 1) % d + 1) ≤ c / d ^ (r - r') := by
          rw [← hpred, Nat.le_div_iff_mul_le (pow_pos hd _)]
          refine Nat.le_of_mul_le_mul_right ?_ hpos
          rw [Nat.mul_assoc, ← hexp, hstart]
          exact hlo
        have hlt : c / d ^ (r - r') < d * (first / d ^ (r + 2)) + d := by
          rw [← hpred, Nat.div_lt_iff_lt_mul (pow_pos hd _)]
          refine Nat.lt_of_mul_lt_mul_right (a := d ^ (r' + 1)) ?_
          rw [Nat.mul_assoc, ← hexp]
          exact hnext
        obtain ⟨i, hi⟩ := Nat.exists_eq_add_of_le
          (show d * (first / d ^ (r + 2)) ≤ c / d ^ (r - r') by omega)
        rw [hi] at hle hlt
        have hcount := hbelow i (by omega) (by omega) r' c (by omega) hi hgap
        have hmid : (d * (first / d ^ (r + 2)) + i) * d ^ (r + 1) ≤ (c + 1) * d ^ (r' + 1) := by
          rw [hexp, ← Nat.mul_assoc, ← hi]
          refine Nat.mul_le_mul_right _ ?_
          have hmul := Nat.div_mul_le_self c (d ^ (r - r'))
          omega
        have hbefore : pathEnd d first r ≤ (d * (first / d ^ (r + 2)) + i) * d ^ (r + 1) := by
          rw [← hstart]
          exact Nat.mul_le_mul_right _ (by omega)
        rw [hstart] at hcount
        rw [span_add hbefore hmid]
        omega

end

section
variable {first : ℕ} (h : Nodes d key node)
include h

/-- A prefix of what is met on the way up, against the keys after the path block. -/
lemma climb_take_iff (first : ℕ) : ∀ n r M,
    ((climb d key node first r n).take M =
        (keys key (pathEnd d first r) (pathEnd d first (r + n) - pathEnd d first r)).take M ↔
      Climbed d key first r n M) := by
  intro n
  induction n with
  | zero =>
    intro r M
    refine iff_of_true ?_ fun r' c hr hgap hlo hhi => ?_
    · rw [climb, Nat.add_zero, Nat.sub_self, keys_zero]
    · have hlt : (c - 1) * d ^ (r' + 1) < (c + 1) * d ^ (r' + 1) :=
        Nat.mul_lt_mul_of_pos_right (by omega) (pow_pos h.pos _)
      rw [Nat.add_zero] at hhi
      exact absurd (hlt.trans_le hhi) (Nat.not_lt.mpr hlo)
  | succ n ih =>
    intro r M
    have hpath := block_path (d := d) first r
    have hslot := Nat.mod_lt (first / d ^ (r + 1)) h.pos
    have hblock : blockKeys d key r (d * (first / d ^ (r + 2)) + (first / d ^ (r + 1) % d + 1))
        (d - (first / d ^ (r + 1) % d + 1)) =
          keys key (pathEnd d first r) (pathEnd d first (r + 1) - pathEnd d first r) := by
      have hend : pathEnd d first (r + 1) = (d * (first / d ^ (r + 2)) + d) * d ^ (r + 1) := by
        rw [pathEnd]
        ring
      rw [blockKeys, hend, pathEnd, ← Nat.sub_mul, ← Nat.add_assoc, hpath]
      congr 2
      omega
    have hmono : pathEnd d first r ≤ pathEnd d first (r + 1) := pathEnd_mono h.pos (Nat.le_succ r)
    have hup : pathEnd d first (r + 1) ≤ pathEnd d first (r + 1 + n) :=
      pathEnd_mono h.pos (Nat.le_add_right _ _)
    have hsplit : keys key (pathEnd d first r) (pathEnd d first (r + (n + 1)) - pathEnd d first r) =
        keys key (pathEnd d first r) (pathEnd d first (r + 1) - pathEnd d first r) ++
          keys key (pathEnd d first (r + 1))
            (pathEnd d first (r + 1 + n) - pathEnd d first (r + 1)) := by
      have hn : pathEnd d first (r + (n + 1)) - pathEnd d first r =
          (pathEnd d first (r + 1) - pathEnd d first r) +
            (pathEnd d first (r + 1 + n) - pathEnd d first (r + 1)) := by
        have hr : r + (n + 1) = r + 1 + n := by omega
        rw [hr]
        omega
      rw [hn, keys_append, Nat.add_sub_cancel' hmono]
    have hmem := fun k => mem_stale h (r := r) (b := first / d ^ (r + 2)) (k := k)
      (fun i hne => visit_spec h r _ hne k) (d - (first / d ^ (r + 1) % d + 1))
      (first / d ^ (r + 1) % d + 1) (by omega)
    have hlength : (keys key (pathEnd d first r)
        (pathEnd d first (r + 1) - pathEnd d first r)).length ≤
          (stale (slots d key node r (first / d ^ (r + 2)))
            (d - (first / d ^ (r + 1) % d + 1)) (first / d ^ (r + 1) % d + 1)).length := by
      refine List.Subperm.length_le (keys_nodup.subperm fun k hk => ?_)
      rw [hmem, hblock]
      exact hk
    have hnot : ∀ k ∈ stale (slots d key node r (first / d ^ (r + 2)))
        (d - (first / d ^ (r + 1) % d + 1)) (first / d ^ (r + 1) % d + 1),
          k ∉ keys key (pathEnd d first (r + 1))
            (pathEnd d first (r + 1 + n) - pathEnd d first (r + 1)) := by
      intro k hk hk'
      rw [hmem, hblock, mem_keys] at hk
      rw [mem_keys] at hk'
      omega
    have hstale := stale_take_iff h (r := r) (b := first / d ^ (r + 2))
      (fun i M hne => visit_take_iff h r _ M hne) (d - (first / d ^ (r + 1) % d + 1))
      (first / d ^ (r + 1) % d + 1) M (by omega) (by omega)
    rw [hblock] at hstale
    rw [climb, hsplit, take_append_iff hlength hnot, hstale, ih, climbed_succ h.pos]
    rfl

lemma key_of_mem_walkFrom {n k : ℕ} (hk : k ∈ walkFrom d key node first n) : key k = true := by
  have hclimb : ∀ n r, k ∈ climb d key node first r n → key k = true := by
    intro n
    induction n with
    | zero =>
      intro r hk
      cases hk
    | succ n ih =>
      intro r hk
      rw [climb, List.mem_append] at hk
      obtain hk | hk := hk
      · have hpath := block_path (d := d) first r
        rw [mem_stale h (fun i hne => visit_spec h r _ hne k) _ _ (by omega), mem_blockKeys h.pos] at hk
        exact hk.2
      · exact ih (r + 1) hk
  rw [walkFrom, List.mem_append, mem_keys] at hk
  obtain hk | hk := hk
  · exact hk.2
  · exact hclimb n 0 hk

theorem walkFrom_take_iff {n M : ℕ} (hfirst : first < d ^ (n + 1))
    (habove : ∀ k, d ^ (n + 1) ≤ k → key k = false) :
    (walkFrom d key node first n).take M = (keys key first (d ^ (n + 1) - first)).take M ↔
      FromKey d key first M := by
  have hstart : first + (d - first % d) = pathEnd d first 0 := by
    have hmod := Nat.div_add_mod first d
    have hlt := Nat.mod_lt first h.pos
    rw [pathEnd, Nat.zero_add, pow_one, Nat.add_mul, Nat.one_mul, Nat.mul_comm]
    omega
  have hend : pathEnd d first n = d ^ (n + 1) := by
    rw [pathEnd, Nat.div_eq_of_lt hfirst, Nat.zero_add, Nat.one_mul]
  have hmono : pathEnd d first 0 ≤ pathEnd d first n := pathEnd_mono h.pos (Nat.zero_le n)
  have hsplit : keys key first (d ^ (n + 1) - first) = keys key first (d - first % d) ++
      keys key (pathEnd d first 0) (pathEnd d first n - pathEnd d first 0) := by
    have hn : d ^ (n + 1) - first = (d - first % d) + (pathEnd d first n - pathEnd d first 0) := by
      omega
    rw [hn, keys_append, hstart]
  have hleaf : span key first (pathEnd d first 0) = (keys key first (d - first % d)).length := by
    rw [span, ← hstart, Nat.add_sub_cancel_left]
  have hnot : ∀ k ∈ keys key first (d - first % d),
      k ∉ keys key (pathEnd d first 0) (pathEnd d first n - pathEnd d first 0) := by
    intro k hk hk'
    rw [mem_keys] at hk hk'
    omega
  have hclimb := climb_take_iff h first n 0
    (M - (keys key first (d - first % d)).length)
  rw [Nat.zero_add] at hclimb
  rw [walkFrom, hsplit, take_append_iff le_rfl hnot, hclimb, ← hleaf]
  have hle : first ≤ pathEnd d first 0 := (lt_pathEnd h.pos 0).le
  constructor
  · rintro ⟨-, hclimbed⟩ r c hgap hlt
    have hpos : 0 < d ^ (r + 1) := pow_pos h.pos _
    obtain ⟨k, hk⟩ := List.exists_mem_of_ne_nil _ hgap.2.1
    obtain ⟨⟨hlo, hhi⟩, hkey⟩ := (mem_blockKeys h.pos).mp hk
    have hkn : k < d ^ (n + 1) := by
      by_contra hge
      rw [habove k (by omega)] at hkey
      cases hkey
    have hkc : k / d ^ (r + 1) = c := by omega
    have hrn : r < n := by
      by_contra hge
      have hdiv : k / d ^ (r + 1) = 0 :=
        Nat.div_eq_of_lt (hkn.trans_le (Nat.pow_le_pow_right h.pos (by omega)))
      rw [hkc] at hdiv
      exact hgap.1 (by rw [hdiv, Nat.zero_mod])
    have htop : (c + 1) * d ^ (r + 1) ≤ d ^ (n + 1) := by
      have hexp : d ^ (n + 1) = d ^ (n - r) * d ^ (r + 1) := by
        rw [← pow_add]
        congr 1
        omega
      rw [hexp] at hkn ⊢
      refine Nat.mul_le_mul_right _ ?_
      rw [← hkc]
      exact (Nat.div_lt_iff_lt_mul hpos).mpr hkn
    have hlo0 : pathEnd d first 0 ≤ (c - 1) * d ^ (r + 1) :=
      (pathEnd_mono h.pos (Nat.zero_le r)).trans (pathEnd_le h.pos hlt)
    have hcount := hclimbed r c (by omega) hgap hlo0 (by rw [Nat.zero_add, hend]; exact htop)
    have hmid : pathEnd d first 0 ≤ (c + 1) * d ^ (r + 1) :=
      hlo0.trans (Nat.mul_le_mul_right _ (by omega))
    rw [span_add hle hmid]
    omega
  · intro hkey
    refine ⟨rfl, fun r c _ hgap hlo hhi => ?_⟩
    have hcount := hkey r c hgap ((lt_pathEnd h.pos 0).trans_le hlo)
    have hmid : pathEnd d first 0 ≤ (c + 1) * d ^ (r + 1) :=
      hlo.trans (Nat.mul_le_mul_right _ (by omega))
    rw [span_add hle hmid] at hcount
    omega

end

lemma keys_succ (lo n : ℕ) :
    keys key lo (n + 1) = (if key lo then [lo] else []) ++ keys key (lo + 1) n := by
  rw [Nat.add_comm n 1, keys_append]
  congr 1
  cases hkey : key lo <;> simp [keys, hkey]

lemma span_succ {lo hi : ℕ} (h : lo < hi) :
    span key lo hi = (if key lo then 1 else 0) + span key (lo + 1) hi := by
  have hn : hi - lo = (hi - (lo + 1)) + 1 := by omega
  rw [span, hn, keys_succ, List.length_append, span]
  cases key lo <;> rfl

/-- Two selections of keys have the same prefix of `M` keys if they agree up to the key number `M` of
the second. -/
lemma take_keys_iff (key' : ℕ → Bool) : ∀ n lo M, (keys key lo n).take M = (keys key' lo n).take M ↔
    ∀ k, lo ≤ k → k < lo + n → span key' lo k < M → key k = key' k := by
  intro n
  induction n with
  | zero =>
    intro lo M
    exact iff_of_true rfl fun k hlo hhi => by omega
  | succ n ih =>
    intro lo M
    cases M with
    | zero => exact iff_of_true rfl fun k _ _ hM => absurd hM (Nat.not_lt_zero _)
    | succ M =>
      have hbeyond : ∀ (f : ℕ → Bool) (l : List ℕ), lo :: l ≠ (keys f (lo + 1) n).take (M + 1) := by
        intro f l heq
        have hmem : lo ∈ keys f (lo + 1) n :=
          List.mem_of_mem_take (heq ▸ List.mem_cons_self)
        have hlo := (mem_keys.mp hmem).1.1
        omega
      have hfirst : span key' lo lo < M + 1 := by
        rw [span_self]
        omega
      cases hkey : key lo with
      | true =>
        cases hkey' : key' lo with
        | true =>
          have hsame : (keys key lo (n + 1)).take (M + 1) = (keys key' lo (n + 1)).take (M + 1) ↔
              (keys key (lo + 1) n).take M = (keys key' (lo + 1) n).take M := by
            simp [keys_succ, hkey, hkey']
          rw [hsame, ih]
          constructor
          · intro h k hlo hhi hM
            by_cases hk : k = lo
            · rw [hk, hkey, hkey']
            · rw [span_succ (by omega), hkey', if_pos rfl] at hM
              exact h k (by omega) (by omega) (by omega)
          · intro h k hlo hhi hM
            refine h k (by omega) (by omega) ?_
            rw [span_succ (by omega), hkey', if_pos rfl]
            omega
        | false =>
          refine iff_of_false ?_ fun h => ?_
          · simpa [keys_succ, hkey, hkey'] using hbeyond key' ((keys key (lo + 1) n).take M)
          · have hlo := h lo le_rfl (by omega) hfirst
            rw [hkey, hkey'] at hlo
            cases hlo
      | false =>
        cases hkey' : key' lo with
        | true =>
          refine iff_of_false ?_ fun h => ?_
          · intro heq
            refine hbeyond key ((keys key' (lo + 1) n).take M) ?_
            simpa [keys_succ, hkey, hkey'] using heq.symm
          · have hlo := h lo le_rfl (by omega) hfirst
            rw [hkey, hkey'] at hlo
            cases hlo
        | false =>
          have hsame : (keys key lo (n + 1)).take (M + 1) = (keys key' lo (n + 1)).take (M + 1) ↔
              (keys key (lo + 1) n).take (M + 1) = (keys key' (lo + 1) n).take (M + 1) := by
            simp [keys_succ, hkey, hkey']
          rw [hsame, ih]
          constructor
          · intro h k hlo hhi hM
            by_cases hk : k = lo
            · rw [hk, hkey, hkey']
            · rw [span_succ (by omega), hkey', if_neg Bool.false_ne_true, Nat.zero_add] at hM
              exact h k (by omega) (by omega) hM
          · intro h k hlo hhi hM
            refine h k (by omega) (by omega) ?_
            rw [span_succ (by omega), hkey', if_neg Bool.false_ne_true, Nat.zero_add]
            exact hM

/-- A walk that is cut off at `e`: what it selects before has the right prefix exactly if the
selections agree so far and the prefix is complete before the cut. -/
lemma take_cut_iff (key' : ℕ → Bool) {lo e top M : ℕ} (hlo : lo ≤ e) (htop : e ≤ top) :
    M ≤ (keys key lo (e - lo)).length ∧
        (keys key lo (e - lo)).take M = (keys key' lo (top - lo)).take M ↔
      (∀ k, lo ≤ k → k < top → span key' lo k < M → key k = key' k) ∧ M ≤ span key' lo e := by
  have hsplit : keys key' lo (top - lo) = keys key' lo (e - lo) ++ keys key' e (top - e) := by
    have hn : top - lo = (e - lo) + (top - e) := by omega
    rw [hn, keys_append, Nat.add_sub_cancel' hlo]
  constructor
  · rintro ⟨hlen, htake⟩
    have hspan : M ≤ span key' lo e := by
      by_contra hlt
      have hlt' : (keys key' lo (e - lo)).length < M := by
        rw [span] at hlt
        omega
      have hlength := congrArg List.length htake
      rw [List.length_take_of_le hlen, hsplit, List.take_append,
        List.take_of_length_le hlt'.le, List.length_append] at hlength
      have hne : (keys key' e (top - e)).take (M - (keys key' lo (e - lo)).length) ≠ [] := by
        intro hnil
        rw [hnil, List.length_nil] at hlength
        omega
      obtain ⟨k, hk⟩ := List.exists_mem_of_ne_nil _ hne
      have hmem : k ∈ (keys key lo (e - lo)).take M := by
        rw [htake, hsplit, List.take_append]
        exact List.mem_append_right _ hk
      have hbefore := mem_keys.mp (List.mem_of_mem_take hmem)
      have hafter := mem_keys.mp (List.mem_of_mem_take hk)
      omega
    refine ⟨fun k hk _ hM => ?_, hspan⟩
    have hke : k < e := by
      by_contra hge
      have hmono : span key' lo e ≤ span key' lo k := span_mono (by omega)
      omega
    rw [hsplit, List.take_append_of_le_length hspan, take_keys_iff] at htake
    exact htake k hk (by omega) hM
  · rintro ⟨hagree, hspan⟩
    have htake : (keys key lo (e - lo)).take M = (keys key' lo (e - lo)).take M :=
      (take_keys_iff key' _ _ _).mpr fun k hk hke hM => hagree k hk (by omega) hM
    refine ⟨?_, ?_⟩
    · have hlength := congrArg List.length htake
      rw [List.length_take_of_le (l := keys key' lo (e - lo)) hspan, List.length_take] at hlength
      omega
    · rw [htake, hsplit, List.take_append_of_le_length hspan]

end Almos.StaleWalk
