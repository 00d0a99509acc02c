import Mathlib

/-!
# Dyadic blocks and their decompositions

A block of order `k` holds `2 ^ k` consecutive points. Aligned blocks are nested or
disjoint, an aligned block and its buddy make up one block of the next order, and a
set of points has at most one decomposition into aligned blocks without two buddies.
-/
namespace Almos.BlockTiling

structure Block where
  index : ℕ
  order : ℕ
  deriving DecidableEq, Repr

namespace Block

def Covers (b : Block) (p : ℕ) : Prop := b.index ≤ p ∧ p < b.index + 2 ^ b.order

instance (b : Block) (p : ℕ) : Decidable (b.Covers p) :=
  inferInstanceAs (Decidable (_ ∧ _))

def Aligned (b : Block) : Prop := 2 ^ b.order ∣ b.index

theorem covers_index (b : Block) : b.Covers b.index :=
  ⟨le_rfl, Nat.lt_add_of_pos_right (Nat.two_pow_pos _)⟩

theorem covers_zero_iff {p q : ℕ} : (⟨q, 0⟩ : Block).Covers p ↔ q = p := by
  simp only [Covers, pow_zero]
  omega

theorem Aligned.covers_iff {b : Block} (h : b.Aligned) (p : ℕ) :
    b.Covers p ↔ p / 2 ^ b.order = b.index / 2 ^ b.order := by
  obtain ⟨m, hm⟩ := h
  have hpos : 0 < 2 ^ b.order := Nat.two_pow_pos _
  rw [Covers, hm, Nat.mul_div_cancel_left _ hpos, Nat.div_eq_iff hpos]
  have hc : 2 ^ b.order * m = m * 2 ^ b.order := Nat.mul_comm _ _
  constructor
  · rintro ⟨hl, hr⟩
    constructor <;> omega
  · rintro ⟨hl, hr⟩
    constructor <;> omega

/-- Of two aligned blocks with a common point, the larger one holds the smaller one. -/
theorem Aligned.covers_of_covers {a b : Block} (ha : a.Aligned) (hb : b.Aligned)
    (hle : a.order ≤ b.order) {p q : ℕ} (hap : a.Covers p) (hbp : b.Covers p)
    (haq : a.Covers q) : b.Covers q := by
  rw [ha.covers_iff] at hap haq
  rw [hb.covers_iff] at hbp ⊢
  obtain ⟨d, hd⟩ := Nat.exists_eq_add_of_le hle
  rw [hd, pow_add, ← Nat.div_div_eq_div_mul] at hbp ⊢
  rw [haq, ← hap, hbp]

theorem Aligned.eq_of_covers {a b : Block} (ha : a.Aligned) (hb : b.Aligned)
    (ho : a.order = b.order) {p : ℕ} (hap : a.Covers p) (hbp : b.Covers p) : a = b := by
  rw [ha.covers_iff] at hap
  rw [hb.covers_iff, ← ho] at hbp
  obtain ⟨m, hm⟩ := ha
  obtain ⟨n, hn⟩ := hb
  have hpos : 0 < 2 ^ a.order := Nat.two_pow_pos _
  rw [hm, Nat.mul_div_cancel_left _ hpos] at hap
  rw [hn, ← ho, Nat.mul_div_cancel_left _ hpos] at hbp
  have hi : a.index = b.index := by rw [hm, hn, ← ho, ← hap, hbp]
  cases a; cases b
  simp_all

theorem covers_succ_iff (i k p : ℕ) :
    (⟨i, k + 1⟩ : Block).Covers p ↔
      (⟨i, k⟩ : Block).Covers p ∨ (⟨i + 2 ^ k, k⟩ : Block).Covers p := by
  simp only [Covers, pow_succ]
  omega

theorem not_covers_both_halves (i k p : ℕ) :
    ¬ ((⟨i, k⟩ : Block).Covers p ∧ (⟨i + 2 ^ k, k⟩ : Block).Covers p) := by
  simp only [Covers]
  omega

theorem Aligned.left {i k : ℕ} (h : (⟨i, k + 1⟩ : Block).Aligned) : (⟨i, k⟩ : Block).Aligned :=
  (pow_dvd_pow 2 (Nat.le_succ k)).trans h

theorem Aligned.right {i k : ℕ} (h : (⟨i, k + 1⟩ : Block).Aligned) :
    (⟨i + 2 ^ k, k⟩ : Block).Aligned :=
  dvd_add h.left dvd_rfl

end Block

def buddy (i k : ℕ) : ℕ := i ^^^ 2 ^ k

theorem buddy_buddy (i k : ℕ) : buddy (buddy i k) k = i := by
  simp [buddy]

theorem mul_xor_pow (m k : ℕ) : (m * 2 ^ k) ^^^ 2 ^ k = (m ^^^ 1) * 2 ^ k := by
  have h := @Nat.shiftLeft_xor_distrib k m 1
  simpa [Nat.shiftLeft_eq] using h.symm

theorem and_xor_one (m : ℕ) : m &&& (m ^^^ 1) = m / 2 * 2 := by
  apply Nat.eq_of_testBit_eq
  intro i
  cases i with
  | zero =>
    rw [Nat.testBit_and, Nat.testBit_xor]
    simp
  | succ i =>
    rw [Nat.testBit_and, Nat.testBit_xor]
    simp [Nat.testBit_succ]

theorem and_buddy (m k : ℕ) :
    (m * 2 ^ k) &&& buddy (m * 2 ^ k) k = m / 2 * 2 ^ (k + 1) := by
  have h := @Nat.shiftLeft_and_distrib k m (m ^^^ 1)
  rw [and_xor_one] at h
  rw [buddy, mul_xor_pow]
  simp only [Nat.shiftLeft_eq] at h
  rw [← h, pow_succ]
  ring

theorem xor_one_cases (m : ℕ) :
    (m % 2 = 0 ∧ m ^^^ 1 = m + 1) ∨ (m % 2 = 1 ∧ m ^^^ 1 = m - 1) := by
  rcases Nat.mod_two_eq_zero_or_one m with h | h
  · exact Or.inl ⟨h, Nat.xor_one_of_even (Nat.even_iff.mpr h)⟩
  · exact Or.inr ⟨h, Nat.xor_one_of_odd (Nat.odd_iff.mpr h)⟩

/-- Either the block is a left half and its buddy the right half of the joined block,
or the other way round. -/
theorem buddy_cases {i k : ℕ} (h : (⟨i, k⟩ : Block).Aligned) :
    (i &&& buddy i k = i ∧ buddy i k = i + 2 ^ k) ∨
      (i &&& buddy i k = buddy i k ∧ i = buddy i k + 2 ^ k) := by
  obtain ⟨m, hm⟩ := h
  have hi : i = m * 2 ^ k := by rw [Nat.mul_comm]; exact hm
  subst hi
  have hb : buddy (m * 2 ^ k) k = (m ^^^ 1) * 2 ^ k := mul_xor_pow m k
  rw [and_buddy, hb, pow_succ]
  rcases xor_one_cases m with ⟨he, hx⟩ | ⟨he, hx⟩
  · left
    have hm2 : m / 2 * 2 = m := by omega
    constructor
    · calc m / 2 * (2 ^ k * 2) = m / 2 * 2 * 2 ^ k := by ring
        _ = m * 2 ^ k := by rw [hm2]
    · rw [hx]; ring
  · right
    have hm2 : m / 2 * 2 = m - 1 := by omega
    constructor
    · calc m / 2 * (2 ^ k * 2) = m / 2 * 2 * 2 ^ k := by ring
        _ = (m ^^^ 1) * 2 ^ k := by rw [hm2, hx]
    · have hm1 : m = m - 1 + 1 := by omega
      rw [hx]
      nth_rewrite 1 [hm1]
      ring

theorem buddy_left_half {i k : ℕ} (h : (⟨i, k + 1⟩ : Block).Aligned) :
    buddy i k = i + 2 ^ k := by
  obtain ⟨m, hm⟩ := h
  have hi : i = m * 2 * 2 ^ k := by
    change i = 2 ^ (k + 1) * m at hm
    rw [hm, pow_succ]
    ring
  rw [buddy, hi, mul_xor_pow, Nat.xor_one_of_even (Nat.even_mul.mpr (Or.inr even_two))]
  ring

theorem aligned_join {i k : ℕ} (h : (⟨i, k⟩ : Block).Aligned) :
    (⟨i &&& buddy i k, k + 1⟩ : Block).Aligned := by
  obtain ⟨m, hm⟩ := h
  have hi : i = m * 2 ^ k := by rw [Nat.mul_comm]; exact hm
  rw [hi, and_buddy]
  exact Dvd.intro_left _ rfl

theorem aligned_buddy {i k : ℕ} (h : (⟨i, k⟩ : Block).Aligned) :
    (⟨buddy i k, k⟩ : Block).Aligned := by
  have hj := aligned_join h
  rcases buddy_cases h with ⟨ha, hb⟩ | ⟨ha, hb⟩
  · rw [ha] at hj
    rw [hb]
    exact hj.right
  · rw [ha] at hj
    exact hj.left

theorem covers_join_iff {i k : ℕ} (h : (⟨i, k⟩ : Block).Aligned) (p : ℕ) :
    (⟨i &&& buddy i k, k + 1⟩ : Block).Covers p ↔
      (⟨i, k⟩ : Block).Covers p ∨ (⟨buddy i k, k⟩ : Block).Covers p := by
  rcases buddy_cases h with ⟨ha, hb⟩ | ⟨ha, hb⟩
  · rw [ha, hb]
    exact Block.covers_succ_iff i k p
  · rw [ha, Block.covers_succ_iff, ← hb]
    exact or_comm

theorem not_covers_both_buddies {i k : ℕ} (h : (⟨i, k⟩ : Block).Aligned) (p : ℕ) :
    ¬ ((⟨i, k⟩ : Block).Covers p ∧ (⟨buddy i k, k⟩ : Block).Covers p) := by
  rcases buddy_cases h with ⟨ha, hb⟩ | ⟨ha, hb⟩
  · rw [hb]
    exact Block.not_covers_both_halves i k p
  · rw [and_comm]
    have hn := Block.not_covers_both_halves (buddy i k) k p
    rw [← hb] at hn
    exact hn

/-! ### Families of blocks sorted by order -/

/-- How many blocks of a family hold a point, `heads k` listing the blocks of order `k`. -/
def coverage (n : ℕ) (heads : ℕ → List ℕ) (p : ℕ) : ℕ :=
  ∑ k ∈ Finset.range n, (heads k).countP fun i => decide ((⟨i, k⟩ : Block).Covers p)

def indicator (b : Block) (p : ℕ) : ℕ := if b.Covers p then 1 else 0

theorem indicator_join {i k : ℕ} (h : (⟨i, k⟩ : Block).Aligned) (p : ℕ) :
    indicator ⟨i &&& buddy i k, k + 1⟩ p = indicator ⟨i, k⟩ p + indicator ⟨buddy i k, k⟩ p := by
  have hj := covers_join_iff h p
  have hn := not_covers_both_buddies h p
  unfold indicator
  split_ifs <;> simp_all

theorem indicator_succ (i k p : ℕ) :
    indicator ⟨i, k + 1⟩ p = indicator ⟨i, k⟩ p + indicator ⟨i + 2 ^ k, k⟩ p := by
  have hj := Block.covers_succ_iff i k p
  have hn := Block.not_covers_both_halves i k p
  unfold indicator
  split_ifs <;> simp_all

/-- Changing one list of a family changes a sum over the family at one term only. -/
theorem sum_update (n : ℕ) (f : ℕ → List ℕ → ℕ) (heads : ℕ → List ℕ) {k : ℕ} (hk : k < n)
    (l : List ℕ) :
    (∑ j ∈ Finset.range n, f j (Function.update heads k l j)) + f k (heads k) =
      (∑ j ∈ Finset.range n, f j (heads j)) + f k l := by
  have hmem : k ∈ Finset.range n := Finset.mem_range.mpr hk
  have hrest : ∑ j ∈ (Finset.range n).erase k, f j (Function.update heads k l j) =
      ∑ j ∈ (Finset.range n).erase k, f j (heads j) := by
    apply Finset.sum_congr rfl
    intro j hj
    rw [Function.update_of_ne (Finset.ne_of_mem_erase hj)]
  rw [← Finset.add_sum_erase _ _ hmem, ← Finset.add_sum_erase _ (fun j => f j (heads j)) hmem,
    hrest, Function.update_self]
  ring

theorem coverage_push {n : ℕ} (heads : ℕ → List ℕ) {k : ℕ} (hk : k < n) (i p : ℕ) :
    coverage n (Function.update heads k (i :: heads k)) p =
      coverage n heads p + indicator ⟨i, k⟩ p := by
  have h := sum_update n (fun k l => l.countP fun i => decide ((⟨i, k⟩ : Block).Covers p))
    heads hk (i :: heads k)
  simp only [List.countP_cons, decide_eq_true_eq] at h
  unfold coverage indicator
  omega

theorem coverage_erase {n : ℕ} (heads : ℕ → List ℕ) {k i : ℕ} (hk : k < n) (hi : i ∈ heads k)
    (p : ℕ) :
    coverage n (Function.update heads k ((heads k).erase i)) p + indicator ⟨i, k⟩ p =
      coverage n heads p := by
  have h := sum_update n (fun k l => l.countP fun i => decide ((⟨i, k⟩ : Block).Covers p))
    heads hk ((heads k).erase i)
  have hc := (List.perm_cons_erase hi).countP_eq fun i => decide ((⟨i, k⟩ : Block).Covers p)
  simp only [List.countP_cons, decide_eq_true_eq] at h hc
  unfold coverage indicator
  omega

theorem coverage_pos_iff {n : ℕ} {heads : ℕ → List ℕ} {p : ℕ} :
    0 < coverage n heads p ↔ ∃ k < n, ∃ i ∈ heads k, (⟨i, k⟩ : Block).Covers p := by
  simp [coverage, Finset.sum_pos_iff, List.countP_pos_iff]

theorem two_le_coverage {n : ℕ} {heads : ℕ → List ℕ} {p i j k l : ℕ} (hk : k < n) (hl : l < n)
    (hi : i ∈ heads k) (hj : j ∈ heads l) (hne : (⟨i, k⟩ : Block) ≠ ⟨j, l⟩)
    (hip : (⟨i, k⟩ : Block).Covers p) (hjp : (⟨j, l⟩ : Block).Covers p) :
    2 ≤ coverage n heads p := by
  have he := coverage_erase heads hk hi p
  have hj' : j ∈ Function.update heads k ((heads k).erase i) l := by
    by_cases hlk : l = k
    · subst hlk
      rw [Function.update_self]
      exact (List.mem_erase_of_ne (by rintro rfl; exact hne rfl)).mpr hj
    · rwa [Function.update_of_ne hlk]
  have hpos := coverage_pos_iff.mpr ⟨l, hl, j, hj', hjp⟩
  have h1 : indicator ⟨i, k⟩ p = 1 := if_pos hip
  omega

theorem sum_indicator {b : Block} {n : ℕ} (h : ∀ p, b.Covers p → p < n) :
    ∑ p ∈ Finset.range n, indicator b p = 2 ^ b.order := by
  have hset : (Finset.range n).filter b.Covers = Finset.Ico b.index (b.index + 2 ^ b.order) := by
    ext p
    simp only [Finset.mem_filter, Finset.mem_range, Finset.mem_Ico]
    exact ⟨fun hp => hp.2, fun hp => ⟨h p hp, hp⟩⟩
  simp only [indicator, Finset.sum_boole, hset, Nat.card_Ico, Nat.add_sub_cancel_left, Nat.cast_id]

theorem sum_countP {n : ℕ} (k : ℕ) (l : List ℕ)
    (h : ∀ i ∈ l, ∀ p, (⟨i, k⟩ : Block).Covers p → p < n) :
    ∑ p ∈ Finset.range n, l.countP (fun i => decide ((⟨i, k⟩ : Block).Covers p)) =
      2 ^ k * l.length := by
  induction l with
  | nil => simp
  | cons i l ih =>
    have hi := sum_indicator (h i (by simp))
    have hl := ih fun j hj => h j (by simp [hj])
    simp only [indicator] at hi
    simp only [List.countP_cons, decide_eq_true_eq, Finset.sum_add_distrib, hl, hi,
      List.length_cons]
    ring

theorem sum_coverage {n m : ℕ} {heads : ℕ → List ℕ}
    (h : ∀ p, 0 < coverage m heads p → p < n) :
    ∑ p ∈ Finset.range n, coverage m heads p =
      ∑ k ∈ Finset.range m, 2 ^ k * (heads k).length := by
  unfold coverage
  rw [Finset.sum_comm]
  apply Finset.sum_congr rfl
  intro k hk
  apply sum_countP
  intro i hi p hp
  exact h p (coverage_pos_iff.mpr ⟨k, Finset.mem_range.mp hk, i, hi, hp⟩)

/-! ### Decompositions without buddies -/

/-- `F` decomposes the set `S` into disjoint aligned blocks of order at most `K`, no two of
which could be joined. -/
structure Canonical (K : ℕ) (F : Set Block) (S : Set ℕ) : Prop where
  aligned : ∀ b ∈ F, b.Aligned
  order_le : ∀ b ∈ F, b.order ≤ K
  covers_iff : ∀ p, p ∈ S ↔ ∃ b ∈ F, b.Covers p
  unique : ∀ b ∈ F, ∀ c ∈ F, ∀ p, b.Covers p → c.Covers p → b = c
  no_buddies : ∀ i k, k < K → ⟨i, k⟩ ∈ F → ⟨buddy i k, k⟩ ∉ F

namespace Canonical
variable {K : ℕ} {F G : Set Block} {S : Set ℕ}

/-- An aligned block inside the set lies inside a single block of the decomposition. -/
theorem exists_covers (h : Canonical K F S) (k : ℕ) : ∀ i, k ≤ K → (⟨i, k⟩ : Block).Aligned →
    (∀ p, (⟨i, k⟩ : Block).Covers p → p ∈ S) → ∃ c ∈ F, k ≤ c.order ∧ c.Covers i := by
  induction k with
  | zero =>
    intro i _ _ hS
    obtain ⟨c, hc, hci⟩ := (h.covers_iff i).mp (hS i (Block.covers_index ⟨i, 0⟩))
    exact ⟨c, hc, Nat.zero_le _, hci⟩
  | succ k ih =>
    intro i hk ha hS
    obtain ⟨c, hc, hco, hci⟩ := ih i (by omega) ha.left
      fun p hp => hS p ((Block.covers_succ_iff i k p).mpr (Or.inl hp))
    obtain ⟨d, hd, hdo, hdi⟩ := ih (i + 2 ^ k) (by omega) ha.right
      fun p hp => hS p ((Block.covers_succ_iff i k p).mpr (Or.inr hp))
    rcases Nat.lt_or_eq_of_le hco with hco | hco
    · exact ⟨c, hc, hco, hci⟩
    rcases Nat.lt_or_eq_of_le hdo with hdo | hdo
    · refine ⟨d, hd, hdo, ?_⟩
      exact ha.covers_of_covers (h.aligned d hd) hdo
        ((Block.covers_succ_iff i k _).mpr (Or.inr (Block.covers_index ⟨i + 2 ^ k, k⟩))) hdi
        (Block.covers_index ⟨i, k + 1⟩)
    -- both halves are whole blocks of the decomposition, hence two buddies
    · have hc' : (⟨i, k⟩ : Block) = c :=
        ha.left.eq_of_covers (h.aligned c hc) hco (Block.covers_index ⟨i, k⟩) hci
      have hd' : (⟨i + 2 ^ k, k⟩ : Block) = d :=
        ha.right.eq_of_covers (h.aligned d hd) hdo (Block.covers_index ⟨i + 2 ^ k, k⟩) hdi
      have hn := h.no_buddies i k (by omega) (hc' ▸ hc)
      rw [buddy_left_half ha, hd'] at hn
      exact absurd hd hn

theorem subset (hF : Canonical K F S) (hG : Canonical K G S) : F ⊆ G := by
  intro b hb
  obtain ⟨c, hc, hbc, hcb⟩ := hG.exists_covers b.order b.index (hF.order_le b hb)
    (hF.aligned b hb) fun p hp => (hF.covers_iff p).mpr ⟨b, hb, hp⟩
  obtain ⟨d, hd, hcd, hdc⟩ := hF.exists_covers c.order c.index (hG.order_le c hc)
    (hG.aligned c hc) fun p hp => (hG.covers_iff p).mpr ⟨c, hc, hp⟩
  have hdb : d.Covers b.index := (hG.aligned c hc).covers_of_covers (hF.aligned d hd) hcd
    (Block.covers_index c) hdc hcb
  have hbd : b = d := hF.unique b hb d hd _ (Block.covers_index b) hdb
  have ho : b.order = c.order := by
    subst hbd
    omega
  rw [(hF.aligned b hb).eq_of_covers (hG.aligned c hc) ho (Block.covers_index b) hcb]
  exact hc

theorem eq (hF : Canonical K F S) (hG : Canonical K G S) : F = G :=
  Set.Subset.antisymm (hF.subset hG) (hG.subset hF)

end Canonical
end Almos.BlockTiling
