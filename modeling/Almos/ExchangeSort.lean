import Mathlib

/-!
# Sorting by exchanges

A sort that exchanges places moves the entries by a permutation of the places, which is kept here in
place of the table, so that the same permutation describes every table that is moved along with the keys.
-/
namespace Almos.ExchangeSort

variable {α : Type*} [LinearOrder α] {t : ℕ → α} {σ : Equiv.Perm ℕ} {i j n : ℕ}

def compareExchange (t : ℕ → α) (σ : Equiv.Perm ℕ) (i j : ℕ) : Equiv.Perm ℕ :=
  if t (σ j) < t (σ i) then σ * Equiv.swap i j else σ

/-- The exchanges at a place `i` with the places after it. -/
def selectPlace (t : ℕ → α) (n i : ℕ) (σ : Equiv.Perm ℕ) : Equiv.Perm ℕ :=
  (List.range' (i + 1) (n - (i + 1))).foldl (fun σ j => compareExchange t σ i j) σ

def selectionPerm (t : ℕ → α) (n : ℕ) : Equiv.Perm ℕ :=
  (List.range n).foldl (fun σ i => selectPlace t n i σ) 1

def bubblePass (t : ℕ → α) (n : ℕ) (σ : Equiv.Perm ℕ) : Equiv.Perm ℕ :=
  (List.range (n - 1)).foldl (fun σ i => compareExchange t σ i (i + 1)) σ

def bubblePerm (t : ℕ → α) (n passes : ℕ) : Equiv.Perm ℕ :=
  (List.range passes).foldl (fun σ _ => bubblePass t n σ) 1

/-! ### The places from `n` on are not moved -/

def Fixes (n : ℕ) (σ : Equiv.Perm ℕ) : Prop :=
  ∀ k, n ≤ k → σ k = k

lemma Fixes.lt (h : Fixes n σ) {k : ℕ} (hk : k < n) : σ k < n := by
  by_contra hge
  have hfix := h (σ k) (by omega)
  have := σ.injective hfix
  omega

lemma Fixes.symm (h : Fixes n σ) : Fixes n σ.symm := fun k hk =>
  (Equiv.symm_apply_eq σ).mpr (h k hk).symm

lemma Fixes.compareExchange (h : Fixes n σ) (hi : i < n) (hj : j < n) :
    Fixes n (compareExchange t σ i j) := by
  intro k hk
  unfold ExchangeSort.compareExchange
  split
  · rw [Equiv.Perm.mul_apply, Equiv.swap_apply_of_ne_of_ne (by omega) (by omega), h k hk]
  · exact h k hk

lemma Fixes.selectPlace (h : Fixes n σ) (hi : i < n) : Fixes n (selectPlace t n i σ) := by
  refine List.foldlRecOn (motive := Fixes n) _ _ h fun σ hσ j hj => ?_
  have := List.mem_range'_1.mp hj
  exact hσ.compareExchange hi (by omega)

lemma fixes_selectionPerm (t : ℕ → α) (n : ℕ) : Fixes n (selectionPerm t n) :=
  List.foldlRecOn (motive := Fixes n) _ _ (fun _ _ => rfl) fun _ hσ _ hi =>
    hσ.selectPlace (List.mem_range.mp hi)

lemma Fixes.bubblePass (h : Fixes n σ) : Fixes n (bubblePass t n σ) := by
  refine List.foldlRecOn (motive := Fixes n) _ _ h fun σ hσ i hi => ?_
  have := List.mem_range.mp hi
  exact hσ.compareExchange (by omega) (by omega)

lemma fixes_bubblePerm (t : ℕ → α) (n passes : ℕ) : Fixes n (bubblePerm t n passes) :=
  List.foldlRecOn (motive := Fixes n) _ _ (fun _ _ => rfl) fun _ hσ _ _ => hσ.bubblePass

lemma compareExchange_first_le (t : ℕ → α) (σ : Equiv.Perm ℕ) (i j : ℕ) :
    t (compareExchange t σ i j i) ≤ t (compareExchange t σ i j j) ∧
      t (compareExchange t σ i j i) ≤ t (σ i) := by
  unfold compareExchange
  split
  · rename_i hlt
    simp [hlt.le]
  · rename_i hle
    exact ⟨not_lt.mp hle, le_rfl⟩

lemma compareExchange_of_ne {k : ℕ} (hi : k ≠ i) (hj : k ≠ j) :
    compareExchange t σ i j k = σ k := by
  unfold compareExchange
  split
  · rw [Equiv.Perm.mul_apply, Equiv.swap_apply_of_ne_of_ne hi hj]
  · rfl

lemma compareExchange_mem (t : ℕ → α) (σ : Equiv.Perm ℕ) (i j : ℕ) :
    (compareExchange t σ i j i = σ i ∧ compareExchange t σ i j j = σ j) ∨
      (compareExchange t σ i j i = σ j ∧ compareExchange t σ i j j = σ i) := by
  unfold compareExchange
  split
  · simp
  · simp

/-! ### The exchanges with all later places -/

/-- The places before `m` hold nothing greater than a later place holds. -/
def LowUpTo (t : ℕ → α) (n m : ℕ) (σ : Equiv.Perm ℕ) : Prop :=
  ∀ k < m, ∀ l, k < l → l < n → t (σ k) ≤ t (σ l)

lemma LowUpTo.compareExchange (h : LowUpTo t n i σ) (hij : i < j) (hj : j < n) :
    LowUpTo t n i (compareExchange t σ i j) := by
  intro k hk l hkl hl
  rw [compareExchange_of_ne (by omega : k ≠ i) (by omega : k ≠ j)]
  rcases eq_or_ne l i with rfl | hli
  · rcases compareExchange_mem t σ l j with ⟨heq, -⟩ | ⟨heq, -⟩
    · rw [heq]
      exact h k hk l hkl hl
    · rw [heq]
      exact h k hk j (by omega) hj
  rcases eq_or_ne l j with rfl | hlj
  · rcases compareExchange_mem t σ i l with ⟨-, heq⟩ | ⟨-, heq⟩
    · rw [heq]
      exact h k hk l hkl hl
    · rw [heq]
      exact h k hk i hk (by omega)
  · rw [compareExchange_of_ne hli hlj]
    exact h k hk l hkl hl

/-- The place `i` holds nothing greater than the places after it up to `j` do. -/
def LowBefore (t : ℕ → α) (i j : ℕ) (σ : Equiv.Perm ℕ) : Prop :=
  ∀ l, i < l → l < j → t (σ i) ≤ t (σ l)

lemma LowBefore.compareExchange (h : LowBefore t i j σ) (hij : i < j) :
    LowBefore t i (j + 1) (compareExchange t σ i j) := by
  obtain ⟨hle, hold⟩ := compareExchange_first_le t σ i j
  intro l hil hl
  rcases eq_or_ne l j with rfl | hne
  · exact hle
  · rw [compareExchange_of_ne (by omega : l ≠ i) hne]
    exact hold.trans (h l hil (by omega))

lemma LowUpTo.selectPlace (h : LowUpTo t n i σ) (hi : i < n) :
    LowUpTo t n (i + 1) (selectPlace t n i σ) := by
  have hrounds : ∀ m, i + 1 + m ≤ n →
      LowUpTo t n i ((List.range' (i + 1) m).foldl (fun σ j => ExchangeSort.compareExchange t σ i j) σ) ∧
      LowBefore t i (i + 1 + m)
        ((List.range' (i + 1) m).foldl (fun σ j => ExchangeSort.compareExchange t σ i j) σ) := by
    intro m
    induction m with
    | zero => exact fun _ => ⟨h, fun l hil hl => by omega⟩
    | succ m ih =>
      intro hm
      obtain ⟨hlow, hbefore⟩ := ih (by omega)
      rw [List.range'_concat, List.foldl_append, mul_comm, Nat.mul_one]
      exact ⟨hlow.compareExchange (by omega) (by omega), hbefore.compareExchange (by omega)⟩
  obtain ⟨hlow, hbefore⟩ := hrounds (n - (i + 1)) (by omega)
  intro k hk l hkl hl
  rcases Nat.lt_succ_iff_lt_or_eq.mp hk with hlt | rfl
  · exact hlow k hlt l hkl hl
  · exact hbefore l hkl (by omega)

theorem monotoneOn_selectionPerm (t : ℕ → α) (n : ℕ) :
    MonotoneOn (t ∘ selectionPerm t n) (Set.Iio n) := by
  have hrounds : ∀ m ≤ n, LowUpTo t n m ((List.range m).foldl (fun σ i => selectPlace t n i σ) 1) := by
    intro m
    induction m with
    | zero => exact fun _ k hk => absurd hk (Nat.not_lt_zero k)
    | succ m ih =>
      intro hm
      rw [List.range_succ, List.foldl_append]
      exact (ih (by omega)).selectPlace (by omega)
  intro k hk l hl hkl
  rcases hkl.eq_or_lt with rfl | hlt
  · exact le_rfl
  · exact hrounds n le_rfl k hk l hlt hl

/-! ### The passes over the adjacent places -/

/-- The places from `m` on hold nothing less than an earlier place holds. -/
def HighFrom (t : ℕ → α) (n m : ℕ) (σ : Equiv.Perm ℕ) : Prop :=
  ∀ l, m ≤ l → l < n → ∀ k < l, t (σ k) ≤ t (σ l)

lemma HighFrom.compareExchange {m : ℕ} (h : HighFrom t n m σ) (hi : i + 1 < n) :
    HighFrom t n m (compareExchange t σ i (i + 1)) := by
  intro l hml hl k hk
  rcases eq_or_ne l i with rfl | hli
  · -- the entry that goes to the place is one of the last places as well
    rw [compareExchange_of_ne (by omega : k ≠ l) (by omega : k ≠ l + 1)]
    rcases compareExchange_mem t σ l (l + 1) with ⟨heq, -⟩ | ⟨heq, -⟩
    · rw [heq]
      exact h l hml hl k hk
    · rw [heq]
      exact h (l + 1) (by omega) hi k (by omega)
  rcases eq_or_ne l (i + 1) with rfl | hlj
  · obtain ⟨hle, -⟩ := compareExchange_first_le t σ i (i + 1)
    rcases eq_or_ne k i with rfl | hki
    · exact hle
    · rw [compareExchange_of_ne hki (by omega : k ≠ i + 1)]
      have hlast := h (i + 1) hml hl k hk
      rcases compareExchange_mem t σ i (i + 1) with ⟨-, heq⟩ | ⟨hfirst, heq⟩
      · rwa [heq]
      · rw [hfirst] at hle
        exact hlast.trans hle
  · rw [compareExchange_of_ne hli hlj]
    rcases eq_or_ne k i with rfl | hki
    · rcases compareExchange_mem t σ k (k + 1) with ⟨heq, -⟩ | ⟨heq, -⟩
      · rw [heq]
        exact h l hml hl k hk
      · rw [heq]
        exact h l hml hl (k + 1) (by omega)
    rcases eq_or_ne k (i + 1) with rfl | hkj
    · rcases compareExchange_mem t σ i (i + 1) with ⟨-, heq⟩ | ⟨-, heq⟩
      · rw [heq]
        exact h l hml hl (i + 1) hk
      · rw [heq]
        exact h l hml hl i (by omega)
    · rw [compareExchange_of_ne hki hkj]
      exact h l hml hl k hk

def HighAt (t : ℕ → α) (i : ℕ) (σ : Equiv.Perm ℕ) : Prop :=
  ∀ k < i, t (σ k) ≤ t (σ i)

lemma HighAt.compareExchange (h : HighAt t i σ) : HighAt t (i + 1) (compareExchange t σ i (i + 1)) := by
  obtain ⟨hle, -⟩ := compareExchange_first_le t σ i (i + 1)
  intro k hk
  rcases Nat.lt_succ_iff_lt_or_eq.mp hk with hlt | rfl
  · rw [compareExchange_of_ne (by omega : k ≠ i) (by omega : k ≠ i + 1)]
    have hold := h k hlt
    rcases compareExchange_mem t σ i (i + 1) with ⟨hfirst, -⟩ | ⟨-, hlast⟩
    · rw [hfirst] at hle
      exact hold.trans hle
    · rwa [hlast]
  · exact hle

/-- A pass moves a greatest entry of the places not yet settled to the last of them. -/
lemma HighFrom.bubblePass {m : ℕ} (h : HighFrom t n (m + 1) σ) (hm : m < n) :
    HighFrom t n m (bubblePass t n σ) := by
  have hrounds : ∀ i ≤ n - 1,
      HighFrom t n (m + 1)
        ((List.range i).foldl (fun σ i => ExchangeSort.compareExchange t σ i (i + 1)) σ) ∧
      (i ≤ m → HighAt t i
        ((List.range i).foldl (fun σ i => ExchangeSort.compareExchange t σ i (i + 1)) σ)) ∧
      (m ≤ i → HighFrom t n m
        ((List.range i).foldl (fun σ i => ExchangeSort.compareExchange t σ i (i + 1)) σ)) := by
    intro i
    induction i with
    | zero =>
      refine fun _ => ⟨h, fun _ k hk => absurd hk (Nat.not_lt_zero k), fun hzero l hml hl k hk => ?_⟩
      exact h l (by omega) hl k hk
    | succ i ih =>
      intro hi
      obtain ⟨hfrom, hat, hdone⟩ := ih (by omega)
      rw [List.range_succ, List.foldl_append]
      refine ⟨hfrom.compareExchange (by omega), fun hle => (hat (by omega)).compareExchange, fun hle => ?_⟩
      rcases Nat.lt_or_ge m (i + 1) with hlt | hge
      · exact (hdone (by omega)).compareExchange (by omega)
      · have heq : m = i + 1 := by omega
        subst heq
        intro l hml hl k hk
        rcases eq_or_lt_of_le hml with rfl | hlt
        · exact (hat (by omega)).compareExchange k hk
        · exact hfrom.compareExchange (by omega) l (by omega) hl k hk
  exact (hrounds (n - 1) le_rfl).2.2 (by omega)

lemma HighFrom.keep {m : ℕ} (h : HighFrom t n m σ) : HighFrom t n m (ExchangeSort.bubblePass t n σ) := by
  refine List.foldlRecOn (motive := HighFrom t n m) _ _ h fun σ hσ i hi => ?_
  have := List.mem_range.mp hi
  exact hσ.compareExchange (by omega)

theorem monotoneOn_bubblePerm (t : ℕ → α) {n passes : ℕ} (hpasses : n ≤ passes) :
    MonotoneOn (t ∘ bubblePerm t n passes) (Set.Iio n) := by
  have hrounds : ∀ m, HighFrom t n (n - m) ((List.range m).foldl (fun σ _ => bubblePass t n σ) 1) := by
    intro m
    induction m with
    | zero => exact fun l hml hl => by omega
    | succ m ih =>
      rw [List.range_succ, List.foldl_append]
      rcases Nat.lt_or_ge m n with hlt | hge
      · have hstep : n - m = n - (m + 1) + 1 := by omega
        rw [hstep] at ih
        exact ih.bubblePass (by omega)
      · have hzero : n - m = 0 ∧ n - (m + 1) = 0 := by omega
        rw [hzero.1] at ih
        rw [hzero.2]
        exact ih.keep
  intro k hk l hl hkl
  rcases hkl.eq_or_lt with rfl | hlt
  · exact le_rfl
  · have hhigh := hrounds passes
    rw [Nat.sub_eq_zero_of_le hpasses] at hhigh
    exact hhigh l (Nat.zero_le l) hl k hlt

/-! ### The passes keep the order of equal keys -/

def Stable (t : ℕ → α) (σ : Equiv.Perm ℕ) : Prop :=
  ∀ i j, i < j → t (σ i) = t (σ j) → σ i < σ j

lemma Stable.compareExchange (h : Stable t σ) (i : ℕ) :
    Stable t (compareExchange t σ i (i + 1)) := by
  unfold ExchangeSort.compareExchange
  split
  · rename_i hlt
    intro a b hab heq
    simp only [Equiv.Perm.mul_apply] at heq ⊢
    refine h _ _ ?_ heq
    -- only the two places change their order, and their keys differ
    have hne : ¬ (a = i ∧ b = i + 1) := by
      rintro ⟨rfl, rfl⟩
      rw [Equiv.swap_apply_left, Equiv.swap_apply_right] at heq
      exact hlt.ne heq
    rw [Equiv.swap_apply_def, Equiv.swap_apply_def]
    split_ifs <;> omega
  · exact h

lemma compareExchange_eq_of_stable (h : Stable t σ) (i : ℕ) :
    compareExchange t σ i (i + 1) = compareExchange (fun k => toLex (t k, k)) σ i (i + 1) := by
  have hiff : t (σ (i + 1)) < t (σ i) ↔ toLex (t (σ (i + 1)), σ (i + 1)) < toLex (t (σ i), σ i) := by
    rw [Prod.Lex.toLex_lt_toLex]
    refine ⟨.inl, fun hlex => ?_⟩
    rcases hlex with hlt | ⟨heq, hlt⟩
    · exact hlt
    · have := h i (i + 1) (Nat.lt_succ_self i) heq.symm
      exact absurd hlt this.not_gt
  unfold compareExchange
  by_cases hlt : t (σ (i + 1)) < t (σ i)
  · rw [if_pos hlt, if_pos (hiff.mp hlt)]
  · rw [if_neg hlt, if_neg fun hlex => hlt (hiff.mpr hlex)]

theorem bubblePerm_eq_tieBreak (t : ℕ → α) (n passes : ℕ) :
    bubblePerm t n passes = bubblePerm (fun k => toLex (t k, k)) n passes := by
  unfold bubblePerm
  refine (List.foldl_rel (r := fun σ τ => σ = τ ∧ Stable t σ) ⟨rfl, fun i j hij _ => hij⟩ ?_).1
  rintro - - σ _ ⟨rfl, hσ⟩
  refine List.foldl_rel (r := fun σ τ => σ = τ ∧ Stable t σ) ⟨rfl, hσ⟩ ?_
  rintro i - σ _ ⟨rfl, hσ⟩
  exact ⟨compareExchange_eq_of_stable hσ i, hσ.compareExchange i⟩

theorem lt_iff_of_bubblePerm (t : ℕ → α) {n passes a b : ℕ} (hpasses : n ≤ passes) (ha : a < n) (hb : b < n) :
    (bubblePerm t n passes).symm a < (bubblePerm t n passes).symm b ↔
      toLex (t a, a) < toLex (t b, b) := by
  have hmono := monotoneOn_bubblePerm (fun k => toLex (t k, k)) hpasses
  rw [← bubblePerm_eq_tieBreak] at hmono
  have hfix := (fixes_bubblePerm t n passes).symm
  have hstrict : ∀ {a b}, a < n → b < n →
      (bubblePerm t n passes).symm a < (bubblePerm t n passes).symm b →
        toLex (t a, a) < toLex (t b, b) := by
    intro a b ha hb hlt
    have hle := hmono (hfix.lt ha) (hfix.lt hb) hlt.le
    simp only [Function.comp_apply, Equiv.apply_symm_apply] at hle
    refine lt_of_le_of_ne hle fun heq => ?_
    have hab : a = b := congrArg (fun p => (ofLex p).2) heq
    rw [hab] at hlt
    exact lt_irrefl _ hlt
  refine ⟨hstrict ha hb, fun hlt => ?_⟩
  rcases lt_trichotomy ((bubblePerm t n passes).symm a) ((bubblePerm t n passes).symm b) with h | h | h
  · exact h
  · rw [(bubblePerm t n passes).symm.injective h] at hlt
    exact absurd hlt (lt_irrefl _)
  · exact absurd (hstrict hb ha h) hlt.asymm

end Almos.ExchangeSort
