import Mathlib

/-!
# Chains of blocks

Blocks laid end to end, each with its size in a header at its start. `Chain size m a l b`
says that following sizes from `a` visits the starts `l`, each block at least `m` long,
and ends exactly at `b`.
-/
namespace Almos.BlockChain

def Chain (size : ℕ → ℕ) (m : ℕ) : ℕ → List ℕ → ℕ → Prop
  | a, [], b => a = b
  | a, x :: xs, b => x = a ∧ m ≤ size a ∧ Chain size m (a + size a) xs b

variable {size size' : ℕ → ℕ} {m a b c x y : ℕ} {l l₁ l₂ : List ℕ}

namespace Chain

theorem length_mul_le (h : Chain size m a l b) : a + l.length * m ≤ b := by
  induction l generalizing a with
  | nil =>
    obtain rfl : a = b := h
    simp
  | cons x xs ih =>
    obtain ⟨rfl, hm, hrest⟩ := h
    have := ih hrest
    rw [List.length_cons, Nat.add_mul]
    omega

theorem le (h : Chain size m a l b) : a ≤ b := by
  have := h.length_mul_le
  omega

theorem bounds (h : Chain size m a l b) (hx : x ∈ l) : a ≤ x ∧ m ≤ size x ∧ x + size x ≤ b := by
  induction l generalizing a with
  | nil => simp at hx
  | cons y ys ih =>
    obtain ⟨rfl, hm, hrest⟩ := h
    cases List.mem_cons.mp hx with
    | inl hxy =>
      subst hxy
      exact ⟨le_rfl, hm, hrest.le⟩
    | inr hmem =>
      obtain ⟨hle, hsize, hend⟩ := ih hrest hmem
      exact ⟨by omega, hsize, hend⟩

theorem congr (h : Chain size m a l b) (hsize : ∀ x ∈ l, size' x = size x) :
    Chain size' m a l b := by
  induction l generalizing a with
  | nil => exact h
  | cons y ys ih =>
    obtain ⟨rfl, hm, hrest⟩ := h
    have hy : size' y = size y := hsize y (by simp)
    refine ⟨rfl, by omega, ?_⟩
    rw [hy]
    exact ih hrest fun x hx => hsize x (List.mem_cons_of_mem _ hx)

theorem append (h₁ : Chain size m a l₁ b) (h₂ : Chain size m b l₂ c) :
    Chain size m a (l₁ ++ l₂) c := by
  induction l₁ generalizing a with
  | nil =>
    obtain rfl : a = b := h₁
    exact h₂
  | cons y ys ih =>
    obtain ⟨rfl, hm, hrest⟩ := h₁
    exact ⟨rfl, hm, ih hrest⟩

theorem split (h : Chain size m a l b) (hx : x ∈ l) : ∃ l₁ l₂, l = l₁ ++ x :: l₂ ∧
    Chain size m a l₁ x ∧ Chain size m (x + size x) l₂ b := by
  induction l generalizing a with
  | nil => simp at hx
  | cons y ys ih =>
    obtain ⟨rfl, hm, hrest⟩ := h
    by_cases hxy : x = y
    · subst hxy
      exact ⟨[], ys, rfl, rfl, hrest⟩
    · obtain ⟨l₁, l₂, rfl, hl, hr⟩ := ih hrest (by simpa [hxy] using hx)
      exact ⟨y :: l₁, l₂, rfl, ⟨rfl, hm, hl⟩, hr⟩

theorem mono {n : ℕ} (h : Chain size m a l b) (hn : n ≤ m) : Chain size n a l b := by
  induction l generalizing a with
  | nil => exact h
  | cons y ys ih =>
    obtain ⟨rfl, hm, hrest⟩ := h
    exact ⟨rfl, hn.trans hm, ih hrest⟩

theorem glue (h₁ : Chain size m a l₁ x) (hm : m ≤ size x) (h₂ : Chain size m (x + size x) l₂ b) :
    Chain size m a (l₁ ++ x :: l₂) b :=
  h₁.append ⟨rfl, hm, h₂⟩

theorem lt_of_append (hm : 0 < m) (h : Chain size m a (l₁ ++ l₂) b) (hx : x ∈ l₁) (hy : y ∈ l₂) :
    x < y := by
  induction l₁ generalizing a with
  | nil => simp at hx
  | cons z zs ih =>
    obtain ⟨rfl, hz, hrest⟩ := h
    cases List.mem_cons.mp hx with
    | inl hxz =>
      subst hxz
      have := (hrest.bounds (List.mem_append_right zs hy)).1
      omega
    | inr hmem => exact ih hrest hmem

theorem disjoint (h : Chain size m a l b) (hx : x ∈ l) (hy : y ∈ l) (hxy : x ≠ y) :
    x + size x ≤ y ∨ y + size y ≤ x := by
  obtain ⟨l₁, l₂, rfl, hl, hr⟩ := h.split hx
  have hmem : y ∈ l₁ ∨ y ∈ l₂ := by simpa [Ne.symm hxy] using hy
  cases hmem with
  | inl hmem =>
    right
    exact (hl.bounds hmem).2.2
  | inr hmem =>
    left
    exact (hr.bounds hmem).1

theorem getLast_of_end (hm : 0 < m) (h : Chain size m a l b) (hx : x ∈ l) (hend : x + size x = b) :
    l.getLast? = some x := by
  obtain ⟨l₁, l₂, rfl, -, hr⟩ := h.split hx
  have hnil : l₂ = [] := by
    cases l₂ with
    | nil => rfl
    | cons y ys =>
      have := hr.bounds (List.mem_cons_self ..)
      omega
  simp [hnil]

theorem next_mem (h : Chain size m a l b) (hx : x ∈ l) : x + size x = b ∨ x + size x ∈ l := by
  obtain ⟨l₁, l₂, rfl, -, hr⟩ := h.split hx
  cases l₂ with
  | nil =>
    left
    exact hr
  | cons y ys =>
    right
    obtain ⟨hy, -⟩ := hr
    simp [hy]

theorem start_mem (h : Chain size m a l b) (hab : a < b) : a ∈ l := by
  cases l with
  | nil =>
    obtain rfl : a = b := h
    omega
  | cons y ys =>
    obtain ⟨rfl, -⟩ := h
    simp

variable (size') in
theorem cut {n : ℕ} (h : Chain size m a l b) (hx : x ∈ l) (hm : 0 < m) (hn : m ≤ n)
    (hrest : n + m ≤ size x) (hfirst : size' x = n) (hsecond : size' (x + n) = size x - n)
    (hother : ∀ y ∈ l, y ≠ x → size' y = size y) :
    ∃ l', Chain size' m a l' b ∧ ∀ y, y ∈ l' ↔ y ∈ l ∨ y = x + n := by
  obtain ⟨l₁, l₂, rfl, hl, hr⟩ := h.split hx
  have hleft : Chain size' m a l₁ x := hl.congr fun y hy => by
    have := hl.bounds hy
    exact hother y (List.mem_append_left _ hy) (by omega)
  have hright : Chain size' m (x + size x) l₂ b := hr.congr fun y hy => by
    have := hr.bounds hy
    exact hother y (List.mem_append_right _ (List.mem_cons_of_mem _ hy)) (by omega)
  refine ⟨l₁ ++ x :: (x + n) :: l₂, hleft.glue (by omega) ?_, fun y => ?_⟩
  · have hend : x + n + (size x - n) = x + size x := by omega
    rw [hfirst]
    refine ⟨rfl, by omega, ?_⟩
    rwa [hsecond, hend]
  · simp only [List.mem_append, List.mem_cons]
    tauto

variable (size') in
theorem join (h : Chain size m a l b) (hx : x ∈ l) (hm : 0 < m) (hnext : x + size x ∈ l)
    (hfirst : size' x = size x + size (x + size x))
    (hother : ∀ y ∈ l, y ≠ x → y ≠ x + size x → size' y = size y) :
    ∃ l', Chain size' m a l' b ∧ ∀ y, y ∈ l' ↔ y ∈ l ∧ y ≠ x + size x := by
  have hxm := (h.bounds hx).2.1
  obtain ⟨l₁, l₂, rfl, hl, hr⟩ := h.split hx
  cases l₂ with
  | nil =>
    have hend : x + size x = b := hr
    have := h.bounds hnext
    omega
  | cons z ys =>
    obtain ⟨rfl, hz, hrest⟩ := hr
    have hleft : Chain size' m a l₁ x := hl.congr fun y hy => by
      have := hl.bounds hy
      exact hother y (List.mem_append_left _ hy) (by omega) (by omega)
    have hright : Chain size' m (x + size x + size (x + size x)) ys b := hrest.congr fun y hy => by
      have := hrest.bounds hy
      exact hother y (List.mem_append_right _ (List.mem_cons_of_mem _ (List.mem_cons_of_mem _ hy)))
        (by omega) (by omega)
    refine ⟨l₁ ++ x :: ys, hleft.glue (by omega) ?_, fun y => ?_⟩
    · rwa [hfirst, ← add_assoc]
    · simp only [List.mem_append, List.mem_cons]
      constructor
      · rintro (hy | rfl | hy)
        · have := hl.bounds hy
          exact ⟨.inl hy, by omega⟩
        · exact ⟨.inr (.inl rfl), by omega⟩
        · have := hrest.bounds hy
          exact ⟨.inr (.inr (.inr hy)), by omega⟩
      · rintro ⟨hy | hy | hy | hy, hne⟩
        · exact .inl hy
        · exact .inr (.inl hy)
        · exact absurd hy hne
        · exact .inr (.inr hy)

theorem drop (h : Chain size m a l b) (hx : x ∈ l) (hm : 0 < m) :
    ∃ l', Chain size m x l' b ∧ ∀ y, y ∈ l' ↔ y ∈ l ∧ x ≤ y := by
  obtain ⟨l₁, l₂, rfl, hl, hr⟩ := h.split hx
  have hxm := (h.bounds hx).2.1
  refine ⟨x :: l₂, ⟨rfl, hxm, hr⟩, fun y => ?_⟩
  simp only [List.mem_append, List.mem_cons]
  constructor
  · rintro (rfl | hy)
    · exact ⟨.inr (.inl rfl), le_rfl⟩
    · have := hr.bounds hy
      exact ⟨.inr (.inr hy), by omega⟩
  · rintro ⟨hy | hy, hle⟩
    · have := hl.bounds hy
      omega
    · exact hy

end Chain

end Almos.BlockChain
