import Almos.Ppm

/-!
# Coalescing and splitting keep a tiling

Every page lies in exactly one free block, block in use or pending block. A block in use
is recognised by the state of its head: apart from these heads all pages are in state
`PGFREE`, whatever their `order` field still says. This is why a buddy probe that finds a
free page of the right order finds the head of a free block.
-/
namespace Almos.Ppm
open Word BlockTiling

@[simp] theorem heads_setPage (ppm : Ppm) (i : ℕ) (f : Page → Page) :
    (ppm.setPage i f).heads = ppm.heads := rfl

@[simp] theorem heads_setList (ppm : Ppm) (k : ℕ) (l : BuddyList) :
    (ppm.setList k l).heads = Function.update ppm.heads k l.root := by
  funext j
  by_cases h : j = k <;> simp [heads, setList, h]

@[simp] theorem heads_countPages (ppm : Ppm) (k : ℕ) (f : ℕ → ℕ) :
    (ppm.countPages k f).heads = ppm.heads := by
  simp [countPages]

@[simp] theorem heads_addBlock (ppm : Ppm) (k i : ℕ) :
    (ppm.addBlock k i).heads = Function.update ppm.heads k (i :: ppm.heads k) := by
  simp [addBlock, listAdd]

@[simp] theorem heads_listUnlink (ppm : Ppm) (i k : ℕ) :
    (ppm.listUnlink i).heads k = (ppm.heads k).erase i := rfl

@[simp] theorem pagesTbl_addBlock (ppm : Ppm) (k i : ℕ) :
    (ppm.addBlock k i).pagesTbl =
      Function.update ppm.pagesTbl i ((ppm.pagesTbl i).setOrder k) := rfl

@[simp] theorem pagesTbl_setPage (ppm : Ppm) (i : ℕ) (f : Page → Page) :
    (ppm.setPage i f).pagesTbl = Function.update ppm.pagesTbl i (f (ppm.pagesTbl i)) := rfl

@[simp] theorem pagesTbl_countPages (ppm : Ppm) (k : ℕ) (f : ℕ → ℕ) :
    (ppm.countPages k f).pagesTbl = ppm.pagesTbl := rfl

@[simp] theorem pagesTbl_listUnlink (ppm : Ppm) (i : ℕ) :
    (ppm.listUnlink i).pagesTbl = ppm.pagesTbl := rfl

@[simp] theorem pagesNr_addBlock (ppm : Ppm) (k i : ℕ) :
    (ppm.addBlock k i).pagesNr = ppm.pagesNr := rfl

@[simp] theorem pagesNr_setPage (ppm : Ppm) (i : ℕ) (f : Page → Page) :
    (ppm.setPage i f).pagesNr = ppm.pagesNr := rfl

@[simp] theorem pagesNr_countPages (ppm : Ppm) (k : ℕ) (f : ℕ → ℕ) :
    (ppm.countPages k f).pagesNr = ppm.pagesNr := rfl

@[simp] theorem pagesNr_listUnlink (ppm : Ppm) (i : ℕ) :
    (ppm.listUnlink i).pagesNr = ppm.pagesNr := rfl

def usage (blocks : List Block) (p : ℕ) : ℕ := blocks.countP fun b => decide (b.Covers p)

@[simp] theorem usage_nil (p : ℕ) : usage [] p = 0 := rfl

theorem usage_cons (b : Block) (bs : List Block) (p : ℕ) :
    usage (b :: bs) p = usage bs p + indicator b p := by
  simp [usage, List.countP_cons, indicator]

theorem usage_pos_iff {blocks : List Block} {p : ℕ} :
    0 < usage blocks p ↔ ∃ b ∈ blocks, b.Covers p := by
  simp [usage, List.countP_pos_iff]

theorem usage_eq_zero_iff {blocks : List Block} {p : ℕ} :
    usage blocks p = 0 ↔ ∀ b ∈ blocks, ¬ b.Covers p := by
  simp [usage, List.countP_eq_zero]

theorem usage_append (a b : List Block) (p : ℕ) : usage (a ++ b) p = usage a p + usage b p := by
  simp [usage]

theorem sum_usage {n : ℕ} {blocks : List Block} (h : ∀ p, 0 < usage blocks p → p < n) :
    ∑ p ∈ Finset.range n, usage blocks p = (blocks.map fun b => 2 ^ b.order).sum := by
  induction blocks with
  | nil => simp
  | cons b bs ih =>
    have hb := sum_indicator (b := b) (n := n)
      fun p hp => h p (usage_pos_iff.mpr ⟨b, by simp, hp⟩)
    have hbs := ih fun p hp => h p (by rw [usage_cons]; omega)
    simp only [usage_cons, Finset.sum_add_distrib, hbs, hb, List.map_cons, List.sum_cons]
    ring

def listed (heads : ℕ → List ℕ) : ℕ := ∑ k ∈ Finset.range maxOrder, 2 ^ k * (heads k).length

/-- The free lists, the blocks in use and the pending blocks tile the pages; `total` is
what the free lists and the pending blocks hold together. -/
structure Tiled (ppm : Ppm) (used pending : List Block) (total : ℕ) : Prop where
  head_order : ∀ k, ∀ i ∈ ppm.heads k,
    k < maxOrder ∧ (⟨i, k⟩ : Block).Aligned ∧ (ppm.pagesTbl i).order = k
  used_aligned : ∀ b ∈ used, b.Aligned
  pending_aligned : ∀ b ∈ pending, b.Aligned ∧ b.order < maxOrder
  used_order : ∀ b ∈ used, (ppm.pagesTbl b.index).order = b.order
  state_iff : ∀ p < ppm.pagesNr,
    (ppm.pagesTbl p).state = .pgFree ↔ ∀ b ∈ used, b.index ≠ p
  free_count : ∀ p < ppm.pagesNr, (ppm.pagesTbl p).state = .pgFree → (ppm.pagesTbl p).count = 0
  tiles : ∀ p, coverage maxOrder ppm.heads p + usage used p + usage pending p =
    if p < ppm.pagesNr then 1 else 0
  length_eq : ∀ k, (ppm.freePages k).pagesNr = (ppm.heads k).length
  total_eq : listed ppm.heads + (pending.map fun b => 2 ^ b.order).sum = total

/-- Where the pages end amid a block of an order below the last one, the last smaller block that
could be joined beyond the end has a page that is held. -/
def TailHeld (n : ℕ) (held : ℕ → Prop) : Prop :=
  ∀ k < lastOrder, 2 ^ k ∣ n → ¬2 ^ (k + 1) ∣ n → ∃ p, n - 2 ^ k ≤ p ∧ p < n ∧ held p

lemma tailHeld_of_dvd {n : ℕ} (hn : 2 ^ lastOrder ∣ n) (held : ℕ → Prop) : TailHeld n held :=
  fun _ hk _ hodd => absurd ((pow_dvd_pow 2 hk).trans hn) hodd

lemma TailHeld.mono {n : ℕ} {held held' : ℕ → Prop} (h : TailHeld n held)
    (hle : ∀ p < n, held p → held' p) : TailHeld n held' := by
  intro k hk hdvd hodd
  obtain ⟨p, hlo, hhi, hp⟩ := h k hk hdvd hodd
  exact ⟨p, hlo, hhi, hle p hhi hp⟩

namespace Tiled
variable {ppm : Ppm} {used pending : List Block} {total i k : ℕ}

theorem lt_pagesNr (h : Tiled ppm used [⟨i, k⟩] total) {p : ℕ}
    (hp : (⟨i, k⟩ : Block).Covers p) : p < ppm.pagesNr := by
  have ht := h.tiles p
  have hi : indicator ⟨i, k⟩ p = 1 := if_pos hp
  rw [usage_cons, hi] at ht
  by_contra hn
  rw [if_neg hn] at ht
  omega

theorem lt_of_pending (h : Tiled ppm used [⟨i, k⟩] total) : i < ppm.pagesNr :=
  h.lt_pagesNr (Block.covers_index ⟨i, k⟩)

theorem not_covered (h : Tiled ppm used [⟨i, k⟩] total) {p : ℕ}
    (hp : (⟨i, k⟩ : Block).Covers p) : coverage maxOrder ppm.heads p = 0 ∧ usage used p = 0 := by
  have ht := h.tiles p
  have hi : indicator ⟨i, k⟩ p = 1 := if_pos hp
  rw [usage_cons, hi] at ht
  split_ifs at ht
  · omega

theorem head_lt (h : Tiled ppm used pending total) {j l : ℕ} (hj : j ∈ ppm.heads l) :
    j < ppm.pagesNr ∧ usage used j = 0 := by
  have hpos : 0 < coverage maxOrder ppm.heads j :=
    coverage_pos_iff.mpr ⟨l, (h.head_order l j hj).1, j, hj, Block.covers_index ⟨j, l⟩⟩
  have ht := h.tiles j
  split_ifs at ht with hlt
  · exact ⟨hlt, by omega⟩
  · omega

theorem head_free (h : Tiled ppm used pending total) {j l : ℕ} (hj : j ∈ ppm.heads l) :
    (ppm.pagesTbl j).state = .pgFree := by
  obtain ⟨hlt, hu⟩ := h.head_lt hj
  rw [h.state_iff j hlt]
  rintro b hb rfl
  have := usage_pos_iff.mpr ⟨b, hb, Block.covers_index b⟩
  omega

theorem buddy_lt (h : Tiled ppm used [⟨i, k⟩] total)
    (hn : TailHeld ppm.pagesNr fun p => 0 < usage used p) (hk : k < lastOrder) :
    buddy i k < ppm.pagesNr := by
  have ha := (h.pending_aligned ⟨i, k⟩ (by simp)).1
  have hpos : 0 < 2 ^ k := by positivity
  have hi := h.lt_of_pending
  obtain ⟨hleft, hb⟩ | ⟨-, hb⟩ := buddy_cases ha
  · by_contra hge
    have hlast := h.lt_pagesNr (p := i + 2 ^ k - 1) (by change i ≤ _ ∧ _ < i + 2 ^ k; omega)
    have hend : ppm.pagesNr = i + 2 ^ k := by omega
    have hodd : ¬2 ^ (k + 1) ∣ ppm.pagesNr := by
      intro hdvd
      have hjoin : 2 ^ (k + 1) ∣ i := hleft ▸ aligned_join ha
      have hrest := (Nat.dvd_add_right hjoin).mp (hend ▸ hdvd)
      have hle := Nat.le_of_dvd hpos hrest
      rw [pow_succ] at hle
      omega
    obtain ⟨p, hlo, hhi, hused⟩ := hn k hk (hend ▸ Dvd.dvd.add ha (dvd_refl _)) hodd
    have hzero := (h.not_covered (p := p) (by change i ≤ _ ∧ _ < i + 2 ^ k; omega)).2
    omega
  · omega

/-- A block that holds the buddy's first page and misses the pending block starts there. -/
theorem index_eq_buddy {c : Block} (ha : (⟨i, k⟩ : Block).Aligned) (hc : c.Aligned)
    (hcb : c.Covers (buddy i k)) (hci : ¬ c.Covers i) : c.index = buddy i k := by
  have hcov := covers_join_iff ha
  have hle : c.order ≤ k := by
    by_contra hlt
    exact hci ((aligned_join ha).covers_of_covers hc (Nat.lt_of_not_le hlt)
      ((hcov _).mpr (Or.inr (Block.covers_index ⟨buddy i k, k⟩))) hcb
      ((hcov _).mpr (Or.inl (Block.covers_index ⟨i, k⟩))))
  have hb : (⟨buddy i k, c.order⟩ : Block).Aligned :=
    (pow_dvd_pow 2 hle).trans (aligned_buddy ha)
  exact congrArg Block.index
    (hc.eq_of_covers hb rfl hcb (Block.covers_index ⟨buddy i k, c.order⟩))

theorem buddy_mem_heads (h : Tiled ppm used [⟨i, k⟩] total)
    (hn : TailHeld ppm.pagesNr fun p => 0 < usage used p) (hk : k < lastOrder)
    (hs : (ppm.pagesTbl (buddy i k)).state = .pgFree)
    (ho : (ppm.pagesTbl (buddy i k)).order = k) : buddy i k ∈ ppm.heads k := by
  have ha := (h.pending_aligned ⟨i, k⟩ (by simp)).1
  have hlt := h.buddy_lt hn hk
  have ht := h.tiles (buddy i k)
  obtain ⟨hc0, hu0⟩ := h.not_covered (p := i) (Block.covers_index ⟨i, k⟩)
  have hz : indicator ⟨i, k⟩ (buddy i k) = 0 :=
    if_neg fun hc => not_covers_both_buddies ha _ ⟨hc, Block.covers_index ⟨buddy i k, k⟩⟩
  rw [usage_cons, hz, if_pos hlt, usage_nil] at ht
  rcases Nat.eq_zero_or_pos (usage used (buddy i k)) with hu | hu
  · have hpos : 0 < coverage maxOrder ppm.heads (buddy i k) := by omega
    obtain ⟨l, hl, j, hj, hjb⟩ := coverage_pos_iff.mp hpos
    obtain ⟨-, hja, hjo⟩ := h.head_order l j hj
    have hji : ¬ (⟨j, l⟩ : Block).Covers i := fun hc => by
      have := coverage_pos_iff.mpr ⟨l, hl, j, hj, hc⟩
      omega
    have hjeq : j = buddy i k := index_eq_buddy ha hja hjb hji
    subst hjeq
    have hlk : l = k := hjo.symm.trans ho
    subst hlk
    exact hj
  -- a block in use that starts at the buddy would have a head in another state
  · obtain ⟨b, hb, hbb⟩ := usage_pos_iff.mp hu
    have hbi : ¬ b.Covers i := fun hc => by
      have := usage_pos_iff.mpr ⟨b, hb, hc⟩
      omega
    exact absurd (index_eq_buddy ha (h.used_aligned b hb) hbb hbi)
      ((h.state_iff _ hlt).mp hs b hb)

theorem heads_unlink (h : Tiled ppm used pending total) {j l : ℕ} (hj : j ∈ ppm.heads l) :
    (ppm.listUnlink j).heads = Function.update ppm.heads l ((ppm.heads l).erase j) := by
  funext m
  by_cases hm : m = l
  · subst hm
    simp
  · rw [Function.update_of_ne hm]
    apply List.erase_of_not_mem
    intro hmem
    exact hm ((h.head_order m j hmem).2.2.symm.trans (h.head_order l j hj).2.2)

theorem listed_erase {heads : ℕ → List ℕ} {j l : ℕ} (hl : l < maxOrder) (hj : j ∈ heads l) :
    listed (Function.update heads l ((heads l).erase j)) + 2 ^ l = listed heads := by
  have h := sum_update maxOrder (fun k xs => 2 ^ k * xs.length) heads hl ((heads l).erase j)
  have hlen : (heads l).length = ((heads l).erase j).length + 1 :=
    (List.perm_cons_erase hj).length_eq
  have he : 2 ^ l * (heads l).length = 2 ^ l * ((heads l).erase j).length + 2 ^ l := by
    rw [hlen]
    ring
  unfold listed
  simp only [he] at h
  omega

theorem listed_push (heads : ℕ → List ℕ) {j l : ℕ} (hl : l < maxOrder) :
    listed (Function.update heads l (j :: heads l)) = listed heads + 2 ^ l := by
  have h := sum_update maxOrder (fun k xs => 2 ^ k * xs.length) heads hl (j :: heads l)
  have he : 2 ^ l * (j :: heads l).length = 2 ^ l * (heads l).length + 2 ^ l := by
    simp only [List.length_cons]
    ring
  unfold listed
  simp only [he] at h
  omega

theorem total_le (h : Tiled ppm used pending total) : total ≤ ppm.pagesNr := by
  have hlt : ∀ p, ¬ p < ppm.pagesNr →
      coverage maxOrder ppm.heads p = 0 ∧ usage pending p = 0 := by
    intro p hp
    have ht := h.tiles p
    rw [if_neg hp] at ht
    omega
  have hsum : ∑ p ∈ Finset.range ppm.pagesNr,
      (coverage maxOrder ppm.heads p + usage pending p) ≤ ∑ _p ∈ Finset.range ppm.pagesNr, 1 := by
    apply Finset.sum_le_sum
    intro p hp
    have ht := h.tiles p
    rw [if_pos (Finset.mem_range.mp hp)] at ht
    omega
  have hcov : ∑ p ∈ Finset.range ppm.pagesNr, coverage maxOrder ppm.heads p = listed ppm.heads := by
    apply sum_coverage
    intro p hp
    by_contra hn
    have := hlt p hn
    omega
  have huse : ∑ p ∈ Finset.range ppm.pagesNr, usage pending p =
      (pending.map fun b => 2 ^ b.order).sum := by
    apply sum_usage
    intro p hp
    by_contra hn
    have := hlt p hn
    omega
  have ht := h.total_eq
  rw [Finset.sum_add_distrib, hcov, huse] at hsum
  simp only [Finset.sum_const, Finset.card_range, smul_eq_mul, Nat.mul_one] at hsum
  omega

theorem length_le (h : Tiled ppm used pending total) (l : ℕ) :
    (ppm.heads l).length + (pending.map fun b => 2 ^ b.order).sum ≤ ppm.pagesNr := by
  have hle := h.total_le
  have ht := h.total_eq
  by_cases hl : l < maxOrder
  · have hterm : 2 ^ l * (ppm.heads l).length ≤ listed ppm.heads :=
      Finset.single_le_sum (f := fun k => 2 ^ k * (ppm.heads k).length)
        (fun _ _ => Nat.zero_le _) (Finset.mem_range.mpr hl)
    have hpow := Nat.le_mul_of_pos_left (ppm.heads l).length (Nat.two_pow_pos l)
    omega
  · have hnil : ppm.heads l = [] := by
      apply List.eq_nil_iff_forall_not_mem.mpr
      intro i hi
      exact hl (h.head_order l i hi).1
    simp only [hnil, List.length_nil]
    omega

theorem unlink (h : Tiled ppm used pending total) (hn : ppm.pagesNr < 2 ^ 32) {j l : ℕ}
    (hj : j ∈ ppm.heads l) :
    Tiled ((ppm.listUnlink j).countPages l (wsub · 1)) used (⟨j, l⟩ :: pending) total := by
  obtain ⟨hl, hja, hjo⟩ := h.head_order l j hj
  have hheads := h.heads_unlink hj
  refine ⟨?_, h.used_aligned, ?_, h.used_order, h.state_iff, h.free_count, ?_, ?_, ?_⟩
  · intro m x hx
    rw [heads_countPages, heads_listUnlink] at hx
    exact h.head_order m x (List.mem_of_mem_erase hx)
  · simp only [List.mem_cons, forall_eq_or_imp]
    exact ⟨⟨hja, hl⟩, h.pending_aligned⟩
  · intro p
    have ht := h.tiles p
    have he := coverage_erase ppm.heads hl hj p
    rw [heads_countPages, hheads, usage_cons, pagesNr_countPages, pagesNr_listUnlink, ← ht]
    omega
  · intro m
    have hm := h.length_eq m
    rw [heads_countPages, hheads]
    by_cases hml : m = l
    · subst hml
      have hlen := h.length_le m
      have hpos := List.length_pos_of_mem hj
      simp only [countPages, setList, Function.update_self, listUnlink,
        List.length_erase_of_mem hj, hm]
      exact wsub_of_le hpos (by omega)
    · simp [countPages, setList, Function.update_of_ne hml, listUnlink, hm]
  · have ht := h.total_eq
    have he := listed_erase hl hj
    rw [heads_countPages, hheads]
    simp only [List.map_cons, List.sum_cons]
    omega

/-- The `order` of a page that is neither a listed head nor the head of a block in use
is free to change. -/
theorem set_order (h : Tiled ppm used pending total) {j : ℕ} (o : ℕ)
    (hj : ∀ l, j ∉ ppm.heads l) (hu : ∀ b ∈ used, b.index ≠ j) :
    Tiled (ppm.setPage j (·.setOrder o)) used pending total := by
  refine ⟨?_, h.used_aligned, h.pending_aligned, ?_, ?_, ?_, h.tiles, h.length_eq, h.total_eq⟩
  · intro l i hi
    have hij : i ≠ j := fun he => hj l (he ▸ hi)
    rw [pagesTbl_setPage, Function.update_of_ne hij]
    exact h.head_order l i hi
  · intro b hb
    rw [pagesTbl_setPage, Function.update_of_ne (hu b hb)]
    exact h.used_order b hb
  · intro p hp
    rw [← h.state_iff p hp, pagesTbl_setPage]
    by_cases hpj : p = j <;> simp [Function.update, hpj]
  · intro p hp
    have hc := h.free_count p hp
    rw [pagesTbl_setPage]
    by_cases hpj : p = j
    · subst hpj
      simpa using hc
    · simpa [Function.update_of_ne hpj] using hc

theorem used_ne_of_pending (h : Tiled ppm used pending total) {c : Block} (hc : c ∈ pending)
    {p : ℕ} (hp : c.Covers p) : (∀ l, p ∉ ppm.heads l) ∧ ∀ b ∈ used, b.index ≠ p := by
  have ht := h.tiles p
  have hpos := usage_pos_iff.mpr ⟨c, hc, hp⟩
  constructor
  · intro l hl
    have hcov : 0 < coverage maxOrder ppm.heads p :=
      coverage_pos_iff.mpr ⟨l, (h.head_order l p hl).1, p, hl, Block.covers_index ⟨p, l⟩⟩
    split_ifs at ht <;> omega
  · rintro b hb rfl
    have := usage_pos_iff.mpr ⟨b, hb, Block.covers_index b⟩
    split_ifs at ht <;> omega

theorem join (h : Tiled ppm used [⟨buddy i k, k⟩, ⟨i, k⟩] total) (hk : k < lastOrder) :
    Tiled ppm used [⟨i &&& buddy i k, k + 1⟩] total := by
  have ha := (h.pending_aligned ⟨i, k⟩ (by simp)).1
  refine ⟨h.head_order, h.used_aligned, ?_, h.used_order, h.state_iff, h.free_count, ?_,
    h.length_eq, ?_⟩
  · simp only [List.mem_singleton, forall_eq]
    exact ⟨aligned_join ha, Nat.add_lt_of_lt_sub hk⟩
  · intro p
    have ht := h.tiles p
    have hj := indicator_join ha p
    simp only [usage_cons, usage_nil] at ht ⊢
    omega
  · have ht := h.total_eq
    simp only [List.map_cons, List.map_nil, List.sum_cons, List.sum_nil, pow_succ] at ht ⊢
    omega

theorem halve (h : Tiled ppm used [⟨i, k + 1⟩] total) :
    Tiled ppm used [⟨i + 2 ^ k, k⟩, ⟨i, k⟩] total := by
  obtain ⟨ha, hk⟩ := h.pending_aligned ⟨i, k + 1⟩ (by simp)
  have hk' : k < maxOrder := Nat.lt_of_succ_lt hk
  refine ⟨h.head_order, h.used_aligned, ?_, h.used_order, h.state_iff, h.free_count, ?_,
    h.length_eq, ?_⟩
  · simp only [List.mem_cons, List.not_mem_nil, or_false, forall_eq_or_imp, forall_eq]
    exact ⟨⟨ha.right, hk'⟩, ha.left, hk'⟩
  · intro p
    have ht := h.tiles p
    have hj := indicator_succ i k p
    simp only [usage_cons, usage_nil] at ht ⊢
    omega
  · have ht := h.total_eq
    simp only [List.map_cons, List.map_nil, List.sum_cons, List.sum_nil, pow_succ] at ht ⊢
    omega

theorem add_block (h : Tiled ppm used (⟨i, k⟩ :: pending) total) (hn : ppm.pagesNr < 2 ^ 32) :
    Tiled (ppm.addBlock k i) used pending total := by
  obtain ⟨ha, hk⟩ : (⟨i, k⟩ : Block).Aligned ∧ k < maxOrder := h.pending_aligned ⟨i, k⟩ (by simp)
  obtain ⟨hnot, hused⟩ := h.used_ne_of_pending (p := i) (by simp) (Block.covers_index ⟨i, k⟩)
  have hord := h.set_order k hnot hused
  have hk16 : k % 16 = k := Nat.mod_eq_of_lt (hk.trans (by decide))
  refine ⟨?_, h.used_aligned, fun b hb => h.pending_aligned b (by simp [hb]), hord.used_order,
    hord.state_iff, hord.free_count, ?_, ?_, ?_⟩
  · intro l j hj
    rw [heads_addBlock] at hj
    by_cases hl : l = k
    · subst hl
      rw [Function.update_self] at hj
      rcases List.mem_cons.mp hj with rfl | hj
      · simpa [hk16] using ⟨hk, ha⟩
      · exact hord.head_order l j hj
    · rw [Function.update_of_ne hl] at hj
      exact hord.head_order l j hj
  · intro p
    have ht := h.tiles p
    rw [usage_cons] at ht
    rw [heads_addBlock, coverage_push _ hk, pagesNr_addBlock, ← ht]
    omega
  · intro l
    have hlen := h.length_le l
    have hl := h.length_eq l
    rw [heads_addBlock]
    by_cases hlk : l = k
    · subst hlk
      have hpos := Nat.two_pow_pos l
      have hlt : (ppm.heads l).length + 1 < 2 ^ 32 := by
        simp only [List.map_cons, List.sum_cons] at hlen
        omega
      simp only [addBlock, countPages, listAdd, setList, setPage, Function.update_self, hl,
        List.length_cons]
      exact wadd_of_lt hlt
    · simp [addBlock, countPages, listAdd, setList, setPage, Function.update_of_ne hlk, hl]
  · have ht := h.total_eq
    rw [heads_addBlock, listed_push _ hk]
    simp only [List.map_cons, List.sum_cons] at ht
    omega

theorem index_ne (h : Tiled ppm (⟨i, k⟩ :: used) pending total) :
    ∀ b ∈ used, b.index ≠ i := by
  rintro b hb rfl
  have ht := h.tiles b.index
  have hi : indicator ⟨b.index, k⟩ b.index = 1 := if_pos (Block.covers_index ⟨b.index, k⟩)
  have hpos := usage_pos_iff.mpr ⟨b, hb, Block.covers_index b⟩
  rw [usage_cons, hi] at ht
  split_ifs at ht <;> omega

theorem release (h : Tiled ppm (⟨i, k⟩ :: used) [] total) (hk : k < maxOrder)
    (hc : (ppm.pagesTbl i).count = 0) :
    Tiled (ppm.setPage i (·.pageStateSet .pgFree)) used [⟨i, k⟩] (total + 2 ^ k) := by
  have hne := h.index_ne
  refine ⟨?_, fun b hb => h.used_aligned b (by simp [hb]), ?_, ?_, ?_, ?_, ?_, h.length_eq, ?_⟩
  · intro l j hj
    obtain ⟨hl, hja, hjo⟩ := h.head_order l j hj
    refine ⟨hl, hja, ?_⟩
    by_cases hji : j = i
    · subst hji
      simpa using hjo
    · simpa [Function.update_of_ne hji] using hjo
  · simpa using ⟨h.used_aligned ⟨i, k⟩ (by simp), hk⟩
  · intro b hb
    rw [pagesTbl_setPage, Function.update_of_ne (hne b hb)]
    exact h.used_order b (by simp [hb])
  · intro p hp
    have hs := h.state_iff p hp
    by_cases hpi : p = i
    · subst hpi
      simpa using hne
    · rw [pagesTbl_setPage, Function.update_of_ne hpi, hs]
      simp [Ne.symm hpi]
  · intro p hp
    have hf := h.free_count p hp
    by_cases hpi : p = i
    · subst hpi
      simpa using hc
    · simpa [Function.update_of_ne hpi] using hf
  · intro p
    have ht := h.tiles p
    simp only [usage_cons, usage_nil] at ht ⊢
    rw [heads_setPage, pagesNr_setPage, ← ht]
    omega
  · have ht := h.total_eq
    simp only [List.map_nil, List.sum_nil, Nat.add_zero] at ht
    simp [ht]

def takenPage (page : Page) (order : ℕ) : Page :=
  ((page.pageStateSet .pgInvalid).pageRefcountUp).setOrder order

theorem acquire (h : Tiled ppm used [⟨i, k⟩] (total + 2 ^ k)) :
    Tiled (ppm.setPage i (takenPage · k)) (⟨i, k⟩ :: used) [] total := by
  obtain ⟨ha, hk⟩ : (⟨i, k⟩ : Block).Aligned ∧ k < maxOrder := h.pending_aligned ⟨i, k⟩ (by simp)
  obtain ⟨hnot, hne⟩ := h.used_ne_of_pending (p := i) (by simp) (Block.covers_index ⟨i, k⟩)
  have hk16 : k % 16 = k := Nat.mod_eq_of_lt (hk.trans (by decide))
  refine ⟨?_, ?_, by simp, ?_, ?_, ?_, ?_, h.length_eq, ?_⟩
  · intro l j hj
    have hji : j ≠ i := fun he => hnot l (he ▸ hj)
    rw [pagesTbl_setPage, Function.update_of_ne hji]
    exact h.head_order l j hj
  · simp only [List.mem_cons, forall_eq_or_imp]
    exact ⟨ha, h.used_aligned⟩
  · simp only [List.mem_cons, forall_eq_or_imp]
    refine ⟨by simpa [takenPage] using hk16, ?_⟩
    intro b hb
    rw [pagesTbl_setPage, Function.update_of_ne (hne b hb)]
    exact h.used_order b hb
  · intro p hp
    have hs := h.state_iff p hp
    by_cases hpi : p = i
    · subst hpi
      simp [takenPage]
    · rw [pagesTbl_setPage, Function.update_of_ne hpi, hs]
      simp [Ne.symm hpi]
  · intro p hp
    have hf := h.free_count p hp
    by_cases hpi : p = i
    · subst hpi
      simp [takenPage]
    · simpa [Function.update_of_ne hpi] using hf
  · intro p
    have ht := h.tiles p
    simp only [usage_cons, usage_nil] at ht ⊢
    rw [heads_setPage, pagesNr_setPage, ← ht]
    omega
  · have ht := h.total_eq
    simp only [List.map_cons, List.map_nil, List.sum_cons, List.sum_nil] at ht ⊢
    rw [heads_setPage]
    omega

theorem set_count (h : Tiled ppm used pending total) {j : ℕ} {f : Page → Page}
    (hstate : (f (ppm.pagesTbl j)).state = (ppm.pagesTbl j).state)
    (horder : (f (ppm.pagesTbl j)).order = (ppm.pagesTbl j).order)
    (hj : (ppm.pagesTbl j).state ≠ .pgFree) : Tiled (ppm.setPage j f) used pending total := by
  have hs : ∀ p, ((ppm.setPage j f).pagesTbl p).state = (ppm.pagesTbl p).state := by
    intro p
    by_cases hp : p = j <;> simp [Function.update, hp, hstate]
  have ho : ∀ p, ((ppm.setPage j f).pagesTbl p).order = (ppm.pagesTbl p).order := by
    intro p
    by_cases hp : p = j <;> simp [Function.update, hp, horder]
  refine ⟨?_, h.used_aligned, h.pending_aligned, ?_, ?_, ?_, h.tiles, h.length_eq, h.total_eq⟩
  · simpa only [ho, heads_setPage] using h.head_order
  · simpa only [ho] using h.used_order
  · simpa only [hs, pagesNr_setPage] using h.state_iff
  · intro p hp hfree
    rw [hs] at hfree
    have hpj : p ≠ j := by
      rintro rfl
      exact hj hfree
    rw [pagesTbl_setPage, Function.update_of_ne hpj]
    exact h.free_count p hp hfree

theorem perm (h : Tiled ppm used pending total) {used' : List Block} (hp : used.Perm used') :
    Tiled ppm used' pending total := by
  refine ⟨h.head_order, fun b hb => h.used_aligned b (hp.mem_iff.mpr hb), h.pending_aligned,
    fun b hb => h.used_order b (hp.mem_iff.mpr hb), ?_, h.free_count, ?_, h.length_eq,
    h.total_eq⟩
  · intro p hlt
    rw [h.state_iff p hlt]
    simp only [hp.mem_iff]
  · intro p
    have hu : usage used' p = usage used p := (hp.countP_eq _).symm
    rw [hu]
    exact h.tiles p

end Tiled
end Almos.Ppm
