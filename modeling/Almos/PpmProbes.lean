import Almos.PpmPartition

/-!
# Which descriptors a release reads

The release of a block looks at the descriptor of its buddy before it knows whether the buddy
exists. Where the number of pages is no multiple of the largest block, only a reserved page at
the end of the table keeps these reads inside.
-/
namespace Almos.Ppm
open Word BlockTiling

/-- The block indices of the loop of `ppm_free_pages_nolock`, in the order of the reads. -/
def probes : ℕ → Ppm → ℕ → ℕ → List ℕ
  | 0, _, _, _ => []
  | fuel + 1, ppm, pageIndex, currentOrder =>
      let blockIndex := pageIndex ^^^ 2 ^ currentOrder
      let block := ppm.pagesTbl blockIndex
      if block.state ≠ .pgFree ∨ block.order ≠ currentOrder then [blockIndex]
      else
        let ppm := (ppm.listUnlink blockIndex).countPages currentOrder (wsub · 1)
        let ppm := ppm.setPage blockIndex (·.setOrder 0)
        blockIndex :: probes fuel ppm (pageIndex &&& blockIndex) (currentOrder + 1)

def nolockProbes (ppm : Ppm) (order index : ℕ) : List ℕ :=
  let ppm := ppm.setPage index (·.pageStateSet .pgFree)
  let ppm := { ppm with freePagesNr := wadd ppm.freePagesNr (2 ^ order) }
  probes (lastOrder - order) ppm index order

def freeProbes (ppm : Ppm) (index : ℕ) : List ℕ :=
  let old := (ppm.pagesTbl index).count
  let ppm := ppm.setPage index (·.pageRefcountDown)
  if old > 1 then [] else nolockProbes ppm (ppm.pagesTbl index).order index

/-- The reads of the last loop of `ppm_init_finalize`, over the first `n` pages. -/
def initProbes (n : ℕ) (ppm : Ppm) : List ℕ :=
  (List.range n).flatMap fun i =>
    let ppm := freeAll i ppm
    if (ppm.pagesTbl i).state ≠ .pgReserved then nolockProbes ppm (ppm.pagesTbl i).order i else []

def stepProbes (s : State) : Event → List ℕ
  | .alloc _ => []
  | .free block => freeProbes s.ppm block.index

/-- Empty lists and initialised descriptors; `beyond` is what the memory after the table holds. -/
def ppmBlankBefore (pagesNr cid : ℕ) (beyond : ℕ → Page) : Ppm :=
  ⟨fun p => if p < pagesNr then Page.pageInit cid else beyond p, fun _ => ⟨[], 0⟩, pagesNr, 0⟩

lemma blank_ppmBlankBefore (size cid : ℕ) (beyond : ℕ → Page) :
    Blank size cid (ppmBlankBefore size cid beyond) :=
  ⟨rfl, fun _ hp => if_pos hp, fun _ => rfl, rfl⟩

variable {ppm : Ppm} {used : List Block} {total : ℕ}

lemma probes_lt (fuel : ℕ) :
    ∀ (ppm : Ppm) (i k : ℕ), Tiled ppm used [⟨i, k⟩] total →
      TailHeld ppm.pagesNr (fun p => 0 < usage used p) → ppm.pagesNr < 2 ^ 32 →
      k + fuel = lastOrder → ∀ b ∈ probes fuel ppm i k, b < ppm.pagesNr := by
  induction fuel with
  | zero =>
    intro ppm i k _ _ _ _ b hb
    cases hb
  | succ fuel ih =>
    intro ppm i k h hn hn32 hk b hb
    have hklt : k < lastOrder := by omega
    have hlt := h.buddy_lt hn hklt
    have hxor : i ^^^ 2 ^ k = buddy i k := rfl
    simp only [probes, hxor] at hb
    split_ifs at hb with hstop
    · rw [List.mem_singleton] at hb
      rw [hb]
      exact hlt
    · push Not at hstop
      have hmem := h.buddy_mem_heads hn hklt hstop.1 hstop.2
      obtain hb | hb := List.mem_cons.mp hb
      · rw [hb]
        exact hlt
      · exact ih _ _ _ (h.merge hn32 hklt hmem) hn hn32 (by omega) b hb

lemma nolockProbes_lt {i k : ℕ} (h : Tiled ppm (⟨i, k⟩ :: used) [] ppm.freePagesNr)
    (hn : TailHeld ppm.pagesNr fun p => 0 < usage used p) (hn32 : ppm.pagesNr < 2 ^ 32)
    (hk : k < maxOrder) (hc : (ppm.pagesTbl i).count = 0) :
    ∀ b ∈ nolockProbes ppm k i, b < ppm.pagesNr := by
  have hfuel : k + (lastOrder - k) = lastOrder := by
    have : maxOrder = lastOrder + 1 := rfl
    omega
  exact probes_lt _ _ i k (h.released hk hn32 hc) hn hn32 hfuel

lemma Freeing.tiled_next {size n : ℕ} {reserved : List ℕ} (h : Freeing size reserved n ppm)
    (hn : n < size) (hr : n ∉ reserved) :
    Tiled ppm (⟨n, 0⟩ :: unfreed size (n + 1) reserved) [] ppm.freePagesNr ∧
      (ppm.pagesTbl n).state ≠ .pgReserved ∧ (ppm.pagesTbl n).order = 0 := by
  have ht := h.tiled.perm (unfreed_perm hr hn)
  exact ⟨ht, fun hs => hr ((h.state_reserved n hn).mp hs), ht.used_order ⟨n, 0⟩ List.mem_cons_self⟩

lemma initProbes_lt {size : ℕ} {reserved : List ℕ} (h : Freeing size reserved 0 ppm)
    (h32 : size < 2 ^ 32) (htail : TailHeld size (· ∈ reserved)) :
    ∀ b ∈ initProbes size ppm, b < size := by
  intro b hb
  obtain ⟨i, hi, hb⟩ := List.mem_flatMap.mp hb
  rw [List.mem_range] at hi
  have hfreeing := freeAll_spec h32 h i hi.le (htail.mono fun _ _ => Or.inl)
  by_cases hr : i ∈ reserved
  · have hs := (hfreeing.state_reserved i hi).mpr hr
    simp [hs] at hb
  · obtain ⟨ht, hs, ho⟩ := hfreeing.tiled_next hi hr
    have hsize := hfreeing.pagesNr
    simp only [if_pos hs, ho] at hb
    have hheld : TailHeld size fun p => 0 < usage (unfreed size (i + 1) reserved) p :=
      tail_unfreed (htail.mono fun _ _ => Or.inl)
    exact hsize ▸ nolockProbes_lt ht (hsize ▸ hheld) (hsize ▸ h32) (by decide)
      (hfreeing.count_zero i hi hr) b hb

lemma Steady.stepProbes_lt {start : Ppm} {s t : State} {e : Event} (h : Steady start s)
    (hs : step s e = some t) : ∀ b ∈ stepProbes s e, b < start.pagesNr := by
  cases e with
  | alloc order =>
    intro b hb
    cases hb
  | free block =>
    simp only [step] at hs
    split_ifs at hs with hblock
    obtain ⟨hmem, hcount⟩ := hblock
    have hdown := h.tiled_down hmem
    have horder := hdown.used_order block List.mem_cons_self
    have hzero : ((s.ppm.setPage block.index (·.pageRefcountDown)).pagesTbl block.index).count = 0 := by
      simp only [pagesTbl_setPage, Function.update_self, Page.pageRefcountDown, hcount]
      rfl
    intro b hb
    simp only [stepProbes, freeProbes, hcount, Nat.lt_irrefl, gt_iff_lt, if_false, horder] at hb
    rw [← h.pagesNr]
    exact nolockProbes_lt hdown (h.tail_used _) h.lt (h.outstanding block hmem).1 hzero b hb

/-- A free block of order `k` lies wherever no page is in use or pending, unless a larger one
does. -/
lemma mem_heads_of_unused {i k b : ℕ} (h : Tiled ppm used [⟨i, k⟩] total) (hb : NoBuddies ppm.heads)
    (hk : k < lastOrder) (hbuddy : buddy i k = b) (hlt : b + 2 ^ k ≤ ppm.pagesNr)
    (hunused : ∀ p, (⟨b, k⟩ : Block).Covers p → usage used p = 0) : b ∈ ppm.heads k := by
  have ha := (h.pending_aligned ⟨i, k⟩ (by simp)).1
  have hba : (⟨b, k⟩ : Block).Aligned := hbuddy ▸ aligned_buddy ha
  have hout : coverage maxOrder ppm.heads i = 0 := (h.not_covered (Block.covers_index ⟨i, k⟩)).1
  have hcovered : ∀ p, (⟨b, k⟩ : Block).Covers p → 0 < coverage maxOrder ppm.heads p := by
    intro p hp
    have ht := h.tiles p
    have hmiss : indicator ⟨i, k⟩ p = 0 :=
      if_neg fun hc => not_covers_both_buddies ha p ⟨hc, hbuddy ▸ hp⟩
    have hin : p < ppm.pagesNr := lt_of_lt_of_le hp.2 hlt
    rw [usage_cons, usage_nil, hmiss, hunused p hp, if_pos hin] at ht
    omega
  obtain ⟨c, hc, hkc, hcb⟩ := (h.canonical hb).exists_covers k b hk.le hba hcovered
  obtain ⟨hcorder, hchead⟩ := mem_freeBlocks.mp hc
  have hca : c.Aligned := (h.head_order _ _ hchead).2.1
  obtain hlarger | hsame := Nat.lt_or_eq_of_le hkc
  · -- it would reach into the pending block
    have hci : c.Covers i := (aligned_join ha).covers_of_covers hca hlarger
      ((covers_join_iff ha _).mpr (.inr (hbuddy ▸ Block.covers_index ⟨b, k⟩))) hcb
      ((covers_join_iff ha _).mpr (.inl (Block.covers_index ⟨i, k⟩)))
    have hpos := coverage_pos_iff.mpr ⟨_, hcorder, _, hchead, hci⟩
    omega
  · obtain rfl : c = ⟨b, k⟩ := (hba.eq_of_covers hca hsame (Block.covers_index ⟨b, k⟩) hcb).symm
    exact hchead

lemma end_mem_probes {k : ℕ} (hk : k < lastOrder) {n : ℕ} (hn32 : n < 2 ^ 32) (hdvd : 2 ^ k ∣ n)
    (hodd : ¬2 ^ (k + 1) ∣ n) (hunused : ∀ p, n - 2 ^ k ≤ p → p < n → usage used p = 0) :
    ∀ d j fuel (ppm : Ppm), j + d = k → j + fuel = lastOrder →
      Tiled ppm used [⟨n - 2 ^ j, j⟩] total → NoBuddies ppm.heads → ppm.pagesNr = n →
      n ∈ probes fuel ppm (n - 2 ^ j) j := by
  have hle : 2 ^ k ≤ n := Nat.le_of_dvd (Nat.pos_of_ne_zero fun h0 => hodd (h0 ▸ dvd_zero _)) hdvd
  intro d
  induction d with
  | zero =>
    intro j fuel ppm hj hfuel h _ _
    obtain rfl : j = k := by omega
    obtain ⟨fuel, rfl⟩ := Nat.exists_eq_add_of_le' (show 1 ≤ fuel by omega)
    have ha := (h.pending_aligned ⟨n - 2 ^ j, j⟩ (by simp)).1
    have hb : (n - 2 ^ j) ^^^ 2 ^ j = n := by
      obtain ⟨-, hb⟩ | ⟨hright, hb⟩ := buddy_cases ha
      · rw [show (n - 2 ^ j) ^^^ 2 ^ j = buddy (n - 2 ^ j) j from rfl]
        omega
      · refine absurd ?_ hodd
        have hjoin : 2 ^ (j + 1) ∣ buddy (n - 2 ^ j) j := hright ▸ aligned_join ha
        have hend : n = buddy (n - 2 ^ j) j + 2 ^ (j + 1) := by
          rw [pow_succ]
          omega
        rw [hend]
        exact Dvd.dvd.add hjoin (dvd_refl _)
    simp only [probes, hb]
    split_ifs <;> exact List.mem_cons_self
  | succ d ih =>
    intro j fuel ppm hj hfuel h hnb hsize
    obtain ⟨fuel, rfl⟩ := Nat.exists_eq_add_of_le' (show 1 ≤ fuel by omega)
    have hjk : 2 ^ (j + 1) ∣ n := (pow_dvd_pow 2 (by omega)).trans hdvd
    have hpow : 2 ^ (j + 1) ≤ 2 ^ k := Nat.pow_le_pow_right (by decide) (by omega)
    have hsucc : 2 ^ (j + 1) = 2 ^ j + 2 ^ j := by
      rw [pow_succ]
      ring
    have hpos : 0 < 2 ^ j := by positivity
    have hleft : (⟨n - 2 ^ (j + 1), j + 1⟩ : Block).Aligned := Nat.dvd_sub hjk (dvd_refl _)
    have hright : n - 2 ^ j = n - 2 ^ (j + 1) + 2 ^ j := by omega
    have hb : buddy (n - 2 ^ j) j = n - 2 ^ (j + 1) := by
      rw [hright, ← buddy_left_half hleft, buddy_buddy]
    have hmem := mem_heads_of_unused h hnb (by omega) hb (by omega) fun p hp =>
      hunused p (by have hlo := hp.1; change n - 2 ^ (j + 1) ≤ p at hlo; omega)
        (by have hhi := hp.2; change p < n - 2 ^ (j + 1) + 2 ^ j at hhi; omega)
    have hand : (n - 2 ^ j) &&& buddy (n - 2 ^ j) j = n - 2 ^ (j + 1) := by
      obtain ⟨-, hbad⟩ | ⟨hand, -⟩ := buddy_cases (h.pending_aligned ⟨n - 2 ^ j, j⟩ (by simp)).1
      · omega
      · rw [hand, hb]
    have hnext := h.merge (hsize ▸ hn32) (by omega) (hb ▸ hmem)
    rw [hand, hb] at hnext
    have hmerged : NoBuddies (((ppm.listUnlink (n - 2 ^ (j + 1))).countPages j (wsub · 1)).setPage
        (n - 2 ^ (j + 1)) (·.setOrder 0)).heads := by
      refine hnb.anti fun l i hi => ?_
      rw [heads_setPage, heads_countPages, heads_listUnlink] at hi
      exact List.mem_of_mem_erase hi
    have hrest := ih (j + 1) fuel _ (by omega) (by omega) hnext hmerged hsize
    have hstate := h.head_free hmem
    have horder := (h.head_order j _ hmem).2.2
    have hxor : (n - 2 ^ j) ^^^ 2 ^ j = n - 2 ^ (j + 1) := hb
    have hand' : (n - 2 ^ j) &&& (n - 2 ^ (j + 1)) = n - 2 ^ (j + 1) := hb ▸ hand
    simp only [probes, hxor, hstate, horder, ne_eq, not_true, or_false, if_false, hand']
    exact List.mem_cons_of_mem _ hrest

lemma initProbes_end {size : ℕ} {reserved : List ℕ} (h : Freeing size reserved 0 ppm)
    (h32 : size < 2 ^ 32) (htail : ¬TailHeld size (· ∈ reserved)) : size ∈ initProbes size ppm := by
  rw [TailHeld] at htail
  push Not at htail
  obtain ⟨k, hk, hdvd, hodd, hfree⟩ := htail
  have hpos : 0 < size := Nat.pos_of_ne_zero fun h0 => hodd (h0 ▸ dvd_zero _)
  have hpow : ∀ j, 0 < 2 ^ j := fun j => by positivity
  -- while the last page waits nothing is joined past it
  have hlast : TailHeld size fun p => p ∈ reserved ∨ size - 1 ≤ p :=
    fun j _ _ _ => ⟨size - 1, by have := hpow j; omega, by omega, .inr le_rfl⟩
  have hfreeing := freeAll_spec h32 h (size - 1) (by omega) hlast
  have hr : size - 1 ∉ reserved := hfree _ (by have := hpow k; omega) (by omega)
  obtain ⟨ht, hs, ho⟩ := hfreeing.tiled_next (by omega) hr
  have hsize := hfreeing.pagesNr
  have hunused : ∀ p, size - 2 ^ k ≤ p → p < size →
      usage (unfreed size (size - 1 + 1) reserved) p = 0 := by
    intro p hlo hhi
    rw [usage_eq_zero_iff]
    intro b hb hcov
    obtain ⟨q, hq, hheld, rfl⟩ := mem_unfreed.mp hb
    rw [Block.covers_zero_iff] at hcov
    subst hcov
    obtain hheld | hheld := hheld
    · exact hfree q hlo hhi hheld
    · omega
  have hpages : (freeAll (size - 1) ppm).pagesNr < 2 ^ 32 := by rwa [hsize]
  have hpending := ht.released (by decide) hpages (hfreeing.count_zero _ (by omega) hr)
  have hend := end_mem_probes hk h32 hdvd hodd hunused k 0 lastOrder _ (by omega) (by omega) hpending
    hfreeing.noBuddies hsize
  refine List.mem_flatMap.mpr ⟨size - 1, List.mem_range.mpr (by omega), ?_⟩
  simp only [if_pos hs, ho]
  exact hend

/-- Initialisation and every later release read descriptors of the table only, exactly if the
number of pages is a multiple of the largest block or one of the last `2 ^ k` pages is reserved,
`2 ^ k` being the largest power of two that divides it. -/
theorem buddy_probes_inside (begin limit cid : ℕ) (reserved : List ℕ) (beyond : ℕ → Page) :
    let size := wsub limit begin >>> pageShift
    let marked := markReserved (ppmBlankBefore size cid beyond) reserved
    ((∀ b ∈ initProbes size marked, b < size) ∧
        ∀ s, (machine (freeAll size marked)).Reachable s → ∀ e t, step s e = some t →
          ∀ b ∈ stepProbes s e, b < size) ↔
      TailHeld size (· ∈ reserved) := by
  intro size marked
  have h32 : size < 2 ^ 32 := (Nat.shiftRight_le _ _).trans_lt (wsub_lt limit begin)
  have hstart : Freeing size reserved 0 marked := (blank_ppmBlankBefore size cid beyond).freeing reserved
  constructor
  · rintro ⟨hinit, -⟩
    by_contra htail
    exact absurd (hinit size (initProbes_end hstart h32 htail)) (Nat.lt_irrefl _)
  · intro htail
    have hdone := freeAll_spec h32 hstart size le_rfl (htail.mono fun _ _ => Or.inl)
    have hsteady := steady_init hdone h32 htail
    refine ⟨initProbes_lt hstart h32 htail, fun s hs e t hnext => ?_⟩
    have hlt := (steady_reachable hsteady hs).stepProbes_lt hnext
    rwa [hdone.pagesNr] at hlt

/-- Five pages of which the first is reserved: the release of the last one reads the sixth. -/
theorem buddy_probe_outside : ¬∀ (begin limit cid : ℕ) (reserved : List ℕ) (beyond : ℕ → Page),
    let size := wsub limit begin >>> pageShift
    let marked := markReserved (ppmBlankBefore size cid beyond) reserved
    (∀ b ∈ initProbes size marked, b < size) ∧
      ∀ s, (machine (freeAll size marked)).Reachable s → ∀ e t, step s e = some t →
        ∀ b ∈ stepProbes s e, b < size := by
  intro h
  have hprobes := (h 0 0x5000 0 [0] fun _ => Page.pageInit 0).1
  have hread : 5 ∈ initProbes 5 (markReserved (ppmBlankBefore 5 0 fun _ => Page.pageInit 0) [0]) := by
    decide +kernel
  exact absurd (hprobes 5 hread) (by decide)

end Almos.Ppm
