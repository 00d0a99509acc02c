import Almos.PpmTiling

/-!
# The invariant of the physical pages manager

What initialisation, allocation and release do to the tiling, and the partition of the
pages in every state that clients can reach.
-/
namespace Almos.Ppm
open Word BlockTiling

def NoBuddies (heads : ℕ → List ℕ) : Prop :=
  ∀ k < lastOrder, ∀ i ∈ heads k, buddy i k ∉ heads k

theorem NoBuddies.anti {heads heads' : ℕ → List ℕ} (h : NoBuddies heads)
    (hsub : ∀ k, ∀ i ∈ heads' k, i ∈ heads k) : NoBuddies heads' :=
  fun k hk i hi hb => h k hk i (hsub k i hi) (hsub k _ hb)

theorem NoBuddies.push {heads : ℕ → List ℕ} (h : NoBuddies heads) {i k : ℕ}
    (hi : k < lastOrder → buddy i k ∉ heads k) (hne : buddy i k ≠ i) :
    NoBuddies (Function.update heads k (i :: heads k)) := by
  intro l hl j hj hb
  by_cases hlk : l = k
  · subst hlk
    rw [Function.update_self, List.mem_cons] at hj hb
    rcases hj with rfl | hj
    · exact hi hl (hb.resolve_left hne)
    · rcases hb with hb | hb
      · rw [← hb, buddy_buddy] at hi
        exact hi hl hj
      · exact h l hl j hj hb
  · rw [Function.update_of_ne hlk] at hj hb
    exact h l hl j hj hb

theorem buddy_ne {i k : ℕ} (h : (⟨i, k⟩ : Block).Aligned) : buddy i k ≠ i := by
  intro he
  apply not_covers_both_buddies h i
  rw [he]
  exact ⟨Block.covers_index ⟨i, k⟩, Block.covers_index ⟨i, k⟩⟩

structure Framed (ppm ppm' : Ppm) : Prop where
  pagesNr : ppm'.pagesNr = ppm.pagesNr
  freePagesNr : ppm'.freePagesNr = ppm.freePagesNr
  state : ∀ p, (ppm'.pagesTbl p).state = (ppm.pagesTbl p).state
  count : ∀ p, (ppm'.pagesTbl p).count = (ppm.pagesTbl p).count

theorem Framed.refl (ppm : Ppm) : Framed ppm ppm := ⟨rfl, rfl, fun _ => rfl, fun _ => rfl⟩

theorem Framed.trans {a b c : Ppm} (h : Framed a b) (g : Framed b c) : Framed a c :=
  ⟨g.pagesNr.trans h.pagesNr, g.freePagesNr.trans h.freePagesNr,
    fun p => (g.state p).trans (h.state p), fun p => (g.count p).trans (h.count p)⟩

theorem framed_setOrder (ppm : Ppm) (i o : ℕ) : Framed ppm (ppm.setPage i (·.setOrder o)) := by
  refine ⟨rfl, rfl, ?_, ?_⟩ <;>
  · intro p
    by_cases hp : p = i <;> simp [Function.update, hp]

theorem framed_addBlock (ppm : Ppm) (k i : ℕ) : Framed ppm (ppm.addBlock k i) := by
  have h := framed_setOrder ppm i k
  exact ⟨rfl, rfl, h.state, h.count⟩

/-- One round of the merge loop: the free buddy and the pending block become one pending block. -/
theorem Tiled.merge {ppm : Ppm} {used : List Block} {total i k : ℕ}
    (h : Tiled ppm used [⟨i, k⟩] total) (hn32 : ppm.pagesNr < 2 ^ 32) (hk : k < lastOrder)
    (hb : buddy i k ∈ ppm.heads k) :
    Tiled (((ppm.listUnlink (buddy i k)).countPages k (wsub · 1)).setPage (buddy i k) (·.setOrder 0))
      used [⟨i &&& buddy i k, k + 1⟩] total := by
  have hun := h.unlink hn32 hb
  obtain ⟨hnot, hne⟩ := hun.used_ne_of_pending (p := buddy i k) (by simp)
    (Block.covers_index ⟨buddy i k, k⟩)
  exact (hun.set_order 0 hnot hne).join hk

/-- The merge loop: the pending block grows until its buddy is not a free block. -/
theorem coalesce_spec {used : List Block} {total : ℕ} (fuel : ℕ) :
    ∀ (ppm : Ppm) (i k : ℕ), Tiled ppm used [⟨i, k⟩] total →
      TailHeld ppm.pagesNr (fun p => 0 < usage used p) → ppm.pagesNr < 2 ^ 32 →
      k + fuel = lastOrder →
      let r := coalesce fuel ppm i k
      Tiled r.1 used [⟨r.2.1, r.2.2⟩] total ∧ Framed ppm r.1 ∧
        (∀ l, ∀ j ∈ r.1.heads l, j ∈ ppm.heads l) ∧
        (r.2.2 < lastOrder → buddy r.2.1 r.2.2 ∉ r.1.heads r.2.2) := by
  induction fuel with
  | zero =>
    intro ppm i k h _ _ hk
    refine ⟨h, Framed.refl ppm, fun _ _ hj => hj, fun hlt => ?_⟩
    simp only [coalesce] at hlt
    omega
  | succ fuel ih =>
    intro ppm i k h hn hn32 hk
    have hklt : k < lastOrder := by omega
    have hxor : i ^^^ 2 ^ k = buddy i k := rfl
    simp only [coalesce, hxor]
    split_ifs with hstop
    · refine ⟨h, Framed.refl ppm, fun _ _ hj => hj, fun _ hb => ?_⟩
      -- a listed buddy would have passed both tests
      have hs := h.head_free hb
      have ho := (h.head_order k _ hb).2.2
      simp [hs, ho] at hstop
    · push Not at hstop
      obtain ⟨hs, ho⟩ := hstop
      have hb := h.buddy_mem_heads hn hklt hs ho
      obtain ⟨ht, hf, hsub, hlast⟩ := ih _ _ (k + 1) (h.merge hn32 hklt hb) hn hn32 (by omega)
      have hun' : Framed ppm ((ppm.listUnlink (buddy i k)).countPages k (wsub · 1)) :=
        ⟨rfl, rfl, fun _ => rfl, fun _ => rfl⟩
      refine ⟨ht, (hun'.trans (framed_setOrder _ _ 0)).trans hf, ?_, hlast⟩
      · intro l j hj
        have hj' := hsub l j hj
        rw [heads_setPage, heads_countPages, heads_listUnlink] at hj'
        exact List.mem_of_mem_erase hj'

/-- The block is pending once its head is marked free and its pages are counted. -/
theorem Tiled.released {ppm : Ppm} {used : List Block} {i k : ℕ}
    (h : Tiled ppm (⟨i, k⟩ :: used) [] ppm.freePagesNr) (hk : k < maxOrder)
    (hn32 : ppm.pagesNr < 2 ^ 32) (hc : (ppm.pagesTbl i).count = 0) :
    Tiled { ppm.setPage i (·.pageStateSet .pgFree) with
      freePagesNr := wadd ppm.freePagesNr (2 ^ k) } used [⟨i, k⟩] (wadd ppm.freePagesNr (2 ^ k)) := by
  have hrel := h.release hk hc
  have hle : ppm.freePagesNr + 2 ^ k ≤ ppm.pagesNr := hrel.total_le
  have hnr : wadd ppm.freePagesNr (2 ^ k) = ppm.freePagesNr + 2 ^ k := wadd_of_lt (by omega)
  rw [hnr]
  exact ⟨hrel.head_order, hrel.used_aligned, hrel.pending_aligned, hrel.used_order, hrel.state_iff,
    hrel.free_count, hrel.tiles, hrel.length_eq, hrel.total_eq⟩

/-- Freeing a block in use: it leaves the blocks in use, its pages are free again. -/
theorem ppmFreePagesNolock_spec {ppm : Ppm} {used : List Block} {i k : ℕ}
    (h : Tiled ppm (⟨i, k⟩ :: used) [] ppm.freePagesNr) (hb : NoBuddies ppm.heads)
    (hn : TailHeld ppm.pagesNr fun p => 0 < usage used p) (hn32 : ppm.pagesNr < 2 ^ 32) (hk : k < maxOrder)
    (hc : (ppm.pagesTbl i).count = 0) :
    let ppm' := ppmFreePagesNolock ppm k i
    Tiled ppm' used [] ppm'.freePagesNr ∧ NoBuddies ppm'.heads ∧ ppm'.pagesNr = ppm.pagesNr ∧
      (∀ p, p ≠ i → (ppm'.pagesTbl p).state = (ppm.pagesTbl p).state) ∧
      (∀ p, (ppm'.pagesTbl p).count = (ppm.pagesTbl p).count) := by
  have hstart := h.released hk hn32 hc
  let start : Ppm := { ppm.setPage i (·.pageStateSet .pgFree) with
    freePagesNr := wadd ppm.freePagesNr (2 ^ k) }
  have hfuel : k + (lastOrder - k) = lastOrder := by
    have : maxOrder = lastOrder + 1 := rfl
    omega
  obtain ⟨ht, hf, hsub, hlast⟩ := coalesce_spec (lastOrder - k) start i k hstart hn hn32 hfuel
  have hr : ppmFreePagesNolock ppm k i =
      (coalesce (lastOrder - k) start i k).1.addBlock
        (coalesce (lastOrder - k) start i k).2.2 (coalesce (lastOrder - k) start i k).2.1 := rfl
  simp only [hr]
  generalize coalesce (lastOrder - k) start i k = r at ht hf hsub hlast ⊢
  have hadd := ht.add_block (by rw [hf.pagesNr]; exact hn32)
  have hfa := hf.trans (framed_addBlock r.1 r.2.2 r.2.1)
  refine ⟨?_, ?_, hfa.pagesNr, ?_, ?_⟩
  · rw [hfa.freePagesNr]
    exact hadd
  · rw [heads_addBlock]
    exact (hb.anti hsub).push hlast (buddy_ne (ht.pending_aligned _ (by simp)).1)
  · intro p hp
    rw [hfa.state p]
    simp [start, Function.update_of_ne hp]
  · intro p
    rw [hfa.count p]
    by_cases hp : p = i <;> simp [start, Function.update, hp]

/-- The search finds the first block of the smallest sufficient order, if any. -/
theorem searchOrder_spec {ppm : Ppm} (fuel : ℕ) : ∀ k c b,
    searchOrder ppm fuel k = some (c, b) → k ≤ c ∧ b ∈ ppm.heads c := by
  induction fuel with
  | zero => simp [searchOrder]
  | succ fuel ih =>
    intro k c b h
    simp only [searchOrder] at h
    split at h
    · obtain ⟨hk, hb⟩ := ih _ _ _ h
      exact ⟨by omega, hb⟩
    · rename_i block rest hheads
      obtain ⟨rfl, rfl⟩ := Prod.mk.inj (Option.some.inj h)
      exact ⟨le_rfl, by simp [hheads]⟩

/-- The splitting loop keeps the left half of the pending block and lists the right one. -/
theorem splitBlock_spec {used : List Block} {total order block : ℕ} (n : ℕ) :
    ∀ ppm : Ppm, Tiled ppm used [⟨block, order + n⟩] total → NoBuddies ppm.heads →
      ppm.pagesNr < 2 ^ 32 →
      let ppm' := splitBlock order block n ppm
      Tiled ppm' used [⟨block, order⟩] total ∧ NoBuddies ppm'.heads ∧ Framed ppm ppm' := by
  induction n with
  | zero => exact fun ppm h hb _ => ⟨h, hb, Framed.refl ppm⟩
  | succ n ih =>
    intro ppm h hb hn
    rw [← Nat.add_assoc] at h
    have ha : (⟨block, order + n + 1⟩ : Block).Aligned := (h.pending_aligned _ (by simp)).1
    have hhalf := h.halve
    have hnot := (hhalf.used_ne_of_pending (p := block) (c := ⟨block, order + n⟩) (by simp)
      (Block.covers_index ⟨block, order + n⟩)).1
    have hbud : buddy (block + 2 ^ (order + n)) (order + n) = block := by
      rw [← buddy_left_half ha, buddy_buddy]
    have hb' : NoBuddies (ppm.addBlock (order + n) (block + 2 ^ (order + n))).heads := by
      rw [heads_addBlock]
      apply hb.push
      · intro _
        rw [hbud]
        exact hnot _
      · exact buddy_ne ha.right
    obtain ⟨ht, hbs, hf⟩ := ih _ (hhalf.add_block hn) hb' hn
    exact ⟨ht, hbs, (framed_addBlock ppm _ _).trans hf⟩

/-- A successful allocation moves one block of the asked order from the free blocks to the
blocks in use; its head leaves the free state with one reference more. -/
theorem ppmDoAllocPages_spec {ppm : Ppm} {used : List Block} (order : ℕ)
    (h : Tiled ppm used [] ppm.freePagesNr) (hb : NoBuddies ppm.heads)
    (hn32 : ppm.pagesNr < 2 ^ 32) :
    match ppmDoAllocPages ppm order with
    | (ppm', none) => ppm' = ppm
    | (ppm', some block) =>
        Tiled ppm' (⟨block, order⟩ :: used) [] ppm'.freePagesNr ∧ NoBuddies ppm'.heads ∧
          ppm'.pagesNr = ppm.pagesNr ∧ block < ppm.pagesNr ∧
          (ppm.pagesTbl block).state = .pgFree ∧ (ppm'.pagesTbl block).state = .pgInvalid ∧
          (ppm'.pagesTbl block).count = 1 ∧
          ∀ p, p ≠ block → (ppm'.pagesTbl p).state = (ppm.pagesTbl p).state ∧
            (ppm'.pagesTbl p).count = (ppm.pagesTbl p).count := by
  unfold ppmDoAllocPages
  cases hsearch : searchOrder ppm (maxOrder - order) order with
  | none => rfl
  | some r =>
    obtain ⟨c, b⟩ := r
    obtain ⟨hoc, hbc⟩ := searchOrder_spec _ _ _ _ hsearch
    have hfree := h.head_free hbc
    have hblt := (h.head_lt hbc).1
    have hun := h.unlink hn32 hbc
    have hbun : NoBuddies ((ppm.listUnlink b).countPages c (wsub · 1)).heads := by
      rw [heads_countPages]
      exact hb.anti fun l j hj => List.mem_of_mem_erase hj
    -- the decrement of `free_pages_nr` commutes with the bookkeeping of the lists
    have hlisted := h.total_eq
    have hle : 2 ^ order ≤ ppm.freePagesNr := by
      have hterm : 2 ^ c * (ppm.heads c).length ≤ listed ppm.heads :=
        Finset.single_le_sum (f := fun k => 2 ^ k * (ppm.heads k).length)
          (fun _ _ => Nat.zero_le _) (Finset.mem_range.mpr (h.head_order c b hbc).1)
      have hpow : 2 ^ order ≤ 2 ^ c := Nat.pow_le_pow_right (by decide) hoc
      have hlen := Nat.le_mul_of_pos_right (2 ^ c) (List.length_pos_of_mem hbc)
      simp only [List.map_nil, List.sum_nil, Nat.add_zero] at hlisted
      omega
    have hnr : wsub ppm.freePagesNr (2 ^ order) = ppm.freePagesNr - 2 ^ order :=
      wsub_of_le hle (h.total_le.trans_lt hn32)
    let start : Ppm := { (ppm.listUnlink b).countPages c (wsub · 1) with
      freePagesNr := ppm.freePagesNr - 2 ^ order }
    have hco : order + (c - order) = c := by omega
    have hstart : Tiled start used [⟨b, order + (c - order)⟩] ppm.freePagesNr := by
      rw [hco]
      exact ⟨hun.head_order, hun.used_aligned, hun.pending_aligned, hun.used_order,
        hun.state_iff, hun.free_count, hun.tiles, hun.length_eq, hun.total_eq⟩
    obtain ⟨ht, hbs, hf⟩ := splitBlock_spec (c - order) start hstart hbun hn32
    have hres : (let ppm := ppm.listUnlink b
        let ppm := { ppm with freePagesNr := wsub ppm.freePagesNr (2 ^ order) }
        let ppm := ppm.countPages c (wsub · 1)
        splitBlock order b (c - order) ppm) = splitBlock order b (c - order) start := by
      simp only [start, ← hnr]
      rfl
    simp only at hres ⊢
    rw [hres]
    generalize splitBlock order b (c - order) start = ppm₁ at ht hbs hf ⊢
    have htotal : ppm.freePagesNr = ppm₁.freePagesNr + 2 ^ order := by
      rw [hf.freePagesNr]
      simp only [start]
      omega
    rw [htotal] at ht
    have hacq := ht.acquire
    have hset : ((ppm₁.setPage b (·.pageStateSet .pgInvalid)).setPage b
        (·.pageRefcountUp)).setPage b (·.setOrder order) =
          ppm₁.setPage b (Tiled.takenPage · order) := by
      simp [setPage, Tiled.takenPage]
    rw [hset]
    have hcount : (ppm₁.pagesTbl b).count = 0 := by
      rw [hf.count b]
      exact h.free_count b hblt hfree
    refine ⟨hacq, hbs, hf.pagesNr, hblt, hfree, by simp [Tiled.takenPage], ?_, ?_⟩
    · simp [Tiled.takenPage, Page.pageRefcountUp, hcount, wadd]
    · intro p hp
      rw [pagesTbl_setPage, Function.update_of_ne hp]
      exact ⟨hf.state p, hf.count p⟩

theorem usage_pages (l : List ℕ) (p : ℕ) : usage (l.map fun q => ⟨q, 0⟩) p = l.count p := by
  induction l with
  | nil => rfl
  | cons q l ih =>
    rw [List.map_cons, usage_cons, ih, List.count_cons, indicator]
    congr 1
    simp [Block.covers_zero_iff]

theorem markReserved_pagesTbl (reserved : List ℕ) (ppm : Ppm) (p : ℕ) :
    (markReserved ppm reserved).pagesTbl p =
      if p ∈ reserved then (ppm.pagesTbl p).pageStateSet .pgReserved else ppm.pagesTbl p := by
  induction reserved generalizing ppm with
  | nil => simp [markReserved]
  | cons q l ih =>
    simp only [markReserved, List.foldl_cons] at ih ⊢
    rw [ih]
    by_cases hp : p = q
    · subst hp
      simp [Page.pageStateSet]
    · simp [hp]

theorem markReserved_frame (reserved : List ℕ) (ppm : Ppm) :
    (markReserved ppm reserved).freePages = ppm.freePages ∧
      (markReserved ppm reserved).pagesNr = ppm.pagesNr ∧
      (markReserved ppm reserved).freePagesNr = ppm.freePagesNr := by
  induction reserved generalizing ppm with
  | nil => exact ⟨rfl, rfl, rfl⟩
  | cons q l ih => exact ih _

/-- Blocks in use after the first `n` steps of the freeing loop: the reserved pages and
the pages not yet visited. -/
def unfreed (size n : ℕ) (reserved : List ℕ) : List Block :=
  ((List.range size).filter fun p => p ∈ reserved ∨ n ≤ p).map fun p => ⟨p, 0⟩

theorem mem_unfreed {size n : ℕ} {reserved : List ℕ} {b : Block} :
    b ∈ unfreed size n reserved ↔
      ∃ p < size, (p ∈ reserved ∨ n ≤ p) ∧ (⟨p, 0⟩ : Block) = b := by
  simp [unfreed, and_assoc]

theorem unfreed_succ_of_mem {size n : ℕ} {reserved : List ℕ} (h : n ∈ reserved) :
    unfreed size (n + 1) reserved = unfreed size n reserved := by
  unfold unfreed
  congr 1
  apply List.filter_congr
  intro p _
  rw [decide_eq_decide]
  constructor
  · rintro (hp | hp)
    · exact Or.inl hp
    · exact Or.inr (by omega)
  · rintro (hp | hp)
    · exact Or.inl hp
    · rcases Nat.eq_or_lt_of_le hp with rfl | hp
      · exact Or.inl h
      · exact Or.inr hp

theorem unfreed_perm {size n : ℕ} {reserved : List ℕ} (h : n ∉ reserved) (hn : n < size) :
    (unfreed size n reserved).Perm (⟨n, 0⟩ :: unfreed size (n + 1) reserved) := by
  have hperm : ((List.range size).filter fun p => p ∈ reserved ∨ n ≤ p).Perm
      (n :: (List.range size).filter fun p => p ∈ reserved ∨ n + 1 ≤ p) := by
    apply (List.perm_ext_iff_of_nodup (List.nodup_range.filter _) ?_).mpr
    · intro p
      simp only [List.mem_filter, List.mem_range, decide_eq_true_eq, List.mem_cons]
      constructor
      · rintro ⟨hp, hr | hr⟩
        · exact Or.inr ⟨hp, Or.inl hr⟩
        · rcases Nat.eq_or_lt_of_le hr with rfl | hr
          · exact Or.inl rfl
          · exact Or.inr ⟨hp, Or.inr hr⟩
      · rintro (rfl | ⟨hp, hr | hr⟩)
        · exact ⟨hn, Or.inr le_rfl⟩
        · exact ⟨hp, Or.inl hr⟩
        · exact ⟨hp, Or.inr (by omega)⟩
    · apply List.nodup_cons.mpr
      refine ⟨?_, List.nodup_range.filter _⟩
      simp only [List.mem_filter, decide_eq_true_eq, not_and, not_or]
      exact fun _ => ⟨h, by omega⟩
  exact hperm.map _

lemma tail_unfreed {size n : ℕ} {reserved : List ℕ}
    (h : TailHeld size fun p => p ∈ reserved ∨ n ≤ p) :
    TailHeld size fun p => 0 < usage (unfreed size n reserved) p :=
  h.mono fun p hp hheld =>
    usage_pos_iff.mpr ⟨⟨p, 0⟩, mem_unfreed.mpr ⟨p, hp, hheld, rfl⟩, Block.covers_index ⟨p, 0⟩⟩

/-- The freeing loop after `n` steps. -/
structure Freeing (size : ℕ) (reserved : List ℕ) (n : ℕ) (ppm : Ppm) : Prop where
  pagesNr : ppm.pagesNr = size
  tiled : Tiled ppm (unfreed size n reserved) [] ppm.freePagesNr
  noBuddies : NoBuddies ppm.heads
  state_reserved : ∀ p < size, (ppm.pagesTbl p).state = .pgReserved ↔ p ∈ reserved
  count_zero : ∀ p < size, p ∉ reserved → (ppm.pagesTbl p).count = 0

theorem Freeing.next {size n : ℕ} {reserved : List ℕ} {ppm : Ppm}
    (h : Freeing size reserved n ppm)
    (hd : TailHeld size fun p => p ∈ reserved ∨ n + 1 ≤ p) (h32 : size < 2 ^ 32) (hn : n < size) :
    Freeing size reserved (n + 1)
      (if (ppm.pagesTbl n).state ≠ .pgReserved then
        ppmFreePagesNolock ppm (ppm.pagesTbl n).order n else ppm) := by
  by_cases hr : n ∈ reserved
  · rw [if_neg (by simpa using (h.state_reserved n hn).mpr hr)]
    refine ⟨h.pagesNr, ?_, h.noBuddies, h.state_reserved, h.count_zero⟩
    rw [unfreed_succ_of_mem hr]
    exact h.tiled
  · have hs : (ppm.pagesTbl n).state ≠ .pgReserved := fun hs => hr ((h.state_reserved n hn).mp hs)
    rw [if_pos hs]
    have ht := h.tiled.perm (unfreed_perm hr hn)
    have ho : (ppm.pagesTbl n).order = 0 := ht.used_order ⟨n, 0⟩ (by simp)
    have hN := h.pagesNr
    rw [ho]
    obtain ⟨ht', hb, hpn, hst, hct⟩ := ppmFreePagesNolock_spec ht h.noBuddies
      (by rw [hN]; exact tail_unfreed hd) (by rw [hN]; exact h32) (by decide) (h.count_zero n hn hr)
    refine ⟨hpn.trans hN, ht', hb, ?_, ?_⟩
    · intro p hp
      by_cases hpn' : p = n
      · subst hpn'
        have hfree : ((ppmFreePagesNolock ppm 0 p).pagesTbl p).state = .pgFree := by
          rw [ht'.state_iff p (by rw [hpn, hN]; exact hn)]
          intro b hb
          obtain ⟨q, _, hq, rfl⟩ := mem_unfreed.mp hb
          rintro rfl
          exact hq.elim hr (by simp)
        simp [hfree, hr]
      · rw [hst p hpn']
        exact h.state_reserved p hp
    · intro p hp hpr
      rw [hct p]
      exact h.count_zero p hp hpr

/-- The manager before `ppm_init_finalize` marks the reserved pages. What lies beyond the table is
not initialised. -/
structure Blank (size cid : ℕ) (ppm : Ppm) : Prop where
  pagesNr : ppm.pagesNr = size
  pagesTbl : ∀ p < size, ppm.pagesTbl p = Page.pageInit cid
  freePages : ∀ k, ppm.freePages k = ⟨[], 0⟩
  freePagesNr : ppm.freePagesNr = 0

lemma blank_ppmBlank (size cid : ℕ) : Blank size cid (ppmBlank size cid) :=
  ⟨rfl, fun _ _ => rfl, fun _ => rfl, rfl⟩

lemma Blank.freeing {size cid : ℕ} {ppm : Ppm} (h : Blank size cid ppm) (reserved : List ℕ) :
    Freeing size reserved 0 (markReserved ppm reserved) := by
  obtain ⟨hf, hsize, hfn⟩ := markReserved_frame reserved ppm
  have hpages : (markReserved ppm reserved).pagesNr = size := hsize.trans h.pagesNr
  have htbl : ∀ p < size, (markReserved ppm reserved).pagesTbl p =
      if p ∈ reserved then (Page.pageInit cid).pageStateSet .pgReserved else Page.pageInit cid := by
    intro p hp
    rw [markReserved_pagesTbl, h.pagesTbl p hp]
  have hnil : ∀ k, (markReserved ppm reserved).heads k = [] := by
    intro k
    rw [heads, hf, h.freePages]
  refine ⟨hpages, ⟨?_, ?_, by simp, ?_, ?_, ?_, ?_, ?_, ?_⟩, ?_, ?_, ?_⟩
  · simp [hnil]
  · intro b hb
    obtain ⟨p, _, _, rfl⟩ := mem_unfreed.mp hb
    simp [Block.Aligned]
  · intro b hb
    obtain ⟨p, hp, _, rfl⟩ := mem_unfreed.mp hb
    rw [htbl p hp]
    split_ifs <;> rfl
  · intro p hp
    rw [hpages] at hp
    have hmem : (⟨p, 0⟩ : Block) ∈ unfreed size 0 reserved :=
      mem_unfreed.mpr ⟨p, hp, Or.inr (Nat.zero_le _), rfl⟩
    rw [htbl p hp]
    constructor
    · intro hs
      split_ifs at hs <;> simp [Page.pageInit] at hs
    · exact fun hall => absurd rfl (hall _ hmem)
  · intro p hp hs
    rw [htbl p (hpages ▸ hp)] at hs
    split_ifs at hs <;> simp [Page.pageInit] at hs
  · intro p
    have hcov : coverage maxOrder (markReserved ppm reserved).heads p = 0 := by
      simp [coverage, hnil]
    rw [hcov, unfreed, usage_pages, hpages, usage_nil, List.Nodup.count (List.nodup_range.filter _)]
    by_cases hp : p < size <;> simp [hp]
  · intro k
    rw [hnil, hf, h.freePages]
    rfl
  · rw [hfn, h.freePagesNr]
    simp [listed, hnil]
  · intro k _ i hi
    simp [hnil] at hi
  · intro p hp
    rw [htbl p hp]
    split_ifs with hr <;> simp [hr, Page.pageInit]
  · intro p hp hr
    rw [htbl p hp, if_neg hr]
    rfl

theorem freeAll_spec {size : ℕ} {reserved : List ℕ} {ppm : Ppm} (h32 : size < 2 ^ 32)
    (h : Freeing size reserved 0 ppm) :
    ∀ n ≤ size, (TailHeld size fun p => p ∈ reserved ∨ n ≤ p) →
      Freeing size reserved n (freeAll n ppm) := by
  intro n
  induction n with
  | zero => exact fun _ _ => h
  | succ n ih =>
    intro hn htail
    have hbefore : TailHeld size fun p => p ∈ reserved ∨ n ≤ p :=
      htail.mono fun p _ hp => hp.imp_right fun hle => by omega
    have hstep := (ih (by omega) hbefore).next htail h32 (by omega)
    rw [freeAll, List.range_succ, List.foldl_append]
    exact hstep

theorem ppmInitWith_spec {begin limit : ℕ} (cid : ℕ) (reserved : List ℕ)
    (hd : 2 ^ lastOrder ∣ wsub limit begin >>> pageShift) :
    Freeing (wsub limit begin >>> pageShift) reserved (wsub limit begin >>> pageShift)
      (ppmInitWith begin limit cid reserved) := by
  have h32 : wsub limit begin >>> pageShift < 2 ^ 32 :=
    (Nat.shiftRight_le _ _).trans_lt (wsub_lt limit begin)
  exact freeAll_spec h32 ((blank_ppmBlank _ cid).freeing reserved) _ le_rfl (tailHeld_of_dvd hd _)

end Almos.Ppm
