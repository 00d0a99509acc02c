import Almos.PpmInvariant

/-!
# Partition and canonical coalescing

In every reachable state free blocks, outstanding blocks and reserved pages partition the
pages of the manager, and the free blocks are determined by the pages in use.
-/
namespace Almos.Ppm
open Word BlockTiling

/-- What every call keeps in the runs that start from `start`. -/
structure Kept (start : Ppm) (s : State) : Prop where
  tiled : Tiled s.ppm (s.outstanding ++ reservedBlocks s.ppm) [] s.ppm.freePagesNr
  noBuddies : NoBuddies s.ppm.heads
  lt : s.ppm.pagesNr < 2 ^ 32
  pagesNr : s.ppm.pagesNr = start.pagesNr
  reserved : ∀ p < start.pagesNr,
    (s.ppm.pagesTbl p).state = .pgReserved ↔ (start.pagesTbl p).state = .pgReserved
  outstanding : ∀ b ∈ s.outstanding, b.order < maxOrder ∧ b.index < s.ppm.pagesNr ∧
    (s.ppm.pagesTbl b.index).state = .pgInvalid ∧ (s.ppm.pagesTbl b.index).count = 1

/-- The invariant for a table of whole blocks of the largest order. -/
structure Inv (start : Ppm) (s : State) : Prop extends Kept start s where
  dvd : 2 ^ lastOrder ∣ s.ppm.pagesNr

theorem reservedBlocks_congr {a b : Ppm} (hn : a.pagesNr = b.pagesNr)
    (h : ∀ p < b.pagesNr, (a.pagesTbl p).state = .pgReserved ↔ (b.pagesTbl p).state = .pgReserved) :
    reservedBlocks a = reservedBlocks b := by
  unfold reservedBlocks
  rw [hn]
  congr 1
  apply List.filter_congr
  intro p hp
  rw [decide_eq_decide]
  exact h p (List.mem_range.mp hp)

/-- The invariant for a table of any size whose end is held by reserved pages. -/
structure Steady (start : Ppm) (s : State) : Prop extends Kept start s where
  tail : TailHeld start.pagesNr fun p => (start.pagesTbl p).state = .pgReserved

theorem Steady.inv {start : Ppm} {s : State} (h : Steady start s)
    (hd : 2 ^ lastOrder ∣ start.pagesNr) : Inv start s :=
  ⟨h.toKept, h.pagesNr ▸ hd⟩

theorem Steady.tail_used {start : Ppm} {s : State} (h : Steady start s) (blocks : List Block) :
    TailHeld s.ppm.pagesNr fun p => 0 < usage (blocks ++ reservedBlocks s.ppm) p := by
  rw [h.pagesNr]
  refine h.tail.mono fun p hp hr => usage_pos_iff.mpr ⟨⟨p, 0⟩, ?_, Block.covers_index ⟨p, 0⟩⟩
  have hmem : p ∈ (List.range s.ppm.pagesNr).filter fun p => (s.ppm.pagesTbl p).state = .pgReserved := by
    simp [h.pagesNr, hp, (h.reserved p hp).mpr hr]
  exact List.mem_append_right _ (List.mem_map_of_mem hmem)

theorem steady_init {size : ℕ} {reserved : List ℕ} {ppm : Ppm} (h : Freeing size reserved size ppm)
    (h32 : size < 2 ^ 32) (htail : TailHeld size (· ∈ reserved)) : Steady ppm ⟨ppm, []⟩ := by
  have hsize := h.pagesNr
  refine ⟨⟨?_, h.noBuddies, hsize ▸ h32, rfl, fun _ _ => Iff.rfl, by simp⟩, ?_⟩
  swap
  · rw [hsize]
    exact htail.mono fun p hp hr => (h.state_reserved p hp).mpr hr
  have hu : unfreed size size reserved = reservedBlocks ppm := by
    unfold unfreed reservedBlocks
    rw [hsize]
    congr 1
    apply List.filter_congr
    intro p hp
    have hp' := List.mem_range.mp hp
    rw [decide_eq_decide, h.state_reserved p hp']
    constructor
    · exact fun ho => ho.resolve_right (by omega)
    · exact Or.inl
  rw [List.nil_append, ← hu]
  exact h.tiled

theorem Steady.alloc {start : Ppm} {s t : State} {order : ℕ} (h : Steady start s)
    (hs : step s (.alloc order) = some t) : Steady start t := by
  simp only [step] at hs
  split_ifs at hs with ho
  have hspec := ppmDoAllocPages_spec order h.tiled h.noBuddies h.lt
  rcases hr : ppmDoAllocPages s.ppm order with ⟨ppm, _ | block⟩
  · rw [hr] at hs hspec
    simp only at hs hspec
    cases hs
    rw [hspec]
    exact h
  · rw [hr] at hs hspec
    simp only at hs hspec
    obtain ⟨ht, hb, hpn, hlt, hfree, hinv, hcount, hframe⟩ := hspec
    cases hs
    have hres : ∀ p < s.ppm.pagesNr,
        (ppm.pagesTbl p).state = .pgReserved ↔ (s.ppm.pagesTbl p).state = .pgReserved := by
      intro p _
      by_cases hp : p = block
      · subst hp
        simp [hinv, hfree]
      · rw [(hframe p hp).1]
    refine ⟨⟨?_, hb, hpn ▸ h.lt, hpn.trans h.pagesNr, ?_, ?_⟩, h.tail⟩
    · rw [reservedBlocks_congr hpn hres]
      exact ht
    · intro p hp
      rw [hres p (h.pagesNr ▸ hp)]
      exact h.reserved p hp
    · intro b hb'
      rcases List.mem_cons.mp hb' with rfl | hb'
      · exact ⟨ho, hpn ▸ hlt, hinv, hcount⟩
      · obtain ⟨h1, h2, h3, h4⟩ := h.outstanding b hb'
        have hne : b.index ≠ block := by
          intro he
          rw [he, hfree] at h3
          cases h3
        simp only [(hframe _ hne).1, (hframe _ hne).2]
        exact ⟨h1, hpn ▸ h2, h3, h4⟩

theorem Steady.tiled_down {start : Ppm} {s : State} {block : Block} (h : Steady start s)
    (hmem : block ∈ s.outstanding) :
    Tiled (s.ppm.setPage block.index (·.pageRefcountDown))
      (block :: (s.outstanding.erase block ++ reservedBlocks s.ppm)) [] s.ppm.freePagesNr := by
  have hperm : (s.outstanding ++ reservedBlocks s.ppm).Perm
      (block :: (s.outstanding.erase block ++ reservedBlocks s.ppm)) :=
    (List.perm_cons_erase hmem).append_right _
  exact (h.tiled.perm hperm).set_count rfl rfl (by simp [(h.outstanding block hmem).2.2.1])

theorem Steady.free {start : Ppm} {s t : State} {block : Block} (h : Steady start s)
    (hs : step s (.free block) = some t) : Steady start t := by
  simp only [step] at hs
  split_ifs at hs with hblock
  obtain ⟨hmem, hcount⟩ := hblock
  cases hs
  obtain ⟨ho, hlt, hstate, -⟩ := h.outstanding block hmem
  have hdown := h.tiled_down hmem
  have horder := hdown.used_order block (by simp)
  have hzero : (((s.ppm.setPage block.index (·.pageRefcountDown)).pagesTbl block.index)).count =
      0 := by
    simp only [pagesTbl_setPage, Function.update_self, Page.pageRefcountDown, hcount]
    rfl
  obtain ⟨ht, hb, hpn, hst, hct⟩ :=
    ppmFreePagesNolock_spec hdown h.noBuddies (h.tail_used _) h.lt ho hzero
  have hfree : ppmFreePages s.ppm block.index =
      ppmFreePagesNolock (s.ppm.setPage block.index (·.pageRefcountDown)) block.order
        block.index := by
    simp only [ppmFreePages, hcount]
    rw [if_neg (by decide), horder]
  have hst' : ∀ p, p ≠ block.index → ((ppmFreePages s.ppm block.index).pagesTbl p).state =
      (s.ppm.pagesTbl p).state := by
    intro p hp
    rw [hfree, hst p hp, pagesTbl_setPage, Function.update_of_ne hp]
  have hfr : ((ppmFreePages s.ppm block.index).pagesTbl block.index).state = .pgFree := by
    rw [hfree, ht.state_iff _ (by rw [hpn]; exact hlt)]
    exact hdown.index_ne
  have hres : ∀ p < s.ppm.pagesNr, ((ppmFreePages s.ppm block.index).pagesTbl p).state =
      .pgReserved ↔ (s.ppm.pagesTbl p).state = .pgReserved := by
    intro p _
    by_cases hp : p = block.index
    · subst hp
      simp [hfr, hstate]
    · rw [hst' p hp]
  have hpn' : (ppmFreePages s.ppm block.index).pagesNr = s.ppm.pagesNr := by rw [hfree, hpn]; rfl
  refine ⟨⟨?_, ?_, hpn' ▸ h.lt, hpn'.trans h.pagesNr, ?_, ?_⟩, h.tail⟩
  · rw [reservedBlocks_congr hpn' hres, hfree]
    exact ht
  · rw [hfree]
    exact hb
  · intro p hp
    rw [hres p (h.pagesNr ▸ hp)]
    exact h.reserved p hp
  · intro b hb'
    have hne : b.index ≠ block.index := hdown.index_ne b (by simp [hb'])
    obtain ⟨h1, h2, h3, h4⟩ := h.outstanding b (List.mem_of_mem_erase hb')
    refine ⟨h1, hpn' ▸ h2, (hst' _ hne).trans h3, ?_⟩
    rw [hfree, hct, pagesTbl_setPage, Function.update_of_ne hne]
    exact h4

theorem steady_reachable {start : Ppm} (h0 : Steady start ⟨start, []⟩) {s : State}
    (h : (machine start).Reachable s) : Steady start s := by
  apply Machine.Reachable.invariant _ _ h
  · rintro s rfl
    exact h0
  · intro s e t hi hs
    cases e with
    | alloc order => exact hi.alloc hs
    | free block => exact hi.free hs

theorem inv_reachable {begin limit cid : ℕ} {reserved : List ℕ}
    (hd : 2 ^ lastOrder ∣ wsub limit begin >>> pageShift) {s : State}
    (h : (machine (ppmInitWith begin limit cid reserved)).Reachable s) :
    Inv (ppmInitWith begin limit cid reserved) s := by
  have hspec := ppmInitWith_spec cid reserved hd
  have h32 : wsub limit begin >>> pageShift < 2 ^ 32 :=
    (Nat.shiftRight_le _ _).trans_lt (wsub_lt limit begin)
  have h0 := steady_init hspec h32 (tailHeld_of_dvd hd _)
  exact (steady_reachable h0 h).inv (hspec.pagesNr ▸ hd)

theorem inv_init {begin limit : ℕ} (cid : ℕ) (reserved : List ℕ)
    (hd : 2 ^ lastOrder ∣ wsub limit begin >>> pageShift) :
    Inv (ppmInitWith begin limit cid reserved) ⟨ppmInitWith begin limit cid reserved, []⟩ :=
  inv_reachable hd (.init rfl)

def pieces (s : State) : List Block :=
  freeBlocks s.ppm ++ s.outstanding ++ reservedBlocks s.ppm

structure Partition (s : State) : Prop where
  aligned : ∀ b ∈ pieces s, 2 ^ b.order ∣ b.index
  within : ∀ b ∈ pieces s, b.index + 2 ^ b.order ≤ s.ppm.pagesNr
  disjoint : (pieces s).Pairwise fun b c => ∀ p, ¬ (b.Covers p ∧ c.Covers p)
  complete : ∀ p < s.ppm.pagesNr, ∃ b ∈ pieces s, b.Covers p
  list_length : ∀ k < maxOrder, (s.ppm.freePages k).pagesNr = (s.ppm.freePages k).root.length
  free_pages_nr : s.ppm.freePagesNr =
    ∑ k ∈ Finset.range maxOrder, 2 ^ k * (s.ppm.freePages k).root.length
  free_head : ∀ k < maxOrder, ∀ i ∈ (s.ppm.freePages k).root,
    (s.ppm.pagesTbl i).order = k ∧ (s.ppm.pagesTbl i).state = .pgFree
  outstanding_head : ∀ b ∈ s.outstanding, (s.ppm.pagesTbl b.index).state ≠ .pgFree

theorem mem_freeBlocks {ppm : Ppm} {i k : ℕ} :
    (⟨i, k⟩ : Block) ∈ freeBlocks ppm ↔ k < maxOrder ∧ i ∈ ppm.heads k := by
  simp [freeBlocks]

theorem usage_freeBlocks (ppm : Ppm) (p : ℕ) :
    usage (freeBlocks ppm) p = coverage maxOrder ppm.heads p := by
  have hsum : ∀ n, usage ((List.range n).flatMap fun k => (ppm.heads k).map fun i => ⟨i, k⟩) p =
      coverage n ppm.heads p := by
    intro n
    induction n with
    | zero => rfl
    | succ n ih =>
      rw [List.range_succ, List.flatMap_append, usage_append, ih, coverage, coverage,
        Finset.sum_range_succ]
      congr 1
      simp [usage, List.countP_map, Function.comp_def]
  exact hsum maxOrder

theorem pairwise_of_usage_le {blocks : List Block} (h : ∀ p, usage blocks p ≤ 1) :
    blocks.Pairwise fun b c => ∀ p, ¬ (b.Covers p ∧ c.Covers p) := by
  induction blocks with
  | nil => exact List.Pairwise.nil
  | cons b bs ih =>
    have hcons := fun p => (usage_cons b bs p).symm.trans_le (h p)
    refine List.Pairwise.cons ?_ (ih fun p => by have := hcons p; omega)
    rintro c hc p ⟨hbp, hcp⟩
    have hpos := usage_pos_iff.mpr ⟨c, hc, hcp⟩
    have hone : indicator b p = 1 := if_pos hbp
    have := hcons p
    omega

theorem usage_pieces {start : Ppm} {s : State} (h : Inv start s) (p : ℕ) :
    usage (pieces s) p = if p < s.ppm.pagesNr then 1 else 0 := by
  rw [← h.tiled.tiles p, pieces, List.append_assoc, usage_append, usage_freeBlocks, usage_nil]
  rfl

theorem Inv.partition {start : Ppm} {s : State} (h : Inv start s) : Partition s := by
  have huse := usage_pieces h
  refine ⟨?_, ?_, ?_, ?_, fun k _ => h.tiled.length_eq k, ?_, ?_, ?_⟩
  · intro b hb
    rw [pieces, List.append_assoc] at hb
    rcases List.mem_append.mp hb with hb | hb
    · exact (h.tiled.head_order b.order b.index (mem_freeBlocks.mp hb).2).2.1
    · exact h.tiled.used_aligned b hb
  · intro b hb
    have hpos := Nat.two_pow_pos b.order
    have hcov : b.Covers (b.index + 2 ^ b.order - 1) := by
      unfold Block.Covers
      omega
    have hup := usage_pos_iff.mpr ⟨b, hb, hcov⟩
    rw [huse] at hup
    split_ifs at hup <;> omega
  · apply pairwise_of_usage_le
    intro p
    rw [huse]
    split_ifs <;> omega
  · intro p hp
    apply usage_pos_iff.mp
    rw [huse, if_pos hp]
    exact Nat.one_pos
  · have ht := h.tiled.total_eq
    simp only [List.map_nil, List.sum_nil, Nat.add_zero] at ht
    exact ht.symm
  · exact fun k _ i hi => ⟨(h.tiled.head_order k i hi).2.2, h.tiled.head_free hi⟩
  · intro b hb
    rw [(h.outstanding b hb).2.2.1]
    decide

/-- Whatever pages are reserved and whatever the clients do, the free blocks, the
outstanding blocks and the reserved pages partition the pages, and the bookkeeping
agrees with the lists. -/
theorem reachable_partition (begin limit cid : ℕ) (reserved : List ℕ)
    (hd : 2 ^ lastOrder ∣ wsub limit begin >>> pageShift) (s : State)
    (h : (machine (ppmInitWith begin limit cid reserved)).Reachable s) : Partition s :=
  (inv_reachable hd h).partition

def fourPages : Ppm := ppmInitWith 0 0x200000 0 ((List.range 508).map (· + 4))

lemma fourPages_run {es : List Event} {blocks : List Block}
    (h : ((machine fourPages).run ⟨fourPages, []⟩ es).map (·.outstanding) = some blocks) :
    ∃ s, (machine fourPages).run ⟨fourPages, []⟩ es = some s ∧ s.outstanding = blocks ∧
      (machine fourPages).Reachable s := by
  obtain ⟨s, hs, hblocks⟩ := Option.map_eq_some_iff.mp h
  exact ⟨s, hs, hblocks, Machine.Reachable.run (.init rfl) es hs⟩

lemma fourPages_block : ((machine fourPages).run ⟨fourPages, []⟩
    [.alloc 0, .alloc 1, .free ⟨0, 0⟩]).map (·.outstanding) = some [⟨2, 1⟩] := by
  decide +kernel

theorem reachable_partition_four_pages : ∃ s, (machine fourPages).run ⟨fourPages, []⟩
    [.alloc 0, .alloc 1, .free ⟨0, 0⟩] = some s ∧ s.outstanding = [⟨2, 1⟩] ∧ Partition s := by
  obtain ⟨s, hs, hout, hreach⟩ := fourPages_run fourPages_block
  exact ⟨s, hs, hout, reachable_partition 0 0x200000 0 _ (by decide) s hreach⟩

def freeSet (ppm : Ppm) : Set Block := {b | b ∈ freeBlocks ppm}

def outstandingPages (s : State) : Set ℕ := {p | ∃ b ∈ s.outstanding, b.Covers p}

def freePageSet (start : Ppm) (out : Set ℕ) : Set ℕ :=
  {p | p < start.pagesNr ∧ (start.pagesTbl p).state ≠ .pgReserved ∧ p ∉ out}

theorem mem_reservedBlocks {ppm : Ppm} {b : Block} : b ∈ reservedBlocks ppm ↔
    ∃ p < ppm.pagesNr, (ppm.pagesTbl p).state = .pgReserved ∧ (⟨p, 0⟩ : Block) = b := by
  simp [reservedBlocks, and_assoc]

/-- The pages on the free lists are the pages that are neither reserved nor outstanding. -/
theorem Inv.coverage_pos {start : Ppm} {s : State} (h : Inv start s) (p : ℕ) :
    0 < coverage maxOrder s.ppm.heads p ↔ p ∈ freePageSet start (outstandingPages s) := by
  have ht := h.tiled.tiles p
  have hout : usage s.outstanding p = 0 ↔ p ∉ outstandingPages s := by
    simp [usage_eq_zero_iff, outstandingPages]
  have hres : usage (reservedBlocks s.ppm) p = 0 ↔
      ¬ (p < s.ppm.pagesNr ∧ (s.ppm.pagesTbl p).state = .pgReserved) := by
    rw [usage_eq_zero_iff]
    constructor
    · rintro hall ⟨hp, hs⟩
      exact hall _ (mem_reservedBlocks.mpr ⟨p, hp, hs, rfl⟩) (Block.covers_index ⟨p, 0⟩)
    · rintro hn b hb hbp
      obtain ⟨q, hq, hs, rfl⟩ := mem_reservedBlocks.mp hb
      rw [Block.covers_zero_iff] at hbp
      subst hbp
      exact hn ⟨hq, hs⟩
  rw [usage_append, usage_nil] at ht
  constructor
  · intro hpos
    have hp : p < s.ppm.pagesNr := by
      by_contra hn
      rw [if_neg hn] at ht
      omega
    rw [if_pos hp] at ht
    refine ⟨h.pagesNr ▸ hp, fun hs => ?_, hout.mp (by omega)⟩
    exact hres.mp (by omega) ⟨hp, (h.reserved p (h.pagesNr ▸ hp)).mpr hs⟩
  · rintro ⟨hp, hs, ho⟩
    have hp' : p < s.ppm.pagesNr := h.pagesNr ▸ hp
    have h1 := hout.mpr ho
    have h2 := hres.mpr fun hr => hs ((h.reserved p hp).mp hr.2)
    rw [if_pos hp'] at ht
    omega

theorem Tiled.canonical {ppm : Ppm} {used pending : List Block} {total : ℕ}
    (h : Tiled ppm used pending total) (hb : NoBuddies ppm.heads) :
    Canonical lastOrder (freeSet ppm) {p | 0 < coverage maxOrder ppm.heads p} := by
  refine ⟨?_, ?_, ?_, ?_, ?_⟩
  · exact fun b hb => (h.head_order b.order b.index (mem_freeBlocks.mp hb).2).2.1
  · exact fun b hb => Nat.le_of_lt_succ (mem_freeBlocks.mp hb).1
  · intro p
    rw [Set.mem_ofPred_eq, coverage_pos_iff]
    constructor
    · rintro ⟨k, hk, i, hi, hp⟩
      exact ⟨⟨i, k⟩, mem_freeBlocks.mpr ⟨hk, hi⟩, hp⟩
    · rintro ⟨b, hb, hp⟩
      obtain ⟨hk, hi⟩ := mem_freeBlocks.mp hb
      exact ⟨b.order, hk, b.index, hi, hp⟩
  · intro b hb c hc p hbp hcp
    by_contra hne
    have h2 := two_le_coverage (mem_freeBlocks.mp hb).1 (mem_freeBlocks.mp hc).1
      (mem_freeBlocks.mp hb).2 (mem_freeBlocks.mp hc).2 hne hbp hcp
    have ht := h.tiles p
    split_ifs at ht <;> omega
  · intro i k hk hi hbuddy
    exact hb k hk i (mem_freeBlocks.mp hi).2 (mem_freeBlocks.mp hbuddy).2

theorem Inv.canonical {start : Ppm} {s : State} (h : Inv start s) :
    Canonical lastOrder (freeSet s.ppm) (freePageSet start (outstandingPages s)) := by
  have hpages : {p | 0 < coverage maxOrder s.ppm.heads p} =
      freePageSet start (outstandingPages s) := Set.ext h.coverage_pos
  exact hpages ▸ h.tiled.canonical h.noBuddies

/-- Two histories that leave the same pages outstanding leave the same free blocks, among
which no two buddies below the last order; with nothing outstanding these are the blocks
initialisation made. -/
theorem coalescing_canonical (begin limit cid : ℕ) (reserved : List ℕ)
    (hd : 2 ^ lastOrder ∣ wsub limit begin >>> pageShift) (s t : State)
    (hs : (machine (ppmInitWith begin limit cid reserved)).Reachable s)
    (ht : (machine (ppmInitWith begin limit cid reserved)).Reachable t)
    (hout : outstandingPages s = outstandingPages t) :
    freeSet s.ppm = freeSet t.ppm ∧
      (∀ i k, k < lastOrder → ⟨i, k⟩ ∈ freeSet s.ppm → ⟨i ^^^ 2 ^ k, k⟩ ∉ freeSet s.ppm) ∧
      (s.outstanding = [] → freeSet s.ppm = freeSet (ppmInitWith begin limit cid reserved)) := by
  have is := inv_reachable hd hs
  have it := inv_reachable hd ht
  have hcs := is.canonical
  refine ⟨hcs.eq (hout ▸ it.canonical), hcs.no_buddies, ?_⟩
  intro hnil
  have h0 := (inv_init cid reserved hd).canonical
  have he : outstandingPages s =
      outstandingPages ⟨ppmInitWith begin limit cid reserved, []⟩ := by
    simp [outstandingPages, hnil]
  exact hcs.eq (he ▸ h0)

/-- Pages 2 and 3 outstanding as one block, and as two after four allocations. -/
theorem coalescing_canonical_four_pages : ∃ s t,
    (machine fourPages).run ⟨fourPages, []⟩ [.alloc 0, .alloc 1, .free ⟨0, 0⟩] = some s ∧
      (machine fourPages).run ⟨fourPages, []⟩ [.alloc 0, .alloc 0, .alloc 0, .alloc 0, .free ⟨1, 0⟩,
        .free ⟨0, 0⟩] = some t ∧
      s.outstanding = [⟨2, 1⟩] ∧ t.outstanding = [⟨3, 0⟩, ⟨2, 0⟩] ∧ freeSet s.ppm = freeSet t.ppm := by
  have hpieces : ((machine fourPages).run ⟨fourPages, []⟩ [.alloc 0, .alloc 0, .alloc 0, .alloc 0,
      .free ⟨1, 0⟩, .free ⟨0, 0⟩]).map (·.outstanding) = some [⟨3, 0⟩, ⟨2, 0⟩] := by
    decide +kernel
  obtain ⟨s, hs, hsout, hsreach⟩ := fourPages_run fourPages_block
  obtain ⟨t, ht, htout, htreach⟩ := fourPages_run hpieces
  have hpages : outstandingPages s = outstandingPages t := by
    ext p
    simp only [outstandingPages, hsout, htout, Set.mem_ofPred_eq, List.mem_cons, List.not_mem_nil,
      or_false, exists_eq_or_imp, exists_eq_left, Block.Covers]
    omega
  exact ⟨s, t, hs, ht, hsout, htout,
    (coalescing_canonical 0 0x200000 0 _ (by decide) s t hsreach htreach hpages).1⟩

end Almos.Ppm
