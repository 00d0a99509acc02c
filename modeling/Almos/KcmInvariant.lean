import Almos.Kcm

/-!
# Invariant of the kernel cache manager

`Inv kcm hand out`: the pages of the three lists and of `hand` (pages unlinked from
one list and not yet linked to the next) account for the blocks in `out`.
-/
namespace Almos.Kcm
open Word Bits

def header : ℕ := 64

def blockAddr (kcm : Kcm) (p k : ℕ) : ℕ := p + header + k * kcm.size

structure Geometry (kcm : Kcm) : Prop where
  size_pos : 0 < kcm.size
  header_eq : arroundUp sizeofPageInfo kcm.aligne = header
  fits : header + kcm.blocksNr * kcm.size ≤ kcmPageSize
  blocks_le : kcm.blocksNr ≤ 128

/-- What holds of each page; `out` are the outstanding blocks. -/
structure PageOk (kcm : Kcm) (out : List ℕ) (p : ℕ) : Prop where
  aligned : p % kcmPageSize = 0
  small : p < 2 ^ 32
  table : (kcm.pages p).blkTbl = p + header
  clean : ∀ k < 128, bitmapState (kcm.pages p).bitmap k = true → k < kcm.blocksNr
  bits : ∀ k < kcm.blocksNr,
    bitmapState (kcm.pages p).bitmap k = false ↔ blockAddr kcm p k ∈ out
  refs : (kcm.pages p).refcount = out.countP (fun ptr => pageOf ptr = p)
  index : ∀ k < kcm.blocksNr, bitmapState (kcm.pages p).bitmap k = true →
    (kcm.pages p).currentIndex ≤ k

def held (kcm : Kcm) (hand : List ℕ) : List ℕ := kcm.owned ++ hand

structure Inv (kcm : Kcm) (hand out : List ℕ) : Prop where
  geo : Geometry kcm
  once : ∀ p, kcm.freelist.count p + kcm.activelist.count p + kcm.busylist.count p +
    hand.count p ≤ 1
  freeNr : kcm.freePagesNr = kcm.freelist.length
  activeNr : kcm.activePagesNr = kcm.activelist.length
  busyNr : kcm.busyPagesNr = kcm.busylist.length
  activeFlag : ∀ p ∈ held kcm hand,
    (kcm.pages p).active = true ↔ kcm.activelist.head? = some p
  busyFlag : ∀ p ∈ held kcm hand, (kcm.pages p).busy = true ↔ p ∈ kcm.busylist
  page : ∀ p ∈ held kcm hand, PageOk kcm out p
  freeEmpty : ∀ p ∈ kcm.freelist ++ hand, (kcm.pages p).refcount = 0
  busyFull : ∀ p ∈ kcm.busylist, ∀ k < kcm.blocksNr,
    bitmapState (kcm.pages p).bitmap k = false
  outNodup : out.Nodup
  outBlock : ∀ ptr ∈ out, ∃ p ∈ held kcm hand, ∃ k < kcm.blocksNr, ptr = blockAddr kcm p k

@[simp] theorem setPage_pages_self (kcm : Kcm) (p : ℕ) (f : PageInfo → PageInfo) :
    (kcm.setPage p f).pages p = f (kcm.pages p) := by simp [setPage]

@[simp] theorem setPage_freelist (kcm : Kcm) (p : ℕ) (f : PageInfo → PageInfo) :
    (kcm.setPage p f).freelist = kcm.freelist := rfl

@[simp] theorem setPage_activelist (kcm : Kcm) (p : ℕ) (f : PageInfo → PageInfo) :
    (kcm.setPage p f).activelist = kcm.activelist := rfl

@[simp] theorem setPage_busylist (kcm : Kcm) (p : ℕ) (f : PageInfo → PageInfo) :
    (kcm.setPage p f).busylist = kcm.busylist := rfl

theorem setPage_pages_of_ne (kcm : Kcm) {p q : ℕ} (f : PageInfo → PageInfo) (h : q ≠ p) :
    (kcm.setPage p f).pages q = kcm.pages q := by simp [setPage, h]

theorem mem_held {kcm : Kcm} {hand : List ℕ} {p : ℕ} : p ∈ held kcm hand ↔
    p ∈ kcm.freelist ∨ p ∈ kcm.activelist ∨ p ∈ kcm.busylist ∨ p ∈ hand := by
  simp [held, owned]

section Blocks
variable {kcm : Kcm} {out : List ℕ} {p q k j : ℕ}

theorem Geometry.block_lt (geo : Geometry kcm) (hk : k < kcm.blocksNr) :
    header + k * kcm.size + kcm.size ≤ kcmPageSize := by
  have hmul : (k + 1) * kcm.size ≤ kcm.blocksNr * kcm.size := Nat.mul_le_mul_right _ hk
  have hfits := geo.fits
  rw [Nat.add_mul, Nat.one_mul] at hmul
  omega

theorem Geometry.pageOf_block (geo : Geometry kcm) (hp : p % kcmPageSize = 0)
    (hk : k < kcm.blocksNr) : pageOf (blockAddr kcm p k) = p := by
  have hlt := geo.block_lt hk
  have hpos := geo.size_pos
  unfold pageOf blockAddr kcmPageSize at *
  omega

theorem Geometry.block_inj (geo : Geometry kcm) (hp : p % kcmPageSize = 0)
    (hq : q % kcmPageSize = 0) (hk : k < kcm.blocksNr) (hj : j < kcm.blocksNr)
    (h : blockAddr kcm p k = blockAddr kcm q j) : p = q ∧ k = j := by
  have hpq : p = q := by
    rw [← geo.pageOf_block hp hk, h, geo.pageOf_block hq hj]
  subst hpq
  refine ⟨rfl, ?_⟩
  have hmul : k * kcm.size = j * kcm.size := by
    unfold blockAddr at h
    omega
  exact Nat.eq_of_mul_eq_mul_right geo.size_pos hmul

theorem count_le_blocksNr (hnodup : out.Nodup)
    (hblock : ∀ ptr ∈ out, pageOf ptr = p → ∃ k < kcm.blocksNr, ptr = blockAddr kcm p k) :
    out.countP (fun ptr => pageOf ptr = p) ≤ kcm.blocksNr := by
  have hsub : out.filter (fun ptr => pageOf ptr = p) ⊆
      (List.range kcm.blocksNr).map (blockAddr kcm p) := by
    intro ptr hptr
    obtain ⟨hmem, hpage⟩ := List.mem_filter.mp hptr
    obtain ⟨k, hk, rfl⟩ := hblock ptr hmem (by simpa using hpage)
    exact List.mem_map.mpr ⟨k, List.mem_range.mpr hk, rfl⟩
  have hlen := ((hnodup.filter _).subperm hsub).length_le
  rw [List.countP_eq_length_filter]
  simpa using hlen

end Blocks

section Pages
variable {kcm : Kcm} {hand out : List ℕ} {p : ℕ}

theorem Inv.nodup (h : Inv kcm hand out) : (held kcm hand).Nodup := by
  rw [List.nodup_iff_count_le_one]
  intro p
  have := h.once p
  simp only [held, owned, List.count_append]
  omega

theorem Inv.length_le (h : Inv kcm hand out) : (held kcm hand).length ≤ 2 ^ 20 := by
  have hinj : ((held kcm hand).map (· / kcmPageSize)).Nodup := by
    refine List.Nodup.map_on ?_ h.nodup
    intro p hp q hq heq
    have hpa := (h.page p hp).aligned
    have hqa := (h.page q hq).aligned
    unfold kcmPageSize at *
    omega
  have hsub : (held kcm hand).map (· / kcmPageSize) ⊆ List.range (2 ^ 20) := by
    intro i hi
    obtain ⟨p, hp, rfl⟩ := List.mem_map.mp hi
    have hps := (h.page p hp).small
    refine List.mem_range.mpr ?_
    unfold kcmPageSize
    omega
  simpa using (hinj.subperm hsub).length_le

theorem Inv.lengths (h : Inv kcm hand out) :
    kcm.freelist.length + kcm.activelist.length + kcm.busylist.length + hand.length ≤ 2 ^ 20 := by
  have := h.length_le
  simp only [held, owned, List.length_append] at this
  omega

theorem Inv.not_mem (h : Inv kcm hand out) :
    (p ∈ kcm.freelist → p ∉ kcm.activelist ∧ p ∉ kcm.busylist ∧ p ∉ hand) ∧
      (p ∈ kcm.activelist → p ∉ kcm.busylist ∧ p ∉ hand) ∧ (p ∈ kcm.busylist → p ∉ hand) := by
  have honce := h.once p
  simp only [← List.count_pos_iff]
  omega

theorem Inv.block_of_mem (h : Inv kcm hand out) {ptr : ℕ} (hptr : ptr ∈ out) :
    pageOf ptr ∈ held kcm hand ∧ ∃ k < kcm.blocksNr, ptr = blockAddr kcm (pageOf ptr) k := by
  obtain ⟨p, hp, k, hk, rfl⟩ := h.outBlock ptr hptr
  rw [h.geo.pageOf_block (h.page p hp).aligned hk]
  exact ⟨hp, k, hk, rfl⟩

theorem Inv.refcount_le (h : Inv kcm hand out) (hp : p ∈ held kcm hand) :
    (kcm.pages p).refcount ≤ kcm.blocksNr := by
  rw [(h.page p hp).refs]
  refine count_le_blocksNr h.outNodup ?_
  intro ptr hptr hpage
  obtain ⟨-, k, hk, heq⟩ := h.block_of_mem hptr
  exact ⟨k, hk, by rw [← hpage]; exact heq⟩

end Pages

/-! ### Taking and giving back blocks -/

section Moves
variable {kcm : Kcm} {hand out : List ℕ} {p : ℕ}

/-- A block is found exactly where the page has a free one, and it is the lowest. -/
theorem getBlock_spec (geo : Geometry kcm) (h : PageOk kcm out p) :
    (getBlock kcm p = (kcm, none) ∧
        ∀ k < kcm.blocksNr, bitmapState (kcm.pages p).bitmap k = false) ∨
      ∃ k < kcm.blocksNr, bitmapState (kcm.pages p).bitmap k = true ∧
        (∀ j < k, bitmapState (kcm.pages p).bitmap j = false) ∧
        getBlock kcm p = (kcm.setPage p (takeBlock k), some (blockAddr kcm p k)) := by
  have hbelow : ∀ k < kcm.blocksNr, k < (kcm.pages p).currentIndex →
      bitmapState (kcm.pages p).bitmap k = false := by
    intro k hk hlt
    by_contra hset
    have := h.index k hk (by simpa using hset)
    omega
  by_cases hidx : kcm.blocksNr ≤ (kcm.pages p).currentIndex
  · left
    exact ⟨by simp [getBlock, hidx], fun k hk => hbelow k hk (by omega)⟩
  · have hblocks := geo.blocks_le
    have hffs : LeastSet (kcm.pages p).bitmap (kcm.pages p).currentIndex (sizeofBitmap * 8)
        (bitmapFfs2 (kcm.pages p).bitmap (kcm.pages p).currentIndex sizeofBitmap) :=
      bitmapFfs2_spec _ (by unfold sizeofBitmap; omega) (by decide)
    cases hfound : bitmapFfs2 (kcm.pages p).bitmap (kcm.pages p).currentIndex sizeofBitmap with
    | none =>
      left
      rw [hfound] at hffs
      refine ⟨by simp [getBlock, hidx, hfound], ?_⟩
      intro k hk
      by_cases hlt : k < (kcm.pages p).currentIndex
      · exact hbelow k hk hlt
      · exact hffs k (by omega) (by unfold sizeofBitmap; omega)
    | some k =>
      right
      rw [hfound] at hffs
      obtain ⟨hle, hlt, hset, hmin⟩ := hffs
      have hk := h.clean k hlt hset
      have hfit := geo.block_lt hk
      refine ⟨k, hk, hset, ?_, ?_⟩
      · intro j hj
        by_cases hjlt : j < (kcm.pages p).currentIndex
        · exact hbelow j (by omega) hjlt
        · exact hmin j (by omega) hj
      · have haddr : wadd (kcm.pages p).blkTbl (k * kcm.size) = blockAddr kcm p k := by
          rw [h.table]
          refine wadd_of_lt ?_
          have hal := h.aligned
          have hsm := h.small
          have hpos := geo.size_pos
          unfold kcmPageSize at *
          omega
        simp [getBlock, hidx, hfound, haddr]

def SameBlocks (a b : PageInfo) : Prop :=
  a.bitmap = b.bitmap ∧ a.blkTbl = b.blkTbl ∧ a.currentIndex = b.currentIndex ∧
    a.refcount = b.refcount

theorem PageOk.frame {kcm' : Kcm} {out' : List ℕ} (h : PageOk kcm out p)
    (hpage : SameBlocks (kcm'.pages p) (kcm.pages p)) (hsize : kcm'.size = kcm.size)
    (hblocks : kcm'.blocksNr = kcm.blocksNr)
    (hmem : ∀ k < kcm.blocksNr, blockAddr kcm p k ∈ out' ↔ blockAddr kcm p k ∈ out)
    (hcount : out'.countP (fun ptr => pageOf ptr = p) = out.countP (fun ptr => pageOf ptr = p)) :
    PageOk kcm' out' p := by
  obtain ⟨hbitmap, htable, hindex, hrefs⟩ := hpage
  have haddr : ∀ k, blockAddr kcm' p k = blockAddr kcm p k := by simp [blockAddr, hsize]
  refine ⟨h.aligned, h.small, ?_, ?_, ?_, ?_, ?_⟩
  · rw [htable]
    exact h.table
  · rw [hbitmap, hblocks]
    exact h.clean
  · intro k hk
    rw [hblocks] at hk
    rw [hbitmap, haddr, hmem k hk]
    exact h.bits k hk
  · rw [hrefs, hcount]
    exact h.refs
  · rw [hbitmap, hindex, hblocks]
    exact h.index

theorem PageOk.take (geo : Geometry kcm) (h : PageOk kcm out p) {k : ℕ} (hk : k < kcm.blocksNr)
    (hmin : ∀ j < k, bitmapState (kcm.pages p).bitmap j = false)
    (hcount : out.countP (fun ptr => pageOf ptr = p) ≤ kcm.blocksNr) :
    PageOk (kcm.setPage p (takeBlock k)) (blockAddr kcm p k :: out) p := by
  have hblocks := geo.blocks_le
  have hpage := geo.pageOf_block h.aligned hk
  refine ⟨h.aligned, h.small, ?_, ?_, ?_, ?_, ?_⟩
  · simpa [takeBlock] using h.table
  · intro j hj hbit
    refine h.clean j hj ?_
    simp only [setPage_pages_self, takeBlock, bitmapState_bitmapClear, Bool.and_eq_true] at hbit
    exact hbit.1
  · intro j hj
    change j < kcm.blocksNr at hj
    have hinj : blockAddr kcm p j = blockAddr kcm p k ↔ j = k :=
      ⟨fun he => (geo.block_inj h.aligned h.aligned hj hk he).2, fun he => by rw [he]⟩
    have hb := h.bits j hj
    change _ ↔ blockAddr kcm p j ∈ blockAddr kcm p k :: out
    rw [setPage_pages_self, takeBlock, bitmapState_bitmapClear, List.mem_cons, hinj, ← hb]
    by_cases hjk : j = k
    · simp [hjk]
    · simp [hjk]
  · rw [setPage_pages_self, List.countP_cons_of_pos (by simpa using hpage), takeBlock, h.refs]
    exact Nat.mod_eq_of_lt (by omega)
  · intro j hj hbit
    simp only [setPage_pages_self, takeBlock, bitmapState_bitmapClear, Bool.and_eq_true,
      Bool.not_eq_true', decide_eq_false_iff_not] at hbit ⊢
    rw [Nat.mod_eq_of_lt (by omega)]
    by_contra hlt
    have hjk : j < k := by omega
    simp [hmin j hjk] at hbit

theorem PageOk.give (geo : Geometry kcm) (h : PageOk kcm out p) {k : ℕ} (hk : k < kcm.blocksNr)
    (hout : blockAddr kcm p k ∈ out) (hnodup : out.Nodup)
    (hcount : out.countP (fun ptr => pageOf ptr = p) ≤ kcm.blocksNr) :
    PageOk (kcm.setPage p (giveBlock k)) (out.erase (blockAddr kcm p k)) p := by
  have hblocks := geo.blocks_le
  have hpage := geo.pageOf_block h.aligned hk
  refine ⟨h.aligned, h.small, ?_, ?_, ?_, ?_, ?_⟩
  · simpa [giveBlock] using h.table
  · intro j hj hbit
    simp only [setPage_pages_self, giveBlock, bitmapState_bitmapSet, Bool.or_eq_true,
      decide_eq_true_eq] at hbit
    obtain hbit | rfl := hbit
    · exact h.clean j hj hbit
    · exact hk
  · intro j hj
    change j < kcm.blocksNr at hj
    have hinj : blockAddr kcm p j = blockAddr kcm p k ↔ j = k :=
      ⟨fun he => (geo.block_inj h.aligned h.aligned hj hk he).2, fun he => by rw [he]⟩
    have hb := h.bits j hj
    change _ ↔ blockAddr kcm p j ∈ out.erase (blockAddr kcm p k)
    rw [hnodup.mem_erase_iff, ne_eq, hinj, ← hb, setPage_pages_self, giveBlock,
      bitmapState_bitmapSet]
    by_cases hjk : j = k
    · simp [hjk]
    · simp [hjk]
  · have hpos : 0 < out.countP (fun ptr => pageOf ptr = p) :=
      List.countP_pos_iff.mpr ⟨_, hout, by simpa using hpage⟩
    have herase := List.countP_erase (fun ptr => decide (pageOf ptr = p)) out (blockAddr kcm p k)
    rw [if_pos ⟨hout, by simpa using hpage⟩] at herase
    rw [setPage_pages_self, herase, giveBlock, h.refs]
    change (_ + 255) % 256 = _
    omega
  · intro j hj hbit
    simp only [setPage_pages_self, giveBlock, bitmapState_bitmapSet, Bool.or_eq_true,
      decide_eq_true_eq] at hbit ⊢
    obtain hbit | rfl := hbit
    · have := h.index j hj hbit
      split_ifs <;> omega
    · split_ifs <;> omega

theorem PageOk.take_other (geo : Geometry kcm) (h : PageOk kcm out p) {q k : ℕ} (hpq : p ≠ q)
    (hq : q % kcmPageSize = 0) (hk : k < kcm.blocksNr) (f : PageInfo → PageInfo) :
    PageOk (kcm.setPage q f) (blockAddr kcm q k :: out) p := by
  refine h.frame (by simp [SameBlocks, setPage_pages_of_ne kcm f hpq]) rfl rfl ?_ ?_
  · intro j hj
    have hne : blockAddr kcm p j ≠ blockAddr kcm q k := fun he =>
      hpq (geo.block_inj h.aligned hq hj hk he).1
    simp [hne]
  · refine List.countP_cons_of_neg ?_
    rw [geo.pageOf_block hq hk]
    simpa using Ne.symm hpq

theorem PageOk.give_other (geo : Geometry kcm) (h : PageOk kcm out p) {q k : ℕ} (hpq : p ≠ q)
    (hq : q % kcmPageSize = 0) (hk : k < kcm.blocksNr) (f : PageInfo → PageInfo) :
    PageOk (kcm.setPage q f) (out.erase (blockAddr kcm q k)) p := by
  refine h.frame (by simp [SameBlocks, setPage_pages_of_ne kcm f hpq]) rfl rfl ?_ ?_
  · intro j hj
    have hne : blockAddr kcm p j ≠ blockAddr kcm q k := fun he =>
      hpq (geo.block_inj h.aligned hq hj hk he).1
    exact List.mem_erase_of_ne hne
  · have herase := List.countP_erase (fun ptr => decide (pageOf ptr = p)) out (blockAddr kcm q k)
    rw [herase, if_neg, Nat.sub_zero]
    rw [geo.pageOf_block hq hk]
    simp [Ne.symm hpq]

theorem Inv.count_le (h : Inv kcm hand out) (hp : p ∈ held kcm hand) :
    out.countP (fun ptr => pageOf ptr = p) ≤ kcm.blocksNr := by
  rw [← (h.page p hp).refs]
  exact h.refcount_le hp

theorem Inv.take (h : Inv kcm [] out) (hp : p ∈ kcm.activelist) {k : ℕ} (hk : k < kcm.blocksNr)
    (hset : bitmapState (kcm.pages p).bitmap k = true)
    (hmin : ∀ j < k, bitmapState (kcm.pages p).bitmap j = false) :
    Inv (kcm.setPage p (takeBlock k)) [] (blockAddr kcm p k :: out) := by
  have hheld : p ∈ held kcm [] := mem_held.mpr (.inr (.inl hp))
  have hpage := h.page p hheld
  obtain ⟨hfree, hactive, -⟩ := h.not_mem (p := p)
  have hflags : ∀ q, ((kcm.setPage p (takeBlock k)).pages q).active = (kcm.pages q).active ∧
      ((kcm.setPage p (takeBlock k)).pages q).busy = (kcm.pages q).busy := by
    intro q
    by_cases hqp : q = p
    · simp [hqp, takeBlock]
    · simp [setPage_pages_of_ne kcm _ hqp]
  refine ⟨⟨h.geo.size_pos, h.geo.header_eq, h.geo.fits, h.geo.blocks_le⟩, h.once, h.freeNr,
    h.activeNr, h.busyNr, ?_, ?_, ?_, ?_, ?_, ?_, ?_⟩
  · intro q hq
    rw [(hflags q).1]
    exact h.activeFlag q hq
  · intro q hq
    rw [(hflags q).2]
    exact h.busyFlag q hq
  · intro q hq
    by_cases hqp : q = p
    · rw [hqp]
      exact hpage.take h.geo hk hmin (h.count_le hheld)
    · exact (h.page q hq).take_other h.geo hqp hpage.aligned hk _
  · intro q hq
    have hqp : q ≠ p := by
      rintro rfl
      have hmem : q ∈ kcm.freelist := by simpa using hq
      exact (hfree hmem).1 hp
    rw [setPage_pages_of_ne kcm _ hqp]
    exact h.freeEmpty q hq
  · intro q hq j hj
    have hqp : q ≠ p := by
      rintro rfl
      exact (hactive hp).1 hq
    rw [setPage_pages_of_ne kcm _ hqp]
    exact h.busyFull q hq j hj
  · refine List.nodup_cons.mpr ⟨?_, h.outNodup⟩
    intro hmem
    have hclear := (hpage.bits k hk).mpr hmem
    simp [hset] at hclear
  · intro ptr hptr
    obtain rfl | hmem := List.mem_cons.mp hptr
    · exact ⟨p, hheld, k, hk, rfl⟩
    · exact h.outBlock ptr hmem

/-- The blocks and descriptors after a block of page `p` came back, whatever list `p` goes to. -/
theorem Inv.give_pages (h : Inv kcm [] out) {k : ℕ} (hp : p ∈ held kcm []) (hk : k < kcm.blocksNr)
    (hout : blockAddr kcm p k ∈ out) :
    (∀ q ∈ held kcm [], PageOk (kcm.setPage p (giveBlock k)) (out.erase (blockAddr kcm p k)) q) ∧
      ∀ ptr ∈ out.erase (blockAddr kcm p k), ∃ q ∈ held kcm [], ∃ j < kcm.blocksNr,
        ptr = blockAddr kcm q j := by
  have hpage := h.page p hp
  refine ⟨?_, ?_⟩
  · intro q hq
    by_cases hqp : q = p
    · rw [hqp]
      exact hpage.give h.geo hk hout h.outNodup (h.count_le hp)
    · exact (h.page q hq).give_other h.geo hqp hpage.aligned hk _
  · intro ptr hptr
    exact h.outBlock ptr (List.mem_of_mem_erase hptr)

theorem Inv.not_free (h : Inv kcm [] out) {k : ℕ} (hp : p ∈ held kcm []) (hk : k < kcm.blocksNr)
    (hout : blockAddr kcm p k ∈ out) : p ∉ kcm.freelist := by
  intro hfree
  have hzero := h.freeEmpty p (by simpa using hfree)
  have hpage := h.page p hp
  rw [hpage.refs, List.countP_eq_zero] at hzero
  have hne := hzero _ hout
  simp [h.geo.pageOf_block hpage.aligned hk] at hne

theorem Geometry.congr {kcm' : Kcm} (geo : Geometry kcm) (hsize : kcm'.size = kcm.size)
    (hblocks : kcm'.blocksNr = kcm.blocksNr) (haligne : kcm'.aligne = kcm.aligne) :
    Geometry kcm' := by
  refine ⟨by rw [hsize]; exact geo.size_pos, by rw [haligne]; exact geo.header_eq, ?_, ?_⟩
  · rw [hblocks, hsize]
    exact geo.fits
  · rw [hblocks]
    exact geo.blocks_le

theorem Inv.give_busy (h : Inv kcm [] out) {k : ℕ} (hk : k < kcm.blocksNr)
    (hout : blockAddr kcm p k ∈ out) (hp : p ∈ kcm.busylist) (hne : kcm.activelist ≠ []) :
    let kcm₁ := ((kcm.setPage p (giveBlock k)).setPage p ({ · with busy := false })).listUnlink p
    Inv { kcm₁ with
      busyPagesNr := wsub kcm₁.busyPagesNr 1
      activelist := kcm₁.activelist ++ [p]
      activePagesNr := wadd kcm₁.activePagesNr 1 } [] (out.erase (blockAddr kcm p k)) := by
  intro kcm₁
  have hheld : p ∈ held kcm [] := mem_held.mpr (.inr (.inr (.inl hp)))
  obtain ⟨hpages, hblock⟩ := h.give_pages hheld hk hout
  have hfree := h.not_free hheld hk hout
  have hactive : p ∉ kcm.activelist := fun hmem => ((h.not_mem (p := p)).2.1 hmem).1 hp
  have hlists : kcm₁.freelist = kcm.freelist ∧ kcm₁.activelist = kcm.activelist ∧
      kcm₁.busylist = kcm.busylist.erase p := by
    refine ⟨List.erase_of_not_mem hfree, List.erase_of_not_mem hactive, rfl⟩
  obtain ⟨hf, ha, hb⟩ := hlists
  have hbusyNodup : kcm.busylist.Nodup := by
    rw [List.nodup_iff_count_le_one]
    intro q
    have := h.once q
    omega
  have hheldIff : ∀ q, q ∈ kcm₁.freelist ∨ q ∈ kcm₁.activelist ++ [p] ∨ q ∈ kcm₁.busylist ↔
      q ∈ held kcm [] := by
    intro q
    rw [hf, ha, hb, mem_held, List.mem_append, List.mem_singleton, hbusyNodup.mem_erase_iff]
    by_cases hqp : q = p
    · simp [hqp, hp]
    · simp [hqp]
  have hsame : ∀ q, q ≠ p → kcm₁.pages q = kcm.pages q := by
    intro q hqp
    simp [kcm₁, listUnlink, setPage, hqp]
  have hself : kcm₁.pages p = { giveBlock k (kcm.pages p) with busy := false } := by
    simp [kcm₁, listUnlink, setPage]
  have hlen := h.lengths
  have hpos := List.length_pos_of_mem hp
  refine ⟨h.geo.congr rfl rfl rfl, ?_, ?_, ?_, ?_, ?_, ?_, ?_, ?_, ?_, h.outNodup.erase _, ?_⟩
  · intro q
    have honce := h.once q
    have hcount := @List.count_erase ℕ _ _ q p kcm.busylist
    simp only [hf, ha, hb, List.count_append, List.count_nil, List.count_cons] at honce ⊢
    by_cases hqp : q = p
    · subst hqp
      have := List.count_pos_iff.mpr hp
      simp only [BEq.rfl, if_true] at hcount ⊢
      omega
    · simp only [beq_iff_eq, Ne.symm hqp, if_false] at hcount ⊢
      omega
  · change kcm.freePagesNr = kcm₁.freelist.length
    rw [hf]
    exact h.freeNr
  · change wadd kcm.activePagesNr 1 = (kcm₁.activelist ++ [p]).length
    rw [ha, h.activeNr, List.length_append]
    exact wadd_of_lt (by omega)
  · change wsub kcm.busyPagesNr 1 = kcm₁.busylist.length
    rw [hb, h.busyNr, List.length_erase_of_mem hp]
    exact wsub_of_le hpos (by omega)
  · intro q hq
    have hq' := (hheldIff q).mp (by simpa [mem_held] using hq)
    change (kcm₁.pages q).active = true ↔ (kcm₁.activelist ++ [p]).head? = some q
    rw [ha, List.head?_append_of_ne_nil _ hne, ← h.activeFlag q hq']
    by_cases hqp : q = p
    · simp [hqp, hself, giveBlock]
    · rw [hsame q hqp]
  · intro q hq
    have hq' := (hheldIff q).mp (by simpa [mem_held] using hq)
    change (kcm₁.pages q).busy = true ↔ q ∈ kcm₁.busylist
    rw [hb, hbusyNodup.mem_erase_iff]
    by_cases hqp : q = p
    · simp [hqp, hself]
    · rw [hsame q hqp, h.busyFlag q hq']
      simp [hqp]
  · intro q hq
    have hq' := (hheldIff q).mp (by simpa [mem_held] using hq)
    have hok := hpages q hq'
    refine hok.frame ?_ rfl rfl (fun _ _ => Iff.rfl) rfl
    change SameBlocks (kcm₁.pages q) _
    by_cases hqp : q = p
    · rw [hqp, hself, setPage_pages_self]
      exact ⟨rfl, rfl, rfl, rfl⟩
    · rw [hsame q hqp, setPage_pages_of_ne kcm _ hqp]
      exact ⟨rfl, rfl, rfl, rfl⟩
  · intro q hq
    have hmem : q ∈ kcm.freelist := by simpa [hf] using hq
    have hqp : q ≠ p := by
      rintro rfl
      exact hfree hmem
    change (kcm₁.pages q).refcount = 0
    rw [hsame q hqp]
    exact h.freeEmpty q (by simpa using hmem)
  · intro q hq j hj
    have hmem := hbusyNodup.mem_erase_iff.mp (hb ▸ hq)
    change bitmapState (kcm₁.pages q).bitmap j = false
    rw [hsame q hmem.1]
    exact h.busyFull q hmem.2 j hj
  · intro ptr hptr
    obtain ⟨q, hq, j, hj, heq⟩ := hblock ptr hptr
    exact ⟨q, by simpa [mem_held] using (hheldIff q).mpr hq, j, hj, heq⟩

theorem Inv.give_stay (h : Inv kcm [] out) {k : ℕ} (hk : k < kcm.blocksNr)
    (hout : blockAddr kcm p k ∈ out) (hp : p ∈ kcm.activelist) :
    Inv (kcm.setPage p (giveBlock k)) [] (out.erase (blockAddr kcm p k)) := by
  have hheld : p ∈ held kcm [] := mem_held.mpr (.inr (.inl hp))
  obtain ⟨hpages, hblock⟩ := h.give_pages hheld hk hout
  have hfree := h.not_free hheld hk hout
  obtain ⟨-, hactive, -⟩ := h.not_mem (p := p)
  have hflags : ∀ q, ((kcm.setPage p (giveBlock k)).pages q).active = (kcm.pages q).active ∧
      ((kcm.setPage p (giveBlock k)).pages q).busy = (kcm.pages q).busy := by
    intro q
    by_cases hqp : q = p
    · simp [hqp, giveBlock]
    · simp [setPage_pages_of_ne kcm _ hqp]
  refine ⟨h.geo.congr rfl rfl rfl, h.once, h.freeNr, h.activeNr, h.busyNr, ?_, ?_, hpages, ?_, ?_,
    h.outNodup.erase _, hblock⟩
  · intro q hq
    rw [(hflags q).1]
    exact h.activeFlag q hq
  · intro q hq
    rw [(hflags q).2]
    exact h.busyFlag q hq
  · intro q hq
    have hqp : q ≠ p := by
      rintro rfl
      exact hfree (by simpa using hq)
    rw [setPage_pages_of_ne kcm _ hqp]
    exact h.freeEmpty q hq
  · intro q hq j hj
    have hqp : q ≠ p := by
      rintro rfl
      exact (hactive hp).1 hq
    rw [setPage_pages_of_ne kcm _ hqp]
    exact h.busyFull q hq j hj

/-- An active page without outstanding blocks, not the first one, goes to the free list. -/
theorem Inv.retire (h : Inv kcm [] out) (hp : p ∈ kcm.activelist)
    (hhead : kcm.activelist.head? ≠ some p) (hzero : (kcm.pages p).refcount = 0) :
    let kcm₁ := kcm.listUnlink p
    Inv { kcm₁ with
      freelist := p :: kcm₁.freelist
      freePagesNr := wadd kcm₁.freePagesNr 1
      activePagesNr := wsub kcm₁.activePagesNr 1 } [] out := by
  intro kcm₁
  obtain ⟨hfree, hactive, -⟩ := h.not_mem (p := p)
  have hnotfree : p ∉ kcm.freelist := fun hmem => (hfree hmem).1 hp
  have hf : kcm₁.freelist = kcm.freelist := List.erase_of_not_mem hnotfree
  have hb : kcm₁.busylist = kcm.busylist := List.erase_of_not_mem (hactive hp).1
  have ha : kcm₁.activelist = kcm.activelist.erase p := rfl
  have hhead' : (kcm.activelist.erase p).head? = kcm.activelist.head? := by
    cases hl : kcm.activelist with
    | nil => rfl
    | cons a rest =>
      have hne : a ≠ p := by
        rintro rfl
        exact hhead (by simp [hl])
      rw [List.erase_cons_tail (by simpa using hne)]
      rfl
  have hheldIff : ∀ q, q ∈ p :: kcm₁.freelist ∨ q ∈ kcm₁.activelist ∨ q ∈ kcm₁.busylist ↔
      q ∈ held kcm [] := by
    intro q
    rw [hf, ha, hb, mem_held, List.mem_cons]
    by_cases hqp : q = p
    · simp [hqp, hp]
    · simp [hqp, List.mem_erase_of_ne hqp]
  have hlen := h.lengths
  have hpos := List.length_pos_of_mem hp
  refine ⟨h.geo.congr rfl rfl rfl, ?_, ?_, ?_, ?_, ?_, ?_, ?_, ?_, ?_, h.outNodup, ?_⟩
  · intro q
    have honce := h.once q
    have hcount := @List.count_erase ℕ _ _ q p kcm.activelist
    simp only [hf, ha, hb, List.count_nil, List.count_cons] at honce ⊢
    by_cases hqp : q = p
    · subst hqp
      have := List.count_pos_iff.mpr hp
      simp only [BEq.rfl, if_true] at hcount ⊢
      omega
    · simp only [beq_iff_eq, Ne.symm hqp, if_false] at hcount ⊢
      omega
  · change wadd kcm.freePagesNr 1 = (p :: kcm₁.freelist).length
    rw [hf, h.freeNr, List.length_cons]
    exact wadd_of_lt (by omega)
  · change wsub kcm.activePagesNr 1 = kcm₁.activelist.length
    rw [ha, h.activeNr, List.length_erase_of_mem hp]
    exact wsub_of_le hpos (by omega)
  · change kcm.busyPagesNr = kcm₁.busylist.length
    rw [hb]
    exact h.busyNr
  · intro q hq
    change (kcm.pages q).active = true ↔ (kcm.activelist.erase p).head? = some q
    rw [hhead']
    exact h.activeFlag q ((hheldIff q).mp (by simpa [mem_held] using hq))
  · intro q hq
    change (kcm.pages q).busy = true ↔ q ∈ kcm₁.busylist
    rw [hb]
    exact h.busyFlag q ((hheldIff q).mp (by simpa [mem_held] using hq))
  · intro q hq
    have hok := h.page q ((hheldIff q).mp (by simpa [mem_held] using hq))
    exact hok.frame ⟨rfl, rfl, rfl, rfl⟩ rfl rfl (fun _ _ => Iff.rfl) rfl
  · intro q hq
    change (kcm.pages q).refcount = 0
    obtain rfl | hmem : q = p ∨ q ∈ kcm.freelist := by simpa [hf] using hq
    · exact hzero
    · exact h.freeEmpty q (by simpa using hmem)
  · intro q hq j hj
    exact h.busyFull q (hb ▸ hq) j hj
  · intro ptr hptr
    obtain ⟨q, hq, j, hj, heq⟩ := h.outBlock ptr hptr
    exact ⟨q, by simpa [mem_held] using (hheldIff q).mpr hq, j, hj, heq⟩

theorem Inv.putBlock (h : Inv kcm [] out) {ptr : ℕ} (hptr : ptr ∈ out)
    (hne : kcm.activelist ≠ []) : Inv (Kcm.putBlock kcm ptr) [] (out.erase ptr) ∧
      (Kcm.putBlock kcm ptr).activelist ≠ [] := by
  obtain ⟨hheld, k, hk, heq⟩ := h.block_of_mem hptr
  generalize hp : pageOf ptr = p at *
  subst heq
  have hpage := h.page p hheld
  have hindex : wsub (blockAddr kcm p k) (kcm.pages p).blkTbl / kcm.size = k := by
    have hfit := h.geo.block_lt hk
    have hal := hpage.aligned
    have hsm := hpage.small
    have hpos := h.geo.size_pos
    have hsub : wsub (blockAddr kcm p k) (p + header) = k * kcm.size := by
      unfold blockAddr
      rw [wsub_of_le (by omega) (by unfold kcmPageSize at *; omega)]
      omega
    rw [hpage.table, hsub]
    exact Nat.mul_div_cancel _ h.geo.size_pos
  have hnotfree := h.not_free hheld hk hptr
  by_cases hbusy : (kcm.pages p).busy = true
  · have hmem := (h.busyFlag p hheld).mp hbusy
    have hgive := h.give_busy hk hptr hmem hne
    have hbusy' : (giveBlock k (kcm.pages p)).busy = true := hbusy
    refine ⟨by simpa [Kcm.putBlock, hp, hindex, hbusy'] using hgive, ?_⟩
    simp [Kcm.putBlock, hp, hindex, hbusy']
  · have hnb : (kcm.pages p).busy = false := by simpa using hbusy
    have hbusy' : (giveBlock k (kcm.pages p)).busy = false := hnb
    have hmem : p ∈ kcm.activelist := by
      have hbl : p ∉ kcm.busylist := fun hb => hbusy ((h.busyFlag p hheld).mpr hb)
      simpa [mem_held, hnotfree, hbl] using hheld
    have hstay := h.give_stay hk hptr hmem
    have hact : (giveBlock k (kcm.pages p)).active = (kcm.pages p).active := rfl
    by_cases hretire : (kcm.pages p).active = false ∧ (giveBlock k (kcm.pages p)).refcount = 0
    · have hhead : kcm.activelist.head? ≠ some p := by
        intro hh
        have := (h.activeFlag p hheld).mpr hh
        simp [hretire.1] at this
      have hret := hstay.retire hmem hhead (by simpa using hretire.2)
      refine ⟨by simpa [Kcm.putBlock, hp, hindex, hbusy', hact, hretire] using hret, ?_⟩
      simp only [Kcm.putBlock, hp, hindex, setPage_pages_self, hbusy', hact, hretire]
      cases hl : kcm.activelist with
      | nil => exact absurd hl hne
      | cons a rest =>
        have hap : a ≠ p := by
          rintro rfl
          exact hhead (by simp [hl])
        simp [listUnlink, hl, List.erase_cons_tail, hap]
    · have heq : Kcm.putBlock kcm (blockAddr kcm p k) = kcm.setPage p (giveBlock k) := by
        simp only [Kcm.putBlock, hp, hindex, setPage_pages_self, hbusy', hact]
        simp [hretire]
      rw [heq]
      exact ⟨hstay, hne⟩

end Moves

end Almos.Kcm
