import Mathlib
import Almos.Ext2Alloc

/-!
# Bitmaps, counters and hints of ext2 agree

Block allocation keeps the counters equal to the numbers of clear bits and every hint at or below
the lowest clear bit, as long as the group it falls back to exists: after the mount of a full volume
the hint for the group is -1. The inode bitmaps agree only because nothing reaches them, since an
entry loaded by `ext2_group_init` has the block bitmap in their place.
-/
namespace Almos.Ext2
open Bits

variable {ctx : Volume} {st st' st'' : AllocState}

lemma bits_le (ctx : Volume) : ctx.bits ≤ 2 ^ 15 := by
  have hpow : 2 ^ ctx.size.blkSizeLog ≤ 2 ^ 12 := Nat.pow_le_pow_right (by omega) ctx.size.log_le
  rw [Volume.bits, Volume.blkSize]
  omega

lemma cpuWidth_dvd_bits (ctx : Volume) : cpuWidth ∣ ctx.blkSize * 8 := by
  have hsplit : ctx.size.blkSizeLog = 10 + (ctx.size.blkSizeLog - 10) := by
    have hge := ctx.size.log_ge
    omega
  refine ⟨2 ^ 8 * 2 ^ (ctx.size.blkSizeLog - 10), ?_⟩
  rw [Volume.blkSize, hsplit, pow_add, cpuWidth]
  simp only [Nat.add_sub_cancel_left]
  ring

lemma blksPerGrp_le (ctx : Volume) : ctx.blksPerGrp ≤ ctx.bits := ctx.blks_le

lemma div_lt_groupCount {b : ℕ} (hb : b < ctx.blocksCount) :
    b / ctx.blksPerGrp < ctx.groupCount := by
  have hpos := ctx.blks_pos
  have hmod := Nat.div_add_mod ctx.blocksCount ctx.blksPerGrp
  have hlt := Nat.mod_lt ctx.blocksCount hpos
  have hle : b / ctx.blksPerGrp ≤ ctx.blocksCount / ctx.blksPerGrp := Nat.div_le_div_right hb.le
  unfold Volume.groupCount
  split_ifs with hrest
  · omega
  · rw [mul_comm] at hrest
    apply (Nat.div_lt_iff_lt_mul hpos).mpr
    rw [mul_comm]
    omega

lemma groupCount_pos (ctx : Volume) : 0 < ctx.groupCount :=
  lt_of_le_of_lt (Nat.zero_le _) (div_lt_groupCount ctx.blocks_pos)

lemma groupCount_lt (ctx : Volume) : ctx.groupCount < 2 ^ 32 := by
  have hblocks := ctx.blocks_lt
  have hle : ctx.blocksCount / ctx.blksPerGrp ≤ ctx.blocksCount := Nat.div_le_self _ _
  unfold Volume.groupCount
  split_ifs with hrest
  · rcases Nat.lt_or_ge 1 ctx.blksPerGrp with hone | hone
    · have hless := Nat.div_lt_self ctx.blocks_pos hone
      omega
    · have heq : ctx.blksPerGrp = 1 := by
        have hpos := ctx.blks_pos
        omega
      rw [heq] at hrest
      simp at hrest
  · omega

lemma next_group {index : ℕ} (h : index < ctx.groupCount) :
    (index + 1) % 2 ^ 32 % ctx.groupCount = (index + 1) % ctx.groupCount := by
  have hlt := groupCount_lt ctx
  rw [Nat.mod_eq_of_lt (show index + 1 < 2 ^ 32 by omega)]

/-- No block is the bitmap of two groups, or the bitmap of both blocks and inodes. -/
structure Separate (ctx : Volume) : Prop where
  block : ∀ g g', g < ctx.groupCount → g' < ctx.groupCount →
    ctx.blockBitmap g = ctx.blockBitmap g' → g = g'
  inode : ∀ g g', g < ctx.groupCount → g' < ctx.groupCount → ctx.blockBitmap g ≠ ctx.inodeBitmap g'

/-- A bitmap of which the bits in `real` stand for something: the others are set, the count is that
of the clear bits and the hint is not past one of them. -/
structure BitmapOk (bits : ℕ) (real : ℕ → Prop) (bitmap : Bitmap) (count hint : ℕ) : Prop where
  past : ∀ i < bits, ¬real i → bitmapState bitmap i = true
  count : count = clearBits bitmap bits
  hint : ∀ i < bits, bitmapState bitmap i = false → hint ≤ i

namespace BitmapOk
variable {real : ℕ → Prop} {bitmap : Bitmap} {count hint k : ℕ}

lemma load (h : BitmapOk ctx.bits real bitmap count hint) :
    BitmapOk ctx.bits real bitmap count (uint16 (bitmapFfc bitmap ctx.blkSize)) := by
  refine ⟨h.past, h.count, fun i hi hclear => ?_⟩
  have hspec := bitmapFfc_spec bitmap (cpuWidth_dvd_bits ctx)
  have hbits := bits_le ctx
  cases hffc : bitmapFfc bitmap ctx.blkSize with
  | none =>
    rw [hffc] at hspec
    have hset := hspec i (Nat.zero_le i) hi
    rw [hclear] at hset
    cases hset
  | some k =>
    rw [hffc] at hspec
    obtain ⟨-, hk, -, hbefore⟩ := hspec
    have hkbits : k < ctx.bits := hk
    rw [uint16, Nat.mod_eq_of_lt (by omega)]
    by_contra hlt
    have hset := hbefore i (Nat.zero_le i) (by omega)
    rw [hclear] at hset
    cases hset

lemma search (h : BitmapOk ctx.bits real bitmap count hint) (hcount : 0 < count) (n : ℕ) :
    ∃ k, bitmapFfc2 bitmap (if hint = n then 0 else hint) ctx.blkSize = some k ∧ k < ctx.bits ∧
      bitmapState bitmap k = false ∧ ∀ i < ctx.bits, bitmapState bitmap i = false → k ≤ i := by
  obtain ⟨i, hi, hclear⟩ := clearBits_pos_iff.mp (h.count ▸ hcount)
  obtain ⟨start, hstart⟩ : ∃ start, start = if hint = n then 0 else hint := ⟨_, rfl⟩
  have hle : start ≤ hint := by
    rw [hstart]
    split_ifs <;> omega
  have hhint := h.hint i hi hclear
  have hinside : start < ctx.blkSize * 8 := by
    have hbits : i < ctx.blkSize * 8 := hi
    omega
  have hspec := bitmapFfc2_spec bitmap hinside (cpuWidth_dvd_bits ctx)
  rw [← hstart]
  cases hffc : bitmapFfc2 bitmap start ctx.blkSize with
  | none =>
    rw [hffc] at hspec
    have hset := hspec i (by omega) hi
    rw [hclear] at hset
    cases hset
  | some k =>
    rw [hffc] at hspec
    obtain ⟨-, hk, hkclear, hbefore⟩ := hspec
    refine ⟨k, rfl, hk, hkclear, fun j hj hjclear => ?_⟩
    by_contra hlt
    have hset := hbefore j (hle.trans (h.hint j hj hjclear)) (by omega)
    rw [hjclear] at hset
    cases hset

lemma found (h : BitmapOk ctx.bits real bitmap count hint) (hcount : count ≠ 0) :
    ∃ k, bitmapFfc bitmap ctx.blkSize = some k ∧ k < ctx.bits ∧ bitmapState bitmap k = false := by
  obtain ⟨i, hi, hclear⟩ := clearBits_pos_iff.mp (h.count ▸ Nat.pos_of_ne_zero hcount)
  have hspec := bitmapFfc_spec bitmap (cpuWidth_dvd_bits ctx)
  cases hffc : bitmapFfc bitmap ctx.blkSize with
  | none =>
    rw [hffc] at hspec
    have hset := hspec i (Nat.zero_le i) hi
    rw [hclear] at hset
    cases hset
  | some k =>
    rw [hffc] at hspec
    exact ⟨k, rfl, hspec.2.1, hspec.2.2.1⟩

lemma real_of_clear (h : BitmapOk ctx.bits real bitmap count hint) (hk : k < ctx.bits)
    (hclear : bitmapState bitmap k = false) : real k := by
  by_contra hreal
  have hset := h.past k hk hreal
  rw [hclear] at hset
  cases hset

lemma set (h : BitmapOk ctx.bits real bitmap count hint) (hk : k < ctx.bits)
    (hclear : bitmapState bitmap k = false)
    (hleast : ∀ i < ctx.bits, bitmapState bitmap i = false → k ≤ i) :
    BitmapOk ctx.bits real (bitmapSet bitmap k) (count - 1) ((k + 1) % 2 ^ 16) := by
  have hbits := bits_le ctx
  constructor
  · intro i hi hreal
    rw [bitmapState_bitmapSet, h.past i hi hreal, Bool.true_or]
  · have hcount := clearBits_bitmapSet hk hclear
    rw [h.count]
    omega
  · intro i hi hstill
    rw [bitmapState_bitmapSet, Bool.or_eq_false_iff, decide_eq_false_iff_not] at hstill
    have hle := hleast i hi hstill.1
    rw [Nat.mod_eq_of_lt (by omega)]
    omega

lemma clear (h : BitmapOk ctx.bits real bitmap count hint) (hk : k < ctx.bits) (hreal : real k)
    (hset : bitmapState bitmap k = true) :
    BitmapOk ctx.bits real (bitmapClear bitmap k) ((count + 1) % 2 ^ 16)
      (if k < hint then k else hint) := by
  have hbits := bits_le ctx
  constructor
  · intro i hi hnot
    have hne : i ≠ k := by
      rintro rfl
      exact hnot hreal
    simp [h.past i hi hnot, hne]
  · have hle := clearBits_le bitmap ctx.bits
    rw [clearBits_bitmapClear hk hset, ← h.count]
    have hcount := h.count
    apply Nat.mod_eq_of_lt
    omega
  · intro i hi hclear
    rcases eq_or_ne i k with rfl | hne
    · split_ifs <;> omega
    · have hold : bitmapState bitmap i = false := by simpa [hne] using hclear
      have hle := h.hint i hi hold
      split_ifs <;> omega

end BitmapOk

/-- Bit `i` of group `g` stands for a block of the volume. -/
def BlkReal (ctx : Volume) (g i : ℕ) : Prop :=
  i < ctx.blksPerGrp ∧ g * ctx.blksPerGrp + i < ctx.blocksCount

/-- The entries of the groups are those `ext2_group_init` makes, their bitmaps, counts and hints
agree and the superblock has the sums. -/
structure AllocOk (ctx : Volume) (st : AllocState) : Prop where
  loaded : ∀ g < ctx.groupCount, (st.groups g).blockBitmap = ctx.blockBitmap g
  blk : ∀ g < ctx.groupCount, BitmapOk ctx.bits (BlkReal ctx g)
    (st.cache.data (ctx.blockBitmap g)) (st.groups g).freeBlocksCount (st.groups g).nextBlk
  ino : ∀ g < ctx.groupCount, BitmapOk ctx.bits (fun i => i < ctx.inodesPerGrp)
    (st.cache.data (ctx.inodeBitmap g)) (st.groups g).freeInodesCount (st.groups g).nextIno
  blkSum : st.freeBlocksCount = ∑ g ∈ Finset.range ctx.groupCount, (st.groups g).freeBlocksCount
  inoSum : st.freeInodesCount = ∑ g ∈ Finset.range ctx.groupCount, (st.groups g).freeInodesCount

def freeBlocks (ctx : Volume) (st : AllocState) : Finset ℕ :=
  (Finset.range ctx.blocksCount).filter fun b => st.blkBit ctx b = false

lemma mem_freeBlocks {b : ℕ} :
    b ∈ freeBlocks ctx st ↔ b < ctx.blocksCount ∧ st.blkBit ctx b = false := by
  rw [freeBlocks, Finset.mem_filter, Finset.mem_range]

lemma blk_div (ctx : Volume) {g i : ℕ} (hi : i < ctx.blksPerGrp) :
    (g * ctx.blksPerGrp + i) / ctx.blksPerGrp = g := by
  rw [mul_comm, Nat.mul_add_div ctx.blks_pos, Nat.div_eq_of_lt hi, Nat.add_zero]

lemma blk_mod (ctx : Volume) {g i : ℕ} (hi : i < ctx.blksPerGrp) :
    (g * ctx.blksPerGrp + i) % ctx.blksPerGrp = i := by
  rw [mul_comm, Nat.mul_add_mod, Nat.mod_eq_of_lt hi]

lemma blkBit_eq {g i : ℕ} (hi : i < ctx.blksPerGrp) :
    st.blkBit ctx (g * ctx.blksPerGrp + i) =
      bitmapState (st.cache.data (ctx.blockBitmap g)) i := by
  rw [AllocState.blkBit, blk_div ctx hi, blk_mod ctx hi]

lemma card_group (h : AllocOk ctx st) {g : ℕ} (hg : g < ctx.groupCount) :
    ((freeBlocks ctx st).filter fun b => b / ctx.blksPerGrp = g).card =
      (st.groups g).freeBlocksCount := by
  rw [(h.blk g hg).count, clearBits]
  apply Finset.card_bij (fun b _ => b % ctx.blksPerGrp)
  · intro b hb
    rw [Finset.mem_filter, mem_freeBlocks] at hb
    obtain ⟨⟨hlt, hclear⟩, rfl⟩ := hb
    rw [Finset.mem_filter, Finset.mem_range]
    exact ⟨lt_of_lt_of_le (Nat.mod_lt _ ctx.blks_pos) (blksPerGrp_le ctx), hclear⟩
  · intro b hb b' hb' hmod
    rw [Finset.mem_filter] at hb hb'
    rw [← Nat.div_add_mod b ctx.blksPerGrp, ← Nat.div_add_mod b' ctx.blksPerGrp, hb.2, hb'.2, hmod]
  · intro i hi
    rw [Finset.mem_filter, Finset.mem_range] at hi
    obtain ⟨hper, hlt⟩ := (h.blk g hg).real_of_clear hi.1 hi.2
    refine ⟨g * ctx.blksPerGrp + i, ?_, blk_mod ctx hper⟩
    rw [Finset.mem_filter, mem_freeBlocks, blkBit_eq hper]
    exact ⟨⟨hlt, hi.2⟩, blk_div ctx hper⟩

lemma AllocOk.free_eq_card (h : AllocOk ctx st) :
    st.freeBlocksCount = (freeBlocks ctx st).card := by
  rw [h.blkSum, Finset.card_eq_sum_card_fiberwise (f := fun b => b / ctx.blksPerGrp)
    (t := Finset.range ctx.groupCount)]
  · apply Finset.sum_congr rfl
    intro g hg
    rw [card_group h (Finset.mem_range.mp hg)]
  · intro b hb
    rw [Finset.mem_coe, mem_freeBlocks] at hb
    rw [Finset.mem_coe, Finset.mem_range]
    exact div_lt_groupCount hb.1

lemma AllocOk.free_le (h : AllocOk ctx st) : st.freeBlocksCount ≤ ctx.blocksCount := by
  have hle := Finset.card_filter_le (Finset.range ctx.blocksCount)
    fun b => st.blkBit ctx b = false
  rw [Finset.card_range] at hle
  rw [h.free_eq_card]
  exact hle

lemma AllocOk.free_lt (h : AllocOk ctx st) {b : ℕ} (hb : b < ctx.blocksCount)
    (hset : st.blkBit ctx b = true) : st.freeBlocksCount < ctx.blocksCount := by
  rw [h.free_eq_card, ← Finset.card_range ctx.blocksCount]
  apply Finset.card_lt_card
  refine Finset.filter_ssubset.mpr ⟨b, Finset.mem_range.mpr hb, ?_⟩
  simp [hset]

structure Unchanged (ctx : Volume) (st st' : AllocState) : Prop where
  cache : st'.cache = st.cache
  blkCount : ∀ g, (st'.groups g).freeBlocksCount = (st.groups g).freeBlocksCount
  blkSum : st'.freeBlocksCount = st.freeBlocksCount
  inoSum : st'.freeInodesCount = st.freeInodesCount
  last : st.lastFreeBlkGrp < ctx.groupCount → st'.lastFreeBlkGrp < ctx.groupCount

lemma Unchanged.refl (st : AllocState) : Unchanged ctx st st :=
  ⟨rfl, fun _ => rfl, rfl, rfl, id⟩

lemma Unchanged.trans (h : Unchanged ctx st st') (h' : Unchanged ctx st' st'') :
    Unchanged ctx st st'' :=
  ⟨h'.cache.trans h.cache, fun g => (h'.blkCount g).trans (h.blkCount g),
    h'.blkSum.trans h.blkSum, h'.inoSum.trans h.inoSum, fun hlast => h'.last (h.last hlast)⟩

lemma Unchanged.blkBit (h : Unchanged ctx st st') (b : ℕ) : st'.blkBit ctx b = st.blkBit ctx b := by
  rw [AllocState.blkBit, AllocState.blkBit, h.cache]

lemma sum_change (f f' : ℕ → ℕ) {n g : ℕ} (hg : g < n) (hother : ∀ g', g' ≠ g → f' g' = f g') :
    ∑ k ∈ Finset.range n, f' k + f g = ∑ k ∈ Finset.range n, f k + f' g := by
  have hmem : g ∈ Finset.range n := Finset.mem_range.mpr hg
  have hrest : ∑ k ∈ (Finset.range n).erase g, f' k = ∑ k ∈ (Finset.range n).erase g, f k := by
    apply Finset.sum_congr rfl
    intro k hk
    exact hother k (Finset.ne_of_mem_erase hk)
  rw [← Finset.add_sum_erase _ f' hmem, ← Finset.add_sum_erase _ f hmem, hrest]
  omega

lemma AllocOk.change {g : ℕ} (h : AllocOk ctx st) (hsep : Separate ctx) (hg : g < ctx.groupCount)
    (hdata : ∀ b, b ≠ ctx.blockBitmap g → st'.cache.data b = st.cache.data b)
    (hother : ∀ g', g' ≠ g → st'.groups g' = st.groups g')
    (hloaded : (st'.groups g).blockBitmap = ctx.blockBitmap g)
    (hblk : BitmapOk ctx.bits (BlkReal ctx g) (st'.cache.data (ctx.blockBitmap g))
      (st'.groups g).freeBlocksCount (st'.groups g).nextBlk)
    (hino : BitmapOk ctx.bits (fun i => i < ctx.inodesPerGrp) (st.cache.data (ctx.inodeBitmap g))
      (st.groups g).freeInodesCount (st'.groups g).nextIno)
    (hinoCount : (st'.groups g).freeInodesCount = (st.groups g).freeInodesCount)
    (hinoSum : st'.freeInodesCount = st.freeInodesCount)
    (hsum : st'.freeBlocksCount + (st.groups g).freeBlocksCount =
      st.freeBlocksCount + (st'.groups g).freeBlocksCount) : AllocOk ctx st' := by
  have hinoData : ∀ g' < ctx.groupCount,
      st'.cache.data (ctx.inodeBitmap g') = st.cache.data (ctx.inodeBitmap g') :=
    fun g' hg' => hdata _ (hsep.inode g g' hg hg').symm
  constructor
  · intro g' hg'
    rcases eq_or_ne g' g with rfl | hne
    · exact hloaded
    · rw [hother g' hne, h.loaded g' hg']
  · intro g' hg'
    rcases eq_or_ne g' g with rfl | hne
    · exact hblk
    · rw [hother g' hne, hdata _ fun hsame => hne (hsep.block g' g hg' hg hsame)]
      exact h.blk g' hg'
  · intro g' hg'
    rw [hinoData g' hg']
    rcases eq_or_ne g' g with rfl | hne
    · rw [hinoCount]
      exact hino
    · rw [hother g' hne]
      exact h.ino g' hg'
  · have hchange := sum_change (fun g => (st.groups g).freeBlocksCount)
      (fun g => (st'.groups g).freeBlocksCount) hg fun g' hne => by rw [hother g' hne]
    have hold := h.blkSum
    omega
  · rw [hinoSum, h.inoSum]
    apply Finset.sum_congr rfl
    intro g' _
    rcases eq_or_ne g' g with rfl | hne
    · exact hinoCount.symm
    · rw [hother g' hne]

lemma groupGet_spec (h : AllocOk ctx st) (hsep : Separate ctx) {g : ℕ} (hg : g < ctx.groupCount)
    (load : Bool) :
    ∃ st', groupGet ctx st g load = .ok st' ∧ AllocOk ctx st' ∧ Unchanged ctx st st' := by
  cases load with
  | false => exact ⟨st, rfl, h, .refl st⟩
  | true =>
    have hblk := h.blk g hg
    have hino := h.ino g hg
    have hblkOk : ¬(bitmapFfc (st.cache.data (ctx.blockBitmap g)) ctx.blkSize = none ∧
        (st.groups g).freeBlocksCount ≠ 0) := by
      rintro ⟨hnone, hcount⟩
      obtain ⟨k, hk, -, -⟩ := hblk.found hcount
      rw [hnone] at hk
      cases hk
    have hinoOk : ¬((st.groups g).freeInodesCount ≠ 0 ∧ ∀ index ∈
        bitmapFfc (st.cache.data (ctx.inodeBitmap g)) ctx.blkSize, ctx.inodesPerGrp ≤ index) := by
      rintro ⟨hcount, hpast⟩
      obtain ⟨k, hk, hbits, hclear⟩ := hino.found hcount
      have hreal : k < ctx.inodesPerGrp := hino.real_of_clear hbits hclear
      have hle := hpast k hk
      omega
    rw [groupGet, if_pos rfl]
    simp only [ext2GroupInit, if_neg hblkOk, if_neg hinoOk]
    refine ⟨_, rfl, ?_, ?_⟩
    · apply h.change hsep hg
      · exact fun _ _ => rfl
      · intro g' hne
        exact Function.update_of_ne hne _ _
      · simp [AllocState.setGroup]
      · simpa [AllocState.setGroup] using hblk.load
      · simpa [AllocState.setGroup] using hino.load
      · simp [AllocState.setGroup]
      · rfl
      · simp [AllocState.setGroup]
    · refine ⟨rfl, fun g' => ?_, rfl, rfl, fun hlast => ?_⟩
      · rcases eq_or_ne g' g with rfl | hne
        · simp [AllocState.setGroup]
        · simp [AllocState.setGroup, hne]
      · change lowerHint g (st.groups g).freeBlocksCount st.lastFreeBlkGrp < ctx.groupCount
        unfold lowerHint
        split_ifs
        · exact hg
        · exact hlast

structure BitChanged (ctx : Volume) (st st' : AllocState) (blkid : ℕ) (new : Bool) : Prop where
  lt : blkid < ctx.blocksCount
  old : st.blkBit ctx blkid = !new
  new : st'.blkBit ctx blkid = new
  other : ∀ b, b ≠ blkid → b < ctx.blocksCount → st'.blkBit ctx b = st.blkBit ctx b
  inode : ∀ g < ctx.groupCount,
    st'.cache.data (ctx.inodeBitmap g) = st.cache.data (ctx.inodeBitmap g)

lemma BitChanged.of_unchanged {blkid : ℕ} {new : Bool} (hsame : Unchanged ctx st st')
    (h : BitChanged ctx st' st'' blkid new) : BitChanged ctx st st'' blkid new := by
  refine ⟨h.lt, ?_, h.new, fun b hne hb => ?_, fun g hg => ?_⟩
  · rw [← hsame.blkBit, h.old]
  · rw [h.other b hne hb, hsame.blkBit]
  · rw [h.inode g hg, hsame.cache]

lemma BitChanged.of_data {b g i : ℕ} {new : Bool} (hsep : Separate ctx)
    (hb : b < ctx.blocksCount) (hdiv : b / ctx.blksPerGrp = g) (hmod : b % ctx.blksPerGrp = i)
    (hold : bitmapState (st.cache.data (ctx.blockBitmap g)) i = !new)
    (hdata : ∀ b, b ≠ ctx.blockBitmap g → st'.cache.data b = st.cache.data b)
    (hnew : bitmapState (st'.cache.data (ctx.blockBitmap g)) i = new)
    (hother : ∀ j, j ≠ i → bitmapState (st'.cache.data (ctx.blockBitmap g)) j =
      bitmapState (st.cache.data (ctx.blockBitmap g)) j) : BitChanged ctx st st' b new := by
  subst hdiv hmod
  have hg := div_lt_groupCount hb
  refine ⟨hb, hold, hnew, ?_, ?_⟩
  · intro b' hne hb'
    rw [AllocState.blkBit, AllocState.blkBit]
    by_cases hgroup : b' / ctx.blksPerGrp = b / ctx.blksPerGrp
    · rw [hgroup]
      apply hother
      intro hmod
      apply hne
      rw [← Nat.div_add_mod b' ctx.blksPerGrp, ← Nat.div_add_mod b ctx.blksPerGrp, hgroup, hmod]
    · rw [hdata]
      intro hsame
      exact hgroup (hsep.block _ _ (div_lt_groupCount hb') hg hsame)
  · intro g' hg'
    exact hdata _ (hsep.inode _ g' hg hg').symm

lemma ext2DoBalloc_some (h : AllocOk ctx st) (hsep : Separate ctx) {g : ℕ}
    (hg : g < ctx.groupCount) (hcount : 0 < (st.groups g).freeBlocksCount) (load : Bool) :
    ∃ st' blkid, ext2DoBalloc ctx st g load = (st', .ok blkid) ∧ AllocOk ctx st' ∧
      BitChanged ctx st st' blkid true := by
  obtain ⟨st₁, hget, hok, hsame⟩ := groupGet_spec h hsep hg load
  have hcount₁ : 0 < (st₁.groups g).freeBlocksCount := by rwa [hsame.blkCount]
  have hblk := hok.blk g hg
  have hloaded := hok.loaded g hg
  obtain ⟨k, hsearch, hk, hclear, hleast⟩ := hblk.search hcount₁ ctx.blksPerGrp
  obtain ⟨hper, hlt⟩ := hblk.real_of_clear hk hclear
  have hblkid : (g * ctx.blksPerGrp + k) % 2 ^ 32 = g * ctx.blksPerGrp + k :=
    Nat.mod_eq_of_lt (hlt.trans ctx.blocks_lt)
  rw [ext2DoBalloc, hget]
  simp only [if_pos hcount₁, ext2GroupBalloc, hloaded, hsearch, hblkid]
  have hsum := Finset.single_le_sum (f := fun g => (st₁.groups g).freeBlocksCount)
    (fun _ _ => Nat.zero_le _) (Finset.mem_range.mpr hg)
  simp only [← hok.blkSum] at hsum
  have hfree := hok.free_le
  have hblocks := ctx.blocks_lt
  have hdec : (st₁.freeBlocksCount + (2 ^ 32 - 1)) % 2 ^ 32 = st₁.freeBlocksCount - 1 := by omega
  refine ⟨_, _, rfl, ?_, .of_unchanged hsame ?_⟩
  · apply hok.change hsep hg
    · intro b hb
      simp [AllocState.setGroup, AllocState.putBitmap, ext2BlkPut, BlkCache.write, hb]
    · intro g' hne
      simp [AllocState.setGroup, AllocState.putBitmap, hne]
    · simp [AllocState.setGroup, AllocState.putBitmap]
    · simpa [AllocState.setGroup, AllocState.putBitmap, ext2BlkPut, BlkCache.write] using
        hblk.set hk hclear hleast
    · simpa [AllocState.setGroup, AllocState.putBitmap] using hok.ino g hg
    · simp [AllocState.setGroup, AllocState.putBitmap]
    · rfl
    · simp only [AllocState.setGroup, AllocState.putBitmap, hdec, Function.update_self]
      omega
  · apply BitChanged.of_data hsep hlt (blk_div ctx hper) (blk_mod ctx hper) hclear
    · intro b hb
      simp [AllocState.setGroup, AllocState.putBitmap, ext2BlkPut, BlkCache.write, hb]
    · simp [AllocState.setGroup, AllocState.putBitmap, ext2BlkPut, BlkCache.write]
    · intro j hj
      simp [AllocState.setGroup, AllocState.putBitmap, ext2BlkPut, BlkCache.write, hj]

lemma ext2DoBalloc_none (h : AllocOk ctx st) (hsep : Separate ctx) {g : ℕ}
    (hg : g < ctx.groupCount) (hcount : (st.groups g).freeBlocksCount = 0) (load : Bool) :
    ∃ st', ext2DoBalloc ctx st g load = (st', .error .failed) ∧ AllocOk ctx st' ∧
      Unchanged ctx st st' := by
  obtain ⟨st₁, hget, hok, hsame⟩ := groupGet_spec h hsep hg load
  have hcount₁ : ¬0 < (st₁.groups g).freeBlocksCount := by
    rw [hsame.blkCount]
    omega
  rw [ext2DoBalloc, hget]
  simp only [if_neg hcount₁]
  split_ifs
  · refine ⟨_, rfl, ⟨hok.loaded, hok.blk, hok.ino, hok.blkSum, hok.inoSum⟩, hsame.trans ?_⟩
    refine ⟨rfl, fun _ => rfl, rfl, rfl, fun _ => ?_⟩
    exact Nat.mod_lt _ (groupCount_pos ctx)
  · exact ⟨st₁, rfl, hok, hsame⟩

lemma retryLoop_finds (h : AllocOk ctx st) (hsep : Separate ctx) (load : ℕ → Bool)
    {todo d index : ℕ} (hindex : index < ctx.groupCount) (hd : d < todo)
    (hcount : 0 < (st.groups ((index + d) % ctx.groupCount)).freeBlocksCount)
    (hfree : 0 < st.freeBlocksCount) :
    ∃ st' blkid, retryLoop ctx AllocState.freeBlocksCount (ext2DoBalloc ctx) load todo st index =
      (st', .ok blkid) ∧ AllocOk ctx st' ∧ BitChanged ctx st st' blkid true := by
  induction todo generalizing st d index with
  | zero => omega
  | succ todo ih =>
    rw [retryLoop, if_pos hfree]
    by_cases hhere : 0 < (st.groups index).freeBlocksCount
    · obtain ⟨st', blkid, hdo, hok, hchanged⟩ :=
        ext2DoBalloc_some h hsep hindex hhere (load (todo + 1))
      rw [hdo]
      exact ⟨st', blkid, rfl, hok, hchanged⟩
    · have hnext := next_group hindex
      obtain ⟨st₁, hdo, hok, hsame⟩ :=
        ext2DoBalloc_none h hsep hindex (Nat.eq_zero_of_not_pos hhere) (load (todo + 1))
      have hd0 : d ≠ 0 := by
        rintro rfl
        rw [Nat.add_zero, Nat.mod_eq_of_lt hindex] at hcount
        exact hhere hcount
      have hplace : ((index + 1) % ctx.groupCount + (d - 1)) % ctx.groupCount =
          (index + d) % ctx.groupCount := by
        rw [Nat.mod_add_mod]
        congr 1
        omega
      rw [hdo]
      simp only [hnext]
      obtain ⟨st', blkid, hloop, hok', hchanged⟩ := ih (d := d - 1) hok
        (Nat.mod_lt _ (groupCount_pos ctx)) (by omega)
        (by rw [hplace, hsame.blkCount]; exact hcount) (by rw [hsame.blkSum]; exact hfree)
      exact ⟨st', blkid, hloop, hok', .of_unchanged hsame hchanged⟩

/-- The group `ext2_balloc` falls back to exists, if it comes to that. -/
def HintOk (ctx : Volume) (st : AllocState) (grpId : ℕ) : Prop :=
  st.freeBlocksCount = 0 ∨ 0 < (st.groups grpId).freeBlocksCount ∨
    st.lastFreeBlkGrp < ctx.groupCount

lemma ext2Balloc_spec (h : AllocOk ctx st) (hsep : Separate ctx) {g : ℕ}
    (hg : g < ctx.groupCount) (hhint : HintOk ctx st g) (load : ℕ → Bool) :
    (st.freeBlocksCount = 0 ∧ ext2Balloc ctx st g load = (st, .error .enospc)) ∨
      ∃ st' blkid, ext2Balloc ctx st g load = (st', .ok blkid) ∧ AllocOk ctx st' ∧
        BitChanged ctx st st' blkid true := by
  by_cases hzero : st.freeBlocksCount = 0
  · exact .inl ⟨hzero, by rw [ext2Balloc, if_pos hzero]⟩
  · right
    rw [ext2Balloc, if_neg hzero]
    by_cases hhere : 0 < (st.groups g).freeBlocksCount
    · obtain ⟨st', blkid, hdo, hok, hchanged⟩ := ext2DoBalloc_some h hsep hg hhere (load 0)
      rw [hdo]
      exact ⟨st', blkid, rfl, hok, hchanged⟩
    · have hlast : st.lastFreeBlkGrp < ctx.groupCount := by
        rcases hhint with hnone | hsome | hlast
        · exact absurd hnone hzero
        · exact absurd hsome hhere
        · exact hlast
      obtain ⟨st₁, hdo, hok, hsame⟩ :=
        ext2DoBalloc_none h hsep hg (Nat.eq_zero_of_not_pos hhere) (load 0)
      obtain ⟨g', hg', hcount⟩ : ∃ g' < ctx.groupCount, 0 < (st.groups g').freeBlocksCount := by
        by_contra hnone
        apply hzero
        rw [h.blkSum]
        apply Finset.sum_eq_zero
        intro g' hg'
        by_contra hne
        exact hnone ⟨g', Finset.mem_range.mp hg', Nat.pos_of_ne_zero hne⟩
      have hlast₁ := hsame.last hlast
      -- how far the group is from the one where the loop starts
      obtain ⟨d, hd, hplace⟩ : ∃ d < ctx.groupCount,
          (st₁.lastFreeBlkGrp + d) % ctx.groupCount = g' := by
        rcases le_total st₁.lastFreeBlkGrp g' with hle | hle
        · exact ⟨g' - st₁.lastFreeBlkGrp, by omega, by
            rw [Nat.add_sub_cancel' hle, Nat.mod_eq_of_lt hg']⟩
        · rcases hle.eq_or_lt with heq | hlt
          · exact ⟨0, groupCount_pos ctx, by rw [Nat.add_zero, ← heq, Nat.mod_eq_of_lt hg']⟩
          · refine ⟨ctx.groupCount - st₁.lastFreeBlkGrp + g', by omega, ?_⟩
            have hsum : st₁.lastFreeBlkGrp + (ctx.groupCount - st₁.lastFreeBlkGrp + g') =
                g' + ctx.groupCount := by omega
            rw [hsum, Nat.add_mod_right, Nat.mod_eq_of_lt hg']
      rw [hdo]
      simp only
      obtain ⟨st', blkid, hloop, hok', hchanged⟩ := retryLoop_finds hok hsep load hlast₁
        (show d < 2 * ctx.groupCount by omega) (by rw [hplace, hsame.blkCount]; exact hcount)
        (by rw [hsame.blkSum]; exact Nat.pos_of_ne_zero hzero)
      exact ⟨st', blkid, hloop, hok', .of_unchanged hsame hchanged⟩

lemma ext2Bfree_spec (h : AllocOk ctx st) (hsep : Separate ctx) {b : ℕ}
    (hb : b < ctx.blocksCount) (hset : st.blkBit ctx b = true) (load : Bool) :
    ∃ st', ext2Bfree ctx st b load = .ok st' ∧ AllocOk ctx st' ∧
      BitChanged ctx st st' b false := by
  have hg := div_lt_groupCount hb
  have hi : b % ctx.blksPerGrp < ctx.blksPerGrp := Nat.mod_lt _ ctx.blks_pos
  have hplace : b / ctx.blksPerGrp * ctx.blksPerGrp + b % ctx.blksPerGrp = b := by
    rw [mul_comm, Nat.div_add_mod]
  obtain ⟨st₁, hget, hok, hsame⟩ := groupGet_spec h hsep hg load
  have hset₁ : bitmapState (st₁.cache.data (ctx.blockBitmap (b / ctx.blksPerGrp)))
      (b % ctx.blksPerGrp) = true := by
    rw [hsame.cache]
    exact hset
  have hblk := hok.blk _ hg
  have hloaded := hok.loaded _ hg
  have hbits : b % ctx.blksPerGrp < ctx.bits := lt_of_lt_of_le hi (blksPerGrp_le ctx)
  have hreal : BlkReal ctx (b / ctx.blksPerGrp) (b % ctx.blksPerGrp) := ⟨hi, by rwa [hplace]⟩
  have hfree := hok.free_lt hb (by rw [hsame.blkBit, hset])
  have hblocks := ctx.blocks_lt
  have hinc : (st₁.freeBlocksCount + 1) % 2 ^ 32 = st₁.freeBlocksCount + 1 :=
    Nat.mod_eq_of_lt (by omega)
  have hcountBound : (st₁.groups (b / ctx.blksPerGrp)).freeBlocksCount + 1 < 2 ^ 16 := by
    have hle := clearBits_le (st₁.cache.data (ctx.blockBitmap (b / ctx.blksPerGrp))) ctx.bits
    have hmax := bits_le ctx
    rw [hblk.count]
    omega
  rw [ext2Bfree]
  simp only [hget, ext2GroupBfree, hloaded]
  refine ⟨_, rfl, ?_, .of_unchanged hsame ?_⟩
  · apply hok.change hsep hg
    · intro b' hb'
      simp [AllocState.setGroup, AllocState.putBitmap, ext2BlkPut, BlkCache.write, hb']
    · intro g' hne
      simp [AllocState.setGroup, AllocState.putBitmap, hne]
    · simp [AllocState.setGroup, AllocState.putBitmap]
    · simpa [AllocState.setGroup, AllocState.putBitmap, ext2BlkPut, BlkCache.write] using
        hblk.clear hbits hreal hset₁
    · simpa [AllocState.setGroup, AllocState.putBitmap] using hok.ino _ hg
    · simp [AllocState.setGroup, AllocState.putBitmap]
    · rfl
    · simp only [AllocState.setGroup, AllocState.putBitmap, hinc, Function.update_self,
        Nat.mod_eq_of_lt hcountBound]
      omega
  · apply BitChanged.of_data hsep hb rfl rfl hset₁
    · intro b' hb'
      simp [AllocState.setGroup, AllocState.putBitmap, ext2BlkPut, BlkCache.write, hb']
    · simp [AllocState.setGroup, AllocState.putBitmap, ext2BlkPut, BlkCache.write]
    · intro j hj
      simp [AllocState.setGroup, AllocState.putBitmap, ext2BlkPut, BlkCache.write, hj]

/-- A volume just mounted: every group as `ext2_group_init` loads it, from bitmaps, counts and sums
that agree, and the hints for the group as they are after the first `cached` groups. -/
structure Mounted (ctx : Volume) (s : AllocRun) : Prop where
  separate : Separate ctx
  bitmaps : ∀ g < ctx.groupCount, (s.alloc.groups g).blockBitmap = ctx.blockBitmap g ∧
    (s.alloc.groups g).inodeBitmap = ctx.blockBitmap g
  blk : ∀ g < ctx.groupCount, (s.alloc.groups g).freeBlocksCount =
      clearBits (s.alloc.cache.data (ctx.blockBitmap g)) ctx.bits ∧
    (s.alloc.groups g).nextBlk =
      uint16 (bitmapFfc (s.alloc.cache.data (ctx.blockBitmap g)) ctx.blkSize) ∧
    ∀ i < ctx.bits, ¬BlkReal ctx g i →
      bitmapState (s.alloc.cache.data (ctx.blockBitmap g)) i = true
  ino : ∀ g < ctx.groupCount, (s.alloc.groups g).freeInodesCount =
      clearBits (s.alloc.cache.data (ctx.inodeBitmap g)) ctx.bits ∧
    (s.alloc.groups g).nextIno =
      uint16 (bitmapFfc (s.alloc.cache.data (ctx.inodeBitmap g)) ctx.blkSize) ∧
    ∀ i < ctx.bits, ¬i < ctx.inodesPerGrp →
      bitmapState (s.alloc.cache.data (ctx.inodeBitmap g)) i = true
  blkSum : s.alloc.freeBlocksCount =
    ∑ g ∈ Finset.range ctx.groupCount, (s.alloc.groups g).freeBlocksCount
  inoSum : s.alloc.freeInodesCount =
    ∑ g ∈ Finset.range ctx.groupCount, (s.alloc.groups g).freeInodesCount
  hints : ∃ cached ≤ ctx.groupCount,
    s.alloc.lastFreeBlkGrp =
      hintAfterMount (fun g => (s.alloc.groups g).freeBlocksCount) cached ∧
    s.alloc.lastFreeInoGrp =
      hintAfterMount (fun g => (s.alloc.groups g).freeInodesCount) cached
  blocks : s.blocks = []
  inodes : s.inodes = []

def allocMachine (ctx : Volume) : Machine AllocRun AllocEvent where
  init := Mounted ctx
  step := allocStep ctx

/-- The calls that keep blocks and inodes apart: an inode is neither allocated nor freed. -/
def BlocksOnly (ctx : Volume) (s : AllocRun) : AllocEvent → Prop
  | .balloc grpId _ => HintOk ctx s.alloc grpId
  | .bfree _ _ => True
  | .ialloc _ _ _ => s.alloc.freeInodesCount = 0
  | .ifree _ _ => False

structure AllocRunOk (ctx : Volume) (s : AllocRun) : Prop where
  separate : Separate ctx
  alloc : AllocOk ctx s.alloc
  blocks : ∀ b ∈ s.blocks, b < ctx.blocksCount ∧ s.alloc.blkBit ctx b = true

lemma AllocRunOk.init {s : AllocRun} (h : Mounted ctx s) : AllocRunOk ctx s := by
  refine ⟨h.separate, ?_, by simp [h.blocks]⟩
  constructor
  · exact fun g hg => (h.bitmaps g hg).1
  · intro g hg
    obtain ⟨hcount, hnext, hpast⟩ := h.blk g hg
    have hbase : BitmapOk ctx.bits (BlkReal ctx g) (s.alloc.cache.data (ctx.blockBitmap g))
        (s.alloc.groups g).freeBlocksCount 0 := ⟨hpast, hcount, fun _ _ _ => Nat.zero_le _⟩
    rw [hnext]
    exact hbase.load
  · intro g hg
    obtain ⟨hcount, hnext, hpast⟩ := h.ino g hg
    have hbase : BitmapOk ctx.bits (fun i => i < ctx.inodesPerGrp)
        (s.alloc.cache.data (ctx.inodeBitmap g)) (s.alloc.groups g).freeInodesCount 0 :=
      ⟨hpast, hcount, fun _ _ _ => Nat.zero_le _⟩
    rw [hnext]
    exact hbase.load
  · exact h.blkSum
  · exact h.inoSum

lemma AllocRunOk.step {s t : AllocRun} {e : AllocEvent} (h : AllocRunOk ctx s)
    (hguard : BlocksOnly ctx s e) (hstep : allocStep ctx s e = some t) : AllocRunOk ctx t := by
  cases e with
  | balloc grpId load =>
    simp only [allocStep] at hstep
    split_ifs at hstep with hg
    rcases ext2Balloc_spec h.alloc h.separate hg hguard load with
      ⟨-, hfull⟩ | ⟨st, blkid, hgiven, hok, hchanged⟩
    · rw [hfull] at hstep
      cases hstep
      exact ⟨h.separate, h.alloc, h.blocks⟩
    · rw [hgiven] at hstep
      cases hstep
      refine ⟨h.separate, hok, fun b hb => ?_⟩
      rcases List.mem_cons.mp hb with rfl | hold
      · exact ⟨hchanged.lt, hchanged.new⟩
      · obtain ⟨hlt, hset⟩ := h.blocks b hold
        have hne : b ≠ blkid := by
          rintro rfl
          have hclear := hchanged.old
          rw [hset] at hclear
          cases hclear
        exact ⟨hlt, by rw [hchanged.other b hne hlt, hset]⟩
  | bfree blkid load =>
    simp only [allocStep] at hstep
    split_ifs at hstep with hblk
    obtain ⟨st, hfreed, hok, hchanged⟩ := ext2Bfree_spec h.alloc h.separate hblk.1 hblk.2 load
    rw [hfreed] at hstep
    cases hstep
    refine ⟨h.separate, hok, fun b hb => ?_⟩
    rw [List.mem_filter, decide_eq_true_eq] at hb
    obtain ⟨hlt, hset⟩ := h.blocks b hb.1
    exact ⟨hlt, by rw [hchanged.other b hb.2 hlt, hset]⟩
  | ialloc grpId isDir load =>
    have hnone : s.alloc.freeInodesCount = 0 := hguard
    simp only [allocStep] at hstep
    split_ifs at hstep with hg
    simp only [ext2Ialloc, if_pos hnone] at hstep
    cases hstep
    exact ⟨h.separate, h.alloc, h.blocks⟩
  | ifree ino load => exact hguard.elim

lemma AllocRunOk.reach {s : AllocRun} {ok : AllocRun → AllocEvent → Prop}
    (hguard : ∀ s e, ok s e → BlocksOnly ctx s e) (h : (allocMachine ctx).Reach ok s) :
    AllocRunOk ctx s :=
  h.invariant (fun _ => AllocRunOk.init) fun s e _ hs hok hstep => hs.step (hguard s e hok) hstep

lemma all_set_of_sum {count : ℕ → ℕ} {bitmap : ℕ → Bitmap} {bits n : ℕ}
    (hcount : ∀ g < n, count g = clearBits (bitmap g) bits)
    (hsum : ∑ g ∈ Finset.range n, count g = 0) :
    ∀ g < n, ∀ i < bits, bitmapState (bitmap g) i = true := by
  intro g hg i hi
  have hzero := Finset.sum_eq_zero_iff.mp hsum g (Finset.mem_range.mpr hg)
  rw [hcount g hg] at hzero
  by_contra hclear
  have hpos := clearBits_pos_iff.mpr ⟨i, hi, Bool.not_eq_true _ ▸ hclear⟩
  omega

def allSet : Bitmap := fun _ => BitVec.allOnes 32

lemma bitmapState_allSet (i : ℕ) : bitmapState allSet i = true := by
  have hlt : i % cpuWidth < 32 := Nat.mod_lt i (by decide)
  rw [bitmapState, allSet, BitVec.getLsbD_allOnes]
  exact decide_eq_true hlt

lemma clearBits_allSet (n : ℕ) : clearBits allSet n = 0 := by
  apply Nat.eq_zero_of_not_pos
  intro hpos
  obtain ⟨i, -, hclear⟩ := clearBits_pos_iff.mp hpos
  rw [bitmapState_allSet] at hclear
  cases hclear

/-- 2^28 blocks of 1024 bytes. The descriptor of group 2^32 - 1 would lie in a block of a file; it
names block 20. -/
def fullVolume : Volume where
  size := kiloBlks
  blksPerGrp := 8192
  inodesPerGrp := 32
  blocksCount := 2 ^ 28
  blockBitmap g := if g < 32768 then 8192 * g + 10 else 20
  inodeBitmap g := if g < 32768 then 8192 * g + 11 else 20
  blks_pos := by decide
  blks_le := by decide
  inodes_pos := by decide
  inodes_le := by decide
  blocks_pos := by decide
  blocks_lt := by decide

def fullRun : AllocRun where
  alloc :=
    { cache := ⟨fun b => if b = 20 then fun _ => 0 else allSet, fun _ => allSet, fun _ => false⟩
      groups := fun g =>
        { blockBitmap := fullVolume.blockBitmap g
          inodeBitmap := fullVolume.blockBitmap g
          freeBlocksCount := if g < 32768 then 0 else 1
          freeInodesCount := 0
          usedDirsCount := 0
          nextIno := 65535
          nextBlk := 65535 }
      freeBlocksCount := 0
      freeInodesCount := 0
      lastFreeBlkGrp := 2 ^ 32 - 1
      lastFreeInoGrp := 2 ^ 32 - 1 }
  blocks := []
  inodes := []

lemma fullVolume_groupCount : fullVolume.groupCount = 32768 := by decide

lemma fullRun_block {g : ℕ} (hg : g < 32768) :
    fullRun.alloc.cache.data (fullVolume.blockBitmap g) = allSet := by
  have hne : 8192 * g + 10 ≠ 20 := by omega
  simp [fullRun, fullVolume, hg, hne]

lemma fullRun_inode {g : ℕ} (hg : g < 32768) :
    fullRun.alloc.cache.data (fullVolume.inodeBitmap g) = allSet := by
  have hne : 8192 * g + 11 ≠ 20 := by omega
  simp [fullRun, fullVolume, hg, hne]

lemma fullRun_mounted : Mounted fullVolume fullRun := by
  have hffc : uint16 (bitmapFfc allSet fullVolume.blkSize) = 65535 := by decide +kernel
  constructor
  · constructor
    · rw [fullVolume_groupCount]
      intro g g' hg hg' heq
      simp only [fullVolume, if_pos hg, if_pos hg'] at heq
      omega
    · rw [fullVolume_groupCount]
      intro g g' hg hg'
      simp only [fullVolume, if_pos hg, if_pos hg']
      omega
  · exact fun g _ => ⟨rfl, rfl⟩
  · rw [fullVolume_groupCount]
    intro g hg
    rw [fullRun_block hg, clearBits_allSet, hffc]
    refine ⟨?_, rfl, fun i _ _ => bitmapState_allSet i⟩
    simp [fullRun, hg]
  · rw [fullVolume_groupCount]
    intro g hg
    rw [fullRun_inode hg, clearBits_allSet, hffc]
    exact ⟨rfl, rfl, fun i _ _ => bitmapState_allSet i⟩
  · symm
    apply Finset.sum_eq_zero
    intro g hg
    rw [Finset.mem_range, fullVolume_groupCount] at hg
    simp [fullRun, hg]
  · symm
    apply Finset.sum_eq_zero
    intro g _
    rfl
  · exact ⟨0, Nat.zero_le _, rfl, rfl⟩
  · rfl
  · rfl

/-! ### The bitmaps, counts and hints -/

/-- Calls of `ext2_balloc` and `ext2_bfree` where the group that is fallen back to exists. -/
def BlockCalls (ctx : Volume) (s : AllocRun) : AllocEvent → Prop
  | .balloc grpId _ => HintOk ctx s.alloc grpId
  | .bfree _ _ => True
  | .ialloc _ _ _ => False
  | .ifree _ _ => False

/-- In every run of such calls the counts are those of the clear bits, the superblock has their sum
and no hint is past a clear bit. The next `ext2_balloc` gives a block whose bit was clear and that
is not outstanding, and sets only its bit; or it reports ENOSPC, and no bit is clear. The next
`ext2_bfree` clears the bit of its block and no other. -/
theorem block_allocation_exact {s : AllocRun} (h : (allocMachine ctx).Reach (BlockCalls ctx) s) :
    (∀ g < ctx.groupCount, (s.alloc.groups g).freeBlocksCount =
      clearBits (s.alloc.cache.data (ctx.blockBitmap g)) ctx.bits) ∧
    s.alloc.freeBlocksCount =
      ∑ g ∈ Finset.range ctx.groupCount, (s.alloc.groups g).freeBlocksCount ∧
    (∀ g < ctx.groupCount, ∀ i < ctx.bits,
      bitmapState (s.alloc.cache.data (ctx.blockBitmap g)) i = false →
        (s.alloc.groups g).nextBlk ≤ i) ∧
    (∀ g < ctx.groupCount, HintOk ctx s.alloc g → ∀ load, ∃ st out,
      ext2Balloc ctx s.alloc g load = (st, out) ∧
        ((∃ blkid, out = .ok blkid ∧ blkid ∉ s.blocks ∧ BitChanged ctx s.alloc st blkid true) ∨
          out = .error .enospc ∧ ∀ g < ctx.groupCount, ∀ i < ctx.bits,
            bitmapState (s.alloc.cache.data (ctx.blockBitmap g)) i = true)) ∧
    ∀ b < ctx.blocksCount, s.alloc.blkBit ctx b = true → ∀ load, ∃ st,
      ext2Bfree ctx s.alloc b load = .ok st ∧ BitChanged ctx s.alloc st b false := by
  have hok : AllocRunOk ctx s := by
    refine AllocRunOk.reach (fun s e he => ?_) h
    cases e with
    | balloc => exact he
    | bfree => exact he
    | ialloc => exact he.elim
    | ifree => exact he.elim
  have hcount : ∀ g < ctx.groupCount, (s.alloc.groups g).freeBlocksCount =
      clearBits (s.alloc.cache.data (ctx.blockBitmap g)) ctx.bits :=
    fun g hg => (hok.alloc.blk g hg).count
  refine ⟨hcount, hok.alloc.blkSum, fun g hg => (hok.alloc.blk g hg).hint, ?_, ?_⟩
  · intro g hg hhint load
    rcases ext2Balloc_spec hok.alloc hok.separate hg hhint load with
      ⟨hzero, hfull⟩ | ⟨st, blkid, hgiven, -, hchanged⟩
    · refine ⟨s.alloc, _, hfull, .inr ⟨rfl, ?_⟩⟩
      rw [hok.alloc.blkSum] at hzero
      exact all_set_of_sum hcount hzero
    · refine ⟨st, _, hgiven, .inl ⟨blkid, rfl, fun hmem => ?_, hchanged⟩⟩
      have hclear := hchanged.old
      rw [(hok.blocks blkid hmem).2] at hclear
      cases hclear
  · intro b hb hset load
    obtain ⟨st, hfreed, -, hchanged⟩ := ext2Bfree_spec hok.alloc hok.separate hb hset load
    exact ⟨st, hfreed, hchanged⟩

/-- A block of group 1 is freed, and there is one for the next call. -/
theorem block_allocation_exact_freed : ∃ s : AllocRun,
    (allocMachine fullVolume).Reach (BlockCalls fullVolume) s ∧ HintOk fullVolume s.alloc 1 ∧
      ∃ st blkid, ext2Balloc fullVolume s.alloc 1 (fun _ => false) = (st, .ok blkid) ∧
        blkid ∉ s.blocks ∧ BitChanged fullVolume s.alloc st blkid true := by
  obtain ⟨s, hs⟩ : ∃ s, allocStep fullVolume fullRun (.bfree 8192 false) = some s := ⟨_, rfl⟩
  have hreach : (allocMachine fullVolume).Reach (BlockCalls fullVolume) s :=
    .step (e := .bfree 8192 false) (.init fullRun_mounted) trivial hs
  have hgroup : (allocStep fullVolume fullRun (.bfree 8192 false)).map
      (fun s => (s.alloc.groups 1).freeBlocksCount) = some 1 := by decide +kernel
  have hbit : (allocStep fullVolume fullRun (.bfree 8192 false)).map
      (fun s => bitmapState (s.alloc.cache.data (fullVolume.blockBitmap 1)) 0) = some false := by
    decide +kernel
  rw [hs, Option.map_some, Option.some_inj] at hgroup hbit
  have hhint : HintOk fullVolume s.alloc 1 := .inr (.inl (by omega))
  refine ⟨s, hreach, hhint, ?_⟩
  have hone : 1 < fullVolume.groupCount := by decide
  obtain ⟨st, out, hcall, hout⟩ :=
    (block_allocation_exact hreach).2.2.2.1 1 hone hhint (fun _ => false)
  rcases hout with ⟨blkid, rfl, hnew, hchanged⟩ | ⟨-, hset⟩
  · exact ⟨st, blkid, hcall, hnew, hchanged⟩
  · have htrue := hset 1 hone 0 (by decide)
    rw [hbit] at htrue
    cases htrue

/-- The volume was full when it was mounted, so the hint for the group is still -1: the call finds
no block in group 0, goes on to group 2^32 - 1 and gives a number that is no block, while block 8192
is free. -/
theorem block_beyond_volume_given : ∃ s : AllocRun,
    (allocMachine fullVolume).Reachable s ∧ s.alloc.blkBit fullVolume 8192 = false ∧
      (ext2Balloc fullVolume s.alloc 0 (fun todo => todo ≠ 0)).2 = .ok (2 ^ 32 - 8192) ∧
      fullVolume.blocksCount ≤ 2 ^ 32 - 8192 := by
  obtain ⟨s, hs⟩ : ∃ s, allocStep fullVolume fullRun (.bfree 8192 false) = some s := ⟨_, rfl⟩
  have hbit : (allocStep fullVolume fullRun (.bfree 8192 false)).map
      (fun s => s.alloc.blkBit fullVolume 8192) = some false := by decide +kernel
  have hgiven : (allocStep fullVolume fullRun (.bfree 8192 false)).map
      (fun s => (ext2Balloc fullVolume s.alloc 0 (fun todo => todo ≠ 0)).2) =
        some (.ok (2 ^ 32 - 8192)) := by decide +kernel
  rw [hs, Option.map_some, Option.some_inj] at hbit hgiven
  exact ⟨s, .step (e := .bfree 8192 false) (.init fullRun_mounted) trivial hs, hbit, hgiven, by decide⟩

/-- In every run in which inodes are asked for only when none is free, and none is freed: block calls
leave the inode bitmaps alone, `ext2_ialloc` changes nothing and reports ENOSPC, with no inode bit
clear; the inode counts are those of the clear bits and no hint is past a clear bit. -/
theorem inode_bitmaps_kept {s : AllocRun} (h : (allocMachine ctx).Reach (BlocksOnly ctx) s) :
    (∀ g < ctx.groupCount, (s.alloc.groups g).freeInodesCount =
      clearBits (s.alloc.cache.data (ctx.inodeBitmap g)) ctx.bits) ∧
    (∀ g < ctx.groupCount, ∀ i < ctx.bits,
      bitmapState (s.alloc.cache.data (ctx.inodeBitmap g)) i = false →
        (s.alloc.groups g).nextIno ≤ i) ∧
    (∀ g < ctx.groupCount, ∀ i < ctx.bits,
      bitmapState (s.alloc.cache.data (ctx.blockBitmap g)) i = false →
        (s.alloc.groups g).nextBlk ≤ i) ∧
    (∀ grpId load t, BlocksOnly ctx s (.balloc grpId load) →
      allocStep ctx s (.balloc grpId load) = some t → ∀ g < ctx.groupCount,
        t.alloc.cache.data (ctx.inodeBitmap g) = s.alloc.cache.data (ctx.inodeBitmap g)) ∧
    (∀ blkid load t, allocStep ctx s (.bfree blkid load) = some t → ∀ g < ctx.groupCount,
      t.alloc.cache.data (ctx.inodeBitmap g) = s.alloc.cache.data (ctx.inodeBitmap g)) ∧
    ∀ grpId isDir load, BlocksOnly ctx s (.ialloc grpId isDir load) →
      ext2Ialloc ctx isDir s.alloc grpId load = (s.alloc, .error .enospc) ∧
        ∀ g < ctx.groupCount, ∀ i < ctx.bits,
          bitmapState (s.alloc.cache.data (ctx.inodeBitmap g)) i = true := by
  have hok : AllocRunOk ctx s := AllocRunOk.reach (fun _ _ he => he) h
  have hcount : ∀ g < ctx.groupCount, (s.alloc.groups g).freeInodesCount =
      clearBits (s.alloc.cache.data (ctx.inodeBitmap g)) ctx.bits :=
    fun g hg => (hok.alloc.ino g hg).count
  refine ⟨hcount, fun g hg => (hok.alloc.ino g hg).hint, fun g hg => (hok.alloc.blk g hg).hint,
    ?_, ?_, ?_⟩
  · intro grpId load t hhint hstep
    simp only [allocStep] at hstep
    split_ifs at hstep with hg
    rcases ext2Balloc_spec hok.alloc hok.separate hg hhint load with
      ⟨-, hfull⟩ | ⟨st, blkid, hgiven, -, hchanged⟩
    · rw [hfull] at hstep
      cases hstep
      exact fun _ _ => rfl
    · rw [hgiven] at hstep
      cases hstep
      exact hchanged.inode
  · intro blkid load t hstep
    simp only [allocStep] at hstep
    split_ifs at hstep with hblk
    obtain ⟨st, hfreed, -, hchanged⟩ :=
      ext2Bfree_spec hok.alloc hok.separate hblk.1 hblk.2 load
    rw [hfreed] at hstep
    cases hstep
    exact hchanged.inode
  · intro grpId isDir load hnone
    have hzero : s.alloc.freeInodesCount = 0 := hnone
    refine ⟨by rw [ext2Ialloc, if_pos hzero], ?_⟩
    rw [hok.alloc.inoSum] at hzero
    exact all_set_of_sum hcount hzero

/-- On the full volume a block of group 1 is freed and given again; no inode is given. -/
theorem inode_bitmaps_kept_full : ∃ s t : AllocRun,
    allocStep fullVolume fullRun (.bfree 8192 false) = some s ∧
    allocStep fullVolume s (.balloc 1 fun _ => false) = some t ∧
    (allocMachine fullVolume).Reach (BlocksOnly fullVolume) t ∧ t.blocks = [8192] ∧
    t.alloc.cache.data (fullVolume.inodeBitmap 1) = allSet ∧
    ext2Ialloc fullVolume false t.alloc 0 (fun _ => false) = (t.alloc, .error .enospc) := by
  obtain ⟨s, hs⟩ : ∃ s, allocStep fullVolume fullRun (.bfree 8192 false) = some s := ⟨_, rfl⟩
  have hone : 1 < fullVolume.groupCount := by decide
  have hrun : ((allocStep fullVolume fullRun (.bfree 8192 false)).bind fun s =>
      allocStep fullVolume s (.balloc 1 fun _ => false)).map (fun t =>
        (t.blocks, t.alloc.freeInodesCount)) = some ([8192], 0) := by decide +kernel
  have hgroup : (allocStep fullVolume fullRun (.bfree 8192 false)).map
      (fun s => (s.alloc.groups 1).freeBlocksCount) = some 1 := by decide +kernel
  rw [hs, Option.map_some, Option.some_inj] at hgroup
  rw [hs, Option.bind_some] at hrun
  obtain ⟨t, ht, hvalues⟩ := Option.map_eq_some_iff.mp hrun
  rw [Prod.mk.injEq] at hvalues
  have hhint : BlocksOnly fullVolume s (.balloc 1 fun _ => false) := .inr (.inl (by omega))
  have hstart : (allocMachine fullVolume).Reach (BlocksOnly fullVolume) fullRun :=
    .init fullRun_mounted
  have hfreed : (allocMachine fullVolume).Reach (BlocksOnly fullVolume) s :=
    .step (e := .bfree 8192 false) hstart trivial hs
  have hgiven : (allocMachine fullVolume).Reach (BlocksOnly fullVolume) t :=
    .step hfreed hhint ht
  have hsame := (inode_bitmaps_kept hstart).2.2.2.2.1 8192 false s hs 1 hone
  have hsame' := (inode_bitmaps_kept hfreed).2.2.2.1 1 _ t hhint ht 1 hone
  exact ⟨s, t, hs, ht, hgiven, hvalues.1, hsame'.trans (hsame.trans (fullRun_inode (by decide))),
    ((inode_bitmaps_kept hgiven).2.2.2.2.2 0 false (fun _ => false) hvalues.2).1⟩

def smallVolume : Volume where
  size := kiloBlks
  blksPerGrp := 8
  inodesPerGrp := 32
  blocksCount := 8
  blockBitmap _ := 10
  inodeBitmap _ := 11
  blks_pos := by decide
  blks_le := by decide
  inodes_pos := by decide
  inodes_le := by decide
  blocks_pos := by decide
  blocks_lt := by decide

def smallRun : AllocRun where
  alloc :=
    { cache := ⟨fun b => bitmapClear allSet (if b = 10 then 3 else 0),
        fun b => bitmapClear allSet (if b = 10 then 3 else 0), fun _ => false⟩
      groups := fun _ => ⟨10, 10, 1, 1, 0, 0, 3⟩
      freeBlocksCount := 1
      freeInodesCount := 1
      lastFreeBlkGrp := 0
      lastFreeInoGrp := 0 }
  blocks := []
  inodes := []

lemma clearBits_one {n k : ℕ} (hk : k < n) : clearBits (bitmapClear allSet k) n = 1 := by
  rw [clearBits_bitmapClear hk (bitmapState_allSet k), clearBits_allSet]

lemma bitmapState_one {i k : ℕ} (hne : i ≠ k) : bitmapState (bitmapClear allSet k) i = true := by
  simp [bitmapState_allSet, hne]

lemma smallRun_mounted : Mounted smallVolume smallRun := by
  have hcount : smallVolume.groupCount = 1 := by decide
  constructor
  · refine ⟨fun g g' hg hg' _ => ?_, fun g g' _ _ => ?_⟩
    · omega
    · simp [smallVolume]
  · exact fun g _ => ⟨rfl, rfl⟩
  · intro g hg
    obtain rfl : g = 0 := by omega
    have hdata : smallRun.alloc.cache.data (smallVolume.blockBitmap 0) = bitmapClear allSet 3 := rfl
    rw [hdata, clearBits_one (by decide)]
    refine ⟨rfl, by decide +kernel, fun i _ hreal => bitmapState_one ?_⟩
    rintro rfl
    exact hreal (by unfold BlkReal; decide)
  · intro g hg
    obtain rfl : g = 0 := by omega
    have hdata : smallRun.alloc.cache.data (smallVolume.inodeBitmap 0) = bitmapClear allSet 0 := rfl
    rw [hdata, clearBits_one (by decide)]
    refine ⟨rfl, by decide +kernel, fun i _ hreal => bitmapState_one ?_⟩
    rintro rfl
    exact hreal (by decide)
  · rw [hcount]
    rfl
  · rw [hcount]
    rfl
  · exact ⟨1, by decide, by decide, by decide⟩
  · rfl
  · rfl

/-- The inode that is given was in use, and a block is taken for it. -/
theorem inode_from_block_bitmap : ∃ s : AllocRun,
    (allocMachine smallVolume).Reachable s ∧ s.alloc.inoBit smallVolume 4 = true ∧
      s.alloc.blkBit smallVolume 3 = false ∧
      (ext2Ialloc smallVolume false s.alloc 0 (fun _ => false)).2 = .ok 4 ∧
      (ext2Ialloc smallVolume false s.alloc 0 (fun _ => false)).1.blkBit smallVolume 3 = true ∧
      (ext2Ialloc smallVolume false s.alloc 0 (fun _ => false)).1.inoBit smallVolume 1 = false := by
  refine ⟨smallRun, .init smallRun_mounted, ?_⟩
  decide +kernel

end Almos.Ext2
