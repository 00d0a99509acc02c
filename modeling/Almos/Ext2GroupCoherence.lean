import Mathlib
import Almos.Ext2GroupCache

/-!
# Coherence of the cache of group descriptors

As long as a miss takes a slot that nobody holds, the group is not in another slot and what is dirty
can be written back, each group has at most one entry, entries in use stay where they are and no
modification is lost. The bitmap does not see to this: bits are cleared by group and not by slot, the
bit of a slot that is taken stays set, and filling the bitmap again sets one bit too many.
-/
namespace Almos.Ext2
open Bits

variable {γ : Type*} {ctx : GroupLayout}

def Marked (c : GroupCache γ) (slot : ℕ) : Prop :=
  (slot < lruBits ∧ bitmapState c.lruBitmap slot = true ∧
    ∀ i < slot, bitmapState c.lruBitmap i = false) ∨
  (slot = 0 ∧ ∀ i < lruBits, bitmapState c.lruBitmap i = false)

lemma bitmapFfs_spec (bitmap : Bitmap) :
    LeastSet bitmap 0 lruBits (bitmapFfs bitmap lruBitmapSize) := by
  simpa [bitmapFfs, lruBits, lruBitmapSize, cpuWidth] using leastSet_scanWords bitmap 4 0

variable (ctx) in
lemma victim_marked (c : GroupCache γ) : Marked c (victim ctx c).2 := by
  have hspec := bitmapFfs_spec c.lruBitmap
  unfold victim
  cases hffs : bitmapFfs c.lruBitmap lruBitmapSize with
  | some slot =>
    rw [hffs] at hspec
    exact .inl ⟨hspec.2.1, hspec.2.2.1, fun i hi => hspec.2.2.2 i (Nat.zero_le i) hi⟩
  | none =>
    rw [hffs] at hspec
    exact .inr ⟨rfl, fun i hi => hspec i (Nat.zero_le i) hi⟩

/-- The bits past `count` are never set. -/
def BitsOk (ctx : GroupLayout) (c : GroupCache γ) : Prop :=
  ∀ i, ctx.count < i → bitmapState c.lruBitmap i = false

lemma bitsOk_victim {c : GroupCache γ} (h : BitsOk ctx c) (i : ℕ) (hi : ctx.count < i) :
    bitmapState (victim ctx c).1 i = false := by
  have hold := h i hi
  have hmin : min ctx.groupCount ctx.count ≤ ctx.count := min_le_right _ _
  unfold victim
  cases bitmapFfs c.lruBitmap lruBitmapSize with
  | some slot => exact hold
  | none =>
    rw [bitmapState_bitmapSetRange, hold, Bool.false_or, decide_eq_false_iff_not]
    omega

lemma bitsOk_clear {c : GroupCache γ} (h : BitsOk ctx c) (k i : ℕ) (hi : ctx.count < i) :
    bitmapState (bitmapClear c.lruBitmap k) i = false := by
  rw [bitmapState_bitmapClear, h i hi]
  simp

def SlotMarked (ctx : GroupLayout) (c : GroupCache γ) : Prop :=
  bitmapState c.lruBitmap ctx.count = true →
    ∃ i < ctx.count, bitmapState c.lruBitmap i = true

lemma Marked.lt_count {c : GroupCache γ} {slot : ℕ} (h : Marked c slot) (hbits : BitsOk ctx c)
    (hslot : SlotMarked ctx c) : slot < ctx.count := by
  rcases h with ⟨-, hset, hbefore⟩ | ⟨rfl, -⟩
  · rcases lt_trichotomy slot ctx.count with hlt | rfl | hgt
    · exact hlt
    · obtain ⟨i, hi, hmarked⟩ := hslot hset
      rw [hbefore i hi] at hmarked
      cases hmarked
    · rw [hbits slot hgt] at hset
      cases hset
  · exact ctx.count_pos

def GroupRun.Unheld (s : GroupRun γ) (slot : ℕ) : Prop :=
  ∀ user h, s.held user = some h → h.slot ≠ slot

structure CacheOk (ctx : GroupLayout) (s : GroupRun γ) : Prop where
  bits : BitsOk ctx s.cache
  once : ∀ u w, u < ctx.count → w < ctx.count → (s.cache.tbl u).valid = true →
    (s.cache.tbl w).valid = true → (s.cache.tbl u).gId = (s.cache.tbl w).gId → u = w
  fresh : ∀ u < ctx.count, (s.cache.tbl u).valid = true →
    (s.cache.tbl u).info = s.truth (s.cache.tbl u).gId
  dirty : ∀ u < ctx.count, (s.cache.tbl u).dirty = true → (s.cache.tbl u).valid = true
  -- a group that has no entry is on the disk
  home : ∀ grp, (∀ u < ctx.count, (s.cache.tbl u).valid = true → (s.cache.tbl u).gId ≠ grp) →
    s.cache.disk grp = s.truth grp
  -- and so is one whose entry is clean, unless a user has modified it and not put it yet
  clean : ∀ u < ctx.count, (s.cache.tbl u).valid = true → (s.cache.tbl u).dirty = false →
    (∀ user h, s.held user = some h → h.slot = u → h.modified = false) →
    s.cache.disk (s.cache.tbl u).gId = s.truth (s.cache.tbl u).gId
  held : ∀ user h, s.held user = some h → h.slot < ctx.count ∧
    (s.cache.tbl h.slot).valid = true ∧ (s.cache.tbl h.slot).gId = h.grp ∧
    s.loads h.slot = h.loads

/-- What each call needs. A hit needs an identifier without the bit that is taken for the busy flag,
a miss a slot that nobody holds, that can be written back if it is dirty, and no second entry for
the group; the bits cleared have to lie in the bitmap. -/
def Apart (ctx : GroupLayout) (s : GroupRun γ) : GroupEvent γ → Prop
  | .get _ grpId synced loaded =>
      if isHit ctx s.cache grpId then grpId &&& 8 = 0 ∧ grpId < lruBits
      else SlotMarked ctx s.cache ∧ ∀ slot, Marked s.cache slot → s.Unheld slot ∧
        ((s.cache.tbl slot).dirty = true → synced = true) ∧
        (loaded = none → ∀ u < ctx.count, u ≠ slot → (s.cache.tbl u).valid = true →
          (s.cache.tbl u).gId ≠ grpId)
  | .modify _ _ => True
  | .put user => ∀ h, s.held user = some h → (s.cache.tbl h.slot).gId < lruBits

def Loaded (disk : ℕ → γ) (tbl tbl' : ℕ → GroupEntry γ) (lo hi : ℕ) : Prop :=
  ∀ u, tbl' u = if lo ≤ u ∧ u < hi then ⟨u, true, false, false, disk u⟩ else tbl u

lemma Loaded.trans {disk : ℕ → γ} {tbl tbl' tbl'' : ℕ → GroupEntry γ} {lo mid hi : ℕ}
    (hlo : lo ≤ mid) (hhi : mid ≤ hi) (h : Loaded disk tbl tbl' lo mid)
    (h' : Loaded disk tbl' tbl'' mid hi) : Loaded disk tbl tbl'' lo hi := by
  intro u
  rw [h' u, h u]
  split_ifs <;> first | rfl | omega

variable (ctx) in
lemma initGroups_spec (disk : ℕ → γ) (blk todo group count : ℕ) (tbl : ℕ → GroupEntry γ)
    (hle : count ≤ ctx.count)
    (hcount : count < ctx.count → count = blk * ctx.groupsPerBlk + group) :
    (initGroups ctx disk blk todo group count tbl).1 = min (count + todo) ctx.count ∧
      Loaded disk tbl (initGroups ctx disk blk todo group count tbl).2 count
        (min (count + todo) ctx.count) := by
  induction todo generalizing group count tbl with
  | zero =>
    refine ⟨by rw [initGroups]; omega, fun u => ?_⟩
    rw [initGroups, if_neg (by omega)]
  | succ todo ih =>
    rw [initGroups]
    split_ifs with hlt
    · have hplace := hcount hlt
      obtain ⟨hnext, hloaded⟩ := ih (group + 1) (count + 1) (Function.update tbl count
        ⟨count, true, false, false, disk (blk * ctx.groupsPerBlk + group)⟩) hlt (by omega)
      have hsum : count + 1 + todo = count + (todo + 1) := by omega
      rw [hsum] at hnext hloaded
      refine ⟨hnext, Loaded.trans (Nat.le_succ count) (by omega) ?_ hloaded⟩
      intro u
      rcases eq_or_ne u count with rfl | hne
      · rw [Function.update_self, if_pos (by omega), ← hplace]
      · rw [Function.update_of_ne hne, if_neg (by omega)]
    · refine ⟨by omega, fun u => ?_⟩
      rw [if_neg (by omega)]

variable (ctx) in
lemma initBlks_spec (disk : ℕ → γ) (todo blk count : ℕ) (tbl : ℕ → GroupEntry γ)
    (hcount : count = min (blk * ctx.groupsPerBlk) ctx.count) :
    Loaded disk tbl (initBlks ctx disk todo blk count tbl).2 count
      (min ((blk + todo) * ctx.groupsPerBlk) ctx.count) := by
  induction todo generalizing blk count tbl with
  | zero =>
    intro u
    rw [initBlks, Nat.add_zero, ← hcount, if_neg (by omega)]
  | succ todo ih =>
    rw [initBlks]
    obtain ⟨hnext, hloaded⟩ := initGroups_spec ctx disk blk ctx.groupsPerBlk 0 count tbl
      (by omega) (by omega)
    have hblk : min (count + ctx.groupsPerBlk) ctx.count =
        min ((blk + 1) * ctx.groupsPerBlk) ctx.count := by
      rw [Nat.add_mul, Nat.one_mul]
      omega
    rw [hblk] at hnext hloaded
    have hrest := ih (blk + 1) _ (initGroups ctx disk blk ctx.groupsPerBlk 0 count tbl).2 hnext
    have hsum : blk + 1 + todo = blk + (todo + 1) := by omega
    rw [hsum] at hrest
    refine Loaded.trans ?_ ?_ hloaded (hnext ▸ hrest)
    · rw [hcount]
      exact min_le_min_right _ (Nat.mul_le_mul_right _ (Nat.le_succ blk))
    · exact min_le_min_right _ (Nat.mul_le_mul_right _ (by omega))

/-- The entries that `ext2_group_cache_init` does not reach, when the last block of descriptors is
not full, were left without flags by the last user of the page. -/
def JunkClean (ctx : GroupLayout) (junk : ℕ → GroupEntry γ) : Prop :=
  ∀ u < ctx.count, ctx.blkCount * ctx.groupsPerBlk ≤ u →
    (junk u).valid = false ∧ (junk u).dirty = false

lemma init_entry (junk : ℕ → GroupEntry γ) (disk : ℕ → γ) (hjunk : JunkClean ctx junk) {u : ℕ}
    (hu : u < ctx.count) :
    (ext2GroupCacheInit ctx junk disk).tbl u = ⟨u, true, false, false, disk u⟩ ∨
      ((ext2GroupCacheInit ctx junk disk).tbl u).valid = false ∧
        ((ext2GroupCacheInit ctx junk disk).tbl u).dirty = false := by
  have hspec := initBlks_spec ctx disk ctx.blkCount 0 0 junk (by simp) u
  rw [Nat.zero_add] at hspec
  change (initBlks ctx disk ctx.blkCount 0 0 junk).2 u = _ ∨ _
  by_cases hloaded : u < ctx.blkCount * ctx.groupsPerBlk
  · left
    rw [hspec, if_pos ⟨Nat.zero_le u, lt_min hloaded hu⟩]
  · right
    change ((initBlks ctx disk ctx.blkCount 0 0 junk).2 u).valid = false ∧
      ((initBlks ctx disk ctx.blkCount 0 0 junk).2 u).dirty = false
    rw [hspec, if_neg fun hlt => hloaded (lt_of_lt_of_le hlt.2 (min_le_left _ _))]
    exact hjunk u hu (by omega)

lemma CacheOk.init {junk : ℕ → GroupEntry γ} (hjunk : JunkClean ctx junk) {s : GroupRun γ}
    (h : (groupMachine ctx junk).init s) : CacheOk ctx s := by
  obtain ⟨hcache, hheld⟩ := h
  have hentry : ∀ u < ctx.count, (s.cache.tbl u).dirty = false ∧ ((s.cache.tbl u).valid = true →
      (s.cache.tbl u).gId = u ∧ (s.cache.tbl u).info = s.truth u) := by
    intro u hu
    rw [hcache]
    rcases init_entry junk s.truth hjunk hu with heq | ⟨hvalid, hdirty⟩
    · rw [heq]
      exact ⟨rfl, fun _ => ⟨rfl, rfl⟩⟩
    · refine ⟨hdirty, fun htrue => ?_⟩
      rw [hvalid] at htrue
      cases htrue
  have hdisk : s.cache.disk = s.truth := by rw [hcache]; rfl
  constructor
  · intro i hi
    rw [hcache]
    change bitmapState (bitmapSetRange (fun _ => 0) 0 ctx.count) i = false
    have hzero : bitmapState (fun _ => 0) i = false := by simp [bitmapState]
    rw [bitmapState_bitmapSetRange, hzero, Bool.false_or, decide_eq_false_iff_not]
    omega
  · intro u w hu hw huv hwv hsame
    rwa [((hentry u hu).2 huv).1, ((hentry w hw).2 hwv).1] at hsame
  · intro u hu hvalid
    obtain ⟨hid, hinfo⟩ := (hentry u hu).2 hvalid
    rw [hinfo, hid]
  · intro u hu hdirty
    rw [(hentry u hu).1] at hdirty
    cases hdirty
  · intro grp _
    rw [hdisk]
  · intro u _ _ _ _
    rw [hdisk]
  · intro user h hh
    rw [hheld user] at hh
    cases hh

section Calls
variable {s : GroupRun γ} {user grpId slot : ℕ} {synced : Bool} {loaded : Option Ext2Error}

lemma isHit_iff {c : GroupCache γ} : isHit ctx c grpId = true ↔
    (c.tbl (grpId % ctx.count)).gId = grpId ∧ (c.tbl (grpId % ctx.count)).valid = true := by
  rw [isHit, Bool.and_eq_true, beq_iff_eq]

lemma ext2GroupGet_hit {c : GroupCache γ} (hhit : isHit ctx c grpId = true)
    (hbit : grpId &&& 8 = 0) (hlt : grpId < lruBits) :
    ext2GroupGet ctx c grpId synced loaded =
      some (⟨Function.update c.tbl (grpId % ctx.count)
        { c.tbl (grpId % ctx.count) with busy := true }, bitmapClear c.lruBitmap grpId, c.disk⟩,
        grpId % ctx.count, none) := by
  have hid := (isHit_iff.mp hhit).1
  rw [ext2GroupGet, if_pos hhit]
  simp only [hid, hbit, ne_eq, not_true_eq_false, if_false, if_pos hlt, GroupCache.setEntry]

def writtenBack (c : GroupCache γ) (slot : ℕ) (synced : Bool) : ℕ → γ :=
  if (c.tbl slot).dirty = true ∧ synced = true then
    Function.update c.disk (c.tbl slot).gId (c.tbl slot).info
  else c.disk

def loadedEntry (c : GroupCache γ) (slot grpId : ℕ) (synced : Bool) :
    Option Ext2Error → GroupEntry γ
  | some _ => ⟨grpId, false, false, false, (c.tbl slot).info⟩
  | none => ⟨grpId, true, false, true, writtenBack c slot synced grpId⟩

lemma ext2GroupGet_miss {c : GroupCache γ} (hmiss : isHit ctx c grpId = false) :
    ext2GroupGet ctx c grpId synced loaded =
      some (⟨Function.update c.tbl (victim ctx c).2
        (loadedEntry c (victim ctx c).2 grpId synced loaded), (victim ctx c).1,
        writtenBack c (victim ctx c).2 synced⟩, (victim ctx c).2, loaded) := by
  rw [ext2GroupGet, if_neg (by simp [hmiss])]
  obtain ⟨lruBitmap, slot⟩ := victim ctx c
  cases hdirty : (c.tbl slot).dirty with
  | false =>
    cases loaded <;>
      simp [GroupCache.setEntry, loadEntry, loadedEntry, writtenBack, hdirty]
  | true =>
    cases synced <;> cases loaded <;>
      simp [GroupCache.setEntry, loadEntry, loadedEntry, writtenBack, ext2GroupSync, hdirty]

lemma update_busy (tbl : ℕ → GroupEntry γ) (index u : ℕ) :
    ∃ busy, Function.update tbl index { tbl index with busy := true } u =
      { tbl u with busy := busy } := by
  rcases eq_or_ne u index with rfl | hne
  · exact ⟨true, Function.update_self u _ tbl⟩
  · exact ⟨(tbl u).busy, Function.update_of_ne hne _ tbl⟩

lemma held_update {held : ℕ → Option Holding} (hfree : held user = none) {other : ℕ} {h new : Holding}
    (hh : held other = some h) : Function.update held user (some new) other = some h := by
  have hne : other ≠ user := by
    rintro rfl
    rw [hfree] at hh
    cases hh
  rw [Function.update_of_ne hne, hh]

lemma CacheOk.hit (h : CacheOk ctx s) (hfree : s.held user = none)
    (hhit : isHit ctx s.cache grpId = true) :
    CacheOk ctx (s.obtain ctx user grpId (⟨Function.update s.cache.tbl (grpId % ctx.count)
        { s.cache.tbl (grpId % ctx.count) with busy := true },
        bitmapClear s.cache.lruBitmap grpId, s.cache.disk⟩, grpId % ctx.count, none)) := by
  obtain ⟨hid, hvalid⟩ := isHit_iff.mp hhit
  have hbusy := update_busy s.cache.tbl (grpId % ctx.count)
  constructor
  · exact bitsOk_clear h.bits grpId
  · intro u w hu hw
    obtain ⟨b, hbu⟩ := hbusy u
    obtain ⟨b', hbw⟩ := hbusy w
    simp only [GroupRun.obtain, hbu, hbw]
    exact h.once u w hu hw
  · intro u hu
    obtain ⟨b, hbu⟩ := hbusy u
    simp only [GroupRun.obtain, hbu]
    exact h.fresh u hu
  · intro u hu
    obtain ⟨b, hbu⟩ := hbusy u
    simp only [GroupRun.obtain, hbu]
    exact h.dirty u hu
  · intro grp hgrp
    apply h.home grp
    intro u hu
    obtain ⟨b, hbu⟩ := hbusy u
    have hother := hgrp u hu
    simp only [GroupRun.obtain, hbu] at hother
    exact hother
  · intro u hu
    obtain ⟨b, hbu⟩ := hbusy u
    simp only [GroupRun.obtain, hbu, if_true]
    intro hv hd hclean
    apply h.clean u hu hv hd
    intro other hold hh
    exact hclean other hold (held_update hfree hh)
  · intro other hold hh
    obtain ⟨b, hbu⟩ := hbusy hold.slot
    simp only [GroupRun.obtain, hbu, hhit, if_true] at hh ⊢
    rcases eq_or_ne other user with rfl | hne
    · rw [Function.update_self] at hh
      cases hh
      exact ⟨Nat.mod_lt _ ctx.count_pos, hvalid, hid, rfl⟩
    · rw [Function.update_of_ne hne] at hh
      exact h.held other hold hh

/-- Once a slot that nobody holds is written back, the disk has every group that is in no other
slot. -/
lemma CacheOk.writtenBack_eq (h : CacheOk ctx s) (hslot : slot < ctx.count) (hfree : s.Unheld slot)
    (hsync : (s.cache.tbl slot).dirty = true → synced = true) {grp : ℕ}
    (hother : ∀ u < ctx.count, u ≠ slot → (s.cache.tbl u).valid = true →
      (s.cache.tbl u).gId ≠ grp) : writtenBack s.cache slot synced grp = s.truth grp := by
  unfold writtenBack
  by_cases hhere : (s.cache.tbl slot).valid = true ∧ (s.cache.tbl slot).gId = grp
  · obtain ⟨hvalid, rfl⟩ := hhere
    cases hdirty : (s.cache.tbl slot).dirty with
    | true =>
      rw [if_pos ⟨rfl, hsync hdirty⟩, Function.update_self]
      exact h.fresh slot hslot hvalid
    | false =>
      rw [if_neg (by simp)]
      apply h.clean slot hslot hvalid hdirty
      intro user hold hh hsame
      exact absurd hsame (hfree user hold hh)
  · have hdisk : s.cache.disk grp = s.truth grp := by
      apply h.home grp
      intro u hu hvalid hid
      rcases eq_or_ne u slot with rfl | hne
      · exact hhere ⟨hvalid, hid⟩
      · exact hother u hu hne hvalid hid
    split_ifs with hdirty
    · have hne : grp ≠ (s.cache.tbl slot).gId := by
        intro hsame
        exact hhere ⟨h.dirty slot hslot hdirty.1, hsame.symm⟩
      rw [Function.update_of_ne hne, hdisk]
    · exact hdisk

lemma CacheOk.writtenBack_other (h : CacheOk ctx s) (hslot : slot < ctx.count) {u : ℕ}
    (hu : u < ctx.count) (hne : u ≠ slot) (hvalid : (s.cache.tbl u).valid = true) :
    writtenBack s.cache slot synced (s.cache.tbl u).gId = s.cache.disk (s.cache.tbl u).gId := by
  unfold writtenBack
  split_ifs with hdirty
  · rw [Function.update_of_ne]
    intro hsame
    exact hne (h.once u slot hu hslot hvalid (h.dirty slot hslot hdirty.1) hsame)
  · rfl

lemma loadedEntry_valid {c : GroupCache γ}
    (h : (loadedEntry c slot grpId synced loaded).valid = true) : loaded = none := by
  cases loaded with
  | some err => cases h
  | none => rfl

lemma loadedEntry_dirty {c : GroupCache γ} :
    (loadedEntry c slot grpId synced loaded).dirty = false := by
  cases loaded <;> rfl

lemma loadedEntry_gId {c : GroupCache γ} :
    (loadedEntry c slot grpId synced loaded).gId = grpId := by
  cases loaded <;> rfl

lemma CacheOk.miss (h : CacheOk ctx s) (hfree : s.held user = none)
    (hmiss : isHit ctx s.cache grpId = false) {lruBitmap : Bitmap}
    (hbits : ∀ i, ctx.count < i → bitmapState lruBitmap i = false) (hslot : slot < ctx.count)
    (hunheld : s.Unheld slot) (hsync : (s.cache.tbl slot).dirty = true → synced = true)
    (hother : loaded = none → ∀ u < ctx.count, u ≠ slot → (s.cache.tbl u).valid = true →
      (s.cache.tbl u).gId ≠ grpId) :
    CacheOk ctx (s.obtain ctx user grpId (⟨Function.update s.cache.tbl slot
      (loadedEntry s.cache slot grpId synced loaded), lruBitmap,
      writtenBack s.cache slot synced⟩, slot, loaded)) := by
  have hback : ∀ grp, (∀ u < ctx.count, u ≠ slot → (s.cache.tbl u).valid = true →
      (s.cache.tbl u).gId ≠ grp) → writtenBack s.cache slot synced grp = s.truth grp :=
    fun grp => h.writtenBack_eq hslot hunheld hsync
  constructor
  · exact hbits
  · intro u w hu hw
    simp only [GroupRun.obtain]
    rcases eq_or_ne u slot with rfl | hus
    · rcases eq_or_ne w u with rfl | hwu
      · exact fun _ _ _ => rfl
      · rw [Function.update_self, Function.update_of_ne hwu, loadedEntry_gId]
        intro hnew hvalid hsame
        exact absurd hsame.symm (hother (loadedEntry_valid hnew) w hw hwu hvalid)
    · rw [Function.update_of_ne hus]
      rcases eq_or_ne w slot with rfl | hws
      · rw [Function.update_self, loadedEntry_gId]
        intro hvalid hnew hsame
        exact absurd hsame (hother (loadedEntry_valid hnew) u hu hus hvalid)
      · rw [Function.update_of_ne hws]
        exact h.once u w hu hw
  · intro u hu
    simp only [GroupRun.obtain]
    rcases eq_or_ne u slot with rfl | hne
    · rw [Function.update_self]
      intro hnew
      have hloaded := loadedEntry_valid hnew
      subst hloaded
      exact hback grpId (hother rfl)
    · rw [Function.update_of_ne hne]
      exact h.fresh u hu
  · intro u hu
    simp only [GroupRun.obtain]
    rcases eq_or_ne u slot with rfl | hne
    · rw [Function.update_self, loadedEntry_dirty]
      exact fun hdirty => by cases hdirty
    · rw [Function.update_of_ne hne]
      exact h.dirty u hu
  · intro grp hgrp
    apply hback grp
    intro u hu hne hvalid
    have hnone := hgrp u hu
    simp only [GroupRun.obtain, Function.update_of_ne hne] at hnone
    exact hnone hvalid
  · intro u hu
    simp only [GroupRun.obtain]
    rcases eq_or_ne u slot with rfl | hne
    · rw [Function.update_self, loadedEntry_gId]
      intro hnew _ _
      exact hback grpId (hother (loadedEntry_valid hnew))
    · rw [Function.update_of_ne hne]
      intro hvalid hdirty hclean
      rw [h.writtenBack_other hslot hu hne hvalid]
      apply h.clean u hu hvalid hdirty
      intro other hold hh
      apply hclean other hold
      by_cases herr : loaded = none
      · rw [if_pos herr]
        exact held_update hfree hh
      · rw [if_neg herr]
        exact hh
  · intro other hold hh
    simp only [GroupRun.obtain, hmiss, Bool.false_eq_true, if_false] at hh ⊢
    have hkept : s.held other = some hold → hold.slot < ctx.count ∧
        (Function.update s.cache.tbl slot (loadedEntry s.cache slot grpId synced loaded)
          hold.slot).valid = true ∧
        (Function.update s.cache.tbl slot (loadedEntry s.cache slot grpId synced loaded)
          hold.slot).gId = hold.grp ∧
        Function.update s.loads slot (s.loads slot + 1) hold.slot = hold.loads := by
      intro hh
      have hne := hunheld other hold hh
      rw [Function.update_of_ne hne, Function.update_of_ne hne]
      exact h.held other hold hh
    cases loaded with
    | some err => exact hkept hh
    | none =>
      rw [if_pos rfl] at hh
      rcases eq_or_ne other user with rfl | hne
      · rw [Function.update_self] at hh
        cases hh
        dsimp only
        rw [Function.update_self, Function.update_self]
        exact ⟨hslot, rfl, rfl, rfl⟩
      · rw [Function.update_of_ne hne] at hh
        exact hkept hh

lemma CacheOk.modify (h : CacheOk ctx s) {hold : Holding} (hh : s.held user = some hold) (info : γ) :
    CacheOk ctx
      { s with
        cache := s.cache.setEntry hold.slot { s.cache.tbl hold.slot with info }
        truth := Function.update s.truth hold.grp info
        held := Function.update s.held user (some { hold with modified := true }) } := by
  obtain ⟨hslot, hvalid, hgrp, hloads⟩ := h.held user hold hh
  have hentry : ∀ u, ∃ data, Function.update s.cache.tbl hold.slot
      { s.cache.tbl hold.slot with info } u = { s.cache.tbl u with info := data } := by
    intro u
    rcases eq_or_ne u hold.slot with rfl | hne
    · exact ⟨info, Function.update_self _ _ _⟩
    · exact ⟨(s.cache.tbl u).info, Function.update_of_ne hne _ _⟩
  -- the group is in no other slot
  have honly : ∀ u < ctx.count, u ≠ hold.slot → (s.cache.tbl u).valid = true →
      (s.cache.tbl u).gId ≠ hold.grp := by
    intro u hu hne huv hsame
    exact hne (h.once u hold.slot hu hslot huv hvalid (hsame.trans hgrp.symm))
  constructor
  · exact h.bits
  · intro u w hu hw
    obtain ⟨data, hu'⟩ := hentry u
    obtain ⟨data', hw'⟩ := hentry w
    simp only [GroupCache.setEntry, hu', hw']
    exact h.once u w hu hw
  · intro u hu
    simp only [GroupCache.setEntry]
    rcases eq_or_ne u hold.slot with rfl | hne
    · rw [Function.update_self, hgrp, Function.update_self]
      exact fun _ => rfl
    · rw [Function.update_of_ne hne]
      intro huv
      rw [Function.update_of_ne (honly u hu hne huv)]
      exact h.fresh u hu huv
  · intro u hu
    obtain ⟨data, hu'⟩ := hentry u
    simp only [GroupCache.setEntry, hu']
    exact h.dirty u hu
  · intro grp hnone
    have hall : ∀ u < ctx.count, (s.cache.tbl u).valid = true → (s.cache.tbl u).gId ≠ grp := by
      intro u hu
      obtain ⟨data, hu'⟩ := hentry u
      have hother := hnone u hu
      simp only [GroupCache.setEntry, hu'] at hother
      exact hother
    have hne : grp ≠ hold.grp := by
      rintro rfl
      exact hall hold.slot hslot hvalid hgrp
    simp only [GroupCache.setEntry]
    rw [Function.update_of_ne hne]
    exact h.home grp hall
  · intro u hu
    simp only [GroupCache.setEntry]
    rcases eq_or_ne u hold.slot with rfl | hne
    · intro _ _ hclean
      have hfalse := hclean user { hold with modified := true } (Function.update_self _ _ _) rfl
      cases hfalse
    · rw [Function.update_of_ne hne]
      intro huv hdirty hclean
      rw [Function.update_of_ne (honly u hu hne huv)]
      apply h.clean u hu huv hdirty
      intro other hold' hh' hslot'
      apply hclean other hold' _ hslot'
      rw [Function.update_of_ne, hh']
      rintro rfl
      rw [hh] at hh'
      cases hh'
      exact hne hslot'.symm
  · intro other hold' hh'
    obtain ⟨data, hu'⟩ := hentry hold'.slot
    simp only [GroupCache.setEntry, hu'] at hh' ⊢
    rcases eq_or_ne other user with rfl | hne
    · rw [Function.update_self] at hh'
      cases hh'
      exact ⟨hslot, hvalid, hgrp, hloads⟩
    · rw [Function.update_of_ne hne] at hh'
      exact h.held other hold' hh'

lemma CacheOk.put (h : CacheOk ctx s) {hold : Holding} (hh : s.held user = some hold) :
    CacheOk ctx
      { s with
        cache := ⟨Function.update s.cache.tbl hold.slot
          { s.cache.tbl hold.slot with
            dirty := (s.cache.tbl hold.slot).dirty || hold.modified, busy := false },
          bitmapClear s.cache.lruBitmap (s.cache.tbl hold.slot).gId, s.cache.disk⟩
        held := Function.update s.held user none } := by
  obtain ⟨hslot, hvalid, -, -⟩ := h.held user hold hh
  have hentry : ∀ u, ∃ dirty busy, Function.update s.cache.tbl hold.slot
      { s.cache.tbl hold.slot with
        dirty := (s.cache.tbl hold.slot).dirty || hold.modified, busy := false } u =
      { s.cache.tbl u with dirty, busy } := by
    intro u
    rcases eq_or_ne u hold.slot with rfl | hne
    · exact ⟨_, _, Function.update_self _ _ _⟩
    · exact ⟨(s.cache.tbl u).dirty, (s.cache.tbl u).busy, Function.update_of_ne hne _ _⟩
  have hheld : ∀ other hold', Function.update s.held user none other = some hold' →
      s.held other = some hold' := by
    intro other hold' hh'
    rcases eq_or_ne other user with rfl | hne
    · rw [Function.update_self] at hh'
      cases hh'
    · rwa [Function.update_of_ne hne] at hh'
  constructor
  · exact bitsOk_clear h.bits _
  · intro u w hu hw
    obtain ⟨d, b, hu'⟩ := hentry u
    obtain ⟨d', b', hw'⟩ := hentry w
    simp only [hu', hw']
    exact h.once u w hu hw
  · intro u hu
    obtain ⟨d, b, hu'⟩ := hentry u
    simp only [hu']
    exact h.fresh u hu
  · intro u hu
    rcases eq_or_ne u hold.slot with rfl | hne
    · simp only [Function.update_self]
      exact fun _ => hvalid
    · simp only [Function.update_of_ne hne]
      exact h.dirty u hu
  · intro grp hnone
    apply h.home grp
    intro u hu
    obtain ⟨d, b, hu'⟩ := hentry u
    have hother := hnone u hu
    simp only [hu'] at hother
    exact hother
  · intro u hu
    rcases eq_or_ne u hold.slot with rfl | hne
    · simp only [Function.update_self]
      intro huv hdirty hclean
      rw [Bool.or_eq_false_iff] at hdirty
      apply h.clean _ hu huv hdirty.1
      intro other hold' hh' hsame
      rcases eq_or_ne other user with rfl | hne
      · rw [hh] at hh'
        cases hh'
        exact hdirty.2
      · exact hclean other hold' (by rw [Function.update_of_ne hne, hh']) hsame
    · simp only [Function.update_of_ne hne]
      intro huv hdirty hclean
      apply h.clean u hu huv hdirty
      intro other hold' hh' hsame
      apply hclean other hold' _ hsame
      rw [Function.update_of_ne, hh']
      rintro rfl
      rw [hh] at hh'
      cases hh'
      exact hne hsame.symm
  · intro other hold' hh'
    obtain ⟨d, b, hu'⟩ := hentry hold'.slot
    simp only [hu']
    exact h.held other hold' (hheld other hold' hh')

/-- A get that meets the condition returns a slot of the cache; without error its entry is that of
the group. -/
lemma CacheOk.get (h : CacheOk ctx s) (hfree : s.held user = none)
    (hapart : Apart ctx s (.get user grpId synced loaded)) :
    ∃ cache slot err, ext2GroupGet ctx s.cache grpId synced loaded = some (cache, slot, err) ∧
      slot < ctx.count ∧ CacheOk ctx (s.obtain ctx user grpId (cache, slot, err)) ∧
      (err = none → (cache.tbl slot).valid = true ∧ (cache.tbl slot).gId = grpId) := by
  rw [Apart] at hapart
  cases hhit : isHit ctx s.cache grpId with
  | true =>
    rw [if_pos hhit] at hapart
    refine ⟨_, _, _, ext2GroupGet_hit hhit hapart.1 hapart.2, Nat.mod_lt _ ctx.count_pos,
      h.hit hfree hhit, fun _ => ?_⟩
    simp only [Function.update_self]
    exact (isHit_iff.mp hhit).symm
  | false =>
    rw [if_neg (by simp [hhit])] at hapart
    have hmarked := victim_marked ctx s.cache
    obtain ⟨hunheld, hsync, hother⟩ := hapart.2 _ hmarked
    have hslot := hmarked.lt_count h.bits hapart.1
    refine ⟨_, _, _, ext2GroupGet_miss hhit, hslot, h.miss hfree hhit (bitsOk_victim h.bits) hslot
      hunheld hsync hother, fun herr => ?_⟩
    subst herr
    simp only [Function.update_self]
    exact ⟨rfl, rfl⟩

lemma CacheOk.step {t : GroupRun γ} {e : GroupEvent γ} (h : CacheOk ctx s) (hapart : Apart ctx s e)
    (hstep : groupStep ctx s e = some t) : CacheOk ctx t := by
  cases e with
  | get user grpId synced loaded =>
    simp only [groupStep] at hstep
    split_ifs at hstep with hcall
    obtain ⟨cache, slot, err, hget, -, hok, -⟩ := h.get hcall.1 hapart
    rw [hget, Option.map_some, Option.some.injEq] at hstep
    exact hstep ▸ hok
  | modify user info =>
    simp only [groupStep] at hstep
    cases hh : s.held user with
    | none => simp [hh] at hstep
    | some hold =>
      simp only [hh, Option.some.injEq] at hstep
      exact hstep ▸ h.modify hh info
  | put user =>
    simp only [groupStep] at hstep
    cases hh : s.held user with
    | none => simp [hh] at hstep
    | some hold =>
      simp only [hh, ext2GroupPut, if_pos (hapart hold hh), Option.map_some,
        Option.some.injEq] at hstep
      exact hstep ▸ h.put hh

end Calls

/-- In every run whose calls meet the condition, from a page whose unused entries have no flags set:
a group has at most one entry; what a user holds is the entry of its group, was not loaded again
since, and has what its users gave the group; a group without an entry is on the disk as its users
left it. The next get returns, with a slot of the cache and, if there is no error, the entry of the
group that was asked for. -/
theorem group_cache_coherent {junk : ℕ → GroupEntry γ} (hjunk : JunkClean ctx junk)
    {s : GroupRun γ} (h : (groupMachine ctx junk).Reach (Apart ctx) s) :
    (∀ u w, u < ctx.count → w < ctx.count → (s.cache.tbl u).valid = true →
      (s.cache.tbl w).valid = true → (s.cache.tbl u).gId = (s.cache.tbl w).gId → u = w) ∧
    (∀ user hold, s.held user = some hold → hold.slot < ctx.count ∧
      (s.cache.tbl hold.slot).valid = true ∧ (s.cache.tbl hold.slot).gId = hold.grp ∧
      (s.cache.tbl hold.slot).info = s.truth hold.grp ∧ s.loads hold.slot = hold.loads) ∧
    (∀ grp, (∀ u < ctx.count, (s.cache.tbl u).valid = true → (s.cache.tbl u).gId ≠ grp) →
      s.cache.disk grp = s.truth grp) ∧
    ∀ user grpId synced loaded, s.held user = none →
      Apart ctx s (.get user grpId synced loaded) →
      ∃ cache slot err, ext2GroupGet ctx s.cache grpId synced loaded = some (cache, slot, err) ∧
        slot < ctx.count ∧ (err = none → (cache.tbl slot).valid = true ∧
          (cache.tbl slot).gId = grpId ∧ (cache.tbl slot).info = s.truth grpId) := by
  have hok : CacheOk ctx s :=
    h.invariant (fun s => CacheOk.init hjunk) fun s e t hs hapart hstep => hs.step hapart hstep
  refine ⟨hok.once, ?_, hok.home, ?_⟩
  · intro user hold hh
    obtain ⟨hslot, hvalid, hgrp, hloads⟩ := hok.held user hold hh
    have hfresh := hok.fresh hold.slot hslot hvalid
    rw [hgrp] at hfresh
    exact ⟨hslot, hvalid, hgrp, hfresh, hloads⟩
  · intro user grpId synced loaded hfree hapart
    obtain ⟨cache, slot, err, hget, hslot, hnext, hentry⟩ := hok.get hfree hapart
    refine ⟨cache, slot, err, hget, hslot, fun herr => ?_⟩
    obtain ⟨hvalid, hid⟩ := hentry herr
    have hfresh := hnext.fresh slot hslot hvalid
    simp only [GroupRun.obtain] at hfresh
    rw [hid] at hfresh
    exact ⟨hvalid, hid, hfresh⟩

def fourSlots : GroupLayout := ⟨1024, 16, 4, le_rfl, by decide, by decide, by decide⟩

def zeroed : ℕ → GroupEntry ℕ := fun _ => ⟨0, false, false, false, 0⟩

def freshCache : GroupRun ℕ where
  cache := ext2GroupCacheInit fourSlots zeroed id
  held _ := none
  truth := id
  loads _ := 0

lemma freshCache_init : (groupMachine fourSlots zeroed).init freshCache := ⟨rfl, fun _ => rfl⟩

lemma junkClean_zeroed : JunkClean fourSlots zeroed := fun _ _ _ => ⟨rfl, rfl⟩

lemma freshCache_apart : Apart fourSlots freshCache (.get 0 4 true none) := by
  have hmiss : isHit fourSlots freshCache.cache 4 = false := by decide
  have hfirst : bitmapState freshCache.cache.lruBitmap 0 = true := by decide
  have hpast : bitmapState freshCache.cache.lruBitmap fourSlots.count = false := by decide
  rw [Apart, if_neg (by simp [hmiss])]
  refine ⟨fun hbit => ?_, fun slot hmarked => ?_⟩
  · rw [hpast] at hbit
    cases hbit
  · have hzero : slot = 0 := by
      rcases hmarked with ⟨-, -, hbefore⟩ | ⟨hslot, -⟩
      · by_contra hne
        have hclear := hbefore 0 (Nat.pos_of_ne_zero hne)
        rw [hfirst] at hclear
        cases hclear
      · exact hslot
    subst hzero
    refine ⟨?_, fun _ => rfl, fun _ u hu _ _ => ?_⟩
    · intro user hold hh
      cases hh
    · have hcount : u < 4 := hu
      interval_cases u <;> decide

theorem group_cache_coherent_miss : ∃ s,
    (groupMachine fourSlots zeroed).Reach (Apart fourSlots) s ∧ s.held 0 = some ⟨0, 4, 1, false⟩ ∧
      (s.cache.tbl 0).gId = 4 ∧ (s.cache.tbl 0).info = 4 := by
  obtain ⟨s, hs⟩ : ∃ s, (groupMachine fourSlots zeroed).step freshCache (.get 0 4 true none) =
    some s := ⟨_, rfl⟩
  have hmap : ((groupMachine fourSlots zeroed).step freshCache (.get 0 4 true none)).map
      (fun s => (s.held 0, s.truth 4)) = some (some ⟨0, 4, 1, false⟩, 4) := by decide
  rw [hs] at hmap
  obtain ⟨hheld, htruth⟩ : s.held 0 = some ⟨0, 4, 1, false⟩ ∧ s.truth 4 = 4 := by simpa using hmap
  have hreach : (groupMachine fourSlots zeroed).Reach (Apart fourSlots) s :=
    .step (.init freshCache_init) freshCache_apart hs
  have hentry := (group_cache_coherent junkClean_zeroed hreach).2.1 0 _ hheld
  exact ⟨s, hreach, hheld, hentry.2.2.1, hentry.2.2.2.1.trans htruth⟩

/-- A second miss takes the slot of the first, which is still held. Once the bitmap was filled again,
a miss takes the entry past the last slot. A group whose number has the bit of the busy flag is
waited for without end when it is in the cache. -/
theorem held_group_evicted :
    (∃ s, (groupMachine fourSlots zeroed).Reachable s ∧ s.held 0 = some ⟨0, 4, 1, false⟩ ∧
      (s.cache.tbl 0).gId = 5) ∧
    (∃ s, (groupMachine fourSlots zeroed).Reachable s ∧
      (ext2GroupGet fourSlots s.cache 5 true none).map (fun got => got.2.1) =
        some fourSlots.count) ∧
    ∃ s, (groupMachine fourSlots zeroed).Reachable s ∧ s.held 0 = none ∧
      (ext2GroupGet fourSlots s.cache 8 true none).isNone = true := by
  have hinit : (groupMachine fourSlots zeroed).Reachable freshCache := .init freshCache_init
  have hrun : ∀ (P : GroupRun ℕ → Prop) events,
      (∃ s, (groupMachine fourSlots zeroed).run freshCache events = some s ∧ P s) →
      ∃ s, (groupMachine fourSlots zeroed).Reachable s ∧ P s := by
    rintro P events ⟨s, hs, hP⟩
    exact ⟨s, hinit.run events hs, hP⟩
  refine ⟨?_, ?_, ?_⟩
  · exact hrun _ [.get 0 4 true none, .get 1 5 true none] ⟨_, rfl, by decide, by decide⟩
  · exact hrun _ [.get 0 0 true none, .put 0, .get 0 1 true none, .put 0, .get 0 2 true none, .put 0,
      .get 0 3 true none, .put 0, .get 1 4 true none, .get 0 1 true none, .put 0,
      .get 0 2 true none, .put 0, .get 0 3 true none, .put 0] ⟨_, rfl, by decide⟩
  · exact hrun _ [.get 0 8 true none, .put 0] ⟨_, rfl, by decide, by decide⟩

end Almos.Ext2
