import Mathlib
import Almos.Ext2Metadata
import Almos.Ext2AllocInvariant

/-!
# No metadata lost with clean pages

A page whose content differs from the disk has to be dirty, or the difference goes when the page is
dropped. `ext2_node_new`, `ext2_node_blks_locate` and `ext2_group_sync` put what they change with
`EXT2_GF_DIRTY`. The changes of the bitmaps and the writes of inodes are put with the flags of the
get: they are kept only on pages that are dirty for another reason.
-/
namespace Almos.Ext2.Meta
open Bits

variable {ctx : InodeVolume} {st st' st'' : AllocState} {B B' : Set ℕ}

def Coherent (ctx : InodeVolume) (c : BlkCache) : Prop :=
  ∀ b, c.data b ≠ c.disk b → c.dirty (ctx.page b) = true

def dropClean (ctx : InodeVolume) (c : BlkCache) : BlkCache :=
  { c with data := fun b => if c.dirty (ctx.page b) = true then c.data b else c.disk b }

lemma Coherent.dropClean_data {c : BlkCache} (h : Coherent ctx c) :
    (dropClean ctx c).data = c.data := by
  funext b
  simp only [dropClean]
  split_ifs with hdirty
  · rfl
  · by_contra hne
    exact hdirty (h b (Ne.symm hne))

/-- The bitmaps that the descriptors name, as `ext2_group_init` sets them. -/
def Named (ctx : InodeVolume) (st : AllocState) : Prop :=
  ∀ g, (st.groups g).blockBitmap = ctx.blockBitmap g ∧ (st.groups g).inodeBitmap = ctx.blockBitmap g

lemma Named.of_groups_eq (h : Named ctx st) (hgroups : st'.groups = st.groups) : Named ctx st' := by
  intro g
  rw [hgroups]
  exact h g

/-- From `st` to `st'` the disk stays, and the blocks that changed are on dirty pages then or are in
`B`. -/
structure Advance (ctx : InodeVolume) (B : Set ℕ) (st st' : AllocState) : Prop where
  disk : st'.cache.disk = st.cache.disk
  dirty : ∀ p, st.cache.dirty p = true → st'.cache.dirty p = true
  data : ∀ b, b ∉ B → st'.cache.data b ≠ st.cache.data b → st'.cache.dirty (ctx.page b) = true
  named : Named ctx st'

namespace Advance

lemma of_cache_eq (hcache : st'.cache = st.cache) (hnamed : Named ctx st') :
    Advance ctx B st st' :=
  ⟨by rw [hcache], fun p hp => by rw [hcache, hp], fun b _ hne => absurd (by rw [hcache]) hne, hnamed⟩

lemma mono (h : Advance ctx B st st') (hsub : B ⊆ B') : Advance ctx B' st st' :=
  ⟨h.disk, h.dirty, fun b hb => h.data b fun hmem => hb (hsub hmem), h.named⟩

lemma trans (h : Advance ctx B st st') (h' : Advance ctx B st' st'') : Advance ctx B st st'' := by
  refine ⟨h'.disk.trans h.disk, fun p hp => h'.dirty p (h.dirty p hp), fun b hb hne => ?_, h'.named⟩
  by_cases hlast : st''.cache.data b = st'.cache.data b
  · rw [hlast] at hne
    exact h'.dirty _ (h.data b hb hne)
  · exact h'.data b hb hlast

lemma same (h : Advance ctx B st st') (hcache : st''.cache = st'.cache)
    (hgroups : st''.groups = st'.groups) : Advance ctx B st st'' := by
  refine ⟨?_, ?_, ?_, h.named.of_groups_eq hgroups⟩
  · rw [hcache, h.disk]
  · rw [hcache]
    exact h.dirty
  · rw [hcache]
    exact h.data

lemma setFreeBlocks (h : Advance ctx B st st') (total : ℕ) :
    Advance ctx B st { st' with freeBlocksCount := total } := h.same rfl rfl

lemma setFreeInodes (h : Advance ctx B st st') (total : ℕ) :
    Advance ctx B st { st' with freeInodesCount := total } := h.same rfl rfl

lemma coherent (h : Advance ctx B st st') (hst : Coherent ctx st.cache)
    (hB : ∀ b ∈ B, st.cache.dirty (ctx.page b) = true) : Coherent ctx st'.cache := by
  intro b hne
  by_cases hmem : b ∈ B
  · exact h.dirty _ (hB b hmem)
  · by_cases hsame : st'.cache.data b = st.cache.data b
    · rw [hsame, h.disk] at hne
      exact h.dirty _ (hst b hne)
    · exact h.data b hmem hsame

end Advance

lemma Named.setGroup (h : Named ctx st) {g : ℕ} {group : GroupInfo}
    (hblk : group.blockBitmap = ctx.blockBitmap g) (hino : group.inodeBitmap = ctx.blockBitmap g) :
    Named ctx (st.setGroup g group) := by
  intro g'
  by_cases hg : g' = g
  · subst hg
    simp only [AllocState.setGroup, Function.update_self]
    exact ⟨hblk, hino⟩
  · simp only [AllocState.setGroup, Function.update_of_ne hg]
    exact h g'

lemma setBlk_dirty (h : Named ctx st) (blkid : ℕ) (content : Bitmap) :
    Advance ctx ∅ st (setBlk ctx st blkid content true) := by
  refine ⟨rfl, fun p hp => ?_, fun b _ hne => ?_, h⟩
  · simp only [setBlk, ext2BlkPut, if_true]
    rw [Function.update_apply]
    split_ifs
    · rfl
    · exact hp
  · obtain rfl : b = blkid := by
      by_contra hb
      exact hne (Function.update_of_ne hb _ _)
    exact Function.update_self _ _ _

lemma ext2GroupSync_advance (h : Named ctx st) (g : ℕ) :
    Advance ctx ∅ st (ext2GroupSync ctx st g) := by
  unfold ext2GroupSync
  exact setBlk_dirty h _ _

lemma setBlk_clean (h : Named ctx st) (blkid : ℕ) (content : Bitmap) :
    Advance ctx {blkid} st (setBlk ctx st blkid content false) := by
  refine ⟨rfl, fun p hp => hp, fun b hb hne => ?_, h⟩
  exact absurd (Function.update_of_ne hb _ _) hne

lemma putBitmap_advance (h : Named ctx st) {blkid g : ℕ} {bitmap : Bitmap} {group : GroupInfo}
    (hblk : group.blockBitmap = ctx.blockBitmap g) (hino : group.inodeBitmap = ctx.blockBitmap g) :
    Advance ctx {blkid} st ((st.putBitmap ctx.toVolume blkid bitmap).setGroup g group) := by
  have hput : Advance ctx {blkid} st (st.putBitmap ctx.toVolume blkid bitmap) :=
    setBlk_clean h blkid bitmap
  exact hput.trans (.of_cache_eq rfl (hput.named.setGroup hblk hino))

structure Tried (ctx : InodeVolume) (st st' : AllocState) : Prop where
  cache : st'.cache = st.cache
  blk : ∀ g, 0 < (st'.groups g).freeBlocksCount → 0 < (st.groups g).freeBlocksCount
  ino : ∀ g, 0 < (st'.groups g).freeInodesCount → 0 < (st.groups g).freeInodesCount
  named : Named ctx st'

namespace Tried

lemma refl (h : Named ctx st) : Tried ctx st st := ⟨rfl, fun _ => id, fun _ => id, h⟩

lemma trans (h : Tried ctx st st') (h' : Tried ctx st' st'') : Tried ctx st st'' :=
  ⟨h'.cache.trans h.cache, fun g hg => h.blk g (h'.blk g hg), fun g hg => h.ino g (h'.ino g hg),
    h'.named⟩

lemma same (h : Tried ctx st st') (hcache : st''.cache = st'.cache)
    (hgroups : st''.groups = st'.groups) : Tried ctx st st'' := by
  refine ⟨hcache.trans h.cache, ?_, ?_, h.named.of_groups_eq hgroups⟩
  · rw [hgroups]
    exact h.blk
  · rw [hgroups]
    exact h.ino

lemma advance (h : Tried ctx st st') : Advance ctx B st st' := .of_cache_eq h.cache h.named

lemma setGroup (h : Named ctx st) {g : ℕ} {group : GroupInfo}
    (hblk : group.blockBitmap = ctx.blockBitmap g) (hino : group.inodeBitmap = ctx.blockBitmap g)
    (hfree : 0 < group.freeBlocksCount → 0 < (st.groups g).freeBlocksCount)
    (hfree' : 0 < group.freeInodesCount → 0 < (st.groups g).freeInodesCount) :
    Tried ctx st (st.setGroup g group) := by
  refine ⟨rfl, fun g' => ?_, fun g' => ?_, h.setGroup hblk hino⟩
  · by_cases hg : g' = g
    · subst hg
      simpa only [AllocState.setGroup, Function.update_self] using hfree
    · simp only [AllocState.setGroup, Function.update_of_ne hg]
      exact id
  · by_cases hg : g' = g
    · subst hg
      simpa only [AllocState.setGroup, Function.update_self] using hfree'
    · simp only [AllocState.setGroup, Function.update_of_ne hg]
      exact id

end Tried

lemma groupGet_tried {g : ℕ} {load : Bool} (h : Named ctx st)
    (hget : groupGet ctx.toVolume st g load = .ok st') : Tried ctx st st' := by
  cases load with
  | false =>
    obtain rfl : st = st' := by simpa [groupGet] using hget
    exact .refl h
  | true =>
    simp only [groupGet, if_true, ext2GroupInit] at hget
    split_ifs at hget
    cases hget
    have hset : Tried ctx st (st.setGroup g { st.groups g with
        blockBitmap := ctx.blockBitmap g
        inodeBitmap := ctx.blockBitmap g
        nextBlk := uint16 (bitmapFfc (st.cache.data (ctx.blockBitmap g)) ctx.blkSize)
        nextIno := uint16 (bitmapFfc (st.cache.data (ctx.inodeBitmap g)) ctx.blkSize) }) :=
      Tried.setGroup h rfl rfl id id
    exact ⟨hset.cache, hset.blk, hset.ino, hset.named⟩

def freeBitmaps (ctx : InodeVolume) (count : GroupInfo → ℕ) (st : AllocState) : Set ℕ :=
  {b | ∃ g, 0 < count (st.groups g) ∧ b = ctx.blockBitmap g}

/-- An attempt in one group changes a bitmap with free bits, or it fails and changes no block. -/
structure Attempt (ctx : InodeVolume) (count : GroupInfo → ℕ) (st : AllocState)
    (out : AllocState × Except Ext2Error ℕ) : Prop where
  advance : Advance ctx (freeBitmaps ctx count st) st out.1
  failed : ∀ err, out.2 = .error err → Tried ctx st out.1

lemma Attempt.of_tried {count : GroupInfo → ℕ} {out : Except Ext2Error ℕ} (h : Tried ctx st st') :
    Attempt ctx count st (st', out) :=
  ⟨h.advance, fun _ _ => h⟩

lemma freeBitmaps_anti {count : GroupInfo → ℕ}
    (h : ∀ g, 0 < count (st'.groups g) → 0 < count (st.groups g)) :
    freeBitmaps ctx count st' ⊆ freeBitmaps ctx count st := by
  rintro b ⟨g, hg, rfl⟩
  exact ⟨g, h g hg, rfl⟩

lemma Attempt.after {count : GroupInfo → ℕ} {out : AllocState × Except Ext2Error ℕ}
    (h : Tried ctx st st') (hcount : ∀ g, 0 < count (st'.groups g) → 0 < count (st.groups g))
    (hout : Attempt ctx count st' out) : Attempt ctx count st out :=
  ⟨h.advance.trans (hout.advance.mono (freeBitmaps_anti hcount)),
    fun err herr => h.trans (hout.failed err herr)⟩

/-! The sums and the hints for the group do not matter. -/

lemma Attempt.setFreeBlocks {count : GroupInfo → ℕ} {blkid : ℕ}
    (h : Attempt ctx count st (st', .ok blkid)) (total : ℕ) :
    Attempt ctx count st ({ st' with freeBlocksCount := total }, .ok blkid) :=
  ⟨h.advance.setFreeBlocks total, nofun⟩

lemma Attempt.setFreeInodes {count : GroupInfo → ℕ} {ino : ℕ}
    (h : Attempt ctx count st (st', .ok ino)) (total : ℕ) :
    Attempt ctx count st ({ st' with freeInodesCount := total }, .ok ino) :=
  ⟨h.advance.setFreeInodes total, nofun⟩

lemma Tried.setLastBlkGrp (h : Tried ctx st st') (last : ℕ) :
    Tried ctx st { st' with lastFreeBlkGrp := last } := h.same rfl rfl

lemma Tried.setLastInoGrp (h : Tried ctx st st') (last : ℕ) :
    Tried ctx st { st' with lastFreeInoGrp := last } := h.same rfl rfl

lemma ext2GroupBalloc_attempt (h : Named ctx st) {g : ℕ}
    (hfree : 0 < (st.groups g).freeBlocksCount) :
    Attempt ctx GroupInfo.freeBlocksCount st (ext2GroupBalloc ctx.toVolume st g) := by
  obtain ⟨hblk, hino⟩ := h g
  simp only [ext2GroupBalloc]
  split
  · exact .of_tried (.setGroup h hblk hino (fun hpos => absurd hpos (lt_irrefl 0)) id)
  · refine ⟨Advance.mono (B := {(st.groups g).blockBitmap}) ?_ ?_, fun err herr => by cases herr⟩
    · exact putBitmap_advance h hblk hino
    · rintro b rfl
      exact ⟨g, hfree, hblk⟩

lemma ext2DoBalloc_attempt (h : Named ctx st) (g : ℕ) (load : Bool) :
    Attempt ctx GroupInfo.freeBlocksCount st (ext2DoBalloc ctx.toVolume st g load) := by
  simp only [ext2DoBalloc]
  split
  · exact .of_tried (.refl h)
  · rename_i st₁ hget
    have hgot := groupGet_tried h hget
    refine .after hgot hgot.blk ?_
    split_ifs with hfree hlast
    · have hgroup := ext2GroupBalloc_attempt hgot.named hfree
      split
      · rename_i st₂ blkid hout
        rw [hout] at hgroup
        exact hgroup.setFreeBlocks _
      · rename_i st₂ err hout
        rw [hout] at hgroup
        exact .of_tried (hgroup.failed err rfl)
    · exact .of_tried ((Tried.refl hgot.named).setLastBlkGrp _)
    · exact .of_tried (.refl hgot.named)

lemma ext2GroupIalloc_attempt (h : Named ctx st) {g : ℕ} (isDir : Bool)
    (hfree : 0 < (st.groups g).freeInodesCount) :
    Attempt ctx GroupInfo.freeInodesCount st (ext2GroupIalloc ctx.toVolume isDir st g) := by
  obtain ⟨hblk, hino⟩ := h g
  simp only [ext2GroupIalloc]
  split
  · exact .of_tried (.setGroup h hblk hino id (fun hpos => absurd hpos (lt_irrefl 0)))
  · refine ⟨Advance.mono (B := {(st.groups g).inodeBitmap}) ?_ ?_, fun err herr => by cases herr⟩
    · exact putBitmap_advance h hblk hino
    · rintro b rfl
      exact ⟨g, hfree, hino⟩

lemma ext2DoIalloc_attempt (h : Named ctx st) (isDir : Bool) (g : ℕ) (load : Bool) :
    Attempt ctx GroupInfo.freeInodesCount st (ext2DoIalloc ctx.toVolume isDir st g load) := by
  simp only [ext2DoIalloc]
  split
  · exact .of_tried (.refl h)
  · rename_i st₁ hget
    have hgot := groupGet_tried h hget
    refine .after hgot hgot.ino ?_
    split_ifs with hfree hlast
    · have hgroup := ext2GroupIalloc_attempt hgot.named isDir hfree
      split
      · rename_i st₂ blkid hout
        rw [hout] at hgroup
        exact hgroup.setFreeInodes _
      · rename_i st₂ err hout
        rw [hout] at hgroup
        exact .of_tried (hgroup.failed err rfl)
    · exact .of_tried ((Tried.refl hgot.named).setLastInoGrp _)
    · exact .of_tried (.refl hgot.named)

section
variable {count : GroupInfo → ℕ} {free : AllocState → ℕ}
  {doAlloc : AllocState → ℕ → Bool → AllocState × Except Ext2Error ℕ}

lemma retryLoop_advance
    (hcount : ∀ st st', Tried ctx st st' → ∀ g, 0 < count (st'.groups g) → 0 < count (st.groups g))
    (hdo : ∀ st g load, Named ctx st → Attempt ctx count st (doAlloc st g load))
    (h : Named ctx st) (load : ℕ → Bool) (todo index : ℕ) :
    Advance ctx (freeBitmaps ctx count st) st
      (retryLoop ctx.toVolume free doAlloc load todo st index).1 := by
  induction todo generalizing st index with
  | zero => exact .of_cache_eq rfl h
  | succ todo ih =>
    simp only [retryLoop]
    split_ifs with hfree
    · have hattempt := hdo st index (load (todo + 1)) h
      split
      · rename_i st₁ hout
        rw [hout] at hattempt
        have htried := hattempt.failed .failed rfl
        exact htried.advance.trans
          ((ih htried.named _).mono (freeBitmaps_anti (hcount _ _ htried)))
      · exact hattempt.advance
    · exact .of_cache_eq rfl h

end

lemma ext2Balloc_advance (h : Named ctx st) (g : ℕ) (load : ℕ → Bool) :
    Advance ctx (freeBitmaps ctx GroupInfo.freeBlocksCount st) st
      (ext2Balloc ctx.toVolume st g load).1 := by
  simp only [ext2Balloc]
  split_ifs with hzero
  · exact .of_cache_eq rfl h
  · have hattempt := ext2DoBalloc_attempt h g (load 0)
    split
    · rename_i st₁ hout
      rw [hout] at hattempt
      have htried := hattempt.failed .failed rfl
      refine htried.advance.trans (Advance.mono ?_ (freeBitmaps_anti htried.blk))
      exact retryLoop_advance (fun _ _ => Tried.blk)
        (fun _ g load h => ext2DoBalloc_attempt h g load) htried.named load _ _
    · exact hattempt.advance

lemma ext2Ialloc_advance (h : Named ctx st) (isDir : Bool) (g : ℕ) (load : ℕ → Bool) :
    Advance ctx (freeBitmaps ctx GroupInfo.freeInodesCount st) st
      (ext2Ialloc ctx.toVolume isDir st g load).1 := by
  simp only [ext2Ialloc]
  split_ifs with hzero
  · exact .of_cache_eq rfl h
  · have hattempt := ext2DoIalloc_attempt h isDir g (load 0)
    split
    · rename_i st₁ hout
      rw [hout] at hattempt
      have htried := hattempt.failed .failed rfl
      refine htried.advance.trans (Advance.mono ?_ (freeBitmaps_anti htried.ino))
      exact retryLoop_advance (fun _ _ => Tried.ino)
        (fun _ g load h => ext2DoIalloc_attempt h isDir g load) htried.named load _ _
    · exact hattempt.advance

lemma ext2Bfree_advance (h : Named ctx st) {blkid : ℕ} {load : Bool}
    (hfree : ext2Bfree ctx.toVolume st blkid load = .ok st') :
    Advance ctx {ctx.blockBitmap (blkid / ctx.blksPerGrp)} st st' := by
  simp only [ext2Bfree] at hfree
  split at hfree
  · cases hfree
  · rename_i st₁ hget
    cases hfree
    have hgot := groupGet_tried h hget
    obtain ⟨hblk, hino⟩ := hgot.named (blkid / ctx.blksPerGrp)
    have hput : Advance ctx {ctx.blockBitmap (blkid / ctx.blksPerGrp)} st₁
        (ext2GroupBfree ctx.toVolume st₁ (blkid / ctx.blksPerGrp) blkid) := by
      rw [← hblk]
      exact putBitmap_advance hgot.named hblk hino
    exact hgot.advance.trans (hput.setFreeBlocks _)

lemma ext2Ifree_advance (h : Named ctx st) {ino : ℕ} {load : Bool}
    (hfree : ext2Ifree ctx.toVolume st ino load = .ok st') :
    Advance ctx {ctx.blockBitmap (ctx.inodeGroup ino)} st st' := by
  simp only [ext2Ifree] at hfree
  split at hfree
  · cases hfree
  · rename_i st₁ hget
    cases hfree
    have hgot := groupGet_tried h hget
    obtain ⟨hblk, hino⟩ := hgot.named (ctx.inodeGroup ino)
    have hput : Advance ctx {ctx.blockBitmap (ctx.inodeGroup ino)} st₁
        (ext2GroupIfree ctx.toVolume st₁ (ctx.inodeGroup ino) ino) := by
      rw [← hino]
      exact putBitmap_advance hgot.named hblk hino
    exact hgot.advance.trans (hput.setFreeInodes _)

/-- The inode table in which `ext2_node_io` looks for a node. -/
def tableOf (ctx : InodeVolume) (parent node : Node) : ℕ :=
  (nodeTable ctx parent node).getD (ctx.inodeTable (ctx.inodeGroup node.ino))

/-- The blocks that `ext2_node_io` changes. -/
def ioBlks (ctx : InodeVolume) (parent node : Node) (isRead : Bool) : Set ℕ :=
  if isRead then ∅ else {inodeBlk ctx (tableOf ctx parent node) node.ino}

lemma nodeIoAt_advance (h : Named ctx st) (node : Node) (table : ℕ) (isRead : Bool)
    (blkGet : Option Ext2Error) :
    Advance ctx (if isRead then ∅ else {inodeBlk ctx table node.ino}) st
      (nodeIoAt ctx st node table isRead blkGet).1 := by
  cases blkGet with
  | some err => exact .of_cache_eq rfl h
  | none =>
    cases isRead with
    | true => exact .of_cache_eq rfl h
    | false => exact setBlk_clean h _ _

lemma ext2NodeIo_advance (h : Named ctx st) (parent node : Node) (isRead load : Bool)
    (blkGet : Option Ext2Error) :
    Advance ctx (ioBlks ctx parent node isRead) st
      (ext2NodeIo ctx st parent node isRead load blkGet).1 := by
  simp only [ext2NodeIo, ioBlks, tableOf]
  cases htable : nodeTable ctx parent node with
  | some table => exact nodeIoAt_advance h node table isRead blkGet
  | none =>
    simp only [Option.getD_none]
    cases hget : groupGet ctx.toVolume st (ctx.inodeGroup node.ino) load with
    | error err => exact .of_cache_eq rfl h
    | ok st₁ =>
      have hgot := groupGet_tried h hget
      exact hgot.advance.trans (nodeIoAt_advance hgot.named node _ isRead blkGet)

def blkBitmaps (ctx : InodeVolume) : Set ℕ := Set.range ctx.blockBitmap

variable {env : Calls} {c c' : NodeCall}

variable (env) in
lemma allocFor_advance (h : Named ctx c.alloc) :
    Advance ctx (blkBitmaps ctx) c.alloc (allocFor ctx env c).1.alloc := by
  refine (ext2Balloc_advance h (ctx.inodeGroup c.node.ino) (env.load c.calls)).mono ?_
  rintro b ⟨g, -, rfl⟩
  exact ⟨g, rfl⟩

variable (env) in
lemma ext2NodeNew_advance (h : Named ctx c.alloc) (isLeaf : Bool) :
    Advance ctx (blkBitmaps ctx) c.alloc (ext2NodeNew ctx env c isLeaf).1.alloc := by
  have halloc := allocFor_advance env h
  simp only [ext2NodeNew]
  split
  · rename_i c₁ err hout
    rw [hout] at halloc
    exact halloc
  · rename_i c₁ blk hout
    rw [hout] at halloc
    split_ifs with hleaf
    · exact halloc
    · split
      · split
        · rename_i st₁ hfree
          refine halloc.trans ((ext2Bfree_advance halloc.named hfree).mono ?_)
          rintro b rfl
          exact ⟨_, rfl⟩
        · exact halloc
      · exact halloc.trans ((setBlk_dirty halloc.named _ _).mono (Set.empty_subset _))

lemma walk_advance {level blkIndex fuel current parent j index : ℕ}
    {out : Except Ext2Error (ℕ × Bool)} (h : Named ctx c.alloc)
    (hwalk : walk ctx env level blkIndex fuel c current parent j index = some (c', out)) :
    Advance ctx (blkBitmaps ctx) c.alloc c'.alloc := by
  induction fuel generalizing c current parent j index with
  | zero => cases hwalk
  | succ fuel ih =>
    rw [walk] at hwalk
    by_cases hzero : current = 0
    · rw [if_pos hzero] at hwalk
      have hnew := ext2NodeNew_advance env h (parent != 0 && j == 0)
      rcases hout : ext2NodeNew ctx env c (parent != 0 && j == 0) with ⟨c₁, err | blk⟩
      · rw [hout] at hnew hwalk
        cases hwalk
        exact hnew
      · rw [hout] at hnew hwalk
        simp only at hwalk
        by_cases hparent : parent = 0
        · rw [if_pos hparent] at hwalk
          have hrest := ih (by exact hnew.named) hwalk
          exact hnew.trans hrest
        · rw [if_neg hparent] at hwalk
          cases hget : env.blkGet c₁.calls with
          | some err =>
            rw [hget] at hwalk
            cases hwalk
            exact hnew
          | none =>
            rw [hget] at hwalk
            have hset := hnew.trans ((setBlk_dirty hnew.named parent
              (setWord (c₁.alloc.cache.data parent) index (BitVec.ofNat 32 blk))).mono
                (Set.empty_subset _))
            by_cases hleaf : j = 0
            · simp only [if_pos hleaf] at hwalk
              cases hwalk
              exact hset
            · simp only [if_neg hleaf] at hwalk
              have hrest := ih (by exact hset.named) hwalk
              exact hset.trans hrest
    · rw [if_neg hzero] at hwalk
      by_cases hj : 0 < j
      · rw [if_pos hj] at hwalk
        cases hget : env.blkGet c.calls with
        | some err =>
          rw [hget] at hwalk
          cases hwalk
          exact .of_cache_eq rfl h
        | none =>
          rw [hget] at hwalk
          have hrest := ih (by exact h) hwalk
          exact hrest
      · rw [if_neg hj] at hwalk
        cases hwalk
        exact .of_cache_eq rfl h

lemma locateBlk_advance {fuel blkIndex : ℕ} {out : Except Ext2Error (ℕ × Bool)}
    (h : Named ctx c.alloc) (hblk : locateBlk ctx env fuel c blkIndex = some (c', out)) :
    Advance ctx (blkBitmaps ctx) c.alloc c'.alloc := by
  rw [locateBlk] at hblk
  rcases hlevel : ext2GetIndirectLevel ctx.size blkIndex with _ | _ | level
  · rw [hlevel] at hblk
    cases hblk
  · rw [hlevel] at hblk
    simp only at hblk
    by_cases hslot : c.node.iBlock blkIndex ≠ 0
    · rw [if_pos hslot] at hblk
      cases hblk
      exact .of_cache_eq rfl h
    · rw [if_neg hslot] at hblk
      have halloc := allocFor_advance env h
      rcases hout : allocFor ctx env c with ⟨c₁, err | blk⟩
      · rw [hout] at halloc hblk
        cases hblk
        exact halloc
      · rw [hout] at halloc hblk
        cases hblk
        exact halloc
  · rw [hlevel] at hblk
    exact walk_advance h hblk

lemma locateFrom_advance {fuel todo blkIndex : ℕ} {out : CallLocated} (h : Named ctx c.alloc)
    (hlocate : locateFrom ctx env fuel todo blkIndex c = some out) :
    Advance ctx (blkBitmaps ctx) c.alloc out.call.alloc := by
  induction todo generalizing c blkIndex out with
  | zero =>
    cases hlocate
    exact .of_cache_eq rfl h
  | succ todo ih =>
    rw [locateFrom] at hlocate
    rcases hblk : locateBlk ctx env fuel c blkIndex with _ | ⟨c₁, err | entry⟩
    · rw [hblk] at hlocate
      cases hlocate
    · rw [hblk] at hlocate
      cases hlocate
      exact locateBlk_advance h hblk
    · rw [hblk] at hlocate
      obtain ⟨rest, hrest, rfl⟩ := Option.map_eq_some_iff.mp hlocate
      have hfirst := locateBlk_advance h hblk
      have hrest' : Advance ctx (blkBitmaps ctx) c₁.alloc rest.call.alloc := ih hfirst.named hrest
      exact hfirst.trans hrest'

/-- The references from a block at height `j` down lead to a block. -/
def found (ctx : InodeVolume) (data : ℕ → Bitmap) (blkIndex : ℕ) : ℕ → ℕ → Bool
  | 0, current => current != 0
  | j + 1, current =>
      current != 0 && found ctx data blkIndex j (data current (refIndex ctx blkIndex (j + 1))).toNat

def mapped (ctx : InodeVolume) (data : ℕ → Bitmap) (node : Node) (blkIndex : ℕ) : Bool :=
  match ext2GetIndirectLevel ctx.size blkIndex with
  | none => true
  | some 0 => node.iBlock blkIndex != 0
  | some (level + 1) =>
      found ctx data (residual ctx (level + 1) blkIndex) (level + 1) (node.iBlock (11 + (level + 1)))

lemma walk_found {level blkIndex fuel current parent j index : ℕ}
    {out : Except Ext2Error (ℕ × Bool)}
    (hfound : found ctx c.alloc.cache.data blkIndex j current = true)
    (hwalk : walk ctx env level blkIndex fuel c current parent j index = some (c', out)) :
    c'.alloc = c.alloc ∧ c'.node = c.node := by
  induction fuel generalizing c current parent j index with
  | zero => cases hwalk
  | succ fuel ih =>
    cases j with
    | zero =>
      have hne : current ≠ 0 := by simpa [found] using hfound
      simp only [walk, if_neg hne, lt_irrefl, if_false] at hwalk
      cases hwalk
      exact ⟨rfl, rfl⟩
    | succ j =>
      obtain ⟨hne, hrest⟩ : current ≠ 0 ∧ found ctx c.alloc.cache.data blkIndex j
          (c.alloc.cache.data current (refIndex ctx blkIndex (j + 1))).toNat = true := by
        simpa [found] using hfound
      simp only [walk, if_neg hne, Nat.succ_pos, if_true] at hwalk
      split at hwalk
      · cases hwalk
        exact ⟨rfl, rfl⟩
      · have hsame := ih (by exact hrest) hwalk
        exact hsame

lemma locateBlk_mapped {fuel blkIndex : ℕ} {out : Except Ext2Error (ℕ × Bool)}
    (hmapped : mapped ctx c.alloc.cache.data c.node blkIndex = true)
    (hblk : locateBlk ctx env fuel c blkIndex = some (c', out)) :
    c'.alloc = c.alloc ∧ c'.node = c.node := by
  simp only [locateBlk] at hblk
  simp only [mapped] at hmapped
  split at hblk
  · cases hblk
  · rename_i hlevel
    simp only [hlevel] at hmapped
    have hne : c.node.iBlock blkIndex ≠ 0 := by simpa using hmapped
    rw [if_pos hne] at hblk
    cases hblk
    exact ⟨rfl, rfl⟩
  · rename_i level hlevel
    simp only [hlevel] at hmapped
    exact walk_found hmapped hblk

lemma locateFrom_mapped {fuel todo blkIndex : ℕ} {out : CallLocated}
    (hmapped : ∀ i < todo, mapped ctx c.alloc.cache.data c.node (blkIndex + i) = true)
    (hlocate : locateFrom ctx env fuel todo blkIndex c = some out) :
    out.call.alloc = c.alloc := by
  induction todo generalizing c blkIndex out with
  | zero =>
    cases hlocate
    rfl
  | succ todo ih =>
    have hfirst : mapped ctx c.alloc.cache.data c.node blkIndex = true := hmapped 0 (by omega)
    simp only [locateFrom] at hlocate
    split at hlocate
    · cases hlocate
    · rename_i c₁ err hblk
      cases hlocate
      exact (locateBlk_mapped hfirst hblk).1
    · rename_i c₁ entry hblk
      obtain ⟨rest, hrest, rfl⟩ := Option.map_eq_some_iff.mp hlocate
      obtain ⟨halloc, hnode⟩ := locateBlk_mapped hfirst hblk
      have hnext : ∀ i < todo,
          mapped ctx c₁.alloc.cache.data c₁.node (blkIndex + 1 + i) = true := by
        intro i hi
        rw [halloc, hnode, Nat.add_assoc, Nat.add_comm 1 i]
        exact hmapped (i + 1) (by omega)
      have hrest' : rest.call.alloc = c₁.alloc := ih hnext hrest
      exact hrest'.trans halloc

structure Mounted (ctx : InodeVolume) (s : MetaState) : Prop where
  named : Named ctx s.alloc
  data : s.alloc.cache.data = s.alloc.cache.disk
  clean : ∀ p, s.alloc.cache.dirty p = false

def metaMachine (ctx : InodeVolume) : Machine MetaState MetaEvent where
  init := Mounted ctx
  step := metaStep ctx

def OnDirtyPage (ctx : InodeVolume) (s : MetaState) (blkid : ℕ) : Prop :=
  s.alloc.cache.dirty (ctx.page blkid) = true

/-- A call that changes a bitmap or writes an inode finds the page dirty. An allocation may take any
bitmap of a group with something free, and `ext2_node_blks_locate` any bitmap when a block of the
page is missing. -/
def DirtyBefore (ctx : InodeVolume) (s : MetaState) : MetaEvent → Prop
  | .balloc _ _ => ∀ g, 0 < (s.alloc.groups g).freeBlocksCount →
      OnDirtyPage ctx s (s.alloc.groups g).blockBitmap
  | .bfree blkid _ => OnDirtyPage ctx s (s.alloc.groups (blkid / ctx.blksPerGrp)).blockBitmap
  | .ialloc _ _ _ => ∀ g, 0 < (s.alloc.groups g).freeInodesCount →
      OnDirtyPage ctx s (s.alloc.groups g).inodeBitmap
  | .ifree ino _ => OnDirtyPage ctx s (s.alloc.groups (ctx.inodeGroup ino)).inodeBitmap
  | .nodeIo parent node isRead _ _ => isRead = false →
      OnDirtyPage ctx s
        (inodeBlk ctx (tableOf ctx (s.nodes parent) (s.nodes node)) (s.nodes node).ino)
  | .locate node blkStart _ _ =>
      (∀ i < ctx.size.blksPerPage,
        mapped ctx s.alloc.cache.data (s.nodes node) (blkStart + i) = true) ∨
      ∀ g, OnDirtyPage ctx s (s.alloc.groups g).blockBitmap
  | .setNode _ _ | .groupSync _ | .writeBack _ | .evict _ => True

structure MetaOk (ctx : InodeVolume) (s : MetaState) : Prop where
  named : Named ctx s.alloc
  coherent : Coherent ctx s.alloc.cache

lemma MetaOk.init {s : MetaState} (h : Mounted ctx s) : MetaOk ctx s :=
  ⟨h.named, fun b hne => absurd (by rw [h.data]) hne⟩

lemma MetaOk.advance {s : MetaState} {nodes : ℕ → Node} (h : MetaOk ctx s)
    (hadvance : Advance ctx B s.alloc st') (hB : ∀ b ∈ B, OnDirtyPage ctx s b) :
    MetaOk ctx ⟨st', nodes⟩ :=
  ⟨hadvance.named, hadvance.coherent h.coherent hB⟩

lemma Coherent.writeBack {cache : BlkCache} (h : Coherent ctx cache) (page : ℕ) :
    Coherent ctx (writeBack ctx cache page) := by
  intro b hne
  simp only [Meta.writeBack] at hne ⊢
  by_cases hpage : ctx.page b = page
  · rw [if_pos hpage] at hne
    exact absurd rfl hne
  · rw [if_neg hpage] at hne
    rw [Function.update_of_ne hpage]
    exact h b hne

lemma Coherent.evict {cache : BlkCache} (h : Coherent ctx cache) (page : ℕ) :
    Coherent ctx (evict ctx cache page) := by
  intro b hne
  simp only [Meta.evict] at hne ⊢
  by_cases hpage : ctx.page b = page
  · rw [if_pos hpage] at hne
    exact absurd rfl hne
  · rw [if_neg hpage] at hne
    exact h b hne

lemma MetaOk.step {s t : MetaState} {e : MetaEvent} (h : MetaOk ctx s) (hguard : DirtyBefore ctx s e)
    (hstep : metaStep ctx s e = some t) : MetaOk ctx t := by
  cases e with
  | balloc grpId load =>
    cases hstep
    refine h.advance (ext2Balloc_advance h.named grpId load) ?_
    rintro b ⟨g, hfree, rfl⟩
    rw [← (h.named g).1]
    exact hguard g hfree
  | bfree blkid load =>
    simp only [metaStep] at hstep
    split at hstep
    · rename_i st hfree
      cases hstep
      refine h.advance (ext2Bfree_advance h.named hfree) ?_
      rintro b rfl
      rw [← (h.named _).1]
      exact hguard
    · cases hstep
      exact h
  | ialloc grpId isDir load =>
    cases hstep
    refine h.advance (ext2Ialloc_advance h.named isDir grpId load) ?_
    rintro b ⟨g, hfree, rfl⟩
    rw [← (h.named g).2]
    exact hguard g hfree
  | ifree ino load =>
    simp only [metaStep] at hstep
    split at hstep
    · rename_i st hfree
      cases hstep
      refine h.advance (ext2Ifree_advance h.named hfree) ?_
      rintro b rfl
      rw [← (h.named _).2]
      exact hguard
    · cases hstep
      exact h
  | nodeIo parent node isRead load blkGet =>
    cases hstep
    refine h.advance
      (ext2NodeIo_advance h.named (s.nodes parent) (s.nodes node) isRead load blkGet) ?_
    intro b hb
    cases isRead with
    | true => exact absurd hb (Set.notMem_empty b)
    | false =>
      obtain rfl : b = _ := hb
      exact hguard rfl
  | locate node blkStart env fuel =>
    obtain ⟨out, hlocate, rfl⟩ := Option.map_eq_some_iff.mp hstep
    rcases hguard with hmapped | hdirty
    · have hsame : out.call.alloc = s.alloc := locateFrom_mapped hmapped hlocate
      exact ⟨hsame ▸ h.named, hsame ▸ h.coherent⟩
    · refine h.advance (locateFrom_advance h.named hlocate) ?_
      rintro b ⟨g, rfl⟩
      rw [← (h.named g).1]
      exact hdirty g
  | setNode node content =>
    cases hstep
    exact ⟨h.named, h.coherent⟩
  | groupSync grpId =>
    cases hstep
    exact h.advance (ext2GroupSync_advance h.named grpId) fun _ hb => absurd hb (Set.notMem_empty _)
  | writeBack page =>
    cases hstep
    exact ⟨h.named, h.coherent.writeBack page⟩
  | evict page =>
    simp only [metaStep] at hstep
    split_ifs at hstep
    cases hstep
    exact ⟨h.named, h.coherent.evict page⟩

/-- In every run of such calls each block that is not as on the disk is on a dirty page, and dropping
all clean pages changes no block. -/
theorem metadata_kept {s : MetaState} (h : (metaMachine ctx).Reach (DirtyBefore ctx) s) :
    (∀ b, s.alloc.cache.data b ≠ s.alloc.cache.disk b →
      s.alloc.cache.dirty (ctx.page b) = true) ∧
    (dropClean ctx s.alloc.cache).data = s.alloc.cache.data := by
  have hok : MetaOk ctx s := h.invariant (fun _ => MetaOk.init) fun _ _ _ hs => hs.step
  exact ⟨hok.coherent, hok.coherent.dropClean_data⟩

/-- 64 blocks of 1024 bytes: the descriptors in block 2, the block bitmap in block 3 of the same
page, the inode bitmap in block 4 and the inode table from block 5 on. -/
def oneGroup : InodeVolume where
  toVolume := { fullVolume with
    blocksCount := 64
    blockBitmap := fun _ => 3
    inodeBitmap := fun _ => 4
    blocks_pos := by decide
    blocks_lt := by decide }
  inodeTable _ := 5
  inodeSize := 128
  inode_size_ge := by decide
  inode_size_le := by decide
  inode_size_dvd := by decide

def oneFree : MetaState where
  alloc :=
    { cache := ⟨fun _ => bitmapClear (fun _ => BitVec.allOnes 32) 40,
        fun _ => bitmapClear (fun _ => BitVec.allOnes 32) 40, fun _ => false⟩
      groups := fun _ => ⟨3, 3, 1, 0, 2, 32, 40⟩
      freeBlocksCount := 1
      freeInodesCount := 0
      lastFreeBlkGrp := 0
      lastFreeInoGrp := 2 ^ 32 - 1 }
  nodes _ := ⟨2, fun _ => 0, 0⟩

lemma oneFree_mounted : Mounted oneGroup oneFree := ⟨fun _ => ⟨rfl, rfl⟩, rfl, fun _ => rfl⟩

/-- The descriptor is written back first, and its page holds the bitmap too: the block that is given
then stays given. -/
theorem metadata_kept_beside_descriptor : ∃ s : MetaState,
    (metaMachine oneGroup).Reach (DirtyBefore oneGroup) s ∧
      bitmapState (s.alloc.cache.data 3) 40 = true ∧
      bitmapState (s.alloc.cache.disk 3) 40 = false ∧
      bitmapState ((dropClean oneGroup s.alloc.cache).data 3) 40 = true := by
  obtain ⟨s, hs⟩ : ∃ s, metaStep oneGroup oneFree (.groupSync 0) = some s := ⟨_, rfl⟩
  have hsynced : (metaMachine oneGroup).Reach (DirtyBefore oneGroup) s :=
    .step (e := .groupSync 0) (.init oneFree_mounted) trivial hs
  have hdirty : DirtyBefore oneGroup s (.balloc 0 fun _ => false) := by
    cases hs
    intro g _
    have hdirty : OnDirtyPage oneGroup ⟨ext2GroupSync oneGroup oneFree.alloc 0, oneFree.nodes⟩ 3 := by
      unfold OnDirtyPage
      decide +kernel
    exact hdirty
  obtain ⟨t, ht⟩ : ∃ t, metaStep oneGroup s (.balloc 0 fun _ => false) = some t := ⟨_, rfl⟩
  have hreach : (metaMachine oneGroup).Reach (DirtyBefore oneGroup) t := .step hsynced hdirty ht
  have hbits : bitmapState (t.alloc.cache.data 3) 40 = true ∧
      bitmapState (t.alloc.cache.disk 3) 40 = false := by
    cases hs
    cases ht
    decide +kernel
  refine ⟨t, hreach, hbits.1, hbits.2, ?_⟩
  rw [(metadata_kept hreach).2]
  exact hbits.1

/-- The block is given and its bit set on a page that stays clean; when the page is dropped the block
is free again. -/
theorem allocation_lost : ∃ s : MetaState, (metaMachine oneGroup).Reachable s ∧
    s.alloc.cache.data 3 ≠ s.alloc.cache.disk 3 ∧
    s.alloc.cache.dirty (oneGroup.page 3) = false ∧
    bitmapState (s.alloc.cache.data 3) 40 = true ∧
    bitmapState ((dropClean oneGroup s.alloc.cache).data 3) 40 = false := by
  obtain ⟨s, hs⟩ : ∃ s, metaStep oneGroup oneFree (.balloc 0 fun _ => false) = some s := ⟨_, rfl⟩
  have hreach : (metaMachine oneGroup).Reachable s := .step (e := .balloc 0 fun _ => false) (.init oneFree_mounted) trivial hs
  have hstate : s.alloc.cache.dirty (oneGroup.page 3) = false ∧
      bitmapState (s.alloc.cache.data 3) 40 = true ∧
      bitmapState (s.alloc.cache.disk 3) 40 = false ∧
      bitmapState ((dropClean oneGroup s.alloc.cache).data 3) 40 = false := by
    cases hs
    decide +kernel
  refine ⟨s, hreach, fun heq => ?_, hstate.1, hstate.2.1, hstate.2.2.2⟩
  rw [heq, hstate.2.2.1] at hstate
  exact Bool.false_ne_true hstate.2.1

end Almos.Ext2.Meta
