import Mathlib
import Almos.Bits
import Almos.Ext2Node
import Almos.Machine

/-!
# Allocation of ext2 blocks and inodes

Each group has a bitmap for its blocks and one for its inodes, counts of what is free and hints
where the search for a clear bit starts; the superblock has the sums of the counts, and the context
a hint for the group. The bitmaps are blocks, reached through a cache of pages. `ext2_group_get`
delivers the descriptor of any group number: from the cache, or loaded again with its hints computed
anew and the counts as they were written back. Block reads succeed.
-/
namespace Almos.Ext2
open Bits

/-- The blocks of the disk as the kernel sees them, as they are on the disk, and `PG_DIRTY` of the
pages that hold them. -/
structure BlkCache where
  data : ℕ → Bitmap
  disk : ℕ → Bitmap
  dirty : ℕ → Bool

/-- Data is written to a block between `ext2_blk_get` and `ext2_blk_put`. -/
def BlkCache.write (c : BlkCache) (blkid : ℕ) (content : Bitmap) : BlkCache :=
  { c with data := Function.update c.data blkid content }

/-- The superblock, the disk descriptors as far as they do not change, and the geometry computed
from them. -/
structure Volume where
  size : BlkSize
  blksPerGrp : ℕ
  inodesPerGrp : ℕ
  blocksCount : ℕ
  blockBitmap : ℕ → ℕ
  inodeBitmap : ℕ → ℕ
  blks_pos : 0 < blksPerGrp
  blks_le : blksPerGrp ≤ 2 ^ size.blkSizeLog * 8
  inodes_pos : 0 < inodesPerGrp
  inodes_le : inodesPerGrp ≤ 2 ^ size.blkSizeLog * 8
  blocks_pos : 0 < blocksCount
  blocks_lt : blocksCount < 2 ^ 32

namespace Volume
variable (ctx : Volume)

def blkSize : ℕ := 2 ^ ctx.size.blkSizeLog

def bits : ℕ := ctx.blkSize * 8

/-- `group_count` as `ext2_context_init` computes it. -/
def groupCount : ℕ :=
  if ctx.blocksCount / ctx.blksPerGrp * ctx.blksPerGrp ≠ ctx.blocksCount then
    ctx.blocksCount / ctx.blksPerGrp + 1
  else ctx.blocksCount / ctx.blksPerGrp

end Volume

/-- `ext2_blk_put` -/
def ext2BlkPut (ctx : Volume) (c : BlkCache) (blkid : ℕ) (isDirty : Bool) : BlkCache :=
  if isDirty then { c with dirty := Function.update c.dirty (blkid / ctx.size.blksPerPage) true }
  else c

/-- The fields of `struct ext2_group_desc_s` in memory; the counts and hints have 16 bits. -/
structure GroupInfo where
  blockBitmap : ℕ
  inodeBitmap : ℕ
  freeBlocksCount : ℕ
  freeInodesCount : ℕ
  usedDirsCount : ℕ
  nextIno : ℕ
  nextBlk : ℕ

/-- The blocks and the groups, those of the volume and what lies beyond them, with
`s_free_blocks_count`, `s_free_inodes_count`, `last_free_blk_grp` and `last_free_ino_grp`. -/
structure AllocState where
  cache : BlkCache
  groups : ℕ → GroupInfo
  freeBlocksCount : ℕ
  freeInodesCount : ℕ
  lastFreeBlkGrp : ℕ
  lastFreeInoGrp : ℕ

def AllocState.setGroup (st : AllocState) (grpId : ℕ) (group : GroupInfo) : AllocState :=
  { st with groups := Function.update st.groups grpId group }

variable (ctx : Volume)

/-- The cast of an index to 16 bits; no index is -1. -/
def uint16 : Option ℕ → ℕ
  | some index => index % 2 ^ 16
  | none => 2 ^ 16 - 1

/-- The loop around the compare-and-swap in `ext2_group_init`. -/
def lowerHint (grpId count last : ℕ) : ℕ := if 0 < count ∧ grpId < last then grpId else last

/-- `ext2_group_init`. The inode bitmap is searched, but the entry is given the block bitmap for
both. -/
def ext2GroupInit (st : AllocState) (grpId : ℕ) : Except Ext2Error AllocState :=
  let group := st.groups grpId
  let blkIndex := bitmapFfc (st.cache.data (ctx.blockBitmap grpId)) ctx.blkSize
  let inoIndex := bitmapFfc (st.cache.data (ctx.inodeBitmap grpId)) ctx.blkSize
  if blkIndex = none ∧ group.freeBlocksCount ≠ 0 then .error .einval
  else if group.freeInodesCount ≠ 0 ∧ (∀ index ∈ inoIndex, ctx.inodesPerGrp ≤ index) then
    .error .einval
  else
    let st := st.setGroup grpId
      { group with
        blockBitmap := ctx.blockBitmap grpId
        inodeBitmap := ctx.blockBitmap grpId
        nextBlk := uint16 blkIndex
        nextIno := uint16 inoIndex }
    .ok { st with
      lastFreeBlkGrp := lowerHint grpId group.freeBlocksCount st.lastFreeBlkGrp
      lastFreeInoGrp := lowerHint grpId group.freeInodesCount st.lastFreeInoGrp }

/-- `ext2_group_get`, for an entry that is in the cache or that has to be loaded. -/
def groupGet (st : AllocState) (grpId : ℕ) (load : Bool) : Except Ext2Error AllocState :=
  if load then ext2GroupInit ctx st grpId else .ok st

def AllocState.putBitmap (st : AllocState) (blkid : ℕ) (bitmap : Bitmap) : AllocState :=
  { st with cache := ext2BlkPut ctx (st.cache.write blkid bitmap) blkid false }

/-- `ext2_group_balloc` -/
def ext2GroupBalloc (st : AllocState) (grpId : ℕ) : AllocState × Except Ext2Error ℕ :=
  let group := st.groups grpId
  let nextBlk := if group.nextBlk = ctx.blksPerGrp then 0 else group.nextBlk
  let bitmap := st.cache.data group.blockBitmap
  match bitmapFfc2 bitmap nextBlk ctx.blkSize with
  | none => (st.setGroup grpId { group with nextBlk, freeBlocksCount := 0 }, .error .failed)
  | some index =>
      let st := st.putBitmap ctx group.blockBitmap (bitmapSet bitmap index)
      (st.setGroup grpId
        { group with
          freeBlocksCount := group.freeBlocksCount - 1
          nextBlk := (index + 1) % 2 ^ 16 },
        .ok ((grpId * ctx.blksPerGrp + index) % 2 ^ 32))

/-- `ext2_do_balloc` -/
def ext2DoBalloc (st : AllocState) (grpId : ℕ) (load : Bool) : AllocState × Except Ext2Error ℕ :=
  match groupGet ctx st grpId load with
  | .error err => (st, .error err)
  | .ok st =>
      if 0 < (st.groups grpId).freeBlocksCount then
        match ext2GroupBalloc ctx st grpId with
        | (st, .ok blkid) =>
            ({ st with freeBlocksCount := (st.freeBlocksCount + (2 ^ 32 - 1)) % 2 ^ 32 }, .ok blkid)
        | (st, .error err) => (st, .error err)
      else if grpId = st.lastFreeBlkGrp then
        ({ st with lastFreeBlkGrp := (grpId + 1) % 2 ^ 32 % ctx.groupCount }, .error .failed)
      else (st, .error .failed)

/-- The loop of `ext2_balloc` and `ext2_ialloc`; only the error -1 leads to another try. `load` says
for each number of tries left whether the descriptor has to be loaded. -/
def retryLoop (free : AllocState → ℕ)
    (doAlloc : AllocState → ℕ → Bool → AllocState × Except Ext2Error ℕ) (load : ℕ → Bool) :
    ℕ → AllocState → ℕ → AllocState × Except Ext2Error ℕ
  | 0, st, _ => (st, .error .enospc)
  | todo + 1, st, index =>
      if 0 < free st then
        match doAlloc st index (load (todo + 1)) with
        | (st, .error .failed) =>
            retryLoop free doAlloc load todo st ((index + 1) % 2 ^ 32 % ctx.groupCount)
        | result => result
      else (st, .error .enospc)

/-- `ext2_balloc` -/
def ext2Balloc (st : AllocState) (grpId : ℕ) (load : ℕ → Bool) : AllocState × Except Ext2Error ℕ :=
  if st.freeBlocksCount = 0 then (st, .error .enospc)
  else
    match ext2DoBalloc ctx st grpId (load 0) with
    | (st, .error .failed) =>
        retryLoop ctx AllocState.freeBlocksCount (ext2DoBalloc ctx) load (2 * ctx.groupCount) st
          st.lastFreeBlkGrp
    | result => result

/-- `ext2_group_bfree` -/
def ext2GroupBfree (st : AllocState) (grpId blkid : ℕ) : AllocState :=
  let group := st.groups grpId
  let index := blkid % ctx.blksPerGrp
  let st := st.putBitmap ctx group.blockBitmap
    (bitmapClear (st.cache.data group.blockBitmap) index)
  st.setGroup grpId
    { group with
      freeBlocksCount := (group.freeBlocksCount + 1) % 2 ^ 16
      nextBlk := if index < group.nextBlk then index else group.nextBlk }

/-- `ext2_bfree` -/
def ext2Bfree (st : AllocState) (blkid : ℕ) (load : Bool) : Except Ext2Error AllocState :=
  let grpId := blkid / ctx.blksPerGrp
  match groupGet ctx st grpId load with
  | .error err => .error err
  | .ok st =>
      let st := ext2GroupBfree ctx st grpId blkid
      .ok { st with freeBlocksCount := (st.freeBlocksCount + 1) % 2 ^ 32 }

/-- `ext2_group_ialloc` -/
def ext2GroupIalloc (isDir : Bool) (st : AllocState) (grpId : ℕ) :
    AllocState × Except Ext2Error ℕ :=
  let group := st.groups grpId
  let nextIno := if group.nextIno = ctx.inodesPerGrp then 0 else group.nextIno
  let bitmap := st.cache.data group.inodeBitmap
  match bitmapFfc2 bitmap nextIno (arroundUp ctx.inodesPerGrp 8 / 8) with
  | none => (st.setGroup grpId { group with nextIno, freeInodesCount := 0 }, .error .failed)
  | some index =>
      let st := st.putBitmap ctx group.inodeBitmap (bitmapSet bitmap index)
      (st.setGroup grpId
        { group with
          freeInodesCount := group.freeInodesCount - 1
          nextIno := (index + 1) % 2 ^ 16
          usedDirsCount :=
            if isDir then (group.usedDirsCount + 1) % 2 ^ 16 else group.usedDirsCount },
        .ok ((grpId * ctx.inodesPerGrp + index + 1) % 2 ^ 32))

/-- `ext2_do_ialloc` -/
def ext2DoIalloc (isDir : Bool) (st : AllocState) (grpId : ℕ) (load : Bool) :
    AllocState × Except Ext2Error ℕ :=
  match groupGet ctx st grpId load with
  | .error err => (st, .error err)
  | .ok st =>
      if 0 < (st.groups grpId).freeInodesCount then
        match ext2GroupIalloc ctx isDir st grpId with
        | (st, .ok ino) =>
            ({ st with freeInodesCount := (st.freeInodesCount + (2 ^ 32 - 1)) % 2 ^ 32 }, .ok ino)
        | (st, .error err) => (st, .error err)
      else if grpId = st.lastFreeInoGrp then
        ({ st with lastFreeInoGrp := (grpId + 1) % 2 ^ 32 % ctx.groupCount }, .error .failed)
      else (st, .error .failed)

/-- `ext2_ialloc` -/
def ext2Ialloc (isDir : Bool) (st : AllocState) (grpId : ℕ) (load : ℕ → Bool) :
    AllocState × Except Ext2Error ℕ :=
  if st.freeInodesCount = 0 then (st, .error .enospc)
  else
    match ext2DoIalloc ctx isDir st grpId (load 0) with
    | (st, .error .failed) =>
        retryLoop ctx AllocState.freeInodesCount (ext2DoIalloc ctx isDir) load
          (2 * ctx.groupCount) st st.lastFreeInoGrp
    | result => result

/-- `ext2_group_ifree`. Unlike `ext2_group_bfree` it compares the inode number, not its index, with
the hint for inodes, and then sets the hint for blocks. -/
def ext2GroupIfree (st : AllocState) (grpId ino : ℕ) : AllocState :=
  let group := st.groups grpId
  let index := (ino - 1) % ctx.inodesPerGrp
  let st := st.putBitmap ctx group.inodeBitmap
    (bitmapClear (st.cache.data group.inodeBitmap) index)
  st.setGroup grpId
    { group with
      freeInodesCount := (group.freeInodesCount + 1) % 2 ^ 16
      nextBlk := if ino < group.nextIno then index else group.nextBlk }

/-- `ext2_ifree` -/
def ext2Ifree (st : AllocState) (ino : ℕ) (load : Bool) : Except Ext2Error AllocState :=
  let grpId := (ino - 1) / ctx.inodesPerGrp
  match groupGet ctx st grpId load with
  | .error err => .error err
  | .ok st =>
      let st := ext2GroupIfree ctx st grpId ino
      .ok { st with freeInodesCount := (st.freeInodesCount + 1) % 2 ^ 32 }

/-- `ext2_group_cache_init` looks at the first `cached` groups, with the hint -1 before. -/
def hintAfterMount (count : ℕ → ℕ) (cached : ℕ) : ℕ :=
  (List.range cached).foldl (fun last grpId => lowerHint grpId (count grpId) last) (2 ^ 32 - 1)

def AllocState.blkBit (st : AllocState) (blkid : ℕ) : Bool :=
  bitmapState (st.cache.data (ctx.blockBitmap (blkid / ctx.blksPerGrp))) (blkid % ctx.blksPerGrp)

def AllocState.inoBit (st : AllocState) (ino : ℕ) : Bool :=
  bitmapState (st.cache.data (ctx.inodeBitmap ((ino - 1) / ctx.inodesPerGrp)))
    ((ino - 1) % ctx.inodesPerGrp)

structure AllocRun where
  alloc : AllocState
  blocks : List ℕ
  inodes : List ℕ

inductive AllocEvent
  | balloc (grpId : ℕ) (load : ℕ → Bool)
  | bfree (blkid : ℕ) (load : Bool)
  | ialloc (grpId : ℕ) (isDir : Bool) (load : ℕ → Bool)
  | ifree (ino : ℕ) (load : Bool)

/-- What is freed is a block or an inode of the volume and its bit is set. -/
def allocStep (s : AllocRun) : AllocEvent → Option AllocRun
  | .balloc grpId load =>
      if grpId < ctx.groupCount then
        match ext2Balloc ctx s.alloc grpId load with
        | (st, .ok blkid) => some { s with alloc := st, blocks := blkid :: s.blocks }
        | (st, .error _) => some { s with alloc := st }
      else none
  | .bfree blkid load =>
      if blkid < ctx.blocksCount ∧ s.alloc.blkBit ctx blkid = true then
        match ext2Bfree ctx s.alloc blkid load with
        | .ok st => some { s with alloc := st, blocks := s.blocks.filter (· ≠ blkid) }
        | .error _ => some s
      else none
  | .ialloc grpId isDir load =>
      if grpId < ctx.groupCount then
        match ext2Ialloc ctx isDir s.alloc grpId load with
        | (st, .ok ino) => some { s with alloc := st, inodes := ino :: s.inodes }
        | (st, .error _) => some { s with alloc := st }
      else none
  | .ifree ino load =>
      if 0 < ino ∧ ino ≤ ctx.groupCount * ctx.inodesPerGrp ∧ s.alloc.inoBit ctx ino = true then
        match ext2Ifree ctx s.alloc ino load with
        | .ok st => some { s with alloc := st, inodes := s.inodes.filter (· ≠ ino) }
        | .error _ => some s
      else none

end Almos.Ext2
