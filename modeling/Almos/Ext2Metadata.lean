import Mathlib
import Almos.Ext2Alloc
import Almos.Machine

/-!
# The metadata blocks of ext2 in the cache

Bitmaps, inode tables and indirect blocks are read and changed in pages of the block cache, between
`ext2_blk_get` and `ext2_blk_put`. A page that was put with `EXT2_GF_DIRTY` is written back at some
time; a clean page may be dropped and is read again from the disk. Here `ext2_node_io` and
`ext2_node_blks_locate` work on that cache, with the allocation of the blocks as it is; the locks
are left out.
-/
namespace Almos.Ext2.Meta
open Bits

structure InodeVolume extends Volume where
  inodeTable : ℕ → ℕ
  inodeSize : ℕ
  inode_size_ge : 128 ≤ inodeSize
  inode_size_le : inodeSize ≤ 2 ^ size.blkSizeLog
  inode_size_dvd : 4 ∣ inodeSize

namespace InodeVolume
variable (ctx : InodeVolume)

def inodesPerBlk : ℕ := ctx.blkSize / ctx.inodeSize

def page (blkid : ℕ) : ℕ := blkid / ctx.size.blksPerPage

def inodeGroup (ino : ℕ) : ℕ := (ino - 1) / ctx.inodesPerGrp

end InodeVolume

/-- The 32 words of `struct ext2_inode_s`: word 7 is `i_blocks`, and `i_block` starts at word 10. -/
structure Node where
  ino : ℕ
  inode : Bitmap
  inoTblBlkid : ℕ

namespace Node

def iBlock (node : Node) (slot : ℕ) : ℕ := (node.inode (10 + slot)).toNat

def setIBlock (node : Node) (slot blkid : ℕ) : Node :=
  { node with inode := setWord node.inode (10 + slot) (BitVec.ofNat 32 blkid) }

def countBlock (node : Node) : Node :=
  { node with inode := setWord node.inode 7 (node.inode 7 + 1) }

end Node

variable (ctx : InodeVolume)

/-- A block is changed between `ext2_blk_get` and `ext2_blk_put`, with the flags of the put. -/
def setBlk (st : AllocState) (blkid : ℕ) (content : Bitmap) (isDirty : Bool) : AllocState :=
  { st with cache := ext2BlkPut ctx.toVolume (st.cache.write blkid content) blkid isDirty }

/-- `ext2_group_sync`, which `ext2_group_get` calls for the entry it replaces. A descriptor has 8
words; the counts are in words 3 and 4. -/
def ext2GroupSync (st : AllocState) (grpId : ℕ) : AllocState :=
  let group := st.groups grpId
  let groupsPerBlk := ctx.blkSize / 32
  let blkid := (if ctx.blkSize = 1024 then 2 else 1) + grpId / groupsPerBlk
  let word := grpId % groupsPerBlk * 8
  let content := setWord (st.cache.data blkid) (word + 3)
    (BitVec.ofNat 32 (group.freeBlocksCount + group.freeInodesCount * 2 ^ 16))
  let rest := content (word + 4) &&& BitVec.ofNat 32 (2 ^ 32 - 2 ^ 16)
  setBlk ctx st blkid (setWord content (word + 4) (rest ||| BitVec.ofNat 32 group.usedDirsCount))
    true

/-- The part of `ext2_node_io` that finds the inode table: that of the node, of its parent or of its
group. -/
def nodeTable (parent node : Node) : Option ℕ :=
  if node.inoTblBlkid ≠ 0 then some node.inoTblBlkid
  else if ctx.inodeGroup node.ino = ctx.inodeGroup parent.ino ∧ parent.inoTblBlkid ≠ 0 then
    some parent.inoTblBlkid
  else none

def inodeIndex (ino : ℕ) : ℕ := (ino - 1) % ctx.inodesPerGrp

/-- The block of an inode in the table that starts at block `table`. -/
def inodeBlk (table ino : ℕ) : ℕ := table + inodeIndex ctx ino / ctx.inodesPerBlk

def inodeWord (ino : ℕ) : ℕ := inodeIndex ctx ino % ctx.inodesPerBlk * (ctx.inodeSize / 4)

def copyInode (dst : Bitmap) (dstWord : ℕ) (src : Bitmap) (srcWord : ℕ) : Bitmap :=
  fun i => if dstWord ≤ i ∧ i < dstWord + 32 then src (srcWord + (i - dstWord)) else dst i

/-- `ext2_node_io` after the table is found. The put has the flags of the get, for both
directions. -/
def nodeIoAt (st : AllocState) (node : Node) (table : ℕ) (isRead : Bool)
    (blkGet : Option Ext2Error) : AllocState × Node × Option Ext2Error :=
  let node := { node with inoTblBlkid := table }
  match blkGet with
  | some err => (st, node, some err)
  | none =>
      let blkid := inodeBlk ctx table node.ino
      let word := inodeWord ctx node.ino
      if isRead then
        (st, { node with inode := copyInode node.inode 0 (st.cache.data blkid) word }, none)
      else
        (setBlk ctx st blkid (copyInode (st.cache.data blkid) word node.inode 0) false, node, none)

/-- `ext2_node_io`; `load` is for `ext2_group_get` and `blkGet` the result of `ext2_blk_get`. -/
def ext2NodeIo (st : AllocState) (parent node : Node) (isRead load : Bool)
    (blkGet : Option Ext2Error) : AllocState × Node × Option Ext2Error :=
  match nodeTable ctx parent node with
  | some table => nodeIoAt ctx st node table isRead blkGet
  | none =>
      match groupGet ctx.toVolume st (ctx.inodeGroup node.ino) load with
      | .error err => (st, node, some err)
      | .ok st => nodeIoAt ctx st node (ctx.inodeTable (ctx.inodeGroup node.ino)) isRead blkGet

/-- What the calls inside `ext2_node_blks_locate` find, one after another: the descriptors to load
and the results of `ext2_blk_get`. -/
structure Calls where
  load : ℕ → ℕ → Bool
  blkGet : ℕ → Option Ext2Error

structure NodeCall where
  alloc : AllocState
  node : Node
  calls : ℕ

variable (env : Calls)

/-- `ext2_balloc` in the group of the node. -/
def allocFor (c : NodeCall) : NodeCall × Except Ext2Error ℕ :=
  match ext2Balloc ctx.toVolume c.alloc (ctx.inodeGroup c.node.ino) (env.load c.calls) with
  | (st, out) => ({ c with alloc := st, calls := c.calls + 1 }, out)

/-- `ext2_node_new` -/
def ext2NodeNew (c : NodeCall) (isLeaf : Bool) : NodeCall × Except Ext2Error ℕ :=
  match allocFor ctx env c with
  | (c, .error err) => (c, .error err)
  | (c, .ok blk) =>
      if isLeaf then (c, .ok blk)
      else
        match env.blkGet c.calls with
        | some err =>
            match ext2Bfree ctx.toVolume c.alloc blk (env.load c.calls 0) with
            | .ok st => ({ c with alloc := st, calls := c.calls + 1 }, .error err)
            | .error _ => ({ c with calls := c.calls + 1 }, .error err)
        | none =>
            ({ c with alloc := setBlk ctx c.alloc blk (fun _ => 0) true, calls := c.calls + 1 },
              .ok blk)

/-- The index in an indirect block at height `j`. -/
def refIndex (blkIndex j : ℕ) : ℕ :=
  if 1 < j then blkIndex / 2 ^ (j * ctx.size.refLog) else blkIndex % 2 ^ (j * ctx.size.refLog)

/-- The loop over `current_blk` and `j`. -/
def walk (level blkIndex : ℕ) :
    ℕ → NodeCall → ℕ → ℕ → ℕ → ℕ → Option (NodeCall × Except Ext2Error (ℕ × Bool))
  | 0, _, _, _, _, _ => none
  | fuel + 1, c, current, parent, j, index =>
      if current = 0 then
        match ext2NodeNew ctx env c (parent != 0 && j == 0) with
        | (c, .error err) => some (c, .error err)
        | (c, .ok blk) =>
            let c := { c with node := c.node.countBlock }
            if parent = 0 then
              walk level blkIndex fuel { c with node := c.node.setIBlock (11 + level) blk } blk blk j
                index
            else
              match env.blkGet c.calls with
              | some err => some ({ c with calls := c.calls + 1 }, .error err)
              | none =>
                  let refs := setWord (c.alloc.cache.data parent) index (BitVec.ofNat 32 blk)
                  let c := { c with
                    alloc := setBlk ctx c.alloc parent refs true, calls := c.calls + 1 }
                  if j = 0 then some (c, .ok (blk, true))
                  else walk level blkIndex fuel c 0 blk (j - 1) index
      else if 0 < j then
        match env.blkGet c.calls with
        | some err => some ({ c with calls := c.calls + 1 }, .error err)
        | none =>
            let index := refIndex ctx blkIndex j
            walk level blkIndex fuel { c with calls := c.calls + 1 }
              (c.alloc.cache.data current index).toNat current (j - 1) index
      else some (c, .ok (current, false))

/-- `blk_index` below the slot of a level. -/
def residual (level blkIndex : ℕ) : ℕ :=
  if 1 < level then blkIndex - 12 - 2 ^ ((level - 1) * ctx.size.refLog) else blkIndex - 12

def locateBlk (fuel : ℕ) (c : NodeCall) (blkIndex : ℕ) :
    Option (NodeCall × Except Ext2Error (ℕ × Bool)) :=
  match ext2GetIndirectLevel ctx.size blkIndex with
  | none => none
  | some 0 =>
      if c.node.iBlock blkIndex ≠ 0 then some (c, .ok (c.node.iBlock blkIndex, false))
      else
        match allocFor ctx env c with
        | (c, .error err) => some (c, .error err)
        | (c, .ok blk) => some ({ c with node := c.node.setIBlock blkIndex blk }, .ok (blk, true))
  | some (level + 1) =>
      let current := c.node.iBlock (11 + (level + 1))
      walk ctx env (level + 1) (residual ctx (level + 1) blkIndex) fuel c current current (level + 1) 0

/-- The tables `blks_tbl` and `blks_state_tbl` as far as they were filled, and the error. -/
structure CallLocated where
  call : NodeCall
  blks : List (ℕ × Bool)
  err : Option Ext2Error

def locateFrom (fuel : ℕ) : ℕ → ℕ → NodeCall → Option CallLocated
  | 0, _, c => some ⟨c, [], none⟩
  | todo + 1, blkIndex, c =>
      match locateBlk ctx env fuel c blkIndex with
      | none => none
      | some (c, .error err) => some ⟨c, [], some err⟩
      | some (c, .ok entry) =>
          (locateFrom fuel todo (blkIndex + 1) c).map fun rest =>
            { rest with blks := entry :: rest.blks }

/-- `ext2_node_blks_locate` -/
def ext2NodeBlksLocate (fuel : ℕ) (st : AllocState) (node : Node) (blkStart : ℕ) :
    Option CallLocated :=
  locateFrom ctx env fuel ctx.size.blksPerPage blkStart ⟨st, node, 0⟩

structure MetaState where
  alloc : AllocState
  nodes : ℕ → Node

/-- The calls, with any arguments; nodes are made and changed in memory, descriptors and pages are
written back and clean pages dropped at any time. -/
inductive MetaEvent
  | balloc (grpId : ℕ) (load : ℕ → Bool)
  | bfree (blkid : ℕ) (load : Bool)
  | ialloc (grpId : ℕ) (isDir : Bool) (load : ℕ → Bool)
  | ifree (ino : ℕ) (load : Bool)
  | nodeIo (parent node : ℕ) (isRead load : Bool) (blkGet : Option Ext2Error)
  | locate (node blkStart : ℕ) (env : Calls) (fuel : ℕ)
  | setNode (node : ℕ) (content : Node)
  | groupSync (grpId : ℕ)
  | writeBack (page : ℕ)
  | evict (page : ℕ)

def writeBack (c : BlkCache) (page : ℕ) : BlkCache :=
  { c with
    disk := fun b => if ctx.page b = page then c.data b else c.disk b
    dirty := Function.update c.dirty page false }

/-- The page is dropped; its blocks are read again from the disk. -/
def evict (c : BlkCache) (page : ℕ) : BlkCache :=
  { c with data := fun b => if ctx.page b = page then c.disk b else c.data b }

def setCache (s : MetaState) (cache : BlkCache) : MetaState :=
  { s with alloc := { s.alloc with cache } }

def metaStep (s : MetaState) : MetaEvent → Option MetaState
  | .balloc grpId load =>
      some { s with alloc := (ext2Balloc ctx.toVolume s.alloc grpId load).1 }
  | .bfree blkid load =>
      match ext2Bfree ctx.toVolume s.alloc blkid load with
      | .ok st => some { s with alloc := st }
      | .error _ => some s
  | .ialloc grpId isDir load =>
      some { s with alloc := (ext2Ialloc ctx.toVolume isDir s.alloc grpId load).1 }
  | .ifree ino load =>
      match ext2Ifree ctx.toVolume s.alloc ino load with
      | .ok st => some { s with alloc := st }
      | .error _ => some s
  | .nodeIo parent node isRead load blkGet =>
      match ext2NodeIo ctx s.alloc (s.nodes parent) (s.nodes node) isRead load blkGet with
      | (st, content, _) => some ⟨st, Function.update s.nodes node content⟩
  | .locate node blkStart env fuel =>
      (ext2NodeBlksLocate ctx env fuel s.alloc (s.nodes node) blkStart).map
        fun out => ⟨out.call.alloc, Function.update s.nodes node out.call.node⟩
  | .setNode node content => some { s with nodes := Function.update s.nodes node content }
  | .groupSync grpId => some { s with alloc := ext2GroupSync ctx s.alloc grpId }
  | .writeBack page => some (setCache s (writeBack ctx s.alloc.cache page))
  | .evict page =>
      if s.alloc.cache.dirty page = false then some (setCache s (evict ctx s.alloc.cache page))
      else none

end Almos.Ext2.Meta
