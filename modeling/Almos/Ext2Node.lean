import Mathlib
import Almos.RefTree

/-!
# The blocks of an ext2 inode

`ext2_node_blks_locate` gives the physical blocks of one page of a file. An inode has 12 direct
slots and three that lead to its blocks through one, two and three levels of indirect blocks; what
is missing on the way is allocated. The locks, `i_blocks` and the dirty flag are left out: asking
again with the write lock held starts over with nothing changed.
-/
namespace Almos

/-- The error codes of the ext2 functions; `failed` is -1. -/
inductive Ext2Error
  | failed
  | eio
  | enomem
  | einval
  | enospc
  deriving DecidableEq

namespace Ext2

/-- `blk_size_log`. A block is at least 1024 bytes and `ext2_context_init` refuses one that is larger
than a page. -/
structure BlkSize where
  blkSizeLog : ℕ
  log_ge : 10 ≤ blkSizeLog
  log_le : blkSizeLog ≤ 12

def kiloBlks : BlkSize := ⟨10, le_rfl, by decide⟩

/-- `blk_size_log - 2`, the logarithm of the number of references in a block. -/
def BlkSize.refLog (ctx : BlkSize) : ℕ := ctx.blkSizeLog - 2

def BlkSize.blksPerPage (ctx : BlkSize) : ℕ := 4096 / 2 ^ ctx.blkSizeLog

/-- What the rest of the file system decides: `ext2_balloc` finds a block that is not in use, and
the calls of `ext2_blk_get` succeed or fail one after another. -/
structure BlkSource where
  balloc : List ℕ → ℕ
  balloc_notMem : ∀ used, balloc used ∉ used
  balloc_ne_zero : ∀ used, balloc used ≠ 0
  blkGet : ℕ → Option Ext2Error

/-- The slots of the inode, the references in the blocks of the disk, the blocks in use and the
number of calls of `ext2_blk_get`. -/
structure NodeState where
  iBlock : ℕ → ℕ
  disk : ℕ → ℕ → ℕ
  used : List ℕ
  gets : ℕ

variable (src : BlkSource) (ctx : BlkSize)

/-- `ext2_node_new` -/
def ext2NodeNew (st : NodeState) (isLeaf : Bool) : NodeState × Except Ext2Error ℕ :=
  let blk := src.balloc st.used
  let st := { st with used := blk :: st.used }
  if isLeaf then (st, .ok blk)
  else
    match src.blkGet st.gets with
    | some err => ({ st with gets := st.gets + 1, used := st.used.erase blk }, .error err)
    | none =>
        ({ st with gets := st.gets + 1, disk := Function.update st.disk blk fun _ => 0 }, .ok blk)

/-- The loop of `ext2_get_indirect_level`; there is no level for an index past the last one. -/
def indirectLevelFrom (log : ℕ) : ℕ → ℕ → ℕ → Option ℕ
  | 0, _, _ => none
  | todo + 1, i, blkIndex =>
      if blkIndex < 2 ^ (i * log) then some i
      else indirectLevelFrom log todo (i + 1) (blkIndex - 2 ^ (i * log))

/-- `ext2_get_indirect_level` -/
def ext2GetIndirectLevel (blkIndex : ℕ) : Option ℕ :=
  if blkIndex < 12 then some 0 else indirectLevelFrom ctx.refLog 3 1 (blkIndex - 12)

/-- The loop over `current_blk` and `j`. -/
def walk (level blkIndex : ℕ) :
    ℕ → NodeState → ℕ → ℕ → ℕ → ℕ → Option (NodeState × Except Ext2Error (ℕ × Bool))
  | 0, _, _, _, _, _ => none
  | fuel + 1, st, current, parent, j, index =>
      if current = 0 then
        match ext2NodeNew src st (parent != 0 && j == 0) with
        | (st, .error err) => some (st, .error err)
        | (st, .ok blk) =>
            if parent = 0 then
              walk level blkIndex fuel
                { st with iBlock := Function.update st.iBlock (11 + level) blk } blk blk j index
            else
              match src.blkGet st.gets with
              | some err => some ({ st with gets := st.gets + 1 }, .error err)
              | none =>
                  let refs := Function.update (st.disk parent) index blk
                  let st := { st with
                    gets := st.gets + 1, disk := Function.update st.disk parent refs }
                  if j = 0 then some (st, .ok (blk, true))
                  -- the index stays that of the level above
                  else walk level blkIndex fuel st 0 blk (j - 1) index
      else if 0 < j then
        match src.blkGet st.gets with
        | some err => some ({ st with gets := st.gets + 1 }, .error err)
        | none =>
            let parentVal := 2 ^ (j * ctx.refLog)
            let index := if 1 < j then blkIndex / parentVal else blkIndex % parentVal
            walk level blkIndex fuel { st with gets := st.gets + 1 } (st.disk current index) current
              (j - 1) index
      else some (st, .ok (current, false))

/-- One round of the loop over the blocks of the page. `level` is unsigned in the source, so its
test for a negative level never holds; past the last level the shift that follows is undefined. -/
def locateBlk (st : NodeState) (blkIndex : ℕ) :
    Option (NodeState × Except Ext2Error (ℕ × Bool)) :=
  match ext2GetIndirectLevel ctx blkIndex with
  | none => none
  | some 0 =>
      if st.iBlock blkIndex ≠ 0 then some (st, .ok (st.iBlock blkIndex, false))
      else
        let blk := src.balloc st.used
        some ({ st with used := blk :: st.used
                        iBlock := Function.update st.iBlock blkIndex blk }, .ok (blk, true))
  | some (level + 1) =>
      let current := st.iBlock (11 + (level + 1))
      let blkIndex := blkIndex - 12
      let blkIndex := if 1 < level + 1 then blkIndex - 2 ^ (level * ctx.refLog) else blkIndex
      walk src ctx (level + 1) blkIndex (level + 4) st current current (level + 1) 0

/-- The tables `blks_tbl` and `blks_state_tbl` as far as they were filled, and the error. -/
structure Located where
  node : NodeState
  blks : List (ℕ × Bool)
  err : Option Ext2Error

def locateFrom : ℕ → ℕ → NodeState → Option Located
  | 0, _, st => some ⟨st, [], none⟩
  | todo + 1, blkIndex, st =>
      match locateBlk src ctx st blkIndex with
      | none => none
      | some (st, .error err) => some ⟨st, [], some err⟩
      | some (st, .ok entry) =>
          (locateFrom todo (blkIndex + 1) st).map fun rest =>
            { rest with blks := entry :: rest.blks }

/-- `ext2_node_blks_locate` -/
def ext2NodeBlksLocate (st : NodeState) (blkStart : ℕ) : Option Located :=
  locateFrom src ctx ctx.blksPerPage blkStart st

end Ext2
end Almos
