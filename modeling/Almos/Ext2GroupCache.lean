import Mathlib
import Almos.Bits
import Almos.Ext2Node
import Almos.Machine

/-!
# The cache of ext2 group descriptors

A page holds the descriptors of `count` groups and a bitmap with the slots that may be taken for
another group. A group is looked up in the slot `grp_id % count`; on a miss it is loaded into the
first slot marked in the bitmap. What a descriptor holds beyond its identifier and flags is left
open, and so is what a failed load leaves in it. The locks are left out: calls run one after another, by any number of users.
-/
namespace Almos.Ext2
open Bits

variable {γ : Type*}

/-- `struct ext2_group_s`, with `EXT2_GF_VALID`, `EXT2_GF_DIRTY` and `EXT2_GF_BUSY` of `g_flags`;
`info` is what `ext2_group_load` reads and `ext2_group_sync` writes. -/
structure GroupEntry (γ : Type*) where
  gId : ℕ
  valid : Bool
  dirty : Bool
  busy : Bool
  info : γ

/-- `tbl` and `lru_bitmap` of `struct ext2_group_cache_s`, and the descriptors on the disk. -/
structure GroupCache (γ : Type*) where
  tbl : ℕ → GroupEntry γ
  lruBitmap : Bitmap
  disk : ℕ → γ

/-- `room` is the number of entries a page has space for: 128 descriptors of 32 bytes less those
that the header takes. -/
structure GroupLayout where
  blkSize : ℕ
  groupCount : ℕ
  room : ℕ
  blk_size : 1024 ≤ blkSize
  group_count : 0 < groupCount
  room_pos : 0 < room
  room_lt : room < 128

namespace GroupLayout
variable (ctx : GroupLayout)

/-- `cache->count` -/
def count : ℕ := min ctx.room ctx.groupCount

def blkCount : ℕ :=
  if ctx.groupCount * 32 / ctx.blkSize = 0 then 1 else ctx.groupCount * 32 / ctx.blkSize

def groupsPerBlk : ℕ := ctx.blkSize / 32

lemma count_pos : 0 < ctx.count := lt_min ctx.room_pos ctx.group_count

end GroupLayout

/-- `EXT2_LRU_BTMP_SZ` in bytes, and the bits of `lru_bitmap`. -/
def lruBitmapSize : ℕ := 16

def lruBits : ℕ := lruBitmapSize * 8

/-- `bitmap_ffs` -/
def bitmapFfs (bitmap : Bitmap) (size : ℕ) : Option ℕ := scanWords bitmap (size * 8 / cpuWidth) 0

def GroupCache.setEntry (c : GroupCache γ) (slot : ℕ) (e : GroupEntry γ) : GroupCache γ :=
  { c with tbl := Function.update c.tbl slot e }

variable (ctx : GroupLayout)

/-- The inner loop of `ext2_group_cache_init`, over the descriptors of block `blk`. -/
def initGroups (disk : ℕ → γ) (blk : ℕ) :
    ℕ → ℕ → ℕ → (ℕ → GroupEntry γ) → ℕ × (ℕ → GroupEntry γ)
  | 0, _, count, tbl => (count, tbl)
  | todo + 1, group, count, tbl =>
      if count < ctx.count then
        initGroups disk blk todo (group + 1) (count + 1)
          (Function.update tbl count
            ⟨count, true, false, false, disk (blk * ctx.groupsPerBlk + group)⟩)
      else (count, tbl)

def initBlks (disk : ℕ → γ) : ℕ → ℕ → ℕ → (ℕ → GroupEntry γ) → ℕ × (ℕ → GroupEntry γ)
  | 0, _, count, tbl => (count, tbl)
  | todo + 1, blk, count, tbl =>
      let (count, tbl) := initGroups ctx disk blk ctx.groupsPerBlk 0 count tbl
      initBlks disk todo (blk + 1) count tbl

/-- `ext2_group_cache_init` when every descriptor can be loaded (otherwise the volume is not
mounted), in a page that held `junk`. -/
def ext2GroupCacheInit (junk : ℕ → GroupEntry γ) (disk : ℕ → γ) : GroupCache γ where
  tbl := (initBlks ctx disk ctx.blkCount 0 0 junk).2
  lruBitmap := bitmapSetRange (fun _ => 0) 0 ctx.count
  disk := disk

/-- `ext2_group_sync`; when the block of the descriptor cannot be read nothing is written. -/
def ext2GroupSync (c : GroupCache γ) (slot : ℕ) (synced : Bool) : GroupCache γ :=
  if synced then { c with disk := Function.update c.disk (c.tbl slot).gId (c.tbl slot).info } else c

/-- `isHit` of `ext2_group_get` -/
def isHit (c : GroupCache γ) (grpId : ℕ) : Bool :=
  (c.tbl (grpId % ctx.count)).gId == grpId && (c.tbl (grpId % ctx.count)).valid

def victim (c : GroupCache γ) : Bitmap × ℕ :=
  match bitmapFfs c.lruBitmap lruBitmapSize with
  | some slot => (c.lruBitmap, slot)
  | none => (bitmapSetRange c.lruBitmap 1 (min ctx.groupCount ctx.count), 0)

def loadEntry (c : GroupCache γ) (slot grpId : ℕ) (loaded : Option Ext2Error) : GroupCache γ :=
  match loaded with
  | some _ => c.setEntry slot ⟨grpId, false, false, false, (c.tbl slot).info⟩
  | none => c.setEntry slot ⟨grpId, true, false, true, c.disk grpId⟩

/-- `ext2_group_get` with the slot it answers. `synced` and `loaded` say how writing the old entry
back and loading the new one end. There is no answer when the caller goes to sleep, to find the same
`g_id` again when it wakes up, nor when a bit past the end of the bitmap is written. -/
def ext2GroupGet (c : GroupCache γ) (grpId : ℕ) (synced : Bool) (loaded : Option Ext2Error) :
    Option (GroupCache γ × ℕ × Option Ext2Error) :=
  if isHit ctx c grpId then
    let index := grpId % ctx.count
    -- the test is on `g_id`, not on `g_flags`
    if (c.tbl index).gId &&& 8 ≠ 0 then none
    else if grpId < lruBits then
      let c := { c with lruBitmap := bitmapClear c.lruBitmap grpId }
      some (c.setEntry index { c.tbl index with busy := true }, index, none)
    else none
  else
    let (lruBitmap, slot) := victim ctx c
    let c := { c with lruBitmap }
    let c := c.setEntry slot { c.tbl slot with busy := true }
    let c := if (c.tbl slot).dirty then ext2GroupSync c slot synced else c
    some (loadEntry c slot grpId loaded, slot, loaded)

/-- `ext2_group_put` -/
def ext2GroupPut (c : GroupCache γ) (slot : ℕ) (dirty : Bool) : Option (GroupCache γ) :=
  let e := c.tbl slot
  if e.gId < lruBits then
    let c := { c with lruBitmap := bitmapClear c.lruBitmap e.gId }
    some (c.setEntry slot { e with dirty := e.dirty || dirty, busy := false })
  else none

/-- A group that a user has obtained: its slot, how often the slot had been loaded by then, and
whether the user has modified it. -/
structure Holding where
  slot : ℕ
  grp : ℕ
  loads : ℕ
  modified : Bool
  deriving DecidableEq

/-- The cache with what its users hold, the contents they gave to the groups, and the number of
loads of each slot. -/
structure GroupRun (γ : Type*) where
  cache : GroupCache γ
  held : ℕ → Option Holding
  truth : ℕ → γ
  loads : ℕ → ℕ

inductive GroupEvent (γ : Type*)
  | get (user grpId : ℕ) (synced : Bool) (loaded : Option Ext2Error)
  | modify (user : ℕ) (info : γ)
  | put (user : ℕ)

/-- What a user who is answered `slot` holds, unless there was an error. -/
def GroupRun.obtain (s : GroupRun γ) (user grpId : ℕ) :
    GroupCache γ × ℕ × Option Ext2Error → GroupRun γ
  | (cache, slot, err) =>
      let loads := if isHit ctx s.cache grpId then s.loads
        else Function.update s.loads slot (s.loads slot + 1)
      { s with
        cache
        loads
        held := if err = none then
            Function.update s.held user (some ⟨slot, grpId, loads slot, false⟩)
          else s.held }

/-- A user modifies a group between get and put, and says so when it puts it. -/
def groupStep (s : GroupRun γ) : GroupEvent γ → Option (GroupRun γ)
  | .get user grpId synced loaded =>
      if s.held user = none ∧ grpId < ctx.groupCount then
        (ext2GroupGet ctx s.cache grpId synced loaded).map (s.obtain ctx user grpId)
      else none
  | .modify user info =>
      match s.held user with
      | none => none
      | some h => some
          { s with
            cache := s.cache.setEntry h.slot { s.cache.tbl h.slot with info }
            truth := Function.update s.truth h.grp info
            held := Function.update s.held user (some { h with modified := true }) }
  | .put user =>
      match s.held user with
      | none => none
      | some h => (ext2GroupPut s.cache h.slot h.modified).map fun cache =>
          { s with cache, held := Function.update s.held user none }

/-- The cache after it was initialised in a page that held `junk`, with its users. -/
def groupMachine (junk : ℕ → GroupEntry γ) : Machine (GroupRun γ) (GroupEvent γ) where
  init s := s.cache = ext2GroupCacheInit ctx junk s.truth ∧ ∀ user, s.held user = none
  step := groupStep ctx

end Almos.Ext2
