import Mathlib
import Almos.BlockChain
import Almos.Bits
import Almos.ByteMemory
import Almos.CString
import Almos.Ext2Node
import Almos.Machine

/-!
# ext2 directories

A directory is a file of records, each with its inode, its length and its name; an inode of 0 marks
a record that is not used. `ext2_node_link` puts a name into the first record with room,
`ext2_lookup_node` follows the lengths until it comes to the name. The page of an index may fail to
load; the locks and the dirty flag are left out.
-/
namespace Almos.Ext2

def BlkSize.blkSize (ctx : BlkSize) : ℕ := 2 ^ ctx.blkSizeLog

namespace Dir
open Bits ByteMemory BlockChain

def pmmPageSize : ℕ := 4096

/-- `sizeof(struct ext2_dirEntry_s)` -/
def entrySize : ℕ := 8

/-- `EXT2_FT_DIR` -/
def ftDir : BitVec 8 := 0x02

/-- `ext2_ino2dir_mode_tbl` -/
def ext2Ino2dirModeTbl : List (BitVec 8) := [0x05, 0x03, ftDir, 0x04, 0x01, 0x07, 0x06, 0x00]

def ext2Ino2dirFtypeConvert (iMode : ℕ) : BitVec 8 := ext2Ino2dirModeTbl.getD (iMode >>> 13 &&& 7) 0

section Records
variable (mem : ByteMemory) (a : ℕ)

def dInode : ℕ := load32 mem a

def dRecLen : ℕ := load16 mem (a + 4)

def dNameLen : ℕ := (mem (a + 6)).toNat

def dFileType : BitVec 8 := mem (a + 7)

/-- The first `n` bytes of `d_name`. -/
def dName (n : ℕ) : List (BitVec 8) := (List.range n).map fun i => mem (a + entrySize + i)

def fitLen : ℕ := entrySize + arroundUp (dNameLen mem a) 4

def writeEntry (ino : ℕ) (fileType : BitVec 8) (name : List (BitVec 8)) : ByteMemory :=
  let mem := store32 mem a ino
  let mem := Function.update mem (a + 6) (BitVec.ofNat 8 name.length)
  let mem := Function.update mem (a + 7) fileType
  strcpy mem (a + entrySize) name

end Records

/-- The pages of a directory; what is read behind the end of a page is other memory. -/
structure Directory where
  nSize : ℕ
  pages : ℕ → ByteMemory

/-! ### The loops over records and pages -/

/-- The records of a page from `offset` on: `visit` ends the loop or goes on to the next record. -/
def scanRecords (mem : ByteMemory) (visit : ℕ → Option (Option ℕ)) : ℕ → ℕ → Option (Option ℕ)
  | 0, _ => none
  | fuel + 1, offset =>
      if offset < pmmPageSize then
        match visit offset with
        | some out => some out
        | none => scanRecords mem visit fuel (offset + dRecLen mem offset)
      else some none

inductive Scan
  | found (i offset : ℕ)
  | failed (err : Ext2Error)
  | ended

/-- The pages from `i` on, `todo` of them, each with its loop over the records. -/
def scanPages (dir : Directory) (fails : ℕ → Option Ext2Error)
    (visit : ByteMemory → ℕ → Option (Option ℕ)) (fuel : ℕ) : ℕ → ℕ → Option Scan
  | 0, _ => some .ended
  | todo + 1, i =>
      match fails i with
      | some err => some (.failed err)
      | none =>
          match scanRecords (dir.pages i) (visit (dir.pages i)) fuel 0 with
          | none => none
          | some none => scanPages dir fails visit fuel todo (i + 1)
          | some (some offset) => some (.found i offset)

structure Node where
  name : CString
  ino : ℕ
  iMode : ℕ
  name_pos : 0 < name.bytes.length
  name_le : name.bytes.length ≤ 255
  ino_pos : 0 < ino
  ino_lt : ino < 2 ^ 32

namespace Node

/-- `size`, the bytes that the record of a name takes. -/
def size (node : Node) : ℕ := arroundUp (entrySize + node.name.bytes.length) 4

def fileType (node : Node) : BitVec 8 := ext2Ino2dirFtypeConvert node.iMode

end Node

/-- The test of `ext2_node_link` for a record. -/
def HasRoom (mem : ByteMemory) (size a : ℕ) : Prop :=
  dInode mem a = 0 ∧ (dRecLen mem a = 0 ∨ size ≤ dRecLen mem a) ∨
    fitLen mem a + size ≤ dRecLen mem a

instance (mem : ByteMemory) (size a : ℕ) : Decidable (HasRoom mem size a) :=
  inferInstanceAs (Decidable (_ ∨ _))

def visitRoom (size : ℕ) (mem : ByteMemory) (a : ℕ) : Option (Option ℕ) :=
  if HasRoom mem size a then some (some a) else none

section Functions
variable (ctx : BlkSize)

/-- The page with the lengths set at `found`, and where the new record starts; there is none when
the record would leave its block. -/
def takeRoom (mem : ByteMemory) (offset size : ℕ) : Option (ByteMemory × ℕ) :=
  if dInode mem offset ≠ 0 then
    let rest := dRecLen mem offset - fitLen mem offset
    let entry := offset + fitLen mem offset
    some (store16 (store16 mem (offset + 4) (fitLen mem offset)) (entry + 4) rest, entry)
  else if ctx.blkSize - offset % ctx.blkSize < size then none
  else
    let recLen :=
      if dRecLen mem offset = 0 then ctx.blkSize - size else dRecLen mem offset - size
    some (store16 mem (offset + 4) recLen, offset)

/-- `ext2_node_link` -/
def ext2NodeLink (dir : Directory) (fails : ℕ → Option Ext2Error) (node : Node) (fuel : ℕ) :
    Option (Directory × Option Ext2Error) :=
  match scanPages dir fails (visitRoom node.size) fuel (dir.nSize / pmmPageSize + 2) 0 with
  | none => none
  | some (.failed err) => some (dir, some err)
  | some .ended => some (dir, some .enospc)
  | some (.found i offset) =>
      match takeRoom ctx (dir.pages i) offset node.size with
      | none => some (dir, some .eio)
      | some (mem, entry) =>
          let size := (offset + i * pmmPageSize) % 2 ^ 32
          some ({
            nSize :=
              if dir.nSize < size then (dir.nSize + i * pmmPageSize) % 2 ^ 32 else dir.nSize
            pages := Function.update dir.pages i
              (writeEntry mem entry node.ino node.fileType node.name.bytes) }, none)

inductive Lookup
  | notFound
  | notDir
  | found (ino : ℕ)
  | failed (err : Ext2Error)

/-- The test of `ext2_lookup_node` for a record. -/
def visitName (name : CString) (mem : ByteMemory) (a : ℕ) : Option (Option ℕ) :=
  if dInode mem a = 0 ∧ dRecLen mem a = 0 then some none
  else if dInode mem a ≠ 0 ∧ name.bytes.length = dNameLen mem a ∧
      dName mem a name.bytes.length = name.bytes then some (some a)
  else none

/-- `pages_nr` of `ext2_lookup_node` -/
def pagesNr (dir : Directory) : ℕ :=
  if dir.nSize / pmmPageSize = 0 then 1 else dir.nSize / pmmPageSize

/-- `ext2_lookup_node` up to the reading of the inode found; `wantsDir` is `VFS_DIR`. -/
def ext2LookupNode (dir : Directory) (fails : ℕ → Option Ext2Error) (name : CString)
    (wantsDir : Bool) (fuel : ℕ) : Option Lookup :=
  match scanPages dir fails (visitName name) fuel (pagesNr dir) 0 with
  | none => none
  | some (.failed err) => some (.failed err)
  | some .ended => some .notFound
  | some (.found i offset) =>
      if wantsDir ∧ dFileType (dir.pages i) offset ≠ ftDir then some .notDir
      else some (.found (dInode (dir.pages i) offset))

/-- `ext2_dir_init`, once the first page is there. -/
def ext2DirInit (pages : ℕ → ByteMemory) (ino pIno : ℕ) : Directory :=
  let recLen := arroundUp (entrySize + 1) 4
  let mem := store16 (writeEntry (pages 0) 0 ino ftDir [0x2E]) 4 recLen
  let mem := store16 (writeEntry mem recLen pIno ftDir [0x2E, 0x2E]) (recLen + 4)
    (ctx.blkSize - recLen)
  { nSize := ctx.blkSize
    pages := Function.update pages 0 mem }

end Functions

end Dir

end Almos.Ext2
