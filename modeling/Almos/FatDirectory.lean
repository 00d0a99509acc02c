import Almos.Fat
import Almos.Machine

/-!
# VFAT directories

A directory is a sequence of entries of 32 bytes over the pages of its mapper. The first byte of
a name tells a free entry: `0x00` also ends the directory, `0xE5` does not. Pages stay in the
mapper once they are there.
-/
namespace Almos.Vfat
open Word

/-- The fields of `vfat_DirEntry_s` that are used. -/
structure DirEntry where
  name : List UInt8
  name_length : name.length = 11
  attr : UInt8
  fstClusHI : ℕ
  fstClusLO : ℕ
  fileSize : ℕ
  deriving DecidableEq

namespace DirEntry

def first (e : DirEntry) : UInt8 := e.name.headD 0

def setFirst (e : DirEntry) (val : UInt8) : DirEntry :=
  { e with name := e.name.set 0 val, name_length := List.length_set.trans e.name_length }

def zero : DirEntry := ⟨List.replicate 11 0, rfl, 0, 0, 0, 0⟩

/-- `0x00` or `0xE5` -/
def isFree (e : DirEntry) : Bool := e.first == 0x00 || e.first == 0xE5

/-- An entry before the end that is neither free, nor `.` or `..`, nor part of a long name. -/
def isNamed (e : DirEntry) : Bool := e.first != 0xE5 && e.first != 0x2E && e.attr != 0x0F

end DirEntry

structure Directory where
  entries : ℕ → DirEntry
  pageCount : ℕ

/-- `PMM_PAGE_SIZE / sizeof(struct vfat_DirEntry_s)` -/
def entriesNr : ℕ := 128

def space : UInt8 := 0x20

def dot : UInt8 := 0x2E

/-- `vfat_getshortname`, as the string that its result is. -/
def vfatGetshortname (source : List UInt8) : List UInt8 :=
  let base := (source.take 8).takeWhile (· != space)
  let ext :=
    if source.getD 8 0 ≠ space then dot :: ((source.drop 8).take 3).takeWhile (· != space) else []
  (base ++ ext).takeWhile (· != 0)

/-- `vfat_convert_name`; `junk` is what follows the end of the string in its buffer. Three bytes are
taken after a dot. -/
def vfatConvertName (name : List UInt8) (junk : UInt8 × UInt8) : List UInt8 :=
  let base := (name.takeWhile (· != dot)).take 11
  let padded := base ++ List.replicate (11 - base.length) space
  let rest := name.drop base.length
  if base.length ≤ 8 ∧ rest.head? = some dot then
    padded.take 8 ++ (rest.tail ++ [0, junk.1, junk.2]).take 3
  else padded

theorem vfatConvertName_length (name : List UInt8) (junk : UInt8 × UInt8) :
    (vfatConvertName name junk).length = 11 := by
  have hbase : ((name.takeWhile (· != dot)).take 11).length ≤ 11 := by
    rw [List.length_take]
    exact min_le_left _ _
  simp only [vfatConvertName]
  split_ifs
  · simp only [List.length_append, List.length_take, List.length_replicate, List.length_cons,
      List.length_nil]
    omega
  · rw [List.length_append, List.length_replicate]
    omega

structure NodeAttr where
  sys : Bool
  fifo : Bool
  dev : Bool
  archive : Bool
  rdOnly : Bool
  dir : Bool

/-- `DIR_Attr` of a new entry. -/
def dirAttr (a : NodeAttr) : UInt8 :=
  (if a.sys || a.fifo || a.dev then 0x04 else 0) ||| (if a.archive then 0x20 else 0) |||
    (if a.rdOnly || a.fifo || a.dev then 0x01 else 0) ||| (if a.dir then 0x10 else 0)

section Functions
variable (d : Directory) (loads : ℕ → Bool)

/-- A loop over the entries of a page inside a loop over the pages: the first entry that stops it.
The pages after the last one were never added to the mapper. -/
def scanPages (stop : DirEntry → Bool) : ℕ → ℕ → Except VfsError ℕ
  | 0, _ => .error .ioErr
  | todo + 1, page =>
      if loads page then
        match (List.range entriesNr).find? fun entry => stop (d.entries (page * entriesNr + entry)) with
        | some entry => .ok (page * entriesNr + entry)
        | none => scanPages stop todo (page + 1)
      else .error .ioErr

/-- What `vfat_locate_entry` stops at. -/
def locateStop (entryName : Option (List UInt8)) (e : DirEntry) : Bool :=
  e.first == 0x00 || e.first != 0xE5 && e.first != 0x2E &&
    entryName.all fun name => e.attr != 0x0F && vfatGetshortname e.name == name

/-- `vfat_locate_entry`: the index and the entry. -/
def vfatLocateEntry (entryName : Option (List UInt8)) : Except VfsError (ℕ × DirEntry) :=
  match scanPages d loads (locateStop entryName) d.pageCount 0 with
  | .error err => .error err
  | .ok index =>
      if (d.entries index).first = 0x00 then .error .notFound
      else if entryName = none then .error .enotempty
      else .ok (index, d.entries index)

/-- How the allocations of `vfat_create_node` go: the cluster, the page, and its insertion. -/
structure CreateEnv where
  cluster : Except VfsError ℕ
  loads : ℕ → Bool
  pageOk : Bool
  insertOk : Bool
  junk : UInt8 × UInt8

/-- The entry that `vfat_create_node` writes. -/
def newEntry (name : List UInt8) (attr : NodeAttr) (junk : UInt8 × UInt8) (cluster : ℕ) : DirEntry :=
  ⟨vfatConvertName name junk, vfatConvertName_length name junk, dirAttr attr, cluster / 2 ^ 16,
    cluster % 2 ^ 16, 0⟩

/-- `vfat_create_node`: the index of the entry. The page after the last entry of a page is added
when the end of the directory moves there; it cannot be if it exists. -/
def vfatCreateNode (name : List UInt8) (attr : NodeAttr) (env : CreateEnv) :
    Directory × Except VfsError (ℕ × DirEntry) :=
  match if attr.fifo || attr.dev then .ok 0 else env.cluster with
  | .error _ => (d, .error .ioErr)
  | .ok cluster =>
      if cluster = 0 ∧ ¬(attr.fifo || attr.dev) then (d, .error .enospc)
      else
        match scanPages d env.loads DirEntry.isFree d.pageCount 0 with
        | .error err => (d, .error err)
        | .ok index =>
            let entry := newEntry name attr env.junk cluster
            if (d.entries index).first = 0x00 then
              if index % entriesNr = entriesNr - 1 then
                if env.pageOk = false then (d, .error .enomem)
                else if index / entriesNr + 1 < d.pageCount then (d, .error .eexist)
                else if env.insertOk = false then (d, .error .enomem)
                else
                  (⟨fun i => if i = index then entry
                    else if i / entriesNr = index / entriesNr + 1 then .zero else d.entries i,
                    d.pageCount + 1⟩, .ok (index, entry))
              else
                (⟨fun i => if i = index then entry
                  else if i = index + 1 then (d.entries i).setFirst 0x00 else d.entries i,
                  d.pageCount⟩, .ok (index, entry))
            else (⟨Function.update d.entries index entry, d.pageCount⟩, .ok (index, entry))

/-- What `vfat_unlink_node` knows of the node, which is still in use; `after` is the byte that
follows the page of its entry in memory. -/
structure UnlinkEnv where
  loads : ℕ → Bool
  after : UInt8
  fifo : Bool

/-- `vfat_unlink_node`. The entry before the end becomes the end. The last entry of a page is
recognised in the first page only; in the others the byte after the page is looked at. -/
def vfatUnlinkNode (name : List UInt8) (entryIndex : ℕ) (env : UnlinkEnv) :
    Directory × Except VfsError Unit :=
  match if env.fifo then (vfatLocateEntry d env.loads (some name)).map Prod.fst else .ok entryIndex with
  | .error err => (d, .error err)
  | .ok index =>
      let page := index * 32 % 2 ^ 32 / pageSize
      let slot := page * entriesNr + index % entriesNr
      if env.loads page = false ∨ d.pageCount ≤ page then (d, .error .ioErr)
      else if index = entriesNr - 1 then
        if env.loads (page + 1) = false ∨ d.pageCount ≤ page + 1 then (d, .error .ioErr)
        else
          let val : UInt8 := if (d.entries ((page + 1) * entriesNr)).first = 0x00 then 0x00 else 0xE5
          (⟨Function.update d.entries slot ((d.entries slot).setFirst val), d.pageCount⟩, .ok ())
      else
        let next :=
          if index % entriesNr = entriesNr - 1 then env.after else (d.entries (slot + 1)).first
        let val : UInt8 := if next = 0x00 then 0x00 else 0xE5
        (⟨Function.update d.entries slot ((d.entries slot).setFirst val), d.pageCount⟩, .ok ())

/-- `d_type` of a directory entry. -/
structure DirentType where
  dir : Bool
  sys : Bool
  archive : Bool
  rdOnly : Bool
  dev : Bool
  fifo : Bool

def direntType (e : DirEntry) : DirentType :=
  let dir := e.attr &&& 0x10 != 0
  let sys := e.attr &&& 0x04 != 0
  let archive := e.attr &&& 0x20 != 0
  let rdOnly := e.attr &&& 0x01 != 0
  let special := e.fstClusHI * 2 ^ 16 + e.fstClusLO = 0 ∧ sys ∧ rdOnly
  if special ∧ dir then ⟨false, false, archive, false, true, false⟩
  else if special then ⟨dir, false, archive, false, false, true⟩
  else ⟨dir, sys, archive, rdOnly, false, false⟩

/-- The loop of `vfat_readdir` from `f_offset`: the name and type found, and `f_offset` after. -/
def vfatReaddir : ℕ → ℕ → Except VfsError (List UInt8 × DirentType) × ℕ
  | 0, fOffset => (.error .ioErr, fOffset)
  | fuel + 1, fOffset =>
      let page := fOffset / pageSize
      if loads page = false ∨ d.pageCount ≤ page then (.error .ioErr, fOffset)
      else
        let e := d.entries (page * entriesNr + fOffset % pageSize / 32)
        if e.first = 0x00 then (.error .eodir, fOffset)
        else if e.isNamed then (.ok (vfatGetshortname e.name, direntType e), wadd fOffset 32)
        else vfatReaddir fuel (wadd fOffset 32)

end Functions

end Almos.Vfat
