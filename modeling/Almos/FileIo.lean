import Almos.Word

/-!
# Reading and writing an open file

`vfs_default_read` and `vfs_default_write` copy between a buffer and the pages of the mapper of
a node, which lie anywhere in memory. Lookups of pages and copies succeed; a page is filled with
zeros when it is first asked for. The accesses to memory are recorded.
-/
namespace Almos.Vfs
open Word

/-- `PMM_PAGE_SIZE` -/
def pageSize : ℕ := 4096

def ebadf : ℤ := 9

def eisdir : ℤ := 21

def einval : ℤ := 22

def eoverflow : ℤ := 75

structure PageFrames where
  frame : ℕ → ℕ
  frame_inj : Function.Injective frame

/-- A copy of `len` bytes at offset `off` of the page `index`. -/
structure Access where
  index : ℕ
  off : ℕ
  len : ℕ

structure FilePages where
  mem : ℕ → UInt8
  loaded : ℕ → Bool
  accesses : List Access

structure FileFlags where
  directory : Bool
  rdonly : Bool
  wronly : Bool
  pipe : Bool
  dev : Bool
  fifo : Bool

/-- The fields of `vfs_file_s` and of its node. -/
structure OpenFile where
  pages : FilePages
  nSize : ℕ
  fOffset : ℕ

variable (fr : PageFrames)

/-- `ppm_page2addr` -/
def pageAddr (index : ℕ) : ℕ := fr.frame index * pageSize

/-- `mapper_get_page` -/
def mapperGetPage (p : FilePages) (index : ℕ) : FilePages :=
  if p.loaded index then p
  else
    { p with mem := fun a => if a / pageSize = fr.frame index then 0 else p.mem a
             loaded := Function.update p.loaded index true }

/-- `memcpy` from a page. -/
def copyFrom (p : FilePages) (index off len : ℕ) : FilePages × List UInt8 :=
  ({ p with accesses := ⟨index, off, len⟩ :: p.accesses },
    (List.range len).map fun k => p.mem (pageAddr fr index + off + k))

/-- `cpu_uspace_copy` to a page. -/
def copyTo (p : FilePages) (index off : ℕ) (bytes : List UInt8) : FilePages :=
  { p with
    mem := fun a =>
      if pageAddr fr index + off ≤ a then (bytes[a - (pageAddr fr index + off)]?).getD (p.mem a)
      else p.mem a
    accesses := ⟨index, off, bytes.length⟩ :: p.accesses }

/-- The loop of `vfs_default_read`: the bytes delivered, and what is left of the size. Every turn
takes at least a byte, so `size` turns are enough. -/
def readLoop (nSize : ℕ) : ℕ → FilePages → ℕ → ℕ → FilePages × List UInt8 × ℕ
  | 0, p, _, size => (p, [], size)
  | fuel + 1, p, current, size =>
      if 0 < size ∧ current < nSize then
        let p := mapperGetPage fr p (current / pageSize)
        let left := if pageSize < nSize - current then pageSize else nSize - current
        if left ≤ size then
          let (p, bytes) := copyFrom fr p (current / pageSize) (current % pageSize) left
          let (p, rest, size) := readLoop nSize fuel p (wadd current left) (size - left)
          (p, bytes ++ rest, size)
        else
          let (p, bytes) := copyFrom fr p (current / pageSize) (current % pageSize) size
          (p, bytes, 0)
      else (p, [], size)

/-- The loop of `vfs_default_write`. -/
def writeLoop : ℕ → FilePages → ℕ → List UInt8 → FilePages × List UInt8
  | 0, p, _, buffer => (p, buffer)
  | fuel + 1, p, current, buffer =>
      if 0 < buffer.length then
        let p := mapperGetPage fr p (current / pageSize)
        if pageSize ≤ buffer.length then
          let p := copyTo fr p (current / pageSize) (current % pageSize) (buffer.take pageSize)
          writeLoop fuel p (wadd current pageSize) (buffer.drop pageSize)
        else (copyTo fr p (current / pageSize) (current % pageSize) buffer, [])
      else (p, buffer)

/-- A size as `ssize_t`. -/
def ssize (n : ℕ) : ℤ := if n < 2 ^ 31 then n else n - 2 ^ 32

variable (flags : FileFlags)

/-- `vfs_default_read` -/
def vfsDefaultRead (f : OpenFile) (size : ℕ) : FilePages × List UInt8 × ℤ :=
  if flags.fifo then (f.pages, [], -einval)
  else if size = 0 then (f.pages, [], 0)
  else
    let (p, bytes, left) := readLoop fr f.nSize size f.pages f.fOffset size
    (p, bytes, ssize (size - left))

/-- `vfs_default_write` -/
def vfsDefaultWrite (f : OpenFile) (buffer : List UInt8) : FilePages × ℤ :=
  if flags.fifo then (f.pages, -einval)
  else if buffer.length = 0 then (f.pages, 0)
  else
    let (p, left) := writeLoop fr buffer.length f.pages f.fOffset buffer
    (p, ssize (buffer.length - left.length))

/-- The cap of `vfs_read`. -/
def sizeToRead (nSize fOffset count : ℕ) : ℕ :=
  let available := wsub (nSize % 2 ^ 32) fOffset
  if flags.pipe ∨ flags.dev then count else if available ≤ count then available else count

structure Answer where
  bytes : List UInt8
  ret : ℤ

/-- `vfs_read` -/
def vfsRead (f : OpenFile) (count : ℕ) : OpenFile × Answer :=
  if flags.directory then (f, ⟨[], -eisdir⟩)
  else if ¬flags.rdonly then (f, ⟨[], -ebadf⟩)
  else
    let (p, bytes, size) := vfsDefaultRead fr flags f (sizeToRead flags f.nSize f.fOffset count)
    if size < 0 then ({ f with pages := p }, ⟨bytes, size⟩)
    else ({ f with pages := p, fOffset := wadd f.fOffset size.toNat }, ⟨bytes, size⟩)

/-- `vfs_write` -/
def vfsWrite (f : OpenFile) (buffer : List UInt8) : OpenFile × Answer :=
  if flags.directory then (f, ⟨[], einval⟩)
  else if ¬flags.wronly then (f, ⟨[], ebadf⟩)
  else
    let hasToLock := ¬flags.dev ∧ f.nSize < wadd buffer.length f.fOffset
    let (p, size) := vfsDefaultWrite fr flags f buffer
    if size < 0 then ({ f with pages := p }, ⟨[], size⟩)
    else
      let fOffset := wadd f.fOffset size.toNat
      let nSize := if hasToLock ∧ f.nSize < fOffset then fOffset else f.nSize
      (⟨p, nSize, fOffset⟩, ⟨[], size⟩)

inductive Whence
  | set
  | cur
  | fromEnd
  | other

/-- The end of `vfs_lseek`, to a position computed in 64 bits; `lseekErr` is what `lseek` of the
file system returns. -/
def seekTo (f : OpenFile) (lseekErr : ℤ) (new : ℕ) : OpenFile × Answer :=
  if 2 ^ 32 - 1 ≤ new then (f, ⟨[], eoverflow⟩)
  else if lseekErr ≠ 0 then (f, ⟨[], -lseekErr⟩)
  else
    let hasToLock := f.nSize % 2 ^ 32 < new
    let nSize := if hasToLock ∧ f.nSize < new then new else f.nSize
    ({ f with fOffset := new, nSize := nSize }, ⟨[], 0⟩)

/-- `vfs_lseek` -/
def vfsLseek (f : OpenFile) (offset : ℕ) (whence : Whence) (lseekErr : ℤ) : OpenFile × Answer :=
  if flags.directory then (f, ⟨[], ebadf⟩)
  else
    match whence with
    | .set => if offset = f.fOffset then (f, ⟨[], 0⟩) else seekTo f lseekErr offset
    | .cur => seekTo f lseekErr (f.fOffset + offset)
    | .fromEnd => seekTo f lseekErr (wadd (f.nSize % 2 ^ 32) offset)
    | .other => (f, ⟨[], einval⟩)

inductive Call
  | read (count : ℕ)
  | write (buffer : List UInt8)
  | lseek (offset : ℕ) (whence : Whence) (lseekErr : ℤ)

def call (f : OpenFile) : Call → OpenFile × Answer
  | .read count => vfsRead fr flags f count
  | .write buffer => vfsWrite fr flags f buffer
  | .lseek offset whence lseekErr => vfsLseek flags f offset whence lseekErr

def calls (f : OpenFile) : List Call → OpenFile × List Answer
  | [] => (f, [])
  | c :: cs =>
      let (f, a) := call fr flags f c
      let (f, as) := calls f cs
      (f, a :: as)

/-- An array of bytes, zero where nothing was written, with a size and a position. -/
structure ByteFile where
  data : ℕ → UInt8
  size : ℕ
  offset : ℕ

namespace ByteFile

def slice (f : ByteFile) (n : ℕ) : List UInt8 := (List.range n).map fun k => f.data (f.offset + k)

/-- `buffer` is put at the position. -/
def put (f : ByteFile) (buffer : List UInt8) : ℕ → UInt8 := fun p =>
  if f.offset ≤ p then (buffer[p - f.offset]?).getD (f.data p) else f.data p

def readCount (f : ByteFile) (count : ℕ) : ℕ :=
  min (sizeToRead flags f.size f.offset count) (f.size - f.offset)

def read (f : ByteFile) (count : ℕ) : ByteFile × Answer :=
  if flags.directory then (f, ⟨[], -eisdir⟩)
  else if ¬flags.rdonly then (f, ⟨[], -ebadf⟩)
  else if flags.fifo then (f, ⟨[], -einval⟩)
  else
    let n := f.readCount flags count
    ({ f with offset := f.offset + n }, ⟨f.slice n, n⟩)

def write (f : ByteFile) (buffer : List UInt8) : ByteFile × Answer :=
  if flags.directory then (f, ⟨[], einval⟩)
  else if ¬flags.wronly then (f, ⟨[], ebadf⟩)
  else if flags.fifo then (f, ⟨[], -einval⟩)
  else
    let offset := f.offset + buffer.length
    (⟨f.put buffer, if flags.dev then f.size else max f.size offset, offset⟩,
      ⟨[], buffer.length⟩)

def seekTo (f : ByteFile) (lseekErr : ℤ) (new : ℕ) : ByteFile × Answer :=
  if 2 ^ 32 - 1 ≤ new then (f, ⟨[], eoverflow⟩)
  else if lseekErr ≠ 0 then (f, ⟨[], -lseekErr⟩)
  else ({ f with offset := new, size := max f.size new }, ⟨[], 0⟩)

def seek (f : ByteFile) (offset : ℕ) (whence : Whence) (lseekErr : ℤ) : ByteFile × Answer :=
  if flags.directory then (f, ⟨[], ebadf⟩)
  else
    match whence with
    | .set => if offset = f.offset then (f, ⟨[], 0⟩) else f.seekTo lseekErr offset
    | .cur => f.seekTo lseekErr (f.offset + offset)
    | .fromEnd => f.seekTo lseekErr (wadd (f.size % 2 ^ 32) offset)
    | .other => (f, ⟨[], einval⟩)

def call (f : ByteFile) : Call → ByteFile × Answer
  | .read count => f.read flags count
  | .write buffer => f.write flags buffer
  | .lseek offset whence lseekErr => f.seek flags offset whence lseekErr

def calls (f : ByteFile) : List Call → ByteFile × List Answer
  | [] => (f, [])
  | c :: cs =>
      let (f, a) := f.call flags c
      let (f, as) := calls f cs
      (f, a :: as)

end ByteFile

/-- The byte of the file at a position; a page not loaded yet is zero. -/
def content (p : FilePages) (pos : ℕ) : UInt8 :=
  if p.loaded (pos / pageSize) then p.mem (pageAddr fr (pos / pageSize) + pos % pageSize) else 0

def toByteFile (f : OpenFile) : ByteFile := ⟨content fr f.pages, f.nSize, f.fOffset⟩

end Almos.Vfs
