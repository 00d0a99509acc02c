import Almos.ByteMemory
import Almos.FatDirectory

/-!
# Writing back a node

`vfat_write_node` goes from the index of the entry to a page of the parent's mapper and to an
address. Memory is the bytes of the physical pages, and the addresses that the call reads or writes
are recorded.
-/
namespace Almos.Vfat
open Word

/-- What `vfat_write_node` reads of a node. -/
structure WriteNode where
  vfatType : Bool
  attr : NodeAttr
  size : ℕ
  entryIndex : ℕ

inductive WriteErr
  | einval
  | ioErr
  deriving DecidableEq

structure Access where
  mem : ByteMemory
  accessed : List ℕ

/-- `sizeof(struct vfat_DirEntry_s)`, and the offsets of `DIR_Attr` and `DIR_FileSize`. -/
def entrySize : ℕ := 32

def attrOffset : ℕ := 11

def sizeOffset : ℕ := 28

/-- The size of a pointer to an entry, which is taken for that of an entry. -/
def pointerSize : ℕ := 4

def setBits (mem : ByteMemory) (a : ℕ) (bits : BitVec 8) : ByteMemory :=
  Function.update mem a (mem a ||| bits)

/-- `dir->DIR_Attr |= bits` when the node has the attribute. -/
def orAttr (s : Access) (dir : ℕ) (has : Bool) (bits : BitVec 8) : Access :=
  if has then ⟨setBits s.mem (dir + attrOffset) bits, (dir + attrOffset) :: s.accessed⟩ else s

def storeSize (s : Access) (dir size : ℕ) : Access :=
  let a := dir + sizeOffset
  ⟨s.mem.store32 a size, a :: (a + 1) :: (a + 2) :: (a + 3) :: s.accessed⟩

/-- The page of the parent that `vfat_write_node` asks for. -/
def writePage (entryIndex : ℕ) : ℕ := entryIndex * pointerSize % 2 ^ 32 / pageSize

/-- What `vfat_write_node` does with the page locked, for the entry at `dir`. -/
def writeEntry (mem : ByteMemory) (dir : ℕ) (node : WriteNode) : Access :=
  let s := orAttr ⟨mem, []⟩ dir node.attr.dir 0x10
  let s := orAttr s dir node.attr.sys 0x04
  let s := orAttr s dir node.attr.archive 0x20
  let s := orAttr s dir node.attr.rdOnly 0x01
  storeSize s dir node.size

/-- `vfat_write_node`, where `getPage` gives the address of a page of the parent. -/
def vfatWriteNode (getPage : ℕ → Option ℕ) (mem : ByteMemory) (node : WriteNode) :
    Access × Option WriteErr :=
  if node.vfatType = false then (⟨mem, []⟩, some .einval)
  else
    match getPage (writePage node.entryIndex) with
    | none => (⟨mem, []⟩, some .ioErr)
    | some page => (writeEntry mem (wadd page (node.entryIndex * entrySize)) node, none)

def attrBits (attr : NodeAttr) : BitVec 8 :=
  (if attr.dir then 0x10 else 0) ||| (if attr.sys then 0x04 else 0) |||
    (if attr.archive then 0x20 else 0) ||| (if attr.rdOnly then 0x01 else 0)

def written (mem : ByteMemory) (entry : ℕ) (node : WriteNode) : ByteMemory :=
  (setBits mem (entry + attrOffset) (attrBits node.attr)).store32 (entry + sizeOffset) node.size

/-- A successful write-back changes the entry in this slot of the page at `page` and nothing else,
and accesses that page only. -/
def WritesBack (mem : ByteMemory) (node : WriteNode) (page slot : ℕ)
    (result : Access × Option WriteErr) : Prop :=
  result.2 = none → result.1.mem = written mem (page + slot * entrySize) node ∧
    ∀ a ∈ result.1.accessed, page ≤ a ∧ a < page + pageSize

variable {getPage : ℕ → Option ℕ} {mem : ByteMemory} {node : WriteNode} {s : Access} {dir : ℕ}

lemma setBits_zero (mem : ByteMemory) (a : ℕ) : setBits mem a 0 = mem := by
  rw [setBits, show mem a ||| 0 = mem a from BitVec.or_zero, Function.update_eq_self]

lemma setBits_setBits (mem : ByteMemory) (a : ℕ) (x y : BitVec 8) :
    setBits (setBits mem a x) a y = setBits mem a (x ||| y) := by
  rw [setBits, setBits, setBits, Function.update_self, Function.update_idem, BitVec.or_assoc]

lemma orAttr_mem (s : Access) (dir : ℕ) (has : Bool) (bits : BitVec 8) :
    (orAttr s dir has bits).mem =
      setBits s.mem (dir + attrOffset) (if has then bits else 0) := by
  cases has
  · exact (setBits_zero _ _).symm
  · rfl

lemma writeEntry_mem (mem : ByteMemory) (dir : ℕ) (node : WriteNode) :
    (writeEntry mem dir node).mem = written mem dir node := by
  simp only [writeEntry, storeSize, orAttr_mem, setBits_setBits, written, attrBits]

/-- The addresses that a write-back of the entry at `dir` may access. -/
def InEntry (dir : ℕ) (s : Access) : Prop := ∀ a ∈ s.accessed, dir ≤ a ∧ a < dir + entrySize

lemma InEntry.orAttr (h : InEntry dir s) (has : Bool) (bits : BitVec 8) :
    InEntry dir (orAttr s dir has bits) := by
  intro a ha
  cases has
  · exact h a ha
  · rcases List.mem_cons.1 ha with rfl | ha
    · simp only [attrOffset, entrySize]
      omega
    · exact h a ha

lemma writeEntry_accessed (mem : ByteMemory) (dir : ℕ) (node : WriteNode) :
    InEntry dir (writeEntry mem dir node) := by
  have hattr : InEntry dir ⟨mem, []⟩ := fun a ha => absurd ha List.not_mem_nil
  intro a ha
  simp only [writeEntry, storeSize, List.mem_cons] at ha
  rcases ha with rfl | rfl | rfl | rfl | ha
  iterate 4
    simp only [sizeOffset, entrySize]
    omega
  exact ((((hattr.orAttr _ _).orAttr _ _).orAttr _ _).orAttr _ _) a ha

lemma size_accessed (mem : ByteMemory) (dir : ℕ) (node : WriteNode) :
    dir + sizeOffset ∈ (writeEntry mem dir node).accessed :=
  List.mem_cons_self

/-- The address of the entry, from the frame of the page that the code asks for. -/
lemma wadd_entry (frame index : ℕ) :
    wadd (frame * pageSize) (index * entrySize) =
      (frame + index / entriesNr) % 2 ^ 20 * pageSize + index % entriesNr * entrySize := by
  simp only [wadd, pageSize, entriesNr, entrySize]
  omega

lemma writesBack_iff {frame : ℕ} (htype : node.vfatType = true)
    (hframes : ∀ p a, getPage p = some a → ∃ f < 2 ^ 20, a = f * pageSize) :
    WritesBack mem node (frame * pageSize) (node.entryIndex % entriesNr)
        (vfatWriteNode getPage mem node) ↔
      ∀ f, getPage (writePage node.entryIndex) = some (f * pageSize) →
        (f + node.entryIndex / entriesNr) % 2 ^ 20 = frame := by
  have hne : ¬node.vfatType = false := by simp [htype]
  have hslot : node.entryIndex % entriesNr * entrySize + entrySize ≤ pageSize := by
    simp only [pageSize, entriesNr, entrySize]
    omega
  rw [vfatWriteNode, if_neg hne]
  cases hget : getPage (writePage node.entryIndex) with
  | none => exact iff_of_true (fun herr => absurd herr (by simp)) (fun f hf => absurd hf (by simp))
  | some a =>
    obtain ⟨f, -, rfl⟩ := hframes _ a hget
    have hentry := wadd_entry f node.entryIndex
    simp only [WritesBack, forall_const, writeEntry_mem, hentry, Option.some.injEq]
    constructor
    · rintro ⟨-, haccess⟩ g hg
      have hsize := haccess _ (size_accessed mem _ node)
      have hfg : f = g := by
        simp only [pageSize] at hg
        omega
      subst hfg
      simp only [pageSize, entrySize, sizeOffset] at hsize hslot
      omega
    · intro hall
      rw [hall f rfl]
      refine ⟨rfl, fun a ha => ?_⟩
      have hin := writeEntry_accessed mem _ node a ha
      omega

/-- A node is written back to its own entry, in its own page, if and only if the frame of the page
that `vfat_write_node` asks for lies as many frames before that page as there are pages before it;
so are the nodes of the first page. -/
theorem vfat_write_node_own_entry {frame : ℕ} (htype : node.vfatType = true)
    (hframes : ∀ p a, getPage p = some a → ∃ f < 2 ^ 20, a = f * pageSize)
    (hown : getPage (node.entryIndex / entriesNr) = some (frame * pageSize)) :
    (WritesBack mem node (frame * pageSize) (node.entryIndex % entriesNr)
        (vfatWriteNode getPage mem node) ↔
      ∀ f, getPage (writePage node.entryIndex) = some (f * pageSize) →
        (f + node.entryIndex / entriesNr) % 2 ^ 20 = frame) ∧
    (node.entryIndex < entriesNr → WritesBack mem node (frame * pageSize)
      (node.entryIndex % entriesNr) (vfatWriteNode getPage mem node)) := by
  refine ⟨writesBack_iff htype hframes, fun hindex => (writesBack_iff htype hframes).2 ?_⟩
  intro f hf
  have hpage : node.entryIndex / entriesNr = 0 := Nat.div_eq_of_lt hindex
  have hwrite : writePage node.entryIndex = 0 := by
    simp only [writePage, pointerSize, pageSize, entriesNr] at hindex ⊢
    omega
  obtain ⟨g, hg, heq⟩ := hframes _ _ hown
  rw [hpage, ← hwrite, hf, Option.some.injEq] at hown
  simp only [pageSize] at hown heq
  omega

/-- A file of the attributes `archive`, at an index. -/
def archived (entryIndex : ℕ) : WriteNode :=
  ⟨true, ⟨false, false, false, true, false, false⟩, 7, entryIndex⟩

def twoPages : ℕ → Option ℕ
  | 0 => some (1 * pageSize)
  | 1 => some (5 * pageSize)
  | _ => none

lemma twoPages_frames (p a : ℕ) (h : twoPages p = some a) : ∃ f < 2 ^ 20, a = f * pageSize := by
  match p with
  | 0 => exact ⟨1, by decide, (Option.some.inj h).symm⟩
  | 1 => exact ⟨5, by decide, (Option.some.inj h).symm⟩
  | _ + 2 => exact absurd h (by simp [twoPages])

theorem vfat_write_node_own_entry_last :
    WritesBack (fun _ => 0) (archived 127) (1 * pageSize) 127
      (vfatWriteNode twoPages (fun _ => 0) (archived 127)) :=
  (vfat_write_node_own_entry rfl twoPages_frames rfl).2 (by decide)

/-- The first entry of the second page is written after the end of the first page. -/
theorem vfat_write_node_next_page : ¬∀ mem, WritesBack mem (archived 128) (5 * pageSize) 0
    (vfatWriteNode twoPages mem (archived 128)) := by
  intro h
  have haccess := (h (fun _ => 0) rfl).2 _ (size_accessed _ _ _)
  exact absurd haccess (by decide)

end Almos.Vfat
