import Mathlib
import Almos.Machine

/-!
# The page table of the TSAR MMU

A directory of 2048 words covers the address space. A word is zero, the entry of a page of 2 MiB, or
the frame of a table with 512 entries of two words, the attributes and the frame number, for pages of
4 KiB. The hardware bit that says that there is a table stands where the software has `PMM_HUGE`.
Calls run one after another, so the compare-and-swap that installs a table succeeds.
-/
namespace Almos.Tsar

/-- `_PMM_BIT_ORDER` -/
def pmmBitOrder (x : ℕ) : BitVec 32 := BitVec.twoPow 32 x

def pmmPresent : BitVec 32 := pmmBitOrder 31
def pmmHuge : BitVec 32 := pmmBitOrder 30
def mmuPtd1 : BitVec 32 := pmmBitOrder 30
def pmmCow : BitVec 32 := pmmBitOrder 0
def pmmClear : BitVec 32 := pmmBitOrder 4

def mmuPdePpnMask : BitVec 32 := 0x0007FFFF#32
def mmuPdeAttrMask : BitVec 32 := 0xFFC00000#32
def mmuPteMask : BitVec 32 := 0x001FF000#32
def mmuPpnMask : BitVec 32 := pmmBitOrder 28 - 1#32
def pmmHugePageMask : BitVec 32 := 0x001FFFFF#32

/-- `MMU_PDE`, an index into the directory. -/
def mmuPde (vaddr : BitVec 32) : ℕ := (vaddr >>> 21).toNat

/-- `MMU_PTE`, an offset in bytes into a table. -/
def mmuPte (vaddr : BitVec 32) : ℕ := (((vaddr &&& mmuPteMask) >>> 12) <<< 3).toNat

/-- `pmm_page_info_t` -/
@[ext] structure PageInfo where
  attr : BitVec 32
  ppn : BitVec 32
deriving DecidableEq

/-- The directory, and the memory of the frames, a word at each offset in bytes. -/
structure Pmm where
  pgdir : ℕ → BitVec 32
  frames : BitVec 32 → ℕ → BitVec 32

inductive PmmError
  | einval
  | enomem
deriving DecidableEq

def Pmm.setPde (pmm : Pmm) (pde : ℕ) (val : BitVec 32) : Pmm :=
  { pmm with pgdir := Function.update pmm.pgdir pde val }

/-- The two words of an entry, `pte[0]` and `pte[1]`. -/
def Pmm.setPte (pmm : Pmm) (table : BitVec 32) (pte : ℕ) (info : PageInfo) : Pmm :=
  let words := Function.update (Function.update (pmm.frames table) pte info.attr) (pte + 4) info.ppn
  { pmm with frames := Function.update pmm.frames table words }

/-- `pmm_alloc_pages` delivers a frame filled with zeros. -/
def Pmm.allocTable (pmm : Pmm) (frame : BitVec 32) : Pmm :=
  { pmm with frames := Function.update pmm.frames frame fun _ => 0 }

/-- `pmm_set_page`; `frame` is what the allocation of a table delivers. -/
def pmmSetPage (pmm : Pmm) (vaddr : BitVec 32) (info : PageInfo) (frame : Option (BitVec 32)) :
    Pmm × Option PmmError :=
  let pde := mmuPde vaddr
  let isHuge := info.attr &&& pmmHuge
  let cleared : PageInfo := ⟨if isHuge ≠ 0 then pmmHuge else 0, 0⟩
  let new := if info.attr &&& pmmClear ≠ 0 then cleared else info
  let pdeVal := pmm.pgdir pde
  if isHuge ≠ 0 then
    if new.ppn ≠ 0 ∧ (pdeVal ≠ 0 ∨ new.attr &&& pmmCow ≠ 0) then (pmm, some .einval)
    else (pmm.setPde pde ((new.attr ^^^ pmmHuge) ||| (new.ppn >>> 9)), none)
  else if pdeVal = 0 then
    match frame with
    | none => (pmm, some .enomem)
    | some ptePpn =>
        (((pmm.allocTable ptePpn).setPde pde (pmmPresent ||| mmuPtd1 ||| ptePpn)).setPte ptePpn
          (mmuPte vaddr) new, none)
  else (pmm.setPte (pdeVal &&& mmuPpnMask) (mmuPte vaddr) new, none)

/-- `pmm_get_page` -/
def pmmGetPage (pmm : Pmm) (vaddr : BitVec 32) : PageInfo :=
  let val := pmm.pgdir (mmuPde vaddr)
  if val &&& pmmPresent = 0 then ⟨0, 0⟩
  else if val &&& pmmHuge = 0 then
    ⟨(val &&& mmuPdeAttrMask) ||| pmmHuge,
      (((val &&& mmuPdePpnMask) <<< 21) ||| (vaddr &&& pmmHugePageMask)) >>> 12⟩
  else
    let table := val &&& mmuPpnMask
    ⟨pmm.frames table (mmuPte vaddr), pmm.frames table (mmuPte vaddr + 4) &&& mmuPpnMask⟩

/-- What the table stands for: the attributes and the frame of each virtual page. -/
abbrev PageMap : Type := ℕ → PageInfo

def pageOf (vaddr : BitVec 32) : ℕ := vaddr.toNat / 4096

/-- One page, or the 512 pages under the directory entry; `PMM_CLEAR` takes them away. -/
def PageMap.set (map : PageMap) (vaddr : BitVec 32) (info : PageInfo) : PageMap := fun page =>
  if info.attr &&& pmmHuge ≠ 0 then
    if page / 512 = mmuPde vaddr then
      if info.attr &&& pmmClear ≠ 0 then ⟨0, 0⟩
      else ⟨info.attr, info.ppn + BitVec.ofNat 32 (page % 512)⟩
    else map page
  else if page = pageOf vaddr then
    if info.attr &&& pmmClear ≠ 0 then ⟨0, 0⟩ else info
  else map page

/-- The page table with the map of the successful calls, the directory entries that have a page of
2 MiB by these calls, and the frames in use. -/
structure PmmRun where
  pmm : Pmm
  map : PageMap
  live : ℕ → Bool
  used : List (BitVec 32)

structure SetCall where
  vaddr : BitVec 32
  info : PageInfo
  frame : Option (BitVec 32)

/-- The calls that are made: a page of 2 MiB is present, has its attributes and its frame in range,
or is cleared; a page of 4 KiB is not inside one. The frame of a new table is not in use. -/
def Admissible (s : PmmRun) (c : SetCall) : Prop :=
  (∀ frame ∈ c.frame, frame ∉ s.used ∧ frame.toNat < 2 ^ 28) ∧
  if c.info.attr &&& pmmHuge ≠ 0 then
    c.info.attr &&& pmmClear ≠ 0 ∨
      c.info.attr &&& mmuPdeAttrMask = c.info.attr ∧ c.info.attr &&& pmmPresent ≠ 0 ∧
        c.info.ppn.toNat % 512 = 0 ∧ c.info.ppn.toNat < 2 ^ 20
  else s.live (mmuPde c.vaddr) = false ∧ c.info.ppn.toNat < 2 ^ 28

-- the instance for all words would go through every one of them
instance (s : PmmRun) (c : SetCall) : Decidable (Admissible s c) :=
  @instDecidableAnd _ _ (Option.decidableForallMem c.frame) inferInstance

def setStep (s : PmmRun) (c : SetCall) : Option PmmRun :=
  if Admissible s c then
    match pmmSetPage s.pmm c.vaddr c.info c.frame with
    | (pmm, some _) => some { s with pmm }
    | (pmm, none) => some
        { pmm
          map := s.map.set c.vaddr c.info
          live :=
            if c.info.attr &&& pmmHuge ≠ 0 then
              Function.update s.live (mmuPde c.vaddr) (c.info.attr &&& pmmClear = 0)
            else s.live
          used :=
            if c.info.attr &&& pmmHuge = 0 ∧ s.pmm.pgdir (mmuPde c.vaddr) = 0 then
              c.frame.toList ++ s.used
            else s.used }
  else none

/-- The directory is zero, nothing is mapped, and the frame of the directory is in use. -/
def pmmMachine : Machine PmmRun SetCall where
  init s := (∀ pde, s.pmm.pgdir pde = 0) ∧ (∀ page, s.map page = ⟨0, 0⟩) ∧ ∀ pde, s.live pde = false
  step := setStep

end Almos.Tsar
