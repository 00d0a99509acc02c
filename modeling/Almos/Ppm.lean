import Almos.Bits
import Almos.Page
import Almos.BlockTiling
import Almos.Machine

/-!
# The physical pages manager

The buddy allocator of one cluster. Pages are named by their index in `pages_tbl`,
a free list is the list of the indices of its heads in list order, and the locks
that make each operation atomic are left out.
-/
namespace Almos
open Word Bits BlockTiling

structure BuddyList where
  root : List ℕ
  pagesNr : ℕ

structure Ppm where
  pagesTbl : ℕ → Page
  freePages : ℕ → BuddyList
  pagesNr : ℕ
  freePagesNr : ℕ

namespace Ppm

/-- `PPM_MAX_ORDER` -/
def maxOrder : ℕ := 10

/-- `PPM_LAST_ORDER` -/
def lastOrder : ℕ := maxOrder - 1

def pageShift : ℕ := 12

def heads (ppm : Ppm) (k : ℕ) : List ℕ := (ppm.freePages k).root

def setPage (ppm : Ppm) (i : ℕ) (f : Page → Page) : Ppm :=
  { ppm with pagesTbl := Function.update ppm.pagesTbl i (f (ppm.pagesTbl i)) }

def setList (ppm : Ppm) (k : ℕ) (list : BuddyList) : Ppm :=
  { ppm with freePages := Function.update ppm.freePages k list }

/-- `list_unlink` of the entry of page `i`, whatever list holds it. -/
def listUnlink (ppm : Ppm) (i : ℕ) : Ppm :=
  { ppm with freePages := fun k => ⟨(ppm.heads k).erase i, (ppm.freePages k).pagesNr⟩ }

/-- `list_add` to the list of order `k`. -/
def listAdd (ppm : Ppm) (k i : ℕ) : Ppm :=
  ppm.setList k ⟨i :: ppm.heads k, (ppm.freePages k).pagesNr⟩

/-- Apply a function to `free_pages[k].pages_nr`. -/
def countPages (ppm : Ppm) (k : ℕ) (f : ℕ → ℕ) : Ppm :=
  ppm.setList k ⟨ppm.heads k, f (ppm.freePages k).pagesNr⟩

/-- `list_add` of a block together with its bookkeeping. -/
def addBlock (ppm : Ppm) (k i : ℕ) : Ppm :=
  ((ppm.setPage i (·.setOrder k)).listAdd k i).countPages k (wadd · 1)

/-- The loop of `ppm_free_pages_nolock`: at most `fuel` further orders are tried. The result
holds the page index and the order at which the loop stopped. -/
def coalesce : ℕ → Ppm → ℕ → ℕ → Ppm × ℕ × ℕ
  | 0, ppm, pageIndex, currentOrder => (ppm, pageIndex, currentOrder)
  | fuel + 1, ppm, pageIndex, currentOrder =>
      let blockIndex := pageIndex ^^^ 2 ^ currentOrder
      let block := ppm.pagesTbl blockIndex
      if block.state ≠ .pgFree ∨ block.order ≠ currentOrder then (ppm, pageIndex, currentOrder)
      else
        let ppm := (ppm.listUnlink blockIndex).countPages currentOrder (wsub · 1)
        let ppm := ppm.setPage blockIndex (·.setOrder 0)
        coalesce fuel ppm (pageIndex &&& blockIndex) (currentOrder + 1)

def ppmFreePagesNolock (ppm : Ppm) (order index : ℕ) : Ppm :=
  let ppm := ppm.setPage index (·.pageStateSet .pgFree)
  let ppm := { ppm with freePagesNr := wadd ppm.freePagesNr (2 ^ order) }
  let r := coalesce (lastOrder - order) ppm index order
  r.1.addBlock r.2.2 r.2.1

def ppmFreePages (ppm : Ppm) (index : ℕ) : Ppm :=
  let old := (ppm.pagesTbl index).count
  let ppm := ppm.setPage index (·.pageRefcountDown)
  if old > 1 then ppm
  else ppmFreePagesNolock ppm (ppm.pagesTbl index).order index

/-- The search loop of `ppm_do_alloc_pages`: the first order with a free block, and the block. -/
def searchOrder (ppm : Ppm) : ℕ → ℕ → Option (ℕ × ℕ)
  | 0, _ => none
  | fuel + 1, currentOrder =>
      match ppm.heads currentOrder with
      | [] => searchOrder ppm fuel (currentOrder + 1)
      | block :: _ => some (currentOrder, block)

/-- The splitting loop of `ppm_do_alloc_pages`, `n` being `current_order - order`. -/
def splitBlock (order block : ℕ) : ℕ → Ppm → Ppm
  | 0, ppm => ppm
  | n + 1, ppm => splitBlock order block n (ppm.addBlock (order + n) (block + 2 ^ (order + n)))

def ppmDoAllocPages (ppm : Ppm) (order : ℕ) : Ppm × Option ℕ :=
  match searchOrder ppm (maxOrder - order) order with
  | none => (ppm, none)
  | some (currentOrder, block) =>
      let ppm := ppm.listUnlink block
      let ppm := { ppm with freePagesNr := wsub ppm.freePagesNr (2 ^ order) }
      let ppm := ppm.countPages currentOrder (wsub · 1)
      let ppm := splitBlock order block (currentOrder - order) ppm
      let ppm := ppm.setPage block (·.pageStateSet .pgInvalid)
      let ppm := ppm.setPage block (·.pageRefcountUp)
      (ppm.setPage block (·.setOrder order), some block)

def markReserved (ppm : Ppm) (reserved : List ℕ) : Ppm :=
  reserved.foldl (fun ppm i => ppm.setPage i (·.pageStateSet .pgReserved)) ppm

/-- The last loop of `ppm_init_finalize`, over the first `n` pages. -/
def freeAll (n : ℕ) (ppm : Ppm) : Ppm :=
  (List.range n).foldl (fun ppm i =>
    if (ppm.pagesTbl i).state ≠ .pgReserved then
      ppmFreePagesNolock ppm (ppm.pagesTbl i).order i
    else ppm) ppm

/-- Empty lists and descriptors as `page_init` leaves them. -/
def ppmBlank (pagesNr cid : ℕ) : Ppm := ⟨fun _ => Page.pageInit cid, fun _ => ⟨[], 0⟩, pagesNr, 0⟩

/-- `ppm_init` with the reserved pages given by their indices: they are marked,
then the other pages are freed one by one. -/
def ppmInitWith (begin limit cid : ℕ) (reserved : List ℕ) : Ppm :=
  let pagesNr := wsub limit begin >>> pageShift
  freeAll pagesNr (markReserved (ppmBlank pagesNr cid) reserved)

structure BootInfo where
  localClusterId : ℕ
  bootClusterId : ℕ
  reservedStart : ℕ
  reservedEnd : ℕ

/-- Indices marked by `ppm_init_pages` (the kernel image and the page table itself, whose
descriptors take `descSize` bytes each) and by the first loop of `ppm_init_finalize`. -/
def initReserved (begin limit vaddrBegin vaddrStart descSize : ℕ) (info : BootInfo) : List ℕ :=
  let pagesNr := wsub limit begin >>> pageShift
  let reservedPagesNr := arroundUp (pagesNr * descSize) (2 ^ pageShift) >>> pageShift +
    wsub vaddrStart vaddrBegin >>> pageShift
  let steps := arroundUp (info.reservedEnd - info.reservedStart) (2 ^ pageShift) >>> pageShift
  let index := fun j =>
    let reserved := info.reservedStart + j * 2 ^ pageShift
    if info.localClusterId = info.bootClusterId then
      wsub (reserved >>> pageShift) (begin >>> pageShift)
    else wsub reserved vaddrBegin >>> pageShift
  List.range reservedPagesNr ++ (List.range steps).map index

def ppmInit (begin limit vaddrBegin vaddrStart descSize : ℕ) (info : BootInfo) : Ppm :=
  ppmInitWith begin limit info.localClusterId
    (initReserved begin limit vaddrBegin vaddrStart descSize info)

/-! ### The allocator and its clients -/

structure State where
  ppm : Ppm
  outstanding : List Block

inductive Event
  | alloc (order : ℕ)
  | free (block : Block)

/-- One call. A block is freed only while it is outstanding with reference count one. -/
def step (s : State) : Event → Option State
  | .alloc order =>
      if order < maxOrder then
        match ppmDoAllocPages s.ppm order with
        | (ppm, some block) => some ⟨ppm, ⟨block, order⟩ :: s.outstanding⟩
        | (ppm, none) => some ⟨ppm, s.outstanding⟩
      else none
  | .free block =>
      if block ∈ s.outstanding ∧ (s.ppm.pagesTbl block.index).count = 1 then
        some ⟨ppmFreePages s.ppm block.index, s.outstanding.erase block⟩
      else none

def machine (start : Ppm) : Machine State Event where
  init s := s = ⟨start, []⟩
  step := step

def freeBlocks (ppm : Ppm) : List Block :=
  (List.range maxOrder).flatMap fun k => (ppm.heads k).map fun i => ⟨i, k⟩

def reservedBlocks (ppm : Ppm) : List Block :=
  ((List.range ppm.pagesNr).filter fun p => (ppm.pagesTbl p).state = .pgReserved).map
    fun p => ⟨p, 0⟩

end Ppm
end Almos
