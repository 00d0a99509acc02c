import Almos.Bits
import Almos.Machine
import Almos.Word

/-!
# The heap of the C library

`malloc` and `free` of one thread. Memory is seen through the block headers it holds:
`mem a` is the header read at address `a`. The locks and `pthread_yield` are left out.
A search that does not end has no result.
-/
namespace Almos
open Word Bits

structure BlockInfo where
  busy : Bool
  size : ℕ
  ptr : ℕ

structure HeapManager where
  limit : ℕ
  next : ℕ
  last : ℕ
  start : ℕ
  sbrkSize : ℕ
  mem : ℕ → BlockInfo

namespace UserHeap

def cachelineSize : ℕ := 64

def pageSize : ℕ := 4096

/-- `sizeof(block_info_t)` -/
def sizeofInfo : ℕ := 8

/-- `MALLOC_LIMIT` -/
def mallocLimit : ℕ := 20

/-- `CONFIG_USR_LIMIT` -/
def usrLimit : ℕ := 0x70000000

def zeroInfo : BlockInfo := ⟨false, 0, 0⟩

def setInfo (heap : HeapManager) (a : ℕ) (info : BlockInfo) : HeapManager :=
  { heap with mem := Function.update heap.mem a info }

def size31 (size : ℕ) : ℕ := size % 2 ^ 31

def firstSize (reported : ℕ) : ℕ := if reported < 4096 then 0x100000 else reported

/-- `__heap_manager_init` on fresh memory, for the address of `__bss_end` and the size that
the kernel reports for a new heap. -/
def heapManagerInit (bssEnd reported : ℕ) : HeapManager :=
  let initialSize := firstSize reported
  { limit := wadd bssEnd initialSize
    next := bssEnd
    last := bssEnd
    start := bssEnd
    sbrkSize := 2 * (initialSize / pageSize)
    mem := Function.update (fun _ => zeroInfo) bssEnd ⟨false, size31 initialSize, 0⟩ }

/-- The loop of `do_malloc`: the block found, or nothing when the search meets the limit. -/
def search (heap : HeapManager) (effectiveSize : ℕ) : ℕ → ℕ → Option (Option ℕ)
  | 0, _ => none
  | fuel + 1, current =>
      let info := heap.mem current
      if info.busy ∨ info.size < effectiveSize then
        let current := wadd current info.size
        if heap.limit ≤ current then some none else search heap effectiveSize fuel current
      else some (some current)

/-- The end of `do_malloc`: the block found is marked busy, and split if enough is left. -/
def takeBlock (heap : HeapManager) (current effectiveSize : ℕ) : HeapManager :=
  let info := heap.mem current
  let split := cachelineSize ≤ wsub info.size effectiveSize
  let next := if split then wadd current effectiveSize else wadd current info.size
  let heap :=
    if split then
      let heap := setInfo heap next
        { heap.mem next with busy := false, size := size31 (wsub info.size effectiveSize) }
      setInfo heap current { heap.mem current with busy := true, size := size31 effectiveSize }
    else setInfo heap current { info with busy := true }
  let heap := setInfo { heap with next := next } current { heap.mem current with ptr := 0 }
  if heap.limit ≤ wadd next (heap.mem next).size then { heap with last := next } else heap

def effectiveSize (size : ℕ) : ℕ := arroundUp (wadd size sizeofInfo) cachelineSize

def doMalloc (heap : HeapManager) (size round : ℕ) : Option (HeapManager × Option ℕ) :=
  let esz := effectiveSize size
  if round = 0 ∧ wsub heap.limit esz < heap.next then some (heap, none)
  else
    let current := if wsub heap.limit esz < heap.next then heap.start else heap.next
    match search heap esz (heap.limit + 1) current with
    | none => none
    | some none => some (heap, none)
    | some (some current) => some (takeBlock heap current esz, some (wadd current sizeofInfo))

/-- The pages asked from the kernel when a request of `size` bytes finds no block. -/
def growPages (heap : HeapManager) (size : ℕ) : ℕ :=
  let blksz := size / pageSize
  if blksz < heap.sbrkSize then heap.sbrkSize else blksz + heap.sbrkSize

/-- The growth of the heap after a successful `sbrk`. -/
def grow (heap : HeapManager) (pages : ℕ) : HeapManager :=
  let blksz := pages * pageSize
  let heap := { heap with limit := wadd heap.limit blksz }
  let info := heap.mem heap.last
  if info.busy then
    let a := wadd heap.last info.size
    { setInfo heap a ⟨false, size31 blksz, 0⟩ with last := a }
  else setInfo heap heap.last { info with size := size31 (info.size + blksz) }

/-- The loop of `malloc`. The system call succeeds `grants` times, as long as the heap stays
in user space, and then reports `ENOMEM`. -/
def mallocLoop (size : ℕ) : ℕ → ℕ → HeapManager → ℕ → Option (HeapManager × Option ℕ)
  | 0, _, heap, _ => some (heap, none)
  | fuel + 1, triesNr, heap, grants =>
      match doMalloc heap size triesNr with
      | none => none
      | some (heap, some ptr) => some (heap, some ptr)
      | some (heap, none) =>
          let pages := growPages heap size
          if grants = 0 ∨ usrLimit < heap.limit + pages * pageSize then some (heap, none)
          else mallocLoop size fuel (triesNr + 1) (grow heap pages) (grants - 1)

def malloc (heap : HeapManager) (size grants : ℕ) : Option (HeapManager × Option ℕ) :=
  mallocLoop size mallocLimit 0 heap grants

/-- The loop of `free`: the blocks after `current` are merged into it while they are free. -/
def mergeLoop (limit current : ℕ) : ℕ → HeapManager → Option HeapManager
  | 0, _ => none
  | fuel + 1, heap =>
      let info := heap.mem current
      let next := wadd current info.size
      if limit ≤ next ∨ (heap.mem next).busy then some heap
      else mergeLoop limit current fuel
        (setInfo heap current { info with size := size31 (info.size + (heap.mem next).size) })

def free (heap : HeapManager) (ptr : ℕ) : Option HeapManager :=
  if ptr = 0 then some heap
  else
    let current := wsub ptr sizeofInfo
    let current := if (heap.mem current).ptr ≠ 0 then (heap.mem current).ptr else current
    let heap := setInfo heap current { heap.mem current with busy := false }
    match mergeLoop heap.limit current (heap.limit + 1) heap with
    | none => none
    | some heap => some (if current < heap.next then { heap with next := current } else heap)

/-- An allocation that was not freed: the pointer returned and the size asked for. -/
structure Allocation where
  ptr : ℕ
  size : ℕ
  deriving DecidableEq

structure State where
  heap : HeapManager
  live : List Allocation

inductive Event
  | malloc (size grants : ℕ)
  | free (a : Allocation)
  | write (f : ℕ → BlockInfo)

/-- The addresses at which reading a header meets the payload of a live allocation. -/
def inPayload (s : State) (a : ℕ) : Bool :=
  s.live.any fun x => decide (x.ptr < a + sizeofInfo ∧ a < x.ptr + x.size)

def step (s : State) : Event → Option State
  | .malloc size grants =>
      if size < 2 ^ 30 then
        match malloc s.heap size grants with
        | none => none
        | some (heap, none) => some ⟨heap, s.live⟩
        | some (heap, some ptr) => some ⟨heap, ⟨ptr, size⟩ :: s.live⟩
      else none
  | .free a =>
      if a ∈ s.live then
        match free s.heap a.ptr with
        | none => none
        | some heap => some ⟨heap, s.live.erase a⟩
      else none
  | .write f =>
      some { s with heap := { s.heap with
        mem := fun a => if inPayload s a then f a else s.heap.mem a } }

def machine : Machine State Event where
  init s := ∃ bssEnd reported, 0 < bssEnd ∧ bssEnd + firstSize reported ≤ usrLimit ∧
    s = ⟨heapManagerInit bssEnd reported, []⟩
  step := step

end UserHeap
end Almos
