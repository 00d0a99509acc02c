import Almos.Bits
import Almos.Machine
import Almos.Word

/-!
# The heap of the kernel

`heap_manager_malloc` and `heap_manager_free`. Memory is seen through the block headers it holds:
`mem a` is the header read at address `a`. The lock and the fields that no function reads are left
out. A loop that does not end has no result, nor has a call that fails an assertion.
-/
namespace Almos.KernelHeap
open Word Bits

structure BlockInfo where
  busy : Bool
  size : ℕ
  heapMgr : ℕ

structure HeapManager where
  addr : ℕ
  start : ℕ
  limit : ℕ
  next : ℕ
  mem : ℕ → BlockInfo

/-- `CACHE_LINE_SIZE` -/
def cacheLineSize : ℕ := 64

/-- `sizeof(block_info_t)` -/
def sizeofInfo : ℕ := 8

def setInfo (heap : HeapManager) (a : ℕ) (info : BlockInfo) : HeapManager :=
  { heap with mem := Function.update heap.mem a info }

def size31 (size : ℕ) : ℕ := size % 2 ^ 31

def heapManagerInit (addr : ℕ) (mem : ℕ → BlockInfo) (heapStart heapLimit : ℕ) : HeapManager :=
  { addr := addr
    start := heapStart
    limit := heapLimit
    next := heapStart
    mem := Function.update mem heapStart
      { mem heapStart with busy := false, size := size31 (wsub heapLimit heapStart) } }

/-- The loop of `heap_manager_malloc`: the block found, or nothing when the search meets the
limit. -/
def search (heap : HeapManager) (effectiveSize : ℕ) : ℕ → ℕ → Option (Option ℕ)
  | 0, _ => none
  | fuel + 1, current =>
      let info := heap.mem current
      if info.busy ∨ info.size < effectiveSize then
        if info.size = 0 then none
        else
          let current := wadd current info.size
          if heap.limit ≤ current then some none else search heap effectiveSize fuel current
      else some (some current)

/-- The end of `heap_manager_malloc`: the block found is marked busy, and split if enough is
left. -/
def takeBlock (heap : HeapManager) (current effectiveSize : ℕ) : HeapManager :=
  let info := heap.mem current
  let heap :=
    if cacheLineSize ≤ wsub info.size effectiveSize then
      let next := wadd current effectiveSize
      let heap := setInfo heap next
        { heap.mem next with busy := false, size := size31 (wsub info.size effectiveSize) }
      setInfo { heap with next := next } current
        { heap.mem current with busy := true, size := size31 effectiveSize }
    else setInfo heap current { info with busy := true }
  setInfo heap current { heap.mem current with heapMgr := heap.addr }

def effectiveSize (size : ℕ) : ℕ := arroundUp (wadd size sizeofInfo) cacheLineSize % 2 ^ 32

def searchFrom (heap : HeapManager) (effectiveSize : ℕ) : ℕ :=
  if wsub heap.limit effectiveSize < heap.next then heap.start else heap.next

def heapManagerMalloc (heap : HeapManager) (size : ℕ) : Option (HeapManager × Option ℕ) :=
  let esz := effectiveSize size
  match search heap esz (heap.limit + 1) (searchFrom heap esz) with
  | none => none
  | some none => some (heap, none)
  | some (some current) => some (takeBlock heap current esz, some (wadd current sizeofInfo))

/-- The loop of `heap_manager_free`: the blocks after `current` are merged into it while they are
free. -/
def mergeLoop (limit current : ℕ) : ℕ → HeapManager → Option HeapManager
  | 0, _ => none
  | fuel + 1, heap =>
      let info := heap.mem current
      let next := wadd current info.size
      if next = 0 ∨ limit ≤ next ∨ (heap.mem next).busy then some heap
      else mergeLoop limit current fuel
        (setInfo heap current { info with size := size31 (info.size + (heap.mem next).size) })

/-- `heap_manager_free`, for a block of this heap: a header that names another manager has no
result here. -/
def heapManagerFree (heap : HeapManager) (ptr : ℕ) : Option HeapManager :=
  if ptr = 0 then some heap
  else
    let current := wsub ptr sizeofInfo
    if (heap.mem current).heapMgr = heap.addr then
      let heap := setInfo heap current { heap.mem current with busy := false }
      match mergeLoop heap.limit current (heap.limit + 1) heap with
      | none => none
      | some heap => some (if current < heap.next then { heap with next := current } else heap)
    else none

/-- An allocation that was not freed: the pointer returned and the size asked for. -/
structure Allocation where
  ptr : ℕ
  size : ℕ
  deriving DecidableEq

structure State where
  heap : HeapManager
  live : List Allocation

inductive Event
  | malloc (size : ℕ)
  | free (a : Allocation)
  | write (f : ℕ → BlockInfo)

/-- The addresses at which reading a header meets the payload of a live allocation. -/
def inPayload (s : State) (a : ℕ) : Bool :=
  s.live.any fun x => decide (x.ptr < a + sizeofInfo ∧ a < x.ptr + x.size)

def step (s : State) : Event → Option State
  | .malloc size =>
      if size ≤ 2 ^ 30 then
        match heapManagerMalloc s.heap size with
        | none => none
        | some (heap, none) => some ⟨heap, s.live⟩
        | some (heap, some ptr) => some ⟨heap, ⟨ptr, size⟩ :: s.live⟩
      else none
  | .free a =>
      if a ∈ s.live then
        match heapManagerFree s.heap a.ptr with
        | none => none
        | some heap => some ⟨heap, s.live.erase a⟩
      else none
  | .write f =>
      some { s with heap := { s.heap with
        mem := fun a => if inPayload s a then f a else s.heap.mem a } }

/-- A heap of whole cache lines, of less than `room` bytes. -/
def machine (room : ℕ) : Machine State Event where
  init s := ∃ addr mem heapStart heapLimit, heapStart < heapLimit ∧ heapLimit < 2 ^ 32 ∧
    cacheLineSize ∣ heapLimit - heapStart ∧ heapLimit - heapStart < room ∧
    s = ⟨heapManagerInit addr mem heapStart heapLimit, []⟩
  step := step

end Almos.KernelHeap
