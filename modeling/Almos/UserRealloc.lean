import Almos.ByteMemory
import Almos.UserHeap

/-!
# `realloc` and `valloc`

The heap of the C library over the bytes of memory, where payloads and headers lie side by
side. A block from `valloc` has a second header before the pointer returned, with the size
asked for and the address of the block. Locks and `pthread_yield` are left out. The blocks
seen through their headers are those of `Almos.UserHeap` (`Tracks`).
-/
namespace Almos
open Word Bits

structure ByteHeap where
  limit : ℕ
  next : ℕ
  last : ℕ
  start : ℕ
  sbrkSize : ℕ
  mem : ByteMemory

namespace UserRealloc
open ByteMemory UserHeap

/-- The header at an address: the busy bit and 31 bits of size, then the pointer. -/
def infoAt (mem : ByteMemory) (a : ℕ) : BlockInfo :=
  ⟨decide (load32 mem a % 2 = 1), load32 mem a / 2, load32 mem (a + 4)⟩

def storeInfo (mem : ByteMemory) (a : ℕ) (info : BlockInfo) : ByteMemory :=
  store32 (store32 mem a (info.busy.toNat + 2 * size31 info.size)) (a + 4) info.ptr

def info (heap : ByteHeap) (a : ℕ) : BlockInfo := infoAt heap.mem a

def setInfo (heap : ByteHeap) (a : ℕ) (info : BlockInfo) : ByteHeap :=
  { heap with mem := storeInfo heap.mem a info }

def view (heap : ByteHeap) : HeapManager :=
  ⟨heap.limit, heap.next, heap.last, heap.start, heap.sbrkSize, infoAt heap.mem⟩

/-- `__heap_manager_init` on fresh memory. -/
def heapManagerInit (bssEnd reported : ℕ) : ByteHeap :=
  let initialSize := firstSize reported
  { limit := wadd bssEnd initialSize
    next := bssEnd
    last := bssEnd
    start := bssEnd
    sbrkSize := 2 * (initialSize / pageSize)
    mem := storeInfo (fun _ => 0) bssEnd ⟨false, initialSize, 0⟩ }

/-- The end of `do_malloc`: the block found is marked busy, and split if enough is left. -/
def takeBlock (heap : ByteHeap) (current effectiveSize : ℕ) : ByteHeap :=
  let old := info heap current
  let split := cachelineSize ≤ wsub old.size effectiveSize
  let next := if split then wadd current effectiveSize else wadd current old.size
  let heap :=
    if split then
      let heap := setInfo heap next
        { info heap next with busy := false, size := wsub old.size effectiveSize }
      setInfo heap current { info heap current with busy := true, size := effectiveSize }
    else setInfo heap current { old with busy := true }
  let heap := setInfo { heap with next := next } current { info heap current with ptr := 0 }
  if heap.limit ≤ wadd next (info heap next).size then { heap with last := next } else heap

def effectiveSize (size : ℕ) : ℕ := arroundUp (wadd size sizeofInfo) cachelineSize % 2 ^ 32

def doMalloc (heap : ByteHeap) (size round : ℕ) : Option (ByteHeap × Option ℕ) :=
  let esz := effectiveSize size
  if round = 0 ∧ wsub heap.limit esz < heap.next then some (heap, none)
  else
    let current := if wsub heap.limit esz < heap.next then heap.start else heap.next
    match search (view heap) esz (heap.limit + 1) current with
    | none => none
    | some none => some (heap, none)
    | some (some current) => some (takeBlock heap current esz, some (wadd current sizeofInfo))

/-- The growth of the heap after a successful `sbrk`. -/
def grow (heap : ByteHeap) (pages : ℕ) : ByteHeap :=
  let blksz := pages * pageSize
  let heap := { heap with limit := wadd heap.limit blksz }
  let old := info heap heap.last
  if old.busy then
    let a := wadd heap.last old.size
    { setInfo heap a ⟨false, blksz, 0⟩ with last := a }
  else setInfo heap heap.last { old with size := old.size + blksz }

/-- The loop of `malloc`. The system call succeeds `grants` times, as long as the heap stays
in user space, and then reports `ENOMEM`. -/
def mallocLoop (size : ℕ) : ℕ → ℕ → ByteHeap → ℕ → Option (ByteHeap × Option ℕ)
  | 0, _, heap, _ => some (heap, none)
  | fuel + 1, triesNr, heap, grants =>
      match doMalloc heap size triesNr with
      | none => none
      | some (heap, some ptr) => some (heap, some ptr)
      | some (heap, none) =>
          let pages := growPages (view heap) size
          if grants = 0 ∨ usrLimit < heap.limit + pages * pageSize then some (heap, none)
          else mallocLoop size fuel (triesNr + 1) (grow heap pages) (grants - 1)

def malloc (heap : ByteHeap) (size grants : ℕ) : Option (ByteHeap × Option ℕ) :=
  mallocLoop size mallocLimit 0 heap grants

/-- The loop of `free`: the blocks after `current` are merged into it while they are free. -/
def mergeLoop (limit current : ℕ) : ℕ → ByteHeap → Option ByteHeap
  | 0, _ => none
  | fuel + 1, heap =>
      let old := info heap current
      let next := wadd current old.size
      if limit ≤ next ∨ (info heap next).busy then some heap
      else mergeLoop limit current fuel
        (setInfo heap current { old with size := old.size + (info heap next).size })

def headerOf (heap : ByteHeap) (ptr : ℕ) : ℕ :=
  let current := wsub ptr sizeofInfo
  if (info heap current).ptr ≠ 0 then (info heap current).ptr else current

def free (heap : ByteHeap) (ptr : ℕ) : Option ByteHeap :=
  if ptr = 0 then some heap
  else
    let current := headerOf heap ptr
    let heap := setInfo heap current { info heap current with busy := false }
    match mergeLoop heap.limit current (heap.limit + 1) heap with
    | none => none
    | some heap => some (if current < heap.next then { heap with next := current } else heap)

def valloc (heap : ByteHeap) (size grants : ℕ) : Option (ByteHeap × Option ℕ) :=
  let askedSize := size
  let size := arroundUp size pageSize % 2 ^ 32
  match malloc heap (wadd size pageSize) grants with
  | some (heap, some block) =>
      let ptr := wsub (wadd block pageSize) (block % pageSize)
      some (setInfo heap (wsub ptr sizeofInfo) ⟨true, askedSize, wsub block sizeofInfo⟩, some ptr)
  | r => r

/-- The new zone of `realloc`, with the old contents copied. -/
def newZone (heap : ByteHeap) (ptr size grants : ℕ) : Option (ByteHeap × Option ℕ) :=
  let old := info heap (wsub ptr sizeofInfo)
  match if old.ptr = 0 then malloc heap size grants else valloc heap size grants with
  | some (heap, some zone) =>
      some ({ heap with mem := copy heap.mem zone ptr old.size }, some zone)
  | r => r

def freeOld (block : ℕ) : Option (ByteHeap × Option ℕ) → Option (ByteHeap × Option ℕ)
  | some (heap, some zone) => (free heap block).map fun heap => (heap, some zone)
  | r => r

def realloc (heap : ByteHeap) (ptr size grants : ℕ) : Option (ByteHeap × Option ℕ) :=
  if ptr = 0 then malloc heap size grants
  else if size = 0 then (free heap ptr).map fun heap => (heap, none)
  else if size ≤ (info heap (wsub ptr sizeofInfo)).size then some (heap, some ptr)
  else freeOld (wadd (headerOf heap ptr) sizeofInfo) (newZone heap ptr size grants)

structure State where
  heap : ByteHeap
  live : List Allocation

inductive Event
  | malloc (size grants : ℕ)
  | valloc (size grants : ℕ)
  | realloc (a : Allocation) (size grants : ℕ)
  | free (a : Allocation)
  | write (f : ByteMemory)

def inPayload (s : State) (a : ℕ) : Bool :=
  s.live.any fun x => decide (x.ptr ≤ a ∧ a < x.ptr + x.size)

/-- The state after an allocation of `size` bytes. -/
def allocated (live : List Allocation) (size : ℕ) : ByteHeap × Option ℕ → State
  | (heap, none) => ⟨heap, live⟩
  | (heap, some ptr) => ⟨heap, ⟨ptr, size⟩ :: live⟩

def step (s : State) : Event → Option State
  | .malloc size grants => (malloc s.heap size grants).map (allocated s.live size)
  | .valloc size grants => (valloc s.heap size grants).map (allocated s.live size)
  | .realloc a size grants =>
      if a ∈ s.live ∧ 0 < size then
        match realloc s.heap a.ptr size grants with
        | none => none
        | some (heap, none) => some ⟨heap, s.live⟩
        | some (heap, some ptr) => some ⟨heap, ⟨ptr, size⟩ :: s.live.erase a⟩
      else none
  | .free a =>
      if a ∈ s.live then (free s.heap a.ptr).map fun heap => ⟨heap, s.live.erase a⟩ else none
  | .write f =>
      some { s with heap := { s.heap with
        mem := fun a => if inPayload s a then f a else s.heap.mem a } }

/-- The linker script aligns the end of the bss to a page, and the kernel reports whole pages. -/
def machine : Machine State Event where
  init s := ∃ bssEnd reported, 0 < bssEnd ∧ bssEnd + firstSize reported ≤ usrLimit ∧
    pageSize ∣ bssEnd ∧ pageSize ∣ firstSize reported ∧ s = ⟨heapManagerInit bssEnd reported, []⟩
  step := step

end UserRealloc
end Almos
