import Mathlib
import Almos.DqdtTree

/-!
# Construction of the placement tree

`arch_dqdt_build` makes a leaf for each cluster of the mesh, then level by level one logical cluster out
of four, until four are left for the root. An empty part of the mesh has a logical cluster that is not
up, which is freed when its parent is made. What follows the allocations is in `Boot`.
-/
namespace Almos.DqdtBuild

/-- `DQDT_CLUSTER_UP` -/
def dqdtClusterUp : ℕ := 0x01

structure ArchBibHeader where
  xMax : ℕ
  yMax : ℕ

/-- The logical clusters with those that are allocated and the number of allocations so far, and what
the construction writes to the physical clusters, by `cid`. -/
structure Boot where
  heap : DqdtHeap
  allocated : Finset ℕ
  allocs : ℕ
  levelsTbl : ℕ → ℕ → Option ℕ
  xCoord : ℕ → ℕ
  yCoord : ℕ → ℕ
  zCoord : ℕ → ℕ
  chipId : ℕ → ℕ

/-- What `kmem_alloc` returns for a logical cluster, from the memory of the given cluster or of the
current one, and whether it has the memory of a matrix of the given side. -/
structure Kmem where
  logical : Boot → Option ℕ → Option ℕ
  matrix : Boot → ℕ → Bool

/-- `matrix[x][y]`; `none` is `NULL`. -/
abbrev Matrix := ℕ × ℕ → Option ℕ

/-- `-1`, `ENOMEM` and `-xmax`; a null entry that is read is a fault. -/
inductive BuildErr
  | noMatrix
  | enomem
  | level (xmax : ℕ)
  | fault
deriving DecidableEq

def zeroIndicators : DqdtIndicators := ⟨0, 0, 0, fun _ => 0⟩

/-- The memory of a logical cluster under `AF_ZERO`. -/
def zeroCluster : DqdtCluster :=
  ⟨0, 0, 0, 0, 0, ⟨zeroIndicators, fun _ => zeroIndicators⟩, none, none, fun _ => none⟩

namespace Boot

def write (s : Boot) (ptr : ℕ) (f : DqdtCluster → DqdtCluster) : Boot :=
  { s with heap := Function.update s.heap ptr (f (s.heap ptr)) }

section Write
variable (s : Boot) (ptr : ℕ) (f : DqdtCluster → DqdtCluster)

@[simp] lemma write_self : (s.write ptr f).heap ptr = f (s.heap ptr) :=
  Function.update_self _ _ _

lemma write_of_ne {q : ℕ} (h : q ≠ ptr) : (s.write ptr f).heap q = s.heap q :=
  Function.update_of_ne h _ _

@[simp] lemma write_allocated : (s.write ptr f).allocated = s.allocated := rfl

@[simp] lemma write_levelsTbl : (s.write ptr f).levelsTbl = s.levelsTbl := rfl

end Write

def kmemAlloc (kmem : Kmem) (s : Boot) (cluster : Option ℕ) : Option (Boot × ℕ) :=
  (kmem.logical s cluster).map fun ptr =>
    ({ s with
      heap := Function.update s.heap ptr zeroCluster
      allocated := insert ptr s.allocated
      allocs := s.allocs + 1 }, ptr)

def kmemFree (s : Boot) (ptr : ℕ) : Boot := { s with allocated := s.allocated.erase ptr }

def setLeaf (s : Boot) (cid ptr x y : ℕ) : Boot :=
  { s with
    levelsTbl := Function.update s.levelsTbl cid (Function.update (s.levelsTbl cid) 0 (some ptr))
    xCoord := Function.update s.xCoord cid x
    yCoord := Function.update s.yCoord cid y
    zCoord := Function.update s.zCoord cid 0
    chipId := Function.update s.chipId cid 0 }

end Boot

/-- `__cluster_index` -/
def clusterIndex (x y ymax : ℕ) : ℕ := x * ymax + y

/-- A round of the first loops of `arch_dqdt_chip_init`. An entry of `clusters_tbl` with a cluster is
shown by the `onln_cpu_nr` of it. -/
def chipCluster (kmem : Kmem) (clustersTbl : ℕ → Option ℕ) (ymax : ℕ) (st : Boot × Matrix)
    (cell : ℕ × ℕ) : Except BuildErr (Boot × Matrix) :=
  let cid := clusterIndex cell.1 cell.2 ymax
  match clustersTbl cid with
  | none => .ok st
  | some onlnCpuNr =>
    match st.1.kmemAlloc kmem (some cid) with
    | none => .error .enomem
    | some (s, ptr) =>
      let s := s.write ptr fun c =>
        { c with coresNr := onlnCpuNr, flags := dqdtClusterUp, home := some cid }
      .ok (s.setLeaf cid ptr cell.1 cell.2, Function.update st.2 cell (some ptr))

/-- A round of the last loops of `arch_dqdt_chip_init`. -/
def chipHole (kmem : Kmem) (st : Boot × Matrix) (cell : ℕ × ℕ) : Except BuildErr (Boot × Matrix) :=
  if (st.2 cell).isSome then .ok st
  else
    match st.1.kmemAlloc kmem none with
    | none => .error .enomem
    | some (s, ptr) => .ok (s, Function.update st.2 cell (some ptr))

/-- The chip has the side `CONFIG_MAX_CLUSTER_ROOT`. -/
def archDqdtChipInit (kmem : Kmem) (maxClusterRoot : ℕ) (clustersTbl : ℕ → Option ℕ)
    (header : ArchBibHeader) (s : Boot) : Except BuildErr (Boot × Matrix) := do
  let st ← (List.range header.xMax ×ˢ List.range header.yMax).foldlM
    (chipCluster kmem clustersTbl header.yMax) (s, fun _ => none)
  (List.range maxClusterRoot ×ˢ List.range maxClusterRoot).foldlM (chipHole kmem) st

/-! ### One logical cluster out of four -/

/-- The locals of `arch_dqdt_make_cluster`; `clstr` is `matrix[clstr_x][clstr_y]`. -/
structure Scan where
  cluster : Option ℕ
  clstr : ℕ
  childsNr : ℕ
  coresNr : ℕ
  child : ℕ → Option ℕ

/-- One of the four tests; `entry` is what the matrix has there. -/
def Scan.visit (heap : DqdtHeap) (entry : ℕ → ℕ) (l : Scan) (j : ℕ) : Scan :=
  if (heap (entry j)).flags &&& dqdtClusterUp ≠ 0 then
    { cluster := (heap (entry j)).home
      clstr := entry j
      childsNr := l.childsNr + 1
      coresNr := l.coresNr + (heap (entry j)).coresNr
      child := Function.update l.child j (some (entry j)) }
  else l

def scan (heap : DqdtHeap) (entry : ℕ → ℕ) (n : ℕ) : Scan :=
  (List.range n).foldl (Scan.visit heap entry) ⟨none, entry 0, 0, 0, fun _ => none⟩

/-- The new logical cluster is entered in `levels_tbl` and gets its children, and every entry its
index. -/
def Boot.install (s : Boot) (entry : ℕ → ℕ) (child : ℕ → Option ℕ) (ptr cluster level : ℕ) : Boot :=
  let s := { s with
    levelsTbl := Function.update s.levelsTbl cluster
      (Function.update (s.levelsTbl cluster) level (some ptr)) }
  let s := s.write ptr fun c => { c with children := child }
  (List.range 4).foldl (fun s j => s.write (entry j) fun c => { c with index := j }) s

/-- An entry that is no child is freed; a child gets its parent. -/
def Boot.adopt (entry : ℕ → ℕ) (child : ℕ → Option ℕ) (ptr : ℕ) (s : Boot) (j : ℕ) : Boot :=
  match child j with
  | none => s.kmemFree (entry j)
  | some c => s.write c fun c => { c with parent := some ptr }

/-- The entries of the matrix with `x` or `x + 1` and `y` or `y + 1`, in the order of the children. -/
def quarter (x y j : ℕ) : ℕ × ℕ := (x + j % 2, y + j / 2)

/-- `arch_dqdt_make_cluster`; without memory it returns `NULL`. -/
def archDqdtMakeCluster (kmem : Kmem) (s : Boot) (matrix : Matrix) (level x y : ℕ) :
    Except BuildErr (Boot × Option ℕ) :=
  if ∃ j < 4, matrix (quarter x y j) = none then .error .fault
  else
    let entry j := (matrix (quarter x y j)).getD 0
    let l := scan s.heap entry 4
    match s.kmemAlloc kmem l.cluster with
    | none => .ok (s, none)
    | some (s, ptr) =>
      let s := s.write ptr fun c =>
        { c with level, home := (s.heap l.clstr).home, flags := (s.heap l.clstr).flags }
      let s := match l.cluster with
        | none => s
        | some cluster => s.install entry l.child ptr cluster level
      let s := (List.range 4).foldl (Boot.adopt entry l.child ptr) s
      .ok (s.write ptr fun c => { c with coresNr := l.coresNr, childsNr := l.childsNr }, some ptr)

/-- A round of the loops over `x` and `y`, which are even. -/
def buildCell (kmem : Kmem) (current : Matrix) (xmax level : ℕ) (st : Boot × Matrix) (cell : ℕ × ℕ) :
    Except BuildErr (Boot × Matrix) := do
  let (s, ptr) ← archDqdtMakeCluster kmem st.1 current level (2 * cell.1) (2 * cell.2)
  match ptr with
  | none => .error (.level xmax)
  | some ptr => .ok (s, Function.update st.2 cell (some ptr))

/-- The loop of `arch_dqdt_build`; it leaves the last matrix and level. -/
def buildLevels (kmem : Kmem) (s : Boot) (current : Matrix) (xmax ymax level : ℕ) :
    Except BuildErr (Boot × Matrix × ℕ) :=
  if 2 < xmax then
    if kmem.matrix s (xmax / 2) = false then .error (.level xmax)
    else do
      let st ← (List.range ((xmax + 1) / 2) ×ˢ List.range ((ymax + 1) / 2)).foldlM
        (buildCell kmem current xmax level) (s, fun _ => none)
      buildLevels kmem st.1 st.2 (xmax / 2) (ymax / 2) (level + 1)
  else .ok (s, current, level)
termination_by xmax

/-- `arch_dqdt_build`, with `dqdt_root`. -/
def archDqdtBuild (kmem : Kmem) (maxClusterRoot : ℕ) (clustersTbl : ℕ → Option ℕ)
    (header : ArchBibHeader) (s : Boot) : Except BuildErr (Boot × Option ℕ) :=
  if kmem.matrix s maxClusterRoot = false then .error .noMatrix
  else do
    let (s, current) ← archDqdtChipInit kmem maxClusterRoot clustersTbl header s
    let (s, current, level) ← buildLevels kmem s current maxClusterRoot maxClusterRoot 1
    archDqdtMakeCluster kmem s current level 0 0

/-- One round of the loop of `dqdt_update_threads_number` -/
def countThreads (heap : DqdtHeap) (logical index : ℕ) (count : ℤ) : DqdtHeap :=
  let c := heap logical
  let entry := c.info.tbl index
  Function.update heap logical { c with
    info := {
      summary := { c.info.summary with T := c.info.summary.T + count }
      tbl := Function.update c.info.tbl index { entry with T := entry.T + count } } }

/-- `dqdt_update_threads_number`; `none` if the rounds do not suffice. -/
def dqdtUpdateThreadsNumber (count : ℤ) : ℕ → DqdtHeap → Option ℕ → ℕ → Option DqdtHeap
  | _, heap, none, _ => some heap
  | 0, _, some _, _ => none
  | rounds + 1, heap, some logical, index =>
    dqdtUpdateThreadsNumber count rounds (countThreads heap logical index count)
      (heap logical).parent (heap logical).index

end Almos.DqdtBuild
