import Almos.Bits
import Almos.FdFork
import Almos.PidAlloc
import Almos.ThreadCounters
import Almos.VmmDup

/-!
# Fork

`do_fork` on the core that was chosen for the child, with every allocation on the way free to fail.
`signal_manager_init`, `task_dup` and `thread_dup` have no way to fail. Locks, and the files of
regions with their reference counts, are left out.
-/
namespace Almos.Fork
open Word Bits Pid FdTable FdFork Dqdt

/-- `CONFIG_TASK_MAX_NR` -/
def taskMaxNr : ℕ := 1024

/-- `CONFIG_PTHREAD_THREADS_MAX` -/
def threadsMax : ℕ := 2048

/-- What the calls of `kmem_free` are given: objects of the child, where `vmPage 0` is the page of
its region database, `vmPage 1` its page directory and the others are page tables, the same pages of
the parent, and `NULL`. -/
inductive KObj
  | null
  | task
  | thTbl
  | fdInfo
  | fdPage (i : ℕ)
  | threadPage
  | region (k : ℕ)
  | vmPage (n : ℕ)
  | parentRecord (n : ℕ)
  | parentVmPage (n : ℕ)
deriving DecidableEq

/-- What a fork shares with the rest of the kernel: the counters of the DQDT, the table of tasks, the
reference counts of files and nodes, and the memory with the page tables of parent and child. -/
structure System (φ ν υ : Type*) where
  counters : Counters υ
  tasks : TasksManager
  fCount : φ → ℤ
  nodeCount : ν → ℤ
  mem : DupState

/-- The objects allocated and freed by a call, and whether an assertion of `task_destroy` failed or a
pointer was used that nothing had set. -/
structure Ledger where
  allocs : List KObj := []
  frees : List KObj := []
  assertFailed : Bool := false
  strayPtr : Bool := false

structure ForkState (φ ν υ : Type*) extends System φ ν υ, Ledger

/-- The parent, with the number of records of its region database and of its page tables. -/
structure Parent (φ ν : Type*) where
  fdInfo : FdInfo φ
  vfsRoot : ν
  vfsCwd : ν
  bin : φ
  regions : List DupRegion
  records : ℕ
  tables : ℕ

/-- The objects behind a `struct vmm_s`. -/
structure AddressSpace where
  regions : List KObj
  records : List KObj
  dbPage : KObj
  tables : List KObj
  dir : KObj

/-- The child. What `task_create` leaves as the memory was is `none`. -/
structure Child (φ ν : Type*) where
  pid : ℕ
  fdInfo : FdInfo φ
  vfsRoot : Option ν
  vfsCwd : Option ν
  bin : Option φ
  vmm : Option AddressSpace
  bitmap : Bitmap
  threadsNr : ℕ
  threadOrder : Option ℕ

/-- Which allocations succeed. -/
structure Outcomes where
  task : Bool
  thTbl : Bool
  fdInfo : Bool
  fdPage : ℕ → Bool
  threadPage : Bool
  vmm : DupOutcomes

variable {φ ν υ κ : Type*}

namespace ForkState

def alloc (s : ForkState φ ν υ) (o : KObj) : ForkState φ ν υ := { s with allocs := s.allocs ++ [o] }

def allocAll (s : ForkState φ ν υ) (os : List KObj) : ForkState φ ν υ :=
  { s with allocs := s.allocs ++ os }

/-- `kmem_free` -/
def free (s : ForkState φ ν υ) (o : KObj) : ForkState φ ν υ := { s with frees := s.frees ++ [o] }

def freeAll (s : ForkState φ ν υ) (os : List KObj) : ForkState φ ν υ :=
  { s with frees := s.frees ++ os }

def setPid (s : ForkState φ ν υ) (pid : ℕ) (e : PidEntry) : ForkState φ ν υ :=
  { s with tasks := { s.tasks with tbl := Function.update s.tasks.tbl pid e } }

/-- `vfs_node_up_atomic` and `vfs_node_down_atomic`, on a node that may never have been set. -/
def nodeAdd [DecidableEq ν] (s : ForkState φ ν υ) (node : Option ν) (d : ℤ) : ForkState φ ν υ :=
  match node with
  | some n => { s with nodeCount := Function.update s.nodeCount n (s.nodeCount n + d) }
  | none => { s with strayPtr := true }

def fileAdd [DecidableEq φ] (s : ForkState φ ν υ) (f : φ) (d : ℤ) : ForkState φ ν υ :=
  { s with fCount := Function.update s.fCount f (s.fCount f + d) }

/-- `dqdt_update_threads_number` at the leaf of a core. -/
def threads [DecidableEq υ] (tree : Tree υ κ) (core : Core κ) (s : ForkState φ ν υ) (d : ℤ) :
    ForkState φ ν υ :=
  { s with counters := dqdtUpdateThreadsNumber tree s.counters (tree.leaf core.cid) core.lid d }

end ForkState

/-- The loop of `task_fd_init` from page `i` on. -/
def fdPages (o : Outcomes) : ℕ → ℕ → ForkState φ ν υ → ForkState φ ν υ × Bool
  | 0, _, s => (s, true)
  | todo + 1, i, s =>
      if o.fdPage i then fdPages o todo (i + 1) (s.alloc (.fdPage i))
      else (s.freeAll ((List.range i).map .fdPage), false)

def taskFdInit (o : Outcomes) (s : ForkState φ ν υ) : ForkState φ ν υ × Bool :=
  if o.fdInfo then
    match fdPages o tableCount 0 (s.alloc .fdInfo) with
    | (s, true) => (s, true)
    | (s, false) => (s.free .fdInfo, false)
  else (s, false)

/-- The fields that `task_create` sets; `behind` is what follows the pages of descriptors. -/
def newChild (pid : ℕ) (behind : ℕ → Slot φ) : Child φ ν where
  pid := pid
  fdInfo := FdFork.taskFdInit behind
  vfsRoot := none
  vfsCwd := none
  bin := none
  vmm := none
  bitmap := bitmapSetRange (fun _ => 0) 0 threadsMax
  threadsNr := 0
  threadOrder := none

def taskCreate (o : Outcomes) (behind : ℕ → Slot φ) (s : ForkState φ ν υ) :
    Option (ForkState φ ν υ × Except Errno (Child φ ν)) :=
  match taskPidAlloc taskMaxNr (2 * taskMaxNr) s.tasks with
  | none => none
  | some (tasks, none) => some ({ s with tasks }, .error .eagain)
  | some (tasks, some pid) =>
      let s := { s with tasks }
      if o.task then
        let s := s.alloc .task
        if o.thTbl then
          match taskFdInit o (s.alloc .thTbl) with
          | (s, true) => some (s.setPid pid .task, .ok (newChild pid behind))
          | (s, false) => some (((s.free .thTbl).free .task).setPid pid .null, .error .enomem)
        else some ((s.free .task).setPid pid .null, .error .enomem)
      else some (s.setPid pid .null, .error .enomem)

variable [DecidableEq φ] [DecidableEq ν]

def taskDup (s : ForkState φ ν υ) (dst : Child φ ν) (src : Parent φ ν) :
    ForkState φ ν υ × Child φ ν :=
  let s := (s.nodeAdd (some src.vfsRoot) 1).nodeAdd (some src.vfsCwd) 1
  let fds := taskFdFork s.fCount dst.fdInfo src.fdInfo
  (ForkState.fileAdd { s with fCount := fds.1 } src.bin 1,
    { dst with
      fdInfo := fds.2
      vfsRoot := some src.vfsRoot
      vfsCwd := some src.vfsCwd
      bin := some src.bin })

/-- `vmm_destroy`: the regions, the records of the database and its page. -/
def vmmDestroy (s : ForkState φ ν υ) (vmm : AddressSpace) : ForkState φ ν υ × AddressSpace :=
  (ForkState.freeAll { s with mem := Dup.vmmDestroy s.mem }
    (vmm.regions ++ vmm.records ++ [vmm.dbPage]), { vmm with regions := [] })

/-- What `memcpy` gives to the child, without the regions. -/
def Parent.addressSpace (parent : Parent φ ν) : AddressSpace where
  regions := []
  records := (List.range parent.records).map .parentRecord
  dbPage := .parentVmPage 0
  tables := (List.range parent.tables).map fun n => .parentVmPage (n + 2)
  dir := .parentVmPage 1

def newTables (mem mem' : DupState) : List KObj :=
  (List.range' mem.tables (mem'.tables - mem.tables)).map .vmPage

/-- The loop of `vmm_dup` from region `i` on. -/
def dupRegions (o : DupOutcomes) : ℕ → List DupRegion → Option Errno → ForkState φ ν υ →
    AddressSpace → ForkState φ ν υ × AddressSpace × Option Errno
  | _, [], _, s, vmm => (s, vmm, none)
  | i, r :: rs, err, s, vmm =>
      if o.region i then
        let dup := Dup.vmRegionDup s.mem r (o.set i)
        let tables := newTables s.mem dup.1
        let s := ForkState.allocAll { s with mem := dup.1 } (.region i :: tables)
        let vmm := { vmm with tables := vmm.tables ++ tables }
        match dup.2 with
        | some err =>
            let dead := vmmDestroy (s.free (.region i)) vmm
            (dead.1, dead.2, some err)
        | none => dupRegions o (i + 1) rs none
            { s with mem := { s.mem with regions := s.mem.regions ++ [r] } }
            { vmm with regions := vmm.regions ++ [.region i] }
      else
        let dead := vmmDestroy s vmm
        (dead.1, dead.2, err)

def vmmDup (o : DupOutcomes) (src : Parent φ ν) (s : ForkState φ ν υ) :
    ForkState φ ν υ × AddressSpace × Option Errno :=
  let vmm := src.addressSpace
  let s := { s with mem := { s.mem with regions := [], tables := 0 } }
  if o.keysdb then
    let s := ForkState.alloc { s with mem := { s.mem with tables := 1 } } (.vmPage 0)
    let vmm := { vmm with records := [], dbPage := .vmPage 0 }
    if o.pmm then
      let s := ForkState.alloc
        { s with mem := { s.mem with dstPmm := fun _ => Anon.noPte, tables := s.mem.tables + 1 } }
          (.vmPage 1)
      dupRegions o 0 src.regions none s { vmm with tables := [], dir := .vmPage 1 }
    else (s, vmm, some .enomem)
  else (s, vmm, some .enomem)

/-- A round of the first loop of `task_fd_destroy`. -/
def closeSlot (info : FdInfo φ) (s : ForkState φ ν υ) (fd : ℕ) : ForkState φ ν υ :=
  match info.lookup fd with
  | .null => s
  | .reserved => { s with strayPtr := true }
  | .file f => s.fileAdd f (-1)

def taskFdDestroy (s : ForkState φ ν υ) (info : FdInfo φ) : ForkState φ ν υ :=
  let s := (List.range (info.last + 1)).foldl (closeSlot info) s
  (s.freeAll ((List.range info.count).map .fdPage)).free .fdInfo

/-- `vmm_destroy`, `pmm_release` and `pmm_destroy`; without a copy the list of regions and the
directory are pointers that nothing has set. -/
def spaceDestroy (s : ForkState φ ν υ) : Option AddressSpace → ForkState φ ν υ
  | some vmm =>
      let dead := vmmDestroy s vmm
      dead.1.freeAll (dead.2.tables ++ [dead.2.dir])
  | none => { s with strayPtr := true }

/-- `task_destroy`; `task_fd_destroy` has set `fd_info` to `NULL`. -/
def taskDestroy (s : ForkState φ ν υ) (task : Child φ ν) : ForkState φ ν υ :=
  let s := { s with assertFailed := s.assertFailed || decide (task.threadsNr ≠ 0) }
  let s := taskFdDestroy (s.setPid task.pid .null) task.fdInfo
  let s := match task.bin with
    | some f => s.fileAdd f (-1)
    | none => s
  let s := (s.nodeAdd task.vfsRoot (-1)).nodeAdd task.vfsCwd (-1)
  (((spaceDestroy s task.vmm).free .thTbl).free .null).free .task

/-- What a call returns: the state, `err` and what it stored in `info`. -/
structure Result (φ ν υ : Type*) where
  state : ForkState φ ν υ
  err : Option Errno
  child : Option (Child φ ν)

variable [DecidableEq υ]

/-- The labels from `fail_task` on, for a child that was created. -/
def failTask (tree : Tree υ κ) (core : Core κ) (s : ForkState φ ν υ) (child : Child φ ν)
    (err : Option Errno) : Result φ ν υ :=
  ⟨taskDestroy (s.threads tree core (-1)) child, err, none⟩

def addThread (tree : Tree υ κ) (core : Core κ) (s : ForkState φ ν υ) (child : Child φ ν) :
    Result φ ν υ :=
  let child := { child with threadsNr := child.threadsNr + 1 }
  match bitmapFfs2 child.bitmap 0 (threadsMax / 8) with
  | none => failTask tree core (s.free .threadPage) child none
  | some order => ⟨s, none, some { child with
      bitmap := bitmapClear child.bitmap order
      threadOrder := some order }⟩

/-- `do_fork`; a missing page leaves `err` as `task_create` set it. -/
def doFork (tree : Tree υ κ) (core : Core κ) (parent : Parent φ ν) (o : Outcomes)
    (behind : ℕ → Slot φ) (s : System φ ν υ) : Option (Result φ ν υ) :=
  match taskCreate o behind (ForkState.threads tree core { s with } 1) with
  | none => none
  | some (s, .error err) => some ⟨s.threads tree core (-1), some err, none⟩
  | some (s, .ok child) =>
      if o.threadPage then
        let dup := taskDup (s.alloc .threadPage) child parent
        match vmmDup o.vmm parent dup.1 with
        | (s, vmm, some err) =>
            some (failTask tree core (s.free .threadPage) { dup.2 with vmm := some vmm } (some err))
        | (s, vmm, none) => some (addThread tree core s { dup.2 with vmm := some vmm })
      else some (failTask tree core s child none)

/-- The child has the nodes, the program, the open files and the regions of the parent, and one
thread with an order. -/
structure FullyBuilt (parent : Parent φ ν) (s : ForkState φ ν υ) (child : Child φ ν) : Prop where
  root : child.vfsRoot = some parent.vfsRoot
  cwd : child.vfsCwd = some parent.vfsCwd
  bin : child.bin = some parent.bin
  fds : ∀ fd < fileMaxNr, child.fdInfo.lookup fd = parent.fdInfo.lookup fd
  regions : s.mem.regions = parent.regions
  threads : child.threadsNr = 1
  order : ∃ order, child.threadOrder = some order ∧ bitmapState child.bitmap order = false

structure Undone (tree : Tree υ κ) (s : System φ ν υ) (t : ForkState φ ν υ) : Prop where
  counters : ∀ c i, t.counters.tbl (tree.leaf c) i = s.counters.tbl (tree.leaf c) i
  pids : t.tasks.tbl = s.tasks.tbl
  fCount : t.fCount = s.fCount
  nodeCount : t.nodeCount = s.nodeCount
  frames : ∀ ppn, (t.mem.pages ppn).count = (s.mem.pages ppn).count
  once : ∀ o ∈ t.allocs, t.frees.count o = 1
  others : ∀ o ∈ t.frees, o ∈ t.allocs
  asserts : t.assertFailed = false
  pointers : t.strayPtr = false

/-- A call returns 0 exactly if it has stored a child that is built, and else leaves nothing. -/
structure AllOrNothing (tree : Tree υ κ) (s : System φ ν υ) (parent : Parent φ ν)
    (r : Result φ ν υ) : Prop where
  stored : r.err = none ↔ ∃ child, r.child = some child ∧ FullyBuilt parent r.state child
  undone : r.err ≠ none → Undone tree s r.state

/-- `task_create` fails: no pid is free, or an allocation of its own is missing. -/
def CreateFails (s : System φ ν υ) (o : Outcomes) : Prop :=
  (∀ pid < taskMaxNr, s.tasks.tbl pid ≠ .null) ∨ o.task = false ∨ o.thTbl = false ∨
    o.fdInfo = false ∨ ∃ i < tableCount, o.fdPage i = false

/-- No allocation after `task_create` is missing. -/
def LaterSucceed (s : System φ ν υ) (parent : Parent φ ν) (o : Outcomes) : Prop :=
  o.threadPage = true ∧ o.vmm.keysdb = true ∧ o.vmm.pmm = true ∧
    Dup.NoFailure o.vmm s.mem parent.regions

variable {s t : ForkState φ ν υ} {o : Outcomes} {behind : ℕ → Slot φ} {parent : Parent φ ν}

omit [DecidableEq φ] [DecidableEq ν] [DecidableEq υ] in
lemma fdPages_spec (o : Outcomes) : ∀ todo i (s : ForkState φ ν υ),
    (fdPages o todo i s = (s.allocAll ((List.range' i todo).map .fdPage), true) ∧
        ∀ k, i ≤ k → k < i + todo → o.fdPage k = true) ∨
      ∃ k, i ≤ k ∧ k < i + todo ∧ o.fdPage k = false ∧ fdPages o todo i s =
        ((s.allocAll ((List.range' i (k - i)).map .fdPage)).freeAll
          ((List.range k).map .fdPage), false) := by
  intro todo
  induction todo with
  | zero =>
    intro i s
    refine .inl ⟨?_, fun k _ _ => by omega⟩
    simp [fdPages, ForkState.allocAll]
  | succ todo ih =>
    intro i s
    by_cases hpage : o.fdPage i = true
    · have hstep : fdPages o (todo + 1) i s = fdPages o todo (i + 1) (s.alloc (.fdPage i)) := by
        simp [fdPages, hpage]
      obtain ⟨hall, hok⟩ | ⟨k, hle, hlt, hfail, hstop⟩ := ih (i + 1) (s.alloc (.fdPage i))
      · refine .inl ⟨?_, fun k hk hlt => ?_⟩
        · rw [hstep, hall]
          simp [ForkState.allocAll, ForkState.alloc, List.range'_succ]
        · rcases eq_or_ne k i with rfl | hne
          · exact hpage
          · exact hok k (by omega) (by omega)
      · refine .inr ⟨k, by omega, by omega, hfail, ?_⟩
        have hsub : k - i = (k - (i + 1)) + 1 := by omega
        rw [hstep, hstop, hsub, List.range'_succ]
        simp [ForkState.allocAll, ForkState.alloc, ForkState.freeAll]
    · refine .inr ⟨i, le_rfl, by omega, by simpa using hpage, ?_⟩
      simp [fdPages, hpage, ForkState.allocAll]

def taskObjs : List KObj := [.task, .thTbl, .fdInfo, .fdPage 0, .fdPage 1]

/-- What a failed `task_create` leaves: objects allocated and freed. -/
structure Balanced (s t : ForkState φ ν υ) : Prop where
  counters : t.counters = s.counters
  pids : t.tasks.tbl = s.tasks.tbl
  fCount : t.fCount = s.fCount
  nodeCount : t.nodeCount = s.nodeCount
  mem : t.mem = s.mem
  asserts : t.assertFailed = s.assertFailed
  pointers : t.strayPtr = s.strayPtr
  objs : ∃ os fs, t.allocs = s.allocs ++ os ∧ t.frees = s.frees ++ fs ∧ os.Nodup ∧ fs.Perm os

/-- The two ways in which `task_create` ends. -/
inductive Created (o : Outcomes) (behind : ℕ → Slot φ) (s : ForkState φ ν υ) :
    ForkState φ ν υ → Except Errno (Child φ ν) → Prop
  | failed {t : ForkState φ ν υ} (err : Errno) (fails : CreateFails s.toSystem o)
      (balanced : Balanced s t) : Created o behind s t (.error err)
  | made {t : ForkState φ ν υ} (pid : ℕ) (ok : ¬CreateFails s.toSystem o) (mem : t.mem = s.mem)
      (allocs : t.allocs = s.allocs ++ taskObjs) (frees : t.frees = s.frees) :
      Created o behind s t (.ok (newChild pid behind))

omit [DecidableEq φ] [DecidableEq ν] [DecidableEq υ] in
lemma balanced_setPid {tasks : TasksManager} {pid : ℕ} {e : PidEntry} (hfree : s.tasks.tbl pid = .null)
    (htbl : tasks.tbl = Function.update s.tasks.tbl pid e) (os fs : List KObj) (hnodup : os.Nodup)
    (hperm : fs.Perm os) : Balanced s ((ForkState.freeAll (ForkState.allocAll { s with tasks } os)
      fs).setPid pid .null) := by
  refine ⟨rfl, ?_, rfl, rfl, rfl, rfl, rfl, os, fs, rfl, rfl, hnodup, hperm⟩
  change Function.update tasks.tbl pid .null = s.tasks.tbl
  rw [htbl, Function.update_idem, ← hfree, Function.update_eq_self]

omit [DecidableEq φ] [DecidableEq ν] [DecidableEq υ] in
lemma taskFdInit_spec (o : Outcomes) (s : ForkState φ ν υ) :
    (taskFdInit o s = (s.allocAll [.fdInfo, .fdPage 0, .fdPage 1], true) ∧ o.fdInfo = true ∧
        ∀ k < tableCount, o.fdPage k = true) ∨
      (o.fdInfo = false ∨ ∃ k < tableCount, o.fdPage k = false) ∧
        ∃ os fs, taskFdInit o s = ((s.allocAll os).freeAll fs, false) ∧ os.Nodup ∧ fs.Perm os ∧
          KObj.task ∉ os ∧ KObj.thTbl ∉ os := by
  by_cases hinfo : o.fdInfo = true
  · obtain ⟨hall, hok⟩ | ⟨k, -, hk, hfail, hstop⟩ := fdPages_spec o tableCount 0 (s.alloc .fdInfo)
    · refine .inl ⟨?_, hinfo, fun k hk => hok k (Nat.zero_le k) (by omega)⟩
      simp only [taskFdInit, if_pos hinfo, hall]
      simp [ForkState.allocAll, ForkState.alloc, tableCount, List.range'_succ]
    · have hpages : ((List.range k).map KObj.fdPage).Nodup :=
        List.Nodup.map (fun _ _ h => KObj.fdPage.inj h) List.nodup_range
      refine .inr ⟨.inr ⟨k, by omega, hfail⟩, .fdInfo :: (List.range k).map .fdPage,
        (List.range k).map .fdPage ++ [.fdInfo], ?_, by simp [hpages], ?_, by simp, by simp⟩
      · simp only [taskFdInit, if_pos hinfo, hstop]
        simp [ForkState.allocAll, ForkState.alloc, ForkState.freeAll, ForkState.free,
          List.range_eq_range']
      · exact List.perm_append_comm
  · have hinfo' : o.fdInfo = false := by simpa using hinfo
    refine .inr ⟨.inl hinfo', [], [], ?_, .nil, .nil, by simp, by simp⟩
    simp [taskFdInit, hinfo', ForkState.allocAll, ForkState.freeAll]

omit [DecidableEq φ] [DecidableEq ν] [DecidableEq υ] in
lemma taskCreate_spec (o : Outcomes) (behind : ℕ → Slot φ) (hpid : s.tasks.lastPid < taskMaxNr) :
    ∃ t r, taskCreate o behind s = some (t, r) ∧ Created o behind s t r := by
  obtain ⟨tasks, pid, hcall, hexact⟩ := taskPidAlloc_spec hpid (le_refl (2 * taskMaxNr))
  cases pid with
  | none =>
    refine ⟨{ s with tasks }, .error .eagain, ?_, .failed _ ?_ ?_⟩
    · simp only [taskCreate, hcall]
    · exact .inl (hexact.fails.mp rfl)
    · exact ⟨rfl, hexact.unchanged rfl, rfl, rfl, rfl, rfl, rfl, [], [], by simp, by simp,
        .nil, .nil⟩
  | some pid =>
    obtain ⟨hlt, hfirst, htbl⟩ := hexact.first pid rfl
    have hbalanced := balanced_setPid hfirst.1 htbl
    by_cases htask : o.task = true
    · by_cases htbls : o.thTbl = true
      · obtain ⟨hinit, hinfo, hpages⟩ | ⟨hfail, os, fs, hinit, hos, hperm, hnt, hnth⟩ :=
          taskFdInit_spec o ((ForkState.alloc { s with tasks } .task).alloc .thTbl)
        · have hok : ¬CreateFails s.toSystem o := by
            rintro (hfull | h | h | h | ⟨i, hi, h⟩)
            · exact hfull pid hlt hfirst.1
            · rw [htask] at h
              cases h
            · rw [htbls] at h
              cases h
            · rw [hinfo] at h
              cases h
            · rw [hpages i hi] at h
              cases h
          have hstep : taskCreate o behind s = some
              ((((ForkState.alloc { s with tasks } .task).alloc .thTbl).allocAll
                [.fdInfo, .fdPage 0, .fdPage 1]).setPid pid .task, .ok (newChild pid behind)) := by
            simp only [taskCreate, hcall, htask, htbls, hinit, if_true]
          refine ⟨_, _, hstep, .made pid hok rfl ?_ rfl⟩
          simp [ForkState.allocAll, ForkState.alloc, ForkState.setPid, taskObjs]
        · have hfails : CreateFails s.toSystem o := .inr (.inr (.inr hfail))
          have hobjs : (fs ++ [KObj.thTbl, .task]).Perm (.task :: .thTbl :: os) := by
            refine List.perm_append_comm.trans ?_
            exact (List.Perm.swap .task .thTbl fs).trans ((hperm.cons _).cons _)
          have hb := hbalanced (.task :: .thTbl :: os) (fs ++ [.thTbl, .task])
            (by simp [hos, hnt, hnth]) hobjs
          refine ⟨_, _, ?_, .failed .enomem hfails hb⟩
          simp only [taskCreate, hcall, htask, htbls, hinit, if_true]
          simp [ForkState.allocAll, ForkState.alloc, ForkState.freeAll, ForkState.free]
      · have htbls' : o.thTbl = false := by simpa using htbls
        have hfails : CreateFails s.toSystem o := .inr (.inr (.inl htbls'))
        refine ⟨_, _, ?_, .failed .enomem hfails (hbalanced [.task] [.task] (by simp) (.refl _))⟩
        simp only [taskCreate, hcall, htask, htbls', if_true]
        rfl
    · have htask' : o.task = false := by simpa using htask
      have hfails : CreateFails s.toSystem o := .inr (.inl htask')
      refine ⟨_, _, ?_, .failed .enomem hfails (hbalanced [] [] .nil .nil)⟩
      simp only [taskCreate, hcall, htask']
      simp [ForkState.allocAll, ForkState.freeAll]

/-! ### The address space on headers of memory -/

omit [DecidableEq φ] [DecidableEq ν] [DecidableEq υ] in
/-- The memory after the loop is the one of the copy of an address space on its own. -/
lemma dupRegions_mem (o : DupOutcomes) : ∀ rs i err (s : ForkState φ ν υ) (vmm : AddressSpace),
    (dupRegions o i rs err s vmm).1.mem = (Dup.dupRegions o i rs err s.mem).1 ∧
      (dupRegions o i rs err s vmm).2.2 = (Dup.dupRegions o i rs err s.mem).2 := by
  intro rs
  induction rs with
  | nil => exact fun _ _ _ _ => ⟨rfl, rfl⟩
  | cons r rs ih =>
    intro i err s vmm
    by_cases hregion : o.region i = true
    · obtain ⟨dup, hdup⟩ : ∃ dup, Dup.vmRegionDup s.mem r (o.set i) = dup := ⟨_, rfl⟩
      obtain ⟨mem, e⟩ := dup
      simp only [dupRegions, Dup.dupRegions, if_pos hregion, hdup]
      cases e with
      | some err => exact ⟨rfl, rfl⟩
      | none => exact ih _ _ _ _
    · simp only [dupRegions, Dup.dupRegions, if_neg hregion]
      exact ⟨rfl, trivial⟩

omit [DecidableEq φ] [DecidableEq ν] [DecidableEq υ] in
lemma dupRegions_objs (o : DupOutcomes) : ∀ rs i err (s : ForkState φ ν υ) (vmm : AddressSpace),
    (dupRegions o i rs err s vmm).2.1.dbPage = vmm.dbPage ∧
      ((dupRegions o i rs err s vmm).2.2 ≠ none →
        vmm.dbPage ∈ (dupRegions o i rs err s vmm).1.frees) := by
  intro rs
  induction rs with
  | nil => exact fun _ _ s vmm => ⟨rfl, fun h => absurd rfl h⟩
  | cons r rs ih =>
    intro i err s vmm
    by_cases hregion : o.region i = true
    · obtain ⟨dup, hdup⟩ : ∃ dup, Dup.vmRegionDup s.mem r (o.set i) = dup := ⟨_, rfl⟩
      obtain ⟨mem, e⟩ := dup
      simp only [dupRegions, if_pos hregion, hdup]
      cases e with
      | some err =>
        refine ⟨rfl, fun _ => ?_⟩
        simp [vmmDestroy, ForkState.freeAll]
      | none => exact ih _ _ _ _
    · simp only [dupRegions, if_neg hregion]
      refine ⟨rfl, fun _ => ?_⟩
      simp [vmmDestroy, ForkState.freeAll]

omit [DecidableEq φ] [DecidableEq ν] [DecidableEq υ] in
lemma vmmDup_mem (o : DupOutcomes) (parent : Parent φ ν) (s : ForkState φ ν υ) :
    (vmmDup o parent s).1.mem = (Dup.vmmDup o parent.regions s.mem).1 ∧
      (vmmDup o parent s).2.2 = (Dup.vmmDup o parent.regions s.mem).2 := by
  by_cases hkeys : o.keysdb = true
  · by_cases hpmm : o.pmm = true
    · simp only [vmmDup, Dup.vmmDup, if_pos hkeys, if_pos hpmm]
      exact dupRegions_mem o parent.regions 0 none _ _
    · simp [vmmDup, Dup.vmmDup, hkeys, hpmm, ForkState.alloc]
  · simp [vmmDup, Dup.vmmDup, hkeys]

omit [DecidableEq φ] [DecidableEq ν] [DecidableEq υ] in
/-- After a failure the child has a page of the parent, or one that is freed already. -/
lemma vmmDup_objs (o : DupOutcomes) (parent : Parent φ ν) (s : ForkState φ ν υ)
    (hown : ∀ n, KObj.parentVmPage n ∉ s.allocs) (hfails : (vmmDup o parent s).2.2 ≠ none) :
    (vmmDup o parent s).2.1.dbPage ∉ (vmmDup o parent s).1.allocs ∨
      (vmmDup o parent s).2.1.dir ∉ (vmmDup o parent s).1.allocs ∨
        (vmmDup o parent s).2.1.dbPage ∈ (vmmDup o parent s).1.frees := by
  by_cases hkeys : o.keysdb = true
  · by_cases hpmm : o.pmm = true
    · simp only [vmmDup, if_pos hkeys, if_pos hpmm] at hfails ⊢
      obtain ⟨hpage, hfreed⟩ := dupRegions_objs o parent.regions 0 none _ _
      refine .inr (.inr ?_)
      rw [hpage]
      exact hfreed hfails
    · simp only [vmmDup, if_pos hkeys, if_neg hpmm]
      refine .inr (.inl fun hdir => ?_)
      obtain hold | hnew := List.mem_append.mp hdir
      · exact hown 1 hold
      · cases List.mem_singleton.mp hnew
  · simp only [vmmDup, if_neg hkeys]
    exact .inl (hown 0)

lemma vmmDup_complete_iff (o : DupOutcomes) (src : List DupRegion) (mem : DupState)
    (hcounts : ∀ ppn, (mem.pages ppn).count < 2 ^ 32) :
    (Dup.vmmDup o src mem).2 = none ∧ (Dup.vmmDup o src mem).1.regions = src ↔
      o.keysdb = true ∧ o.pmm = true ∧ Dup.NoFailure o mem src := by
  by_cases hkeys : o.keysdb = true
  · by_cases hpmm : o.pmm = true
    · have hend := Dup.vmmDup_spec o src mem hcounts hkeys hpmm
      simp only [hkeys, hpmm, true_and]
      obtain ⟨res, hres⟩ : ∃ res, Dup.vmmDup o src mem = res := ⟨_, rfl⟩
      rw [hres] at hend ⊢
      cases hend with
      | complete regions ok => exact iff_of_true ⟨rfl, regions⟩ ok
      | noStruct k lt before missing regions =>
        refine iff_of_false (fun hall => ?_) fun hok => ?_
        · have hempty : ([] : List DupRegion) = src := regions.symm.trans hall.2
          rw [← hempty] at lt
          exact absurd lt (Nat.not_lt_zero k)
        · rw [(hok k _ (List.getElem?_eq_getElem lt)).1] at missing
          cases missing
      | noEntry k r j fails tables entries counts =>
        refine iff_of_false (fun hall => absurd hall.1 (Option.some_ne_none _)) fun hok => ?_
        exact fails.not_noFailure (Nat.lt_succ_self k) (Dup.noFailure_of_take hok)
    · simp [Dup.vmmDup, hkeys, hpmm]
  · simp [Dup.vmmDup, hkeys]

omit [DecidableEq ν] [DecidableEq υ] in
lemma closeSlots_ledger (info : FdInfo φ) (l : List ℕ) (s : ForkState φ ν υ) :
    (l.foldl (closeSlot info) s).allocs = s.allocs ∧
      (l.foldl (closeSlot info) s).frees = s.frees := by
  induction l generalizing s with
  | nil => exact ⟨rfl, rfl⟩
  | cons fd l ih =>
    have hstep : (closeSlot info s fd).allocs = s.allocs ∧
        (closeSlot info s fd).frees = s.frees := by
      unfold closeSlot
      split <;> exact ⟨rfl, rfl⟩
    rw [List.foldl_cons, (ih _).1, (ih _).2]
    exact hstep

omit [DecidableEq φ] [DecidableEq υ] in
lemma nodeAdd_ledger (s : ForkState φ ν υ) (node : Option ν) (d : ℤ) :
    (s.nodeAdd node d).allocs = s.allocs ∧ (s.nodeAdd node d).frees = s.frees := by
  cases node with
  | none => exact ⟨rfl, rfl⟩
  | some n => exact ⟨rfl, rfl⟩

omit [DecidableEq υ] in
lemma taskDestroy_objs (s : ForkState φ ν υ) {task : Child φ ν} {vmm : AddressSpace}
    (hvmm : task.vmm = some vmm) :
    (taskDestroy s task).allocs = s.allocs ∧
      ∃ fs, (taskDestroy s task).frees = s.frees ++ fs ∧ vmm.dbPage ∈ fs ∧ vmm.dir ∈ fs := by
  obtain ⟨closed, hclosed⟩ : ∃ closed, taskFdDestroy (ForkState.setPid { s with
      assertFailed := s.assertFailed || decide (task.threadsNr ≠ 0) } task.pid .null)
        task.fdInfo = closed := ⟨_, rfl⟩
  have hslots := closeSlots_ledger task.fdInfo (List.range (task.fdInfo.last + 1))
    (ForkState.setPid { s with
      assertFailed := s.assertFailed || decide (task.threadsNr ≠ 0) } task.pid .null)
  have hallocs : closed.allocs = s.allocs := by
    rw [← hclosed]
    exact hslots.1
  have hfrees : closed.frees =
      s.frees ++ ((List.range task.fdInfo.count).map .fdPage ++ [.fdInfo]) := by
    rw [← hclosed, ← List.append_assoc]
    exact congrArg (fun l => l ++ (List.range task.fdInfo.count).map KObj.fdPage ++ [.fdInfo])
      hslots.2
  obtain ⟨open', hopen, hopenAllocs, hopenFrees⟩ : ∃ open', (match task.bin with
      | some f => closed.fileAdd f (-1)
      | none => closed) = open' ∧ open'.allocs = closed.allocs ∧ open'.frees = closed.frees := by
    cases task.bin with
    | none => exact ⟨_, rfl, rfl, rfl⟩
    | some f => exact ⟨_, rfl, rfl, rfl⟩
  have hend : taskDestroy s task = ((((ForkState.freeAll (vmmDestroy ((open'.nodeAdd task.vfsRoot
      (-1)).nodeAdd task.vfsCwd (-1)) vmm).1 (vmm.tables ++ [vmm.dir])).free .thTbl).free
        .null).free .task) := by
    simp only [taskDestroy, hclosed, hopen, hvmm, spaceDestroy]
    rfl
  have hroot := nodeAdd_ledger open' task.vfsRoot (-1)
  have hcwd := nodeAdd_ledger (open'.nodeAdd task.vfsRoot (-1)) task.vfsCwd (-1)
  rw [hend]
  refine ⟨?_, ((List.range task.fdInfo.count).map .fdPage ++ [.fdInfo]) ++ (vmm.regions ++
    vmm.records ++ [vmm.dbPage]) ++ (vmm.tables ++ [vmm.dir]) ++ [.thTbl, .null, .task], ?_,
    by simp, by simp⟩
  · change ((open'.nodeAdd task.vfsRoot (-1)).nodeAdd task.vfsCwd (-1)).allocs = s.allocs
    rw [hcwd.1, hroot.1, hopenAllocs, hallocs]
  · simp only [ForkState.free, ForkState.freeAll, vmmDestroy, hcwd.2, hroot.2, hopenFrees, hfrees]
    simp

omit [DecidableEq φ] [DecidableEq ν] in
lemma threads_undo (tree : Tree υ κ) (core : Core κ) (s t : ForkState φ ν υ)
    (h : t.counters = (s.threads tree core 1).counters) (c : κ) (i : ℕ) :
    (t.threads tree core (-1)).counters.tbl (tree.leaf c) i = s.counters.tbl (tree.leaf c) i := by
  classical
  change (dqdtUpdateThreadsNumber tree t.counters (tree.leaf core.cid) core.lid (-1)).tbl
    (tree.leaf c) i = _
  rw [dqdtUpdateThreadsNumber_leaf, h]
  change (dqdtUpdateThreadsNumber tree s.counters (tree.leaf core.cid) core.lid 1).tbl
    (tree.leaf c) i + _ = _
  rw [dqdtUpdateThreadsNumber_leaf]
  split_ifs <;> omega

omit [DecidableEq φ] [DecidableEq ν] in
lemma undone_of_balanced (tree : Tree υ κ) (core : Core κ) (s : System φ ν υ)
    (h : Balanced (ForkState.threads tree core { s with } 1) t) :
    Undone tree s (t.threads tree core (-1)) := by
  obtain ⟨os, fs, hallocs, hfrees, hnodup, hperm⟩ := h.objs
  have hallocs' : t.allocs = os := hallocs
  have hfrees' : t.frees = fs := hfrees
  refine ⟨threads_undo tree core { s with } t h.counters, h.pids, h.fCount, h.nodeCount,
    fun ppn => ?_, fun o ho => ?_, fun o ho => ?_, h.asserts, h.pointers⟩
  · change (t.mem.pages ppn).count = _
    rw [h.mem]
    rfl
  · change t.frees.count o = 1
    change o ∈ t.allocs at ho
    rw [hallocs'] at ho
    rw [hfrees', hperm.count_eq, List.count_eq_one_of_mem hnodup ho]
  · change o ∈ t.allocs
    change o ∈ t.frees at ho
    rw [hfrees'] at ho
    rw [hallocs']
    exact hperm.mem_iff.mp ho

lemma bitmapFfs2_fresh : ∃ order,
    bitmapFfs2 (bitmapSetRange (fun _ => 0) 0 threadsMax) 0 (threadsMax / 8) = some order := by
  have hspec := bitmapFfs2_spec (bitmapSetRange (fun _ => 0) 0 threadsMax)
    (by decide : 0 < threadsMax / 8 * 8) (by decide : cpuWidth ∣ threadsMax / 8 * 8)
  cases hfound : bitmapFfs2 (bitmapSetRange (fun _ => 0) 0 threadsMax) 0 (threadsMax / 8) with
  | some order => exact ⟨order, rfl⟩
  | none =>
    rw [hfound] at hspec
    have hclear := hspec 0 le_rfl (by decide)
    rw [bitmapState_bitmapSetRange] at hclear
    simp [threadsMax] at hclear

lemma addThread_iff (tree : Tree υ κ) (core : Core κ) (s₀ : System φ ν υ) (hfd : TaskOk parent.fdInfo)
    (pid : ℕ) (s' : ForkState φ ν υ) (vmm : AddressSpace) :
    AllOrNothing tree s₀ parent (addThread tree core t
      { (taskDup s' (newChild pid behind) parent).2 with vmm := some vmm }) ↔
        t.mem.regions = parent.regions := by
  obtain ⟨order, horder⟩ := bitmapFfs2_fresh
  have hresult : addThread tree core t
      { (taskDup s' (newChild pid behind) parent).2 with vmm := some vmm } =
        ⟨t, none, some { (taskDup s' (newChild pid behind) parent).2 with
          vmm := some vmm
          threadsNr := 1
          bitmap := bitmapClear (bitmapSetRange (fun _ => 0) 0 threadsMax) order
          threadOrder := some order }⟩ := by
    simp only [addThread, taskDup, newChild, horder]
  rw [hresult]
  constructor
  · intro h
    obtain ⟨child, -, hbuilt⟩ := h.stored.mp rfl
    exact hbuilt.regions
  · intro hregions
    have hstate : bitmapState (bitmapClear (bitmapSetRange (fun _ => 0) 0 threadsMax) order) order =
        false := by simp
    have hfds := (taskFdFork_spec hfd
      ((s'.nodeAdd (some parent.vfsRoot) 1).nodeAdd (some parent.vfsCwd) 1).fCount behind).2.1
    exact ⟨iff_of_true rfl ⟨_, rfl, ⟨rfl, rfl, rfl, hfds, hregions, rfl, order, rfl, hstate⟩⟩,
      fun h => absurd rfl h⟩

omit [DecidableEq φ] [DecidableEq ν] [DecidableEq υ] in
lemma not_allOrNothing (tree : Tree υ κ) (s₀ : System φ ν υ) {r : Result φ ν υ}
    (hchild : r.child = none) (h : r.err ≠ none → ¬Undone tree s₀ r.state) :
    ¬AllOrNothing tree s₀ parent r := by
  intro hall
  by_cases herr : r.err = none
  · obtain ⟨child, hsome, -⟩ := hall.stored.mp herr
    rw [hchild] at hsome
    cases hsome
  · exact h herr (hall.undone herr)

lemma not_undone_failTask (tree : Tree υ κ) (core : Core κ) (s₀ : System φ ν υ)
    {child : Child φ ν} {vmm : AddressSpace} (hvmm : child.vmm = some vmm) (err : Option Errno)
    (h : vmm.dbPage ∉ s.allocs ∨ vmm.dir ∉ s.allocs ∨ vmm.dbPage ∈ s.frees) :
    ¬Undone tree s₀ (failTask tree core (s.free .threadPage) child err).state := by
  intro hundone
  obtain ⟨hallocs, fs, hfrees, hdb, hdir⟩ :=
    taskDestroy_objs ((s.free .threadPage).threads tree core (-1)) hvmm
  have hmem : ∀ o ∈ fs, o ∈ s.allocs := by
    intro o ho
    have hin : o ∈ (taskDestroy ((s.free .threadPage).threads tree core (-1)) child).frees := by
      rw [hfrees]
      exact List.mem_append_right _ ho
    have := hundone.others o hin
    change o ∈ (taskDestroy _ child).allocs at this
    rw [hallocs] at this
    exact this
  obtain hno | hno | htwice := h
  · exact hno (hmem _ hdb)
  · exact hno (hmem _ hdir)
  · have honce := hundone.once vmm.dbPage (by
      change _ ∈ (taskDestroy _ child).allocs
      rw [hallocs]
      exact hmem _ hdb)
    change (taskDestroy _ child).frees.count _ = 1 at honce
    rw [hfrees, List.count_append] at honce
    have hold : 0 < ((s.free .threadPage).threads tree core (-1)).frees.count vmm.dbPage :=
      List.count_pos_iff.mpr (List.mem_append_left _ htwice)
    have hnew : 0 < fs.count vmm.dbPage := List.count_pos_iff.mpr hdb
    omega

lemma doFork_noPage (tree : Tree υ κ) (core : Core κ) (parent : Parent φ ν) (behind : ℕ → Slot φ)
    (s : System φ ν υ) (hpid : s.tasks.lastPid < taskMaxNr) (hok : ¬CreateFails s o) (hpage : o.threadPage = false) :
    ∃ t, doFork tree core parent o behind s = some ⟨t, none, none⟩ := by
  obtain ⟨t, res, hcall, hcreated⟩ :=
    taskCreate_spec (s := ForkState.threads tree core { s with } 1) o behind hpid
  cases hcreated with
  | failed err fails balanced => exact absurd fails hok
  | made pid ok mem allocs frees =>
    refine ⟨(failTask tree core t (newChild pid behind) none).state, ?_⟩
    simp only [doFork, hcall, hpage]
    rfl

/-- A fork is all or nothing exactly if the task was not created, or every step after that had its
memory. -/
theorem do_fork_all_or_nothing_iff (tree : Tree υ κ) (core : Core κ) (parent : Parent φ ν)
    (o : Outcomes) (behind : ℕ → Slot φ) (s : System φ ν υ) (hpid : s.tasks.lastPid < taskMaxNr)
    (hcounts : ∀ ppn, (s.mem.pages ppn).count < 2 ^ 32) (hfd : TaskOk parent.fdInfo) :
    ∃ r, doFork tree core parent o behind s = some r ∧
      (AllOrNothing tree s parent r ↔ CreateFails s o ∨ LaterSucceed s parent o) := by
  obtain ⟨t, res, hcall, hcreated⟩ :=
    taskCreate_spec (s := ForkState.threads tree core { s with } 1) o behind hpid
  cases hcreated with
  | failed err fails balanced =>
    refine ⟨⟨t.threads tree core (-1), some err, none⟩, by simp only [doFork, hcall],
      iff_of_true ⟨iff_of_false (Option.some_ne_none err) ?_, fun _ => ?_⟩ (.inl fails)⟩
    · rintro ⟨child, hchild, -⟩
      cases hchild
    · exact undone_of_balanced tree core s balanced
  | made pid ok mem allocs frees =>
    by_cases hpage : o.threadPage = true
    · obtain ⟨dup, hdup⟩ : ∃ dup, taskDup (t.alloc .threadPage) (newChild pid behind) parent = dup :=
        ⟨_, rfl⟩
      have hmem : dup.1.mem = s.mem := by
        rw [← hdup]
        exact mem
      have hallocs : dup.1.allocs = taskObjs ++ [.threadPage] := by
        rw [← hdup]
        exact congrArg (· ++ [KObj.threadPage]) allocs
      have hown : ∀ n, KObj.parentVmPage n ∉ dup.1.allocs := by
        intro n
        rw [hallocs]
        simp [taskObjs]
      have hobjs := vmmDup_objs o.vmm parent dup.1 hown
      have hcopy := vmmDup_mem o.vmm parent dup.1
      have hcomplete := vmmDup_complete_iff o.vmm parent.regions s.mem hcounts
      rw [hmem] at hcopy
      rw [← hcopy.1, ← hcopy.2] at hcomplete
      have hlater : (CreateFails s o ∨ LaterSucceed s parent o) ↔
          (vmmDup o.vmm parent dup.1).2.2 = none ∧
            (vmmDup o.vmm parent dup.1).1.mem.regions = parent.regions := by
        rw [hcomplete]
        exact ⟨fun h => (h.resolve_left ok).2, fun h => .inr ⟨hpage, h⟩⟩
      obtain ⟨copy, hvmm⟩ : ∃ copy, vmmDup o.vmm parent dup.1 = copy := ⟨_, rfl⟩
      rw [hlater]
      rw [hvmm] at hobjs ⊢
      obtain ⟨u, vmm, err⟩ := copy
      cases err with
      | some err =>
        refine ⟨failTask tree core (u.free .threadPage) { dup.2 with vmm := some vmm } (some err), ?_,
          iff_of_false (not_allOrNothing tree s rfl fun _ => ?_) fun h => ?_⟩
        · simp only [doFork, hcall, if_pos hpage, hdup, hvmm]
        · exact not_undone_failTask tree core s rfl _ (hobjs (Option.some_ne_none err))
        · exact Option.some_ne_none err h.1
      | none =>
        refine ⟨addThread tree core u { dup.2 with vmm := some vmm }, ?_, ?_⟩
        · simp only [doFork, hcall, if_pos hpage, hdup, hvmm]
        · rw [← hdup]
          exact (addThread_iff tree core s hfd pid _ vmm).trans (by simp)
    · obtain ⟨t, hfork⟩ :=
        doFork_noPage tree core parent behind s hpid ok (by simpa using hpage)
      refine ⟨_, hfork, iff_of_false (not_allOrNothing tree s rfl fun h => absurd rfl h) ?_⟩
      rintro (h | h)
      · exact ok h
      · exact hpage h.1

def forkParent : Parent Bool Bool :=
  ⟨FdFork.taskFdInit fun _ => .null, true, false, true, [Dup.dupRegion], 1, 1⟩

def forkStart : System Bool Bool ℕ :=
  ⟨⟨fun _ _ => 0, fun _ => 0⟩, taskManagerInit, fun _ => 1, fun _ => 1, Dup.dupStart⟩

def forkOutcomes (threadPage : Bool) : Outcomes :=
  ⟨true, true, true, fun _ => true, threadPage, ⟨true, true, fun _ => true, fun _ _ => .ok true⟩⟩

lemma forkStart_counts (ppn : ℕ) : (forkStart.mem.pages ppn).count < 2 ^ 32 :=
  (by decide : 1 < 2 ^ 32)

/-- The child of a task with one region. -/
theorem do_fork_all_or_nothing_built : ∃ r,
    doFork twoClusters ⟨false, 3⟩ forkParent (forkOutcomes true) (fun _ => .null) forkStart = some r ∧
      AllOrNothing twoClusters forkStart forkParent r := by
  obtain ⟨r, hfork, hiff⟩ := do_fork_all_or_nothing_iff twoClusters ⟨false, 3⟩ forkParent
    (forkOutcomes true) (fun _ => .null) forkStart (by decide) forkStart_counts (taskFdInit_ok _)
  exact ⟨r, hfork, hiff.mpr (.inr ⟨rfl, rfl, rfl, fun _ _ _ => ⟨rfl, fun _ _ _ _ => ⟨true, rfl⟩⟩⟩)⟩

/-- The page of the thread is missing: the call returns 0 and stores no child. -/
theorem do_fork_returns_zero : ¬∀ (parent : Parent Bool Bool) (o : Outcomes)
    (s : System Bool Bool ℕ), s.tasks.lastPid < taskMaxNr →
      (∀ ppn, (s.mem.pages ppn).count < 2 ^ 32) → TaskOk parent.fdInfo →
        ∀ r, doFork twoClusters ⟨false, 3⟩ parent o (fun _ => .null) s = some r →
          AllOrNothing twoClusters s parent r := by
  intro h
  have hok : ¬CreateFails forkStart (forkOutcomes false) := by
    rintro (hfull | h | h | h | ⟨i, -, h⟩)
    · exact hfull 1 (by decide) rfl
    · cases h
    · cases h
    · cases h
    · cases h
  obtain ⟨t, hfork⟩ := doFork_noPage twoClusters ⟨false, 3⟩ forkParent (fun _ => .null)
    forkStart (by decide) hok rfl
  have hall := h forkParent (forkOutcomes false) forkStart (by decide) forkStart_counts
    (taskFdInit_ok _) _ hfork
  exact not_allOrNothing twoClusters forkStart rfl (fun h => absurd rfl h) hall

end Almos.Fork
