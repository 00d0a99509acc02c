import Mathlib
import Almos.Machine

/-!
# Thread counters of the placement tree

Each logical cluster of the DQDT counts the threads below each of its entries; in the leaf of a cluster
there is one entry for each core. The counter of a core is raised before it is known whether a thread
can be built there; the search for a core only reads the counters.
-/
namespace Almos.Dqdt
variable {ν κ : Type*}

/-- The logical clusters. The levels end at the root, and `levels_tbl[0]` of a cluster is a leaf. -/
structure Tree (ν κ : Type*) where
  parent : ν → Option ν
  index : ν → ℕ
  leaf : κ → ν
  height : ν → ℕ
  height_parent : ∀ n p, parent n = some p → height p < height n
  leaf_injective : Function.Injective leaf
  leaf_not_parent : ∀ n c, parent n ≠ some (leaf c)

/-- `info.tbl[].T` and `info.summary.T` -/
structure Counters (ν : Type*) where
  tbl : ν → ℕ → ℤ
  summary : ν → ℤ

def Counters.add [DecidableEq ν] (T : Counters ν) (logical : ν) (index : ℕ) (count : ℤ) : Counters ν where
  tbl := Function.update T.tbl logical
    (Function.update (T.tbl logical) index (T.tbl logical index + count))
  summary := Function.update T.summary logical (T.summary logical + count)

section Update
variable [DecidableEq ν]

/-- The loop of `dqdt_update_threads_number`, of which `fuel` bounds the rounds. -/
def updateLoop (tree : Tree ν κ) (count : ℤ) : ℕ → Counters ν → ν → ℕ → Counters ν
  | 0, T, _, _ => T
  | fuel + 1, T, logical, index =>
      let T := T.add logical index count
      match tree.parent logical with
      | some parent => updateLoop tree count fuel T parent (tree.index logical)
      | none => T

/-- `dqdt_update_threads_number` -/
def dqdtUpdateThreadsNumber (tree : Tree ν κ) (T : Counters ν) (logical : ν) (coreIndex : ℕ)
    (count : ℤ) : Counters ν :=
  updateLoop tree count (tree.height logical + 1) T logical coreIndex

lemma updateLoop_fuel (tree : Tree ν κ) (count : ℤ) {fuel fuel' : ℕ} (T : Counters ν) (logical : ν)
    (index : ℕ) (h : tree.height logical < fuel) (h' : tree.height logical < fuel') :
    updateLoop tree count fuel T logical index = updateLoop tree count fuel' T logical index := by
  induction fuel generalizing fuel' T logical index with
  | zero => exact absurd h (Nat.not_lt_zero _)
  | succ fuel ih =>
    cases fuel' with
    | zero => exact absurd h' (Nat.not_lt_zero _)
    | succ fuel' =>
      simp only [updateLoop]
      cases hparent : tree.parent logical with
      | none => rfl
      | some parent =>
        have hlt := tree.height_parent logical parent hparent
        exact ih _ parent _ (by omega) (by omega)

lemma dqdtUpdateThreadsNumber_eq (tree : Tree ν κ) (T : Counters ν) (logical : ν) (coreIndex : ℕ)
    (count : ℤ) :
    dqdtUpdateThreadsNumber tree T logical coreIndex count =
      match tree.parent logical with
      | some parent => dqdtUpdateThreadsNumber tree (T.add logical coreIndex count) parent
          (tree.index logical) count
      | none => T.add logical coreIndex count := by
  rw [dqdtUpdateThreadsNumber, updateLoop]
  cases hparent : tree.parent logical with
  | none => rfl
  | some parent =>
    exact updateLoop_fuel tree count _ parent _ (tree.height_parent logical parent hparent)
      (Nat.lt_succ_self _)

lemma dqdtUpdateThreadsNumber_other (tree : Tree ν κ) (T : Counters ν) (logical : ν) (index : ℕ)
    (count : ℤ) (c : κ) (h : logical ≠ tree.leaf c) :
    (dqdtUpdateThreadsNumber tree T logical index count).tbl (tree.leaf c) = T.tbl (tree.leaf c) := by
  induction hheight : tree.height logical using Nat.strong_induction_on generalizing T logical index with
  | _ height ih =>
    have hadd : (T.add logical index count).tbl (tree.leaf c) = T.tbl (tree.leaf c) :=
      Function.update_of_ne h.symm _ _
    rw [dqdtUpdateThreadsNumber_eq]
    cases hparent : tree.parent logical with
    | none => exact hadd
    | some parent =>
      have hlt := tree.height_parent logical parent hparent
      have hne : parent ≠ tree.leaf c := by
        rintro rfl
        exact tree.leaf_not_parent logical c hparent
      exact (ih _ (hheight ▸ hlt) _ parent _ hne rfl).trans hadd

lemma dqdtUpdateThreadsNumber_leaf [DecidableEq κ] (tree : Tree ν κ) (T : Counters ν) (cid c : κ)
    (coreIndex i : ℕ) (count : ℤ) :
    (dqdtUpdateThreadsNumber tree T (tree.leaf cid) coreIndex count).tbl (tree.leaf c) i =
      T.tbl (tree.leaf c) i + if cid = c ∧ coreIndex = i then count else 0 := by
  rcases eq_or_ne cid c with rfl | hc
  · have hadd : (T.add (tree.leaf cid) coreIndex count).tbl (tree.leaf cid) i =
        T.tbl (tree.leaf cid) i + if cid = cid ∧ coreIndex = i then count else 0 := by
      rcases eq_or_ne coreIndex i with rfl | hi
      · simp [Counters.add]
      · simp [Counters.add, hi, Function.update_of_ne hi.symm]
    rw [dqdtUpdateThreadsNumber_eq, ← hadd]
    cases hparent : tree.parent (tree.leaf cid) with
    | none => rfl
    | some parent =>
      have hne : parent ≠ tree.leaf cid := by
        rintro rfl
        exact tree.leaf_not_parent _ cid hparent
      exact congrFun (dqdtUpdateThreadsNumber_other tree _ parent _ count cid hne) i
  · rw [if_neg fun h => hc h.1, add_zero]
    exact congrFun (dqdtUpdateThreadsNumber_other tree T _ coreIndex count c
      fun h => hc (tree.leaf_injective h)) i

end Update

/-- A core: `cid` of its cluster and its `lid`. -/
@[ext]
structure Core (κ : Type*) where
  cid : κ
  lid : ℕ
deriving DecidableEq

structure Thread (κ : Type*) where
  tid : ℕ
  pid : ℕ
  core : Core κ
deriving DecidableEq

structure Placement (ν κ : Type*) where
  counters : Counters ν
  threads : List (Thread κ)

inductive Err
  | enomem
  | eagain
  | callee (err : ℤ)
deriving DecidableEq

/-- The step of `do_fork` that fails; those that return an error keep it. -/
inductive ForkFailure
  | taskCreate (err : ℤ)
  | page
  | taskDup (err : ℤ)
  | vmmDup (err : ℤ)
  | threadDup (err : ℤ)
  | order

/-- After a failed page or order, `err` is still 0 from the call before. -/
def ForkFailure.err : ForkFailure → Option Err
  | .taskCreate err | .taskDup err | .vmmDup err | .threadDup err => some (.callee err)
  | .page | .order => none

section Operations
variable [DecidableEq ν] [DecidableEq κ] (tree : Tree ν κ)

def Placement.update (s : Placement ν κ) (core : Core κ) (count : ℤ) : Placement ν κ :=
  { s with counters :=
      dqdtUpdateThreadsNumber tree s.counters (tree.leaf core.cid) core.lid count }

/-- `do_thread_create`, with whether the stack is the caller's, and whether `vmm_mmap` and
`thread_create` succeed. A failed `sched_register` is only reported. -/
def doThreadCreate (s : Placement ν κ) (thread : Thread κ) (stackAddr mmap create : Bool) :
    Placement ν κ × Option Err :=
  let s := s.update tree thread.core 1
  if stackAddr = false ∧ mmap = false then (s.update tree thread.core (-1), some .enomem)
  else if create = false then (s.update tree thread.core (-1), some .eagain)
  else ({ s with threads := s.threads ++ [thread] }, none)

/-- `do_fork` -/
def doFork (s : Placement ν κ) (child : Thread κ) (failure : Option ForkFailure) :
    Placement ν κ × Option Err :=
  let s := s.update tree child.core 1
  match failure with
  | some failure => (s.update tree child.core (-1), failure.err)
  | none => ({ s with threads := s.threads ++ [child] }, none)

/-- `sys_thread_exit` -/
def sysThreadExit (s : Placement ν κ) (this : Thread κ) : Placement ν κ :=
  let s := if this.pid ≠ 1 then s.update tree this.core (-1) else s
  { s with threads := s.threads.erase this }

/-- `do_migrate` on the target, with whether there is a page -/
def doMigrate (s : Placement ν κ) (victim : Thread κ) (cpu : Core κ) (page : Bool) :
    Placement ν κ × Option Err :=
  let s := s.update tree cpu 1
  if page = false then (s.update tree cpu (-1), some .enomem)
  else ({ s with threads := s.threads.erase victim ++ [{ victim with core := cpu }] }, none)

/-- `thread_migrate`; without a target it returns `EAGAIN`. -/
def threadMigrate (s : Placement ν κ) (this : Thread κ) (target : Option (Core κ)) (page : Bool) :
    Placement ν κ × Option Err :=
  match target with
  | none => (s, some .eagain)
  | some cpu => doMigrate tree s this cpu page

inductive PlacementEvent (κ : Type*)
  | create (thread : Thread κ) (stackAddr mmap create : Bool)
  | fork (child : Thread κ) (failure : Option ForkFailure)
  | exit (this : Thread κ)
  | migrate (this : Thread κ) (target : Option (Core κ)) (page : Bool)

def placementStep (s : Placement ν κ) : PlacementEvent κ → Option (Placement ν κ)
  | .create thread stackAddr mmap create => some (doThreadCreate tree s thread stackAddr mmap create).1
  | .fork child failure => some (doFork tree s child failure).1
  | .exit this => if this ∈ s.threads then some (sysThreadExit tree s this) else none
  | .migrate this target page =>
      if this ∈ s.threads then some (threadMigrate tree s this target page).1 else none

/-- After `dqdt_init`, before the first user thread. -/
def placementMachine : Machine (Placement ν κ) (PlacementEvent κ) where
  init s := (∀ n i, s.counters.tbl n i = 0) ∧ (∀ n, s.counters.summary n = 0) ∧ s.threads = []
  step := placementStep tree

omit [DecidableEq ν] in
def live (s : Placement ν κ) (core : Core κ) : ℕ := s.threads.countP fun t => t.core = core

def Tracked (s : Placement ν κ) : Prop :=
  ∀ core : Core κ, s.counters.tbl (tree.leaf core.cid) core.lid = live s core

/-- A migration that succeeds leaves the counter of the old core as it was, and so does the exit of a
thread of the first process. -/
def PlacementEvent.skewed : PlacementEvent κ → Option (Core κ)
  | .exit this => if this.pid = 1 then some this.core else none
  | .migrate this (some _) true => some this.core
  | _ => none

def excess (s : Placement ν κ) (core : Core κ) : ℤ :=
  s.counters.tbl (tree.leaf core.cid) core.lid - live s core

variable {s t : Placement ν κ}

lemma update_tbl (s : Placement ν κ) (core k : Core κ) (count : ℤ) :
    (s.update tree core count).counters.tbl (tree.leaf k.cid) k.lid =
      s.counters.tbl (tree.leaf k.cid) k.lid + if core = k then count else 0 := by
  have hcore : (core.cid = k.cid ∧ core.lid = k.lid) = (core = k) := by
    rw [eq_iff_iff]
    exact Core.ext_iff.symm
  change (dqdtUpdateThreadsNumber tree s.counters (tree.leaf core.cid) core.lid count).tbl _ _ = _
  rw [dqdtUpdateThreadsNumber_leaf]
  simp only [hcore]

variable {tree}

lemma excess_undone (s : Placement ν κ) (core k : Core κ) :
    excess tree ((s.update tree core 1).update tree core (-1)) k = excess tree s k := by
  unfold excess
  rw [update_tbl, update_tbl]
  change _ - (live s k : ℤ) = _
  split_ifs <;> omega

omit [DecidableEq ν] in
lemma live_append (s : Placement ν κ) (thread : Thread κ) (k : Core κ) :
    live { s with threads := s.threads ++ [thread] } k = live s k + if thread.core = k then 1 else 0 := by
  unfold live
  rw [List.countP_append, List.countP_singleton]
  simp

omit [DecidableEq ν] in
lemma live_erase {thread : Thread κ} (h : thread ∈ s.threads) (k : Core κ) :
    live s k = (s.threads.erase thread).countP (fun t => t.core = k) +
      if thread.core = k then 1 else 0 := by
  unfold live
  rw [(List.perm_cons_erase h).countP_eq, List.countP_cons]
  simp

lemma excess_added (s : Placement ν κ) (thread : Thread κ) (k : Core κ) :
    excess tree { s.update tree thread.core 1 with threads := s.threads ++ [thread] } k =
      excess tree s k := by
  have hlive := live_append s thread k
  have htbl := update_tbl tree s thread.core k 1
  unfold excess live at *
  dsimp only at *
  rw [htbl, hlive]
  split_ifs <;> simp

lemma excess_step {e : PlacementEvent κ} (hstep : placementStep tree s e = some t) (k : Core κ) :
    excess tree t k = excess tree s k + if e.skewed = some k then 1 else 0 := by
  cases e with
  | create thread stackAddr mmap create =>
    obtain rfl := Option.some.inj hstep
    simp only [PlacementEvent.skewed, reduceCtorEq, if_false, add_zero, doThreadCreate]
    split_ifs with hstack hcreate
    · exact excess_undone s thread.core k
    · exact excess_undone s thread.core k
    · exact excess_added s thread k
  | fork child failure =>
    obtain rfl := Option.some.inj hstep
    simp only [PlacementEvent.skewed, reduceCtorEq, if_false, add_zero, doFork]
    cases failure with
    | some failure => exact excess_undone s child.core k
    | none => exact excess_added s child k
  | exit this =>
    simp only [placementStep] at hstep
    split_ifs at hstep with hmem
    obtain rfl := Option.some.inj hstep
    have hlive := live_erase hmem k
    have htbl := update_tbl tree s this.core k (-1)
    unfold excess live at *
    by_cases hpid : this.pid = 1
    · have hexit : sysThreadExit tree s this = { s with threads := s.threads.erase this } := by
        simp [sysThreadExit, hpid]
      have hskewed : (PlacementEvent.exit this).skewed = some this.core := if_pos hpid
      rw [hexit, hskewed, hlive]
      simp only [Option.some.injEq]
      split_ifs <;> omega
    · have hexit : sysThreadExit tree s this =
          { s.update tree this.core (-1) with threads := s.threads.erase this } := by
        simp only [sysThreadExit, ne_eq, hpid, not_false_eq_true, if_true]
        rfl
      have hskewed : (PlacementEvent.exit this).skewed = none := if_neg hpid
      rw [hexit, hskewed, hlive]
      dsimp only
      rw [htbl]
      simp only [reduceCtorEq, if_false]
      split_ifs <;> omega
  | migrate this target page =>
    simp only [placementStep] at hstep
    split_ifs at hstep with hmem
    obtain rfl := Option.some.inj hstep
    cases target with
    | none => simp [threadMigrate, PlacementEvent.skewed]
    | some cpu =>
      cases page with
      | false =>
        simp only [threadMigrate, doMigrate, PlacementEvent.skewed, reduceCtorEq, if_true, if_false,
          add_zero]
        exact excess_undone s cpu k
      | true =>
        -- the new core is counted, and the old one is still counted
        have hlive := live_erase hmem k
        have htbl := update_tbl tree s cpu k 1
        have hmigrate : (threadMigrate tree s this (some cpu) true).1 =
            { s.update tree cpu 1 with
              threads := s.threads.erase this ++ [{ this with core := cpu }] } := by
          simp only [threadMigrate, doMigrate, Bool.true_eq_false, if_false]
          rfl
        unfold excess live at *
        rw [hmigrate, hlive]
        dsimp only
        rw [htbl, List.countP_append, List.countP_singleton]
        simp only [decide_eq_true_eq, PlacementEvent.skewed, Option.some.injEq]
        split_ifs <;> omega

lemma excess_run (es : List (PlacementEvent κ)) (hrun : (placementMachine tree).run s es = some t)
    (k : Core κ) : excess tree t k = excess tree s k + es.countP fun e => e.skewed = some k := by
  induction es generalizing s with
  | nil =>
    obtain rfl : s = t := by simpa [Machine.run] using hrun
    simp
  | cons e es ih =>
    obtain ⟨u, hu, hrest⟩ : ∃ u, (placementMachine tree).step s e = some u ∧
        (placementMachine tree).run u es = some t := by
      simpa [Machine.run, List.foldlM_cons, Option.bind_eq_some_iff] using hrun
    rw [ih hrest, excess_step hu k, List.countP_cons]
    simp only [decide_eq_true_eq]
    split_ifs <;> push_cast <;> omega

/-- After any sequence of operations the counters are right exactly if no migration has succeeded and
no thread of the first process has exited. -/
theorem thread_counters_tracked {es : List (PlacementEvent κ)} (hinit : (placementMachine tree).init s)
    (hrun : (placementMachine tree).run s es = some t) :
    Tracked tree t ↔ ∀ e ∈ es, e.skewed = none := by
  have hexcess : ∀ k, excess tree t k = es.countP fun e => e.skewed = some k := by
    intro k
    have hzero : excess tree s k = 0 := by
      unfold excess live
      rw [hinit.1, hinit.2.2]
      rfl
    rw [excess_run es hrun k, hzero, zero_add]
  constructor
  · intro htracked e he
    by_contra hskewed
    obtain ⟨k, hk⟩ := Option.ne_none_iff_exists'.mp hskewed
    have hpos : 0 < es.countP fun e => e.skewed = some k :=
      List.countP_pos_iff.mpr ⟨e, he, decide_eq_true hk⟩
    have hk' := hexcess k
    rw [excess, htracked k] at hk'
    omega
  · intro hnone k
    have hzero : (es.countP fun e => e.skewed = some k) = 0 := by
      rw [List.countP_eq_zero]
      intro e he
      rw [hnone e he]
      simp
    have hk := hexcess k
    rw [hzero, excess] at hk
    omega

end Operations

def twoClusters : Tree ℕ Bool where
  parent n := if n = 0 then none else some 0
  index n := n - 1
  leaf c := if c then 2 else 1
  height n := n
  height_parent n p h := by
    split_ifs at h with hn
    cases h
    omega
  leaf_injective := by decide
  leaf_not_parent n c h := by
    cases c with
    | false => simp at h
    | true => simp at h

def noThreads : Placement ℕ Bool := ⟨⟨fun _ _ => 0, fun _ => 0⟩, []⟩

/-- A thread is created, a fork fails for want of a page, and the thread exits. -/
theorem thread_counters_tracked_exit : ∃ s : Placement ℕ Bool,
    (placementMachine twoClusters).run noThreads
      [.create ⟨1, 2, ⟨false, 3⟩⟩ false true true, .fork ⟨2, 3, ⟨true, 0⟩⟩ (some .page),
        .exit ⟨1, 2, ⟨false, 3⟩⟩] = some s ∧ Tracked twoClusters s := by
  have hrun : ∃ s, (placementMachine twoClusters).run noThreads
      [.create ⟨1, 2, ⟨false, 3⟩⟩ false true true, .fork ⟨2, 3, ⟨true, 0⟩⟩ (some .page),
        .exit ⟨1, 2, ⟨false, 3⟩⟩] = some s := ⟨_, rfl⟩
  obtain ⟨s, hs⟩ := hrun
  exact ⟨s, hs, (thread_counters_tracked ⟨fun _ _ => rfl, fun _ => rfl, rfl⟩ hs).mpr (by decide)⟩

/-- A thread migrates to the other cluster: the counter of its old core stays 1. -/
theorem migration_not_tracked : ∃ s : Placement ℕ Bool, (placementMachine twoClusters).Reachable s ∧
    s.counters.tbl (twoClusters.leaf false) 3 = 1 ∧ live s ⟨false, 3⟩ = 0 ∧ ¬Tracked twoClusters s := by
  have hvalues : ((placementMachine twoClusters).run noThreads
      [.create ⟨1, 2, ⟨false, 3⟩⟩ false true true,
        .migrate ⟨1, 2, ⟨false, 3⟩⟩ (some ⟨true, 0⟩) true]).map
      (fun s => (s.counters.tbl (twoClusters.leaf false) 3, live s ⟨false, 3⟩)) = some (1, 0) := by
    decide +kernel
  obtain ⟨s, hs, hfields⟩ := Option.map_eq_some_iff.mp hvalues
  obtain ⟨htbl, hlive⟩ := Prod.mk.inj hfields
  refine ⟨s, .run (.init ⟨fun _ _ => rfl, fun _ => rfl, rfl⟩) _ hs, htbl, hlive, fun h => ?_⟩
  have hcore := h ⟨false, 3⟩
  rw [hlive] at hcore
  rw [htbl] at hcore
  cases hcore

end Almos.Dqdt
