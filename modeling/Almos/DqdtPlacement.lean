import Almos.DqdtThreads
import Almos.DqdtTraversal

/-!
# Placement of threads

The first strategy of `dqdt_do_placement`, which looks for a cluster with fewer threads than cores. The
strategies that follow when it fails are left out. `distance n i` is what `arch_dqdt_distance` gives for
the child in slot `i` when the children of cluster `n` are sorted.
-/
namespace Almos
namespace DqdtMem
open DqdtBuild (ThreadsExact)

def dqdtThreadOp : ℕ := 0x002

def dqdtForkOp : ℕ := 0x004

def dqdtMigrateOp : ℕ := 0x008

/-- `DQDT_FORK_OP || DQDT_MIGRATE_OP`, a logical or. -/
def forkOrMigrate : ℕ := if dqdtForkOp ≠ 0 ∨ dqdtMigrateOp ≠ 0 then 1 else 0

section
variable (heap : DqdtHeap) (distance : ℕ → ℕ → ℤ)

def dqdtSelectByT : DqdtSelect := fun logical attr _ =>
  (asUint (heap logical).info.summary.T < (heap logical).coresNr, attr)

/-- The threshold is the request's `m_threshold`. -/
def dqdtSelectByTM (mThreshold : ℕ) : DqdtSelect := fun logical attr _ =>
  (asUint (heap logical).info.summary.T < (heap logical).coresNr ∨
    mThreshold < (heap logical).info.summary.M, attr)

def minThreads (entries : ℕ → ℕ) : ℕ × ℕ :=
  (List.range 4).foldl (fun s i => if entries i < s.1 then (entries i, i) else s) (2 ^ 32 - 1, 0)

def dqdtCoreMinThreadsSelect : DqdtSelect := fun logical attr _ =>
  let (_, indx) := minThreads fun i => asUint ((heap logical).info.tbl i).T
  let attr := { attr with cluster := (heap logical).home, cpu := some indx }
  let val := asUint (heap logical).info.summary.T
  (attr.flags &&& dqdtSelectLtcn ≠ 0 ∧ (heap logical).coresNr ≤ val, attr)

def placementSelect (flags mThreshold : ℕ) : DqdtSelect :=
  if flags &&& dqdtForkOp ≠ 0 then dqdtSelectByTM heap mThreshold else dqdtSelectByT heap

def placementSort (flags : ℕ) : DqdtSelect := fun logical attr childIndex =>
  if flags &&& forkOrMigrate ≠ 0 then dqdtSortByTD heap (distance logical) logical attr childIndex
  else dqdtSortByRTD heap (distance logical) logical attr childIndex

/-- `dqdt_do_placement` up to the end of its first traversal. `here` is the cluster of level zero of the
caller. -/
def dqdtDoPlacementFirst (here fuel logical : ℕ) (attr : DqdtAttr) (mThreshold index depth : ℕ)
    (dType : Distance) : Option (Option RequestErr × DqdtAttr) :=
  let attr := { attr with flags := attr.flags ||| dqdtSelectLtcn, origin := here, dType := dType }
  dqdtUpTraversal heap (placementSelect heap attr.flags mThreshold)
    (placementSort heap distance attr.flags) (placementSelect heap attr.flags mThreshold)
    (dqdtCoreMinThreadsSelect heap) depth fuel (some logical) attr index

/-- The first traversal of `dqdt_thread_placement`. -/
def dqdtThreadPlacementFirst (here fuel logical : ℕ) (attr : DqdtAttr) (mThreshold : ℕ) :
    Option (Option RequestErr × DqdtAttr) :=
  dqdtDoPlacementFirst heap distance here fuel logical { attr with flags := dqdtThreadOp } mThreshold
    (heap logical).index dqdtMaxDepth .default

end

/-! ### What the first strategy promises -/

def HasFreeCore (heap : DqdtHeap) (n : ℕ) : Prop :=
  asUint (heap n).info.summary.T < (heap n).coresNr

instance (heap : DqdtHeap) (n : ℕ) : Decidable (HasFreeCore heap n) :=
  inferInstanceAs (Decidable (asUint (heap n).info.summary.T < (heap n).coresNr))

def Passes (heap : DqdtHeap) (flags mThreshold n : ℕ) : Prop :=
  HasFreeCore heap n ∨ flags &&& dqdtForkOp ≠ 0 ∧ mThreshold < (heap n).info.summary.M

/-- The cluster chosen had fewer threads than cores, and the CPU is one of its online CPUs with the
fewest threads. -/
def FillsFreeCore (heap : DqdtHeap) (root : ℕ) (attr : DqdtAttr) : Prop :=
  ∃ m, IsLeaf heap root m ∧ attr.cluster = (heap m).home ∧ HasFreeCore heap m ∧
    ∃ i < (heap m).coresNr, attr.cpu = some i ∧
      ∀ j < (heap m).coresNr, ((heap m).info.tbl i).T ≤ ((heap m).info.tbl j).T

/-- The clusters of level zero that a placement from a cluster of level zero gets to, if no test
turns it back. -/
def MayVisit (heap : DqdtHeap) (n m : ℕ) : Prop :=
  OfferedUp heap (fun _ => True) (fun _ => True) dqdtMaxDepth n (heap n).index m

variable {heap : DqdtHeap} {root : ℕ}

lemma placementSelect_spec (heap : DqdtHeap) (flags mThreshold n : ℕ) (attr : DqdtAttr) (index : ℕ) :
    (placementSelect heap flags mThreshold n attr index).2 = attr ∧
      ((placementSelect heap flags mThreshold n attr index).1 = true ↔ Passes heap flags mThreshold n) := by
  unfold placementSelect Passes HasFreeCore
  split
  · rename_i hfork
    simp [dqdtSelectByTM, hfork]
  · rename_i hfork
    simp [dqdtSelectByT, hfork]

/-- With the flag set, the operator `||` in the choice of the sort has no effect but to choose the sort by
threads, and its test is for a cluster that has a core left. -/
lemma placementSort_spec (heap : DqdtHeap) (distance : ℕ → ℕ → ℤ) {flags : ℕ} {attr : DqdtAttr}
    (hflags : attr.flags = flags) (hltcn : flags &&& dqdtSelectLtcn ≠ 0) (n index : ℕ) :
    (placementSort heap distance flags n attr index).2.flags = flags ∧
      ((placementSort heap distance flags n attr index).1 = true ↔ HasFreeCore heap n) ∧
      ((placementSort heap distance flags n attr index).1 = true →
        IsSelection (placementSort heap distance flags n attr index).2.selectTbl) := by
  have hsort : placementSort heap distance flags n attr index =
      dqdtSortByTD heap (distance n) n attr index := if_pos hltcn
  have htest : tooManyThreads heap n attr = true ↔ ¬ HasFreeCore heap n := by
    simp [tooManyThreads, HasFreeCore, hflags, hltcn]
  rw [hsort]
  have hsorts := sortByTD_sorts heap (distance n) n attr index
  by_cases hfree : HasFreeCore heap n
  · have hfew : tooManyThreads heap n attr = false :=
      Bool.eq_false_iff.mpr fun h => htest.mp h hfree
    have hresult : (dqdtSortByTD heap (distance n) n attr index).1 = true := by
      rw [dqdtSortByTD, hfew]
      rfl
    refine ⟨?_, iff_of_true hresult hfree, fun _ => ?_⟩
    · rw [dqdtSortByTD, hfew, if_neg Bool.false_ne_true]
      exact hflags
    · exact (hsorts _ (Prod.ext hresult rfl)).selection
  · have hmany := htest.mpr hfree
    rw [dqdtSortByTD, if_pos hmany]
    refine ⟨hflags, iff_of_false Bool.false_ne_true hfree, fun h => ?_⟩
    exact absurd h Bool.false_ne_true

lemma placement_tests (heap : DqdtHeap) (distance : ℕ → ℕ → ℤ) {flags : ℕ}
    (hltcn : flags &&& dqdtSelectLtcn ≠ 0) (mThreshold : ℕ) :
    Tests (fun attr => attr.flags = flags) (fun m attr => attr.cluster = (heap m).home)
      (placementSort heap distance flags) (placementSelect heap flags mThreshold)
      (dqdtCoreMinThreadsSelect heap) (HasFreeCore heap) (Passes heap flags mThreshold)
      (fun m => ¬ HasFreeCore heap m) where
  sort n attr index hflags := placementSort_spec heap distance hflags hltcn n index
  select n attr index hflags := by
    obtain ⟨hattr, hpasses⟩ := placementSelect_spec heap flags mThreshold n attr index
    rw [hattr]
    exact ⟨hflags, hpasses⟩
  request n attr index hflags := by
    refine ⟨hflags, ?_, fun _ => rfl⟩
    simp [dqdtCoreMinThreadsSelect, HasFreeCore, hflags, hltcn]

lemma or_ltcn (flags : ℕ) : (flags ||| dqdtSelectLtcn) &&& dqdtSelectLtcn ≠ 0 := by
  intro h
  have hbit := congrArg (fun n => n.testBit 0) h
  simp [dqdtSelectLtcn] at hbit

lemma or_ltcn_fork (flags : ℕ) : (flags ||| dqdtSelectLtcn) &&& dqdtForkOp = flags &&& dqdtForkOp := by
  have hzero : dqdtSelectLtcn &&& dqdtForkOp = 0 := by decide
  rw [Nat.and_or_distrib_right, hzero, Nat.or_zero]

/-- The first traversal succeeds just when a cluster without a free core is offered. -/
lemma doPlacementFirst_ends (htree : Tree heap root) (distance : ℕ → ℕ → ℤ) {fuel n : ℕ}
    (hfuel : 2 * dqdtMaxDepth + 2 ≤ fuel) (hn : Below heap root n) (here : ℕ) (attr : DqdtAttr)
    (mThreshold index depth : ℕ) (dType : Distance) :
    Ends (fun m attr => attr.cluster = (heap m).home)
      (fun m => OfferedUp heap (HasFreeCore heap) (Passes heap attr.flags mThreshold) depth n index m ∧
        ¬ HasFreeCore heap m)
      (dqdtDoPlacementFirst heap distance here fuel n attr mThreshold index depth dType) := by
  have hpasses : Passes heap (attr.flags ||| dqdtSelectLtcn) mThreshold =
      Passes heap attr.flags mThreshold := by
    funext m
    unfold Passes
    rw [or_ltcn_fork]
  rw [← hpasses]
  exact upTraversal_ends htree (placement_tests heap distance (or_ltcn attr.flags) mThreshold) hn
    (by omega) rfl

def HomesDiffer (heap : DqdtHeap) (root : ℕ) : Prop :=
  ∀ m m', IsLeaf heap root m → IsLeaf heap root m' → (heap m).home = (heap m').home → m = m'

/-- A request that succeeds in its first traversal never fills a free core. So the promise is kept if and
only if the traversal is offered no cluster without a free core; and a placement of a thread succeeds
whenever it may visit a cluster with a free core if and only if it may visit none. -/
theorem placement_fills_free_core_iff (htree : Tree heap root) (hhomes : HomesDiffer heap root)
    (distance : ℕ → ℕ → ℤ) (here : ℕ) {fuel : ℕ} (hfuel : 2 * dqdtMaxDepth + 2 ≤ fuel) :
    (∀ n, Below heap root n → ∀ attr mThreshold index depth dType,
      ((∀ attr', dqdtDoPlacementFirst heap distance here fuel n attr mThreshold index depth dType =
        some (none, attr') → FillsFreeCore heap root attr') ↔
        ∀ m, OfferedUp heap (HasFreeCore heap) (Passes heap attr.flags mThreshold) depth n index m →
          HasFreeCore heap m)) ∧
    ∀ n, IsLeaf heap root n → ∀ attr mThreshold,
      (((∃ m, MayVisit heap n m ∧ HasFreeCore heap m) →
        ∃ attr', dqdtThreadPlacementFirst heap distance here fuel n attr mThreshold = some (none, attr')) ↔
        ∀ m, MayVisit heap n m → ¬ HasFreeCore heap m) := by
  constructor
  · intro n hn attr mThreshold index depth dType
    obtain ⟨err, attr', hresult, hfound, hnone⟩ :=
      doPlacementFirst_ends htree distance hfuel hn here attr mThreshold index depth dType
    constructor
    · intro hfills m hoffered
      by_contra hfull
      have herr : err = none := by
        by_contra herr
        exact hnone herr m ⟨hoffered, hfull⟩
      obtain ⟨m', ⟨hoffered', hfull'⟩, hcluster⟩ := hfound herr
      obtain ⟨k, hleaf, hhome, hfree, -⟩ := hfills attr' (by rw [hresult, herr])
      obtain rfl := hhomes k m' hleaf (hoffered'.isLeaf htree hn) (hhome.symm.trans hcluster)
      exact hfull' hfree
    · intro hfree attr'' hsome
      have herr : err = none := (Prod.ext_iff.mp (Option.some.inj (hresult.symm.trans hsome))).1
      obtain ⟨m, ⟨hoffered, hfull⟩, -⟩ := hfound herr
      exact absurd (hfree m hoffered) hfull
  · intro n hn attr mThreshold
    -- without a fork only clusters with a free core pass, and the request turns them down
    have hfails : ∀ attr', dqdtThreadPlacementFirst heap distance here fuel n attr mThreshold ≠
        some (none, attr') := by
      intro attr' hsome
      obtain ⟨err, attr'', hresult, hfound, -⟩ := doPlacementFirst_ends htree distance hfuel hn.1 here
        { attr with flags := dqdtThreadOp } mThreshold (heap n).index dqdtMaxDepth .default
      have herr : err = none := (Prod.ext_iff.mp (Option.some.inj (hresult.symm.trans hsome))).1
      obtain ⟨m, ⟨hoffered, hfull⟩, -⟩ := hfound herr
      rcases hoffered.of_passes with hfree | ⟨hfork, -⟩
      · exact hfull hfree
      · have hthread : dqdtThreadOp &&& dqdtForkOp = 0 := by decide
        exact hfork hthread
    constructor
    · intro hsucceeds m hvisit hfree
      obtain ⟨attr', hsome⟩ := hsucceeds ⟨m, hvisit, hfree⟩
      exact hfails attr' hsome
    · rintro hnone ⟨m, hvisit, hfree⟩
      exact absurd hfree (hnone m hvisit)

/-! ### A busy cluster and a free one -/

def leafCluster (index home : ℕ) (threads : ℤ) (M : ℕ) : DqdtCluster where
  index := index
  level := 0
  flags := 3
  childsNr := 0
  coresNr := 4
  info := ⟨⟨4 * threads, 0, M, fun _ => 0⟩, fun _ => ⟨threads, 0, 0, fun _ => 0⟩⟩
  home := some home
  parent := some 0
  children := fun _ => none

def twoLeaves : DqdtHeap
  | 0 => {
      index := 0, level := 1, flags := 3, childsNr := 2, coresNr := 8
      info := ⟨⟨4, 0, 9, fun _ => 0⟩, fun j => ⟨if j = 0 then 4 else 0, 0, 0, fun _ => 0⟩⟩
      home := some 0, parent := none
      children := fun j => if j = 0 then some 1 else if j = 1 then some 2 else none }
  | 1 => leafCluster 0 1 1 9
  | _ => leafCluster 1 2 0 0

lemma twoLeaves_child {n j c : ℕ} (hn : n < 3) (hj : j < 4) (hchild : (twoLeaves n).children j = some c) :
    n = 0 ∧ c = j + 1 ∧ j < 2 := by
  interval_cases n
  · interval_cases j
    · exact ⟨rfl, (Option.some.inj hchild).symm, by decide⟩
    · exact ⟨rfl, (Option.some.inj hchild).symm, by decide⟩
    · exact absurd hchild (Option.some_ne_none c).symm
    · exact absurd hchild (Option.some_ne_none c).symm
  · exact absurd hchild (Option.some_ne_none c).symm
  · exact absurd hchild (Option.some_ne_none c).symm

lemma twoLeaves_below {n : ℕ} (hn : Below twoLeaves 0 n) : n < 3 := by
  induction hn with
  | refl => decide
  | tail _ hchild ih =>
    obtain ⟨j, hj, hchild⟩ := hchild
    have := twoLeaves_child ih hj hchild
    omega

lemma twoLeaves_tree : Tree twoLeaves 0 := by
  have hslot : ∀ {n j c}, Below twoLeaves 0 n → j < 4 → (twoLeaves n).children j = some c →
      (twoLeaves c).level < (twoLeaves n).level ∧ (twoLeaves c).index = j ∧
        (twoLeaves c).parent = some n := by
    intro n j c hn hj hchild
    obtain ⟨rfl, rfl, hlt⟩ := twoLeaves_child (twoLeaves_below hn) hj hchild
    interval_cases j
    · exact ⟨by decide, rfl, rfl⟩
    · exact ⟨by decide, rfl, rfl⟩
  refine ⟨by decide, rfl, ?_, ?_, ?_, ?_, ?_⟩
  · exact fun hn hj hchild => (hslot hn hj hchild).1
  · exact fun hn hj hchild => (hslot hn hj hchild).2.1
  · exact fun hn hj hchild => (hslot hn hj hchild).2.2
  · intro n hn hlevel
    have hlt := twoLeaves_below hn
    interval_cases n
    · exact ⟨1, 0, by decide, rfl⟩
    · exact absurd rfl hlevel
    · exact absurd rfl hlevel
  · intro n hn
    have hlt := twoLeaves_below hn
    interval_cases n <;> rfl

lemma twoLeaves_homes : HomesDiffer twoLeaves 0 := by
  intro m m' hm hm' hhome
  have hlt := twoLeaves_below hm.1
  have hlt' := twoLeaves_below hm'.1
  interval_cases m <;> interval_cases m' <;> first | rfl | exact absurd hhome (by decide)

lemma twoLeaves_exact : ThreadsExact twoLeaves 0 := by
  intro n hn hlevel
  have hlt := twoLeaves_below hn
  interval_cases n
  · refine ⟨rfl, fun j hj c hchild => ?_⟩
    obtain ⟨-, rfl, hlt⟩ := twoLeaves_child hlt hj hchild
    interval_cases j <;> rfl
  · exact absurd rfl hlevel
  · exact absurd rfl hlevel

lemma twoLeaves_leaf {m : ℕ} (hm : m = 1 ∨ m = 2) : IsLeaf twoLeaves 0 m := by
  rcases hm with rfl | rfl
  · exact ⟨.single ⟨0, by decide, rfl⟩, rfl⟩
  · exact ⟨.single ⟨1, by decide, rfl⟩, rfl⟩

lemma twoLeaves_mayVisit : MayVisit twoLeaves 1 2 := by
  refine .up (p := 0) (by decide) (by decide) rfl (.here (by decide) trivial ?_)
  exact .child (j := 1) (by decide) trivial (by decide) rfl (by decide) trivial (.leaf rfl)

/-- A task is placed in the busy cluster, although the free one was offered first; and a thread of the busy
cluster finds no place in the free one. -/
theorem placement_takes_busy_cluster :
    Tree twoLeaves 0 ∧ HomesDiffer twoLeaves 0 ∧ ThreadsExact twoLeaves 0 ∧
    (∀ m, IsLeaf twoLeaves 0 m → 1 ≤ (twoLeaves m).coresNr ∧ (twoLeaves m).coresNr ≤ 4 ∧
      (twoLeaves m).info.summary.T = ((List.range 4).map fun j => ((twoLeaves m).info.tbl j).T).sum) ∧
    (∃ attr', dqdtDoPlacementFirst twoLeaves (fun _ _ => 1) 1 10 0 { anyAttr with flags := dqdtForkOp } 0 5
        dqdtMaxDepth .random = some (none, attr') ∧ ¬ FillsFreeCore twoLeaves 0 attr') ∧
    (MayVisit twoLeaves 1 2 ∧ HasFreeCore twoLeaves 2) ∧
    ¬ ∃ attr', dqdtThreadPlacementFirst twoLeaves (fun _ _ => 1) 1 10 1 anyAttr 0 = some (none, attr') := by
  refine ⟨twoLeaves_tree, twoLeaves_homes, twoLeaves_exact, ?_, ⟨_, rfl, ?_⟩,
    ⟨twoLeaves_mayVisit, by decide⟩, ?_⟩
  · intro m hm
    have hlt := twoLeaves_below hm.1
    interval_cases m
    · exact absurd hm.2 (by decide)
    · exact ⟨by decide, by decide, rfl⟩
    · exact ⟨by decide, by decide, rfl⟩
  · rintro ⟨m, hm, hhome, hfree, -⟩
    have hlt := twoLeaves_below hm.1
    interval_cases m
    · exact absurd hm.2 (by decide)
    · exact absurd hfree (by decide)
    · exact absurd hhome (by decide)
  · rintro ⟨attr', hsome⟩
    have hfails : (dqdtThreadPlacementFirst twoLeaves (fun _ _ => 1) 1 10 1 anyAttr 0).map Prod.fst =
        some (some .eagain) := by decide
    rw [hsome] at hfails
    exact absurd (Option.some.inj hfails) (Option.some_ne_none _).symm

theorem placement_fills_free_core_iff_two :
    ¬ ((∃ m, MayVisit twoLeaves 1 m ∧ HasFreeCore twoLeaves m) →
      ∃ attr', dqdtThreadPlacementFirst twoLeaves (fun _ _ => 1) 1 10 1 anyAttr 0 = some (none, attr')) :=
  fun h => ((placement_fills_free_core_iff twoLeaves_tree twoLeaves_homes (fun _ _ => 1) 1 (by decide)).2 1
    (twoLeaves_leaf (.inl rfl)) anyAttr 0).mp h 2 twoLeaves_mayVisit (by decide)

end DqdtMem
end Almos
