import Mathlib
import Almos.DqdtBuilt
import Almos.ThreadCounters

/-!
# Counting threads in the built tree

`dqdt_update_threads_number` counts in a cluster and then in the one above it. In between, the entry of
the one above still lacks the count.
-/
namespace Almos.DqdtBuild
open DqdtMem

variable {cell : ℕ → ℕ → Option (ℕ × ℕ)} {s : Boot} {heap heap' : DqdtHeap} {n root : ℕ}

def SameTree (heap heap' : DqdtHeap) : Prop :=
  ∀ n, heap' n = { heap n with info := (heap' n).info }

lemma SameTree.refl (heap : DqdtHeap) : SameTree heap heap := fun _ => rfl

lemma SameTree.count (h : SameTree heap heap') (logical index : ℕ) (count : ℤ) :
    SameTree heap (countThreads heap' logical index count) := by
  intro n
  unfold countThreads
  rcases eq_or_ne n logical with rfl | hne
  · rw [Function.update_self, h n]
  · rw [Function.update_of_ne hne, h n]

lemma SameTree.isChild_iff (h : SameTree heap heap') (n c : ℕ) :
    IsChild heap' n c ↔ IsChild heap n c := by
  unfold IsChild
  rw [h n]

lemma SameTree.below_iff (h : SameTree heap heap') : Below heap' root n ↔ Below heap root n := by
  have heq : IsChild heap' = IsChild heap := funext₂ fun n c => propext (h.isChild_iff n c)
  rw [Below, heq]

/-- The counters of the inner clusters are exact: the summary is the sum of the entries, and each entry
is the summary of the child. -/
def ThreadsExact (heap : DqdtHeap) (root : ℕ) : Prop :=
  ∀ n, Below heap root n → (heap n).level ≠ 0 →
    (heap n).info.summary.T = ((List.range 4).map fun j => ((heap n).info.tbl j).T).sum ∧
      ∀ j < 4, ∀ c, (heap n).children j = some c →
        ((heap n).info.tbl j).T = (heap c).info.summary.T

def Owed (shape heap : DqdtHeap) (root : ℕ) (logical : Option ℕ) (index : ℕ) (count : ℤ) : Prop :=
  ∀ n, Below shape root n → (shape n).level ≠ 0 →
    (heap n).info.summary.T = ((List.range 4).map fun j => ((heap n).info.tbl j).T).sum ∧
      ∀ j < 4, ∀ c, (shape n).children j = some c →
        ((heap n).info.tbl j).T + (if logical = some n ∧ index = j then count else 0) =
          (heap c).info.summary.T

lemma threadsExact_iff (h : SameTree heap heap') (index : ℕ) (count : ℤ) :
    ThreadsExact heap' root ↔ Owed heap heap' root none index count := by
  unfold ThreadsExact Owed
  refine forall_congr' fun n => ?_
  rw [h.below_iff, h n]
  simp

lemma Owed.leaf {logical index : ℕ} {count : ℤ} (h : Owed heap heap' root none index count)
    (hlevel : (heap logical).level = 0) (index' : ℕ) (count' : ℤ) :
    Owed heap heap' root (some logical) index' count' := by
  intro n hn hinner
  obtain ⟨hsum, hedge⟩ := h n hn hinner
  refine ⟨hsum, fun j hj c hc => ?_⟩
  have hne : ¬ (some logical = some n ∧ index' = j) := by
    rintro ⟨heq, -⟩
    exact hinner (Option.some.inj heq ▸ hlevel)
  rw [if_neg hne, ← hedge j hj c hc]
  simp

lemma sum_map_update {f : ℕ → ℤ} {i n : ℕ} (hi : i < n) (count : ℤ) :
    ((List.range n).map (Function.update f i (f i + count))).sum = ((List.range n).map f).sum + count := by
  induction n with
  | zero => exact absurd hi (Nat.not_lt_zero i)
  | succ n ih =>
    simp only [List.range_succ, List.map_append, List.map_cons, List.map_nil, List.sum_append,
      List.sum_singleton]
    rcases Nat.lt_succ_iff_lt_or_eq.mp hi with hlt | rfl
    · rw [ih hlt, Function.update_of_ne hlt.ne']
      ring
    · have hmap : (List.range i).map (Function.update f i (f i + count)) = (List.range i).map f :=
        List.map_congr_left fun j hj => Function.update_of_ne (List.mem_range.mp hj).ne _ _
      rw [hmap, Function.update_self]
      ring

/-- A round: the cluster is exact, and the entry for it above lacks the count. -/
lemma Owed.step (hwf : WellFormed cell s root) {logical index : ℕ} {count : ℤ}
    (hlogical : Below s.heap root logical) (hindex : (s.heap logical).level ≠ 0 → index < 4)
    (h : Owed s.heap heap root (some logical) index count) :
    Owed s.heap (countThreads heap logical index count) root (s.heap logical).parent
      (s.heap logical).index count := by
  have hother : ∀ n, n ≠ logical → countThreads heap logical index count n = heap n := fun n hne =>
    Function.update_of_ne hne _ _
  have hself : countThreads heap logical index count logical = { heap logical with
      info := {
        summary := { (heap logical).info.summary with T := (heap logical).info.summary.T + count }
        tbl := Function.update (heap logical).info.tbl index
          { (heap logical).info.tbl index with T := ((heap logical).info.tbl index).T + count } } } :=
    Function.update_self _ _ _
  have hT : (fun j => ((countThreads heap logical index count logical).info.tbl j).T) =
      Function.update (fun j => ((heap logical).info.tbl j).T) index
        (((heap logical).info.tbl index).T + count) := by
    funext j
    rw [hself]
    rcases eq_or_ne j index with rfl | hne
    · simp
    · simp [Function.update_of_ne hne]
  intro n hn hinner
  obtain ⟨hsum, hedge⟩ := h n hn hinner
  rcases eq_or_ne n logical with rfl | hne
  · have hnotParent : (s.heap n).parent ≠ some n := fun hp => by
      obtain ⟨-, hslot, hchild⟩ := hwf.parent hn hp
      exact absurd (hwf.child_lt hn hslot hchild) (lt_irrefl _)
    constructor
    · rw [hT, sum_map_update (hindex hinner), ← hsum, hself]
    · intro j hj c hc
      have hcne : c ≠ n := by
        rintro rfl
        exact absurd (hwf.child_lt hn hj hc) (lt_irrefl _)
      rw [if_neg fun hp => hnotParent hp.1, add_zero, hother c hcne, ← hedge j hj c hc, congrFun hT j]
      rcases eq_or_ne index j with rfl | hjne
      · rw [Function.update_self, if_pos ⟨rfl, rfl⟩]
      · rw [Function.update_of_ne hjne.symm, if_neg fun heq => hjne heq.2, add_zero]
  · rw [hother n hne]
    refine ⟨hsum, fun j hj c hc => ?_⟩
    have hold := hedge j hj c hc
    rw [if_neg fun heq => hne (Option.some.inj heq.1).symm, add_zero] at hold
    rcases eq_or_ne c logical with rfl | hcne
    · -- the entry for the cluster itself
      rw [if_pos ⟨hwf.child_parent hn hj hc, hwf.child_index hn hj hc⟩, hold, hself]
    · have hnotParent : ¬ ((s.heap logical).parent = some n ∧ (s.heap logical).index = j) := by
        rintro ⟨hp, rfl⟩
        obtain ⟨-, -, hchild⟩ := hwf.parent hlogical hp
        exact hcne (Option.some.inj (hc.symm.trans hchild))
      rw [if_neg hnotParent, add_zero, hother c hcne, hold]

/-- The loop ends at the root with exact counters. It counts in the leaf where it starts and in no other. -/
lemma dqdtUpdateThreadsNumber_spec (hwf : WellFormed cell s root) (rounds : ℕ) {index : ℕ}
    {logical : Option ℕ} {count : ℤ} (hsame : SameTree s.heap heap)
    (hlogical : ∀ n, logical = some n → Below s.heap root n ∧ ((s.heap n).level ≠ 0 → index < 4) ∧
      (s.heap root).level < rounds + (s.heap n).level)
    (h : Owed s.heap heap root logical index count) :
    ∃ heap', dqdtUpdateThreadsNumber count rounds heap logical index = some heap' ∧
      SameTree s.heap heap' ∧ ThreadsExact heap' root ∧ ∀ leaf, (s.heap leaf).level = 0 →
        heap' leaf = if logical = some leaf then countThreads heap leaf index count leaf
          else heap leaf := by
  induction rounds generalizing heap logical index with
  | zero =>
    cases logical with
    | none =>
      exact ⟨heap, by simp [dqdtUpdateThreadsNumber], hsame, (threadsExact_iff hsame _ _).mpr h,
        fun _ _ => rfl⟩
    | some n =>
      obtain ⟨hn, -, hrounds⟩ := hlogical n rfl
      have := hwf.level_le hn
      omega
  | succ rounds ih =>
    cases logical with
    | none =>
      exact ⟨heap, by simp [dqdtUpdateThreadsNumber], hsame, (threadsExact_iff hsame _ _).mpr h,
        fun _ _ => rfl⟩
    | some n =>
      obtain ⟨hn, hindex, hrounds⟩ := hlogical n rfl
      have hfields : (heap n).parent = (s.heap n).parent ∧ (heap n).index = (s.heap n).index := by
        rw [hsame n]
        exact ⟨rfl, rfl⟩
      have hparent : ∀ p, (s.heap n).parent = some p → Below s.heap root p ∧
          (s.heap n).index < 4 ∧ (s.heap n).level < (s.heap p).level := by
        intro p hp
        obtain ⟨hpb, hslot, hchild⟩ := hwf.parent hn hp
        exact ⟨hpb, hslot, hwf.child_lt hpb hslot hchild⟩
      obtain ⟨heap', hrest, hsame', hexact, hleaf⟩ :=
        ih (hsame.count n index count) (fun p hp => by
          obtain ⟨hpb, hslot, hlt⟩ := hparent p hp
          exact ⟨hpb, fun _ => hslot, by omega⟩) (h.step hwf hn hindex)
      refine ⟨heap', by rw [dqdtUpdateThreadsNumber, hfields.1, hfields.2, hrest], hsame', hexact,
        fun leaf hzero => ?_⟩
      have hne : (s.heap n).parent ≠ some leaf := fun hp => by
        have hlt := (hparent leaf hp).2.2
        omega
      rw [hleaf leaf hzero, if_neg hne]
      rcases eq_or_ne n leaf with rfl | hnl
      · rw [if_pos rfl]
      · rw [if_neg fun heq => hnl (Option.some.inj heq)]
        exact Function.update_of_ne hnl.symm _ _

/-- A call of `dqdt_update_threads_number` for a core of a cluster. -/
structure ThreadsUpdate where
  leaf : ℕ
  coreIndex : ℕ
  count : ℤ

def updateThreads (rounds : ℕ) (heap : DqdtHeap) (updates : List ThreadsUpdate) : Option DqdtHeap :=
  updates.foldlM (fun heap u => dqdtUpdateThreadsNumber u.count rounds heap (some u.leaf) u.coreIndex) heap

def addUp (p : ThreadsUpdate → Bool) (updates : List ThreadsUpdate) : ℤ :=
  ((updates.filter p).map ThreadsUpdate.count).sum

lemma addUp_cons (p : ThreadsUpdate → Bool) (u : ThreadsUpdate) (updates : List ThreadsUpdate) :
    addUp p (u :: updates) = (if p u then u.count else 0) + addUp p updates := by
  unfold addUp
  rw [List.filter_cons]
  split_ifs <;> simp

structure LeafCounts (heap heap' : DqdtHeap) (updates : List ThreadsUpdate) (leaf : ℕ) : Prop where
  summary : (heap' leaf).info.summary.T =
    (heap leaf).info.summary.T + addUp (fun u => u.leaf = leaf) updates
  core : ∀ i, ((heap' leaf).info.tbl i).T =
    ((heap leaf).info.tbl i).T + addUp (fun u => u.leaf = leaf ∧ u.coreIndex = i) updates

lemma LeafCounts.cons {heap₁ : DqdtHeap} {u : ThreadsUpdate} {updates : List ThreadsUpdate} {leaf : ℕ}
    (hfirst : heap₁ leaf =
      if some u.leaf = some leaf then countThreads heap leaf u.coreIndex u.count leaf else heap leaf)
    (h : LeafCounts heap₁ heap' updates leaf) : LeafCounts heap heap' (u :: updates) leaf := by
  by_cases hleaf : u.leaf = leaf
  · have hself : heap₁ leaf = countThreads heap leaf u.coreIndex u.count leaf := by
      rw [hfirst, hleaf, if_pos rfl]
    unfold countThreads at hself
    rw [Function.update_self] at hself
    refine ⟨?_, fun i => ?_⟩
    · rw [h.summary, addUp_cons, hself]
      simp only [hleaf, decide_true, if_true]
      ring
    · rw [h.core, addUp_cons, hself]
      by_cases hi : u.coreIndex = i
      · subst hi
        simp only [hleaf, Function.update_self, and_self, decide_true, if_true]
        ring
      · simp only [hi, and_false, decide_false, Bool.false_eq_true, if_false, zero_add,
          Function.update_of_ne (Ne.symm hi)]
  · have hkept : heap₁ leaf = heap leaf := by
      rw [hfirst, if_neg fun heq => hleaf (Option.some.inj heq)]
    refine ⟨?_, fun i => ?_⟩
    · rw [h.summary, addUp_cons, hkept]
      simp [hleaf]
    · rw [h.core, addUp_cons, hkept]
      simp [hleaf]

lemma updateThreads_spec (hwf : WellFormed cell s root) {rounds : ℕ} (hrounds : (s.heap root).level < rounds)
    {updates : List ThreadsUpdate} (hleaf : ∀ u ∈ updates, IsLeaf s.heap root u.leaf)
    (hsame : SameTree s.heap heap) (hexact : ThreadsExact heap root) :
    ∃ heap', updateThreads rounds heap updates = some heap' ∧ SameTree s.heap heap' ∧
      ThreadsExact heap' root ∧
      ∀ leaf, (s.heap leaf).level = 0 → LeafCounts heap heap' updates leaf := by
  induction updates generalizing heap with
  | nil => exact ⟨heap, rfl, hsame, hexact, fun leaf _ => ⟨by simp [addUp], fun i => by simp [addUp]⟩⟩
  | cons u updates ih =>
    obtain ⟨hbelow, hlevel⟩ := hleaf u List.mem_cons_self
    have howed := ((threadsExact_iff hsame 0 0).mp hexact).leaf hlevel u.coreIndex u.count
    obtain ⟨heap₁, hheap₁, hsame₁, hexact₁, hleaf₁⟩ := dqdtUpdateThreadsNumber_spec hwf rounds hsame
      (fun n hn => by
        obtain rfl := Option.some.inj hn
        exact ⟨hbelow, fun hne => absurd hlevel hne, by omega⟩) howed
    obtain ⟨heap₂, hheap₂, hsame₂, hexact₂, hleaf₂⟩ :=
      ih (fun v hv => hleaf v (List.mem_cons_of_mem u hv)) hsame₁ hexact₁
    refine ⟨heap₂, ?_, hsame₂, hexact₂, fun leaf hzero => (hleaf₂ leaf hzero).cons (hleaf₁ leaf hzero)⟩
    unfold updateThreads
    rw [List.foldlM_cons, hheap₁]
    exact hheap₂

lemma WellFormed.threadsExact (h : WellFormed cell s root) : ThreadsExact s.heap root := by
  intro n hn _
  rw [h.info hn]
  refine ⟨rfl, fun j hj c hc => ?_⟩
  rw [h.info (hn.tail ⟨j, hj, hc⟩)]
  rfl

def countersOf (heap : DqdtHeap) : Dqdt.Counters ℕ where
  tbl n i := ((heap n).info.tbl i).T
  summary n := (heap n).info.summary.T

lemma countersOf_countThreads (logical index : ℕ) (count : ℤ) :
    countersOf (countThreads heap logical index count) = (countersOf heap).add logical index count := by
  simp only [countersOf, Dqdt.Counters.add, Dqdt.Counters.mk.injEq, countThreads]
  constructor
  · funext n i
    by_cases hn : n = logical
    · subst hn
      by_cases hi : i = index
      · subst hi
        simp
      · simp [hi]
    · simp [hn]
  · funext n
    by_cases hn : n = logical
    · subst hn
      simp
    · simp [hn]

/-- On the counters of a heap that has the links of a tree, `dqdt_update_threads_number` is the update
along the levels of that tree. -/
theorem dqdtUpdateThreadsNumber_counters {κ : Type*} (tree : Dqdt.Tree ℕ κ) {shape : DqdtHeap}
    (hparent : ∀ n, tree.parent n = (shape n).parent) (hindex : ∀ n, tree.index n = (shape n).index)
    {rounds logical index : ℕ} {count : ℤ} (hsame : SameTree shape heap)
    (hrun : dqdtUpdateThreadsNumber count rounds heap (some logical) index = some heap') :
    countersOf heap' = Dqdt.dqdtUpdateThreadsNumber tree (countersOf heap) logical index count := by
  induction rounds generalizing heap logical index with
  | zero => simp [dqdtUpdateThreadsNumber] at hrun
  | succ rounds ih =>
    have hlinks : (heap logical).parent = (shape logical).parent ∧
        (heap logical).index = (shape logical).index := by
      rw [hsame logical]
      exact ⟨rfl, rfl⟩
    rw [dqdtUpdateThreadsNumber, hlinks.1, hlinks.2] at hrun
    rw [Dqdt.dqdtUpdateThreadsNumber_eq, hparent, hindex, ← countersOf_countThreads]
    cases hup : (shape logical).parent with
    | none =>
      rw [hup, dqdtUpdateThreadsNumber] at hrun
      rw [Option.some.inj hrun]
    | some parent =>
      rw [hup] at hrun
      exact ih (hsame.count logical index count) hrun

/-- The construction leaves a well-formed tree, and any calls of `dqdt_update_threads_number` keep the
thread counters of its inner clusters exact, while those of the leaves add up the calls. -/
theorem dqdt_tree_counts {kmem : Kmem} (hkmem : kmem.Succeeds) (n : ℕ) (clustersTbl : ℕ → Option ℕ)
    (header : ArchBibHeader) (hxMax : header.xMax ≤ 2 ^ (n + 1)) (hyMax : header.yMax ≤ 2 ^ (n + 1))
    (hpresent : ∃ x y, (meshCell clustersTbl header x y).isSome) (s : Boot) :
    ∃ s' root, archDqdtBuild kmem (2 ^ (n + 1)) clustersTbl header s = .ok (s', some root) ∧
      WellFormed (meshCell clustersTbl header) s' root ∧
      ∀ rounds, n + 1 < rounds → ∀ updates : List ThreadsUpdate,
        (∀ u ∈ updates, IsLeaf s'.heap root u.leaf) →
        ∃ heap, updateThreads rounds s'.heap updates = some heap ∧ SameTree s'.heap heap ∧
          ThreadsExact heap root ∧
          ∀ leaf, IsLeaf s'.heap root leaf →
            (heap leaf).info.summary.T = addUp (fun u => u.leaf = leaf) updates ∧
              ∀ i, ((heap leaf).info.tbl i).T =
                addUp (fun u => u.leaf = leaf ∧ u.coreIndex = i) updates := by
  obtain ⟨s', addr, hbuild, hforest, hleaf⟩ := archDqdtBuild_spec hkmem n clustersTbl header hxMax hyMax s
  have hmesh : ∀ x y cid cores, meshCell clustersTbl header x y = some (cid, cores) →
      Block.InChip (n + 1) ⟨0, x, y⟩ := fun x y cid cores hcell => by
    obtain ⟨hx, hy, -, -⟩ := meshCell_eq_some hcell
    exact ⟨Nat.zero_le _, hx.trans_le hxMax, hy.trans_le hyMax⟩
  have hroot : Block.IsUp (meshCell clustersTbl header) ⟨n + 1, 0, 0⟩ := by
    obtain ⟨x, y, hsome⟩ := hpresent
    obtain ⟨⟨cid, cores⟩, hcell⟩ := Option.isSome_iff_exists.mp hsome
    exact Block.IsUp.chip (isUp_leaf.mpr ⟨cid, cores, hcell⟩) (hmesh x y cid cores hcell)
  have hwf := hforest.wellFormed hroot hmesh hleaf
  refine ⟨s', _, hbuild, hwf, fun rounds hrounds updates hupdates => ?_⟩
  have hlevel := (hforest.fields (b := ⟨n + 1, 0, 0⟩) (by simp [Block.InChip]) hroot).1
  obtain ⟨heap, hheap, hsame, hexact, hcounts⟩ :=
    updateThreads_spec hwf (by rwa [hlevel]) hupdates (.refl _) hwf.threadsExact
  refine ⟨heap, hheap, hsame, hexact, fun leaf hleaf => ?_⟩
  obtain ⟨hsummary, hcore⟩ := hcounts leaf hleaf.2
  have hzero := hwf.info hleaf.1
  refine ⟨?_, fun i => ?_⟩
  · rw [hsummary, hzero]
    exact zero_add _
  · rw [hcore, hzero]
    exact zero_add _

def nextFree : Kmem := ⟨fun s _ => some (s.allocated.sup id + 1), fun _ _ => true⟩

lemma nextFree_succeeds : nextFree.Succeeds where
  logical _ _ := ⟨_, rfl, fun hmem => absurd (Finset.le_sup (f := id) hmem) (Nat.not_succ_le_self _)⟩
  matrix _ _ := rfl

def emptyBoot : Boot :=
  ⟨fun _ => zeroCluster, ∅, 0, fun _ _ => none, fun _ => 0, fun _ => 0, fun _ => 0, fun _ => 0⟩

/-- Three places of a mesh of two by two, in a chip of four by four. -/
theorem dqdt_tree_counts_three : ∃ s' root,
    archDqdtBuild nextFree (2 ^ (1 + 1)) (fun cid => if cid = 2 then none else some 4) ⟨2, 2⟩ emptyBoot =
      .ok (s', some root) ∧
    WellFormed (meshCell (fun cid => if cid = 2 then none else some 4) ⟨2, 2⟩) s' root ∧
    ∀ rounds, 1 + 1 < rounds → ∀ updates : List ThreadsUpdate,
      (∀ u ∈ updates, IsLeaf s'.heap root u.leaf) →
      ∃ heap, updateThreads rounds s'.heap updates = some heap ∧ SameTree s'.heap heap ∧
        ThreadsExact heap root ∧
        ∀ leaf, IsLeaf s'.heap root leaf →
          (heap leaf).info.summary.T = addUp (fun u => u.leaf = leaf) updates ∧
            ∀ i, ((heap leaf).info.tbl i).T =
              addUp (fun u => u.leaf = leaf ∧ u.coreIndex = i) updates :=
  dqdt_tree_counts nextFree_succeeds 1 (fun cid => if cid = 2 then none else some 4) ⟨2, 2⟩ (by decide)
    (by decide) ⟨0, 0, by decide⟩ emptyBoot

end Almos.DqdtBuild
