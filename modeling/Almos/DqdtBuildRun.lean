import Mathlib
import Almos.DqdtBuildTree

/-!
# The construction
-/
namespace Almos.DqdtBuild

/-- Every allocation succeeds, with memory that is not in use. -/
structure Kmem.Succeeds (kmem : Kmem) : Prop where
  logical : ∀ s cluster, ∃ ptr, kmem.logical s cluster = some ptr ∧ ptr ∉ s.allocated
  matrix : ∀ s side, kmem.matrix s side = true

variable {kmem : Kmem} {cell : ℕ → ℕ → Option (ℕ × ℕ)} {addr : Block → ℕ} {made : Set Block}
  {s : Boot} {b : Block} {ptr : ℕ} {entry : ℕ → ℕ}

lemma foldl_heap {g : Boot → ℕ → Boot} {f : ℕ → DqdtCluster → DqdtCluster} {n : ℕ}
    (hg : ∀ s, ∀ j < n, (g s j).heap = Function.update s.heap (entry j) (f j (s.heap (entry j))))
    (hinj : ∀ j < n, ∀ k < n, entry j = entry k → j = k) (s : Boot) :
    (∀ j < n, ((List.range n).foldl g s).heap (entry j) = f j (s.heap (entry j))) ∧
      ∀ q, (∀ j < n, q ≠ entry j) → ((List.range n).foldl g s).heap q = s.heap q := by
  induction n with
  | zero => simp
  | succ n ih =>
    obtain ⟨hin, hout⟩ := ih (fun s j hj => hg s j (by omega))
      fun j hj k hk => hinj j (by omega) k (by omega)
    rw [List.range_succ, List.foldl_append, List.foldl_cons, List.foldl_nil,
      hg _ n (Nat.lt_succ_self n)]
    constructor
    · intro j hj
      rcases Nat.lt_succ_iff_lt_or_eq.mp hj with hlt | rfl
      · have hne : entry j ≠ entry n := fun heq => hlt.ne (hinj j hj n (Nat.lt_succ_self n) heq)
        rw [Function.update_of_ne hne, hin j hlt]
      · rw [Function.update_self, hout _ fun k hk heq => hk.ne (hinj j hj k (by omega) heq).symm]
    · intro q hq
      rw [Function.update_of_ne (hq n (Nat.lt_succ_self n)), hout q fun j hj => hq j (by omega)]

lemma foldl_keeps {α : Type*} {g : Boot → ℕ → Boot} (field : Boot → α)
    (hg : ∀ s j, field (g s j) = field s) (l : List ℕ) (s : Boot) :
    field (l.foldl g s) = field s := by
  induction l generalizing s with
  | nil => rfl
  | cons j l ih => rw [List.foldl_cons, ih, hg]

lemma adopt_heap (child : ℕ → Option ℕ) (s : Boot) {j : ℕ}
    (hchild : ∀ c, child j = some c → c = entry j) :
    (Boot.adopt entry child ptr s j).heap = Function.update s.heap (entry j)
      (if (child j).isSome then { s.heap (entry j) with parent := some ptr }
        else s.heap (entry j)) := by
  unfold Boot.adopt
  cases hj : child j with
  | none => simp [Boot.kmemFree]
  | some c =>
    obtain rfl := hchild c hj
    simp [Boot.write]

lemma foldl_adopt_allocated (entry : ℕ → ℕ) (ptr : ℕ) (child : ℕ → Option ℕ) (s : Boot) (n q : ℕ) :
    q ∈ ((List.range n).foldl (Boot.adopt entry child ptr) s).allocated ↔
      q ∈ s.allocated ∧ ∀ j < n, child j = none → q ≠ entry j := by
  induction n with
  | zero => simp
  | succ n ih =>
    rw [List.range_succ, List.foldl_append, List.foldl_cons, List.foldl_nil]
    have hforall : (∀ j < n + 1, child j = none → q ≠ entry j) ↔
        (∀ j < n, child j = none → q ≠ entry j) ∧ (child n = none → q ≠ entry n) := by
      constructor
      · exact fun h => ⟨fun j hj => h j (by omega), h n (Nat.lt_succ_self n)⟩
      · rintro ⟨h, hn⟩ j hj
        rcases Nat.lt_succ_iff_lt_or_eq.mp hj with hlt | rfl
        · exact h j hlt
        · exact hn
    rw [hforall, ← and_assoc, ← ih]
    cases hn : child n with
    | none =>
      simp only [Boot.adopt, hn, Boot.kmemFree, Finset.mem_erase, forall_const]
      exact and_comm
    | some c => simp [Boot.adopt, hn, Boot.write]

lemma flags_up (cell : ℕ → ℕ → Option (ℕ × ℕ)) (addr : Block → ℕ) (b : Block) (parent : Option ℕ)
    (index : ℕ) :
    (b.logical cell addr parent index).flags &&& dqdtClusterUp ≠ 0 ↔ b.IsUp cell := by
  unfold Block.logical dqdtClusterUp
  split_ifs with h <;> simp [h]

section MakeCluster
variable (hheap : ∀ j < 4, s.heap (entry j) = (b.child j).logical cell addr none 0)
include hheap

lemma scan_spec {n : ℕ} (hn : n ≤ 4) :
    (scan s.heap entry n).cluster =
        (List.range n).foldl (fun h j => ((b.child j).home cell).or h) none ∧
      (scan s.heap entry n).childsNr = ((List.range n).countP fun j => (b.child j).IsUp cell) ∧
      (scan s.heap entry n).coresNr = ((List.range n).map fun j => (b.child j).cores cell).sum ∧
      (∀ j, (scan s.heap entry n).child j =
        if j < n ∧ (b.child j).IsUp cell then some (entry j) else none) ∧
      (0 < n → (s.heap (scan s.heap entry n).clstr).home = (scan s.heap entry n).cluster ∧
        (s.heap (scan s.heap entry n).clstr).flags =
          if (scan s.heap entry n).cluster.isSome then dqdtClusterUp else 0) := by
  induction n with
  | zero => simp [scan]
  | succ n ih =>
    obtain ⟨hcluster, hchilds, hcores, hchild, hclstr⟩ := ih (by omega)
    have hstep : scan s.heap entry (n + 1) = (scan s.heap entry n).visit s.heap entry n := by
      simp [scan, List.range_succ]
    have hentry := hheap n (by omega)
    have hflags := flags_up cell addr (b.child n) none 0
    rw [← hentry] at hflags
    rw [hstep]
    simp only [List.range_succ, List.foldl_append, List.foldl_cons, List.foldl_nil, List.countP_append,
      List.countP_singleton, List.map_append, List.map_cons, List.map_nil, List.sum_append,
      List.sum_singleton, ← hcluster, ← hchilds, ← hcores]
    by_cases hup : (b.child n).IsUp cell
    · have hvisit : (scan s.heap entry n).visit s.heap entry n =
          { cluster := (s.heap (entry n)).home
            clstr := entry n
            childsNr := (scan s.heap entry n).childsNr + 1
            coresNr := (scan s.heap entry n).coresNr + (s.heap (entry n)).coresNr
            child := Function.update (scan s.heap entry n).child n (some (entry n)) } :=
        if_pos (hflags.mpr hup)
      obtain ⟨cid, hcid⟩ := Option.isSome_iff_exists.mp hup
      have hhome : (s.heap (entry n)).home = some cid := by
        rw [hentry]
        exact hcid
      rw [hvisit]
      refine ⟨?_, ?_, ?_, fun j => ?_, fun _ => ⟨rfl, ?_⟩⟩
      · rw [hhome, hcid, Option.some_or]
      · simp [hup]
      · rw [hentry]
        rfl
      · rcases eq_or_ne j n with rfl | hne
        · simp [hup]
        · have hlt : j < n + 1 ↔ j < n := by omega
          dsimp only
          rw [Function.update_of_ne hne, hchild]
          simp only [hlt]
      · rw [hhome, hentry]
        simp [Block.logical, hup]
    · have hvisit : (scan s.heap entry n).visit s.heap entry n = scan s.heap entry n :=
        if_neg fun h => hup (hflags.mp h)
      have hhome : (b.child n).home cell = none := by
        simpa [Block.IsUp] using hup
      rw [hvisit]
      refine ⟨?_, ?_, ?_, fun j => ?_, fun _ => ?_⟩
      · rw [hhome, Option.none_or]
      · simp [hup]
      · rw [Block.cores_of_not_isUp hup, add_zero]
      · rw [hchild]
        rcases eq_or_ne j n with rfl | hne
        · simp [hup]
        · have hlt : j < n + 1 ↔ j < n := by omega
          simp only [hlt]
      · rcases Nat.eq_zero_or_pos n with rfl | hpos
        · -- the first entry is the one of the coordinates at the start
          have hzero : scan s.heap entry 0 = ⟨none, entry 0, 0, 0, fun _ => none⟩ := rfl
          rw [hzero, hentry]
          exact ⟨hhome, if_neg hup⟩
        · exact hclstr hpos

end MakeCluster

lemma scan_clstr (heap : DqdtHeap) (entry : ℕ → ℕ) {n : ℕ} (hn : n ≤ 4) :
    ∃ j < 4, (scan heap entry n).clstr = entry j := by
  induction n with
  | zero => exact ⟨0, by omega, rfl⟩
  | succ n ih =>
    have hstep : scan heap entry (n + 1) = (scan heap entry n).visit heap entry n := by
      simp [scan, List.range_succ]
    rw [hstep, Scan.visit]
    split_ifs with hup
    · exact ⟨n, by omega, rfl⟩
    · exact ih (by omega)

lemma install_keeps (entry : ℕ → ℕ) (ptr : ℕ) (child : ℕ → Option ℕ) (s : Boot) (cluster level : ℕ) :
    (s.install entry child ptr cluster level).allocated = s.allocated ∧
      (s.install entry child ptr cluster level).levelsTbl = Function.update s.levelsTbl cluster
        (Function.update (s.levelsTbl cluster) level (some ptr)) := by
  have hwrite {α : Type} (field : Boot → α) (hfield : ∀ s f q, field (Boot.write s q f) = field s) :=
    foldl_keeps (g := fun s j => s.write (entry j) fun c => { c with index := j }) field
      (fun s j => hfield s _ _) (List.range 4)
  exact ⟨hwrite Boot.allocated (fun _ _ _ => rfl) _, hwrite Boot.levelsTbl (fun _ _ _ => rfl) _⟩

section Install
variable (hinj : ∀ j < 4, ∀ k < 4, entry j = entry k → j = k)
include hinj

lemma install_heap (child : ℕ → Option ℕ) (s : Boot) (cluster level : ℕ)
    (hptr : ∀ j < 4, ptr ≠ entry j) :
    (s.install entry child ptr cluster level).heap ptr = { s.heap ptr with children := child } ∧
      (∀ j < 4, (s.install entry child ptr cluster level).heap (entry j) =
        { s.heap (entry j) with index := j }) ∧
      ∀ q, q ≠ ptr → (∀ j < 4, q ≠ entry j) →
        (s.install entry child ptr cluster level).heap q = s.heap q := by
  obtain ⟨hin, hout⟩ := foldl_heap (g := fun s j => s.write (entry j) fun c => { c with index := j })
    (f := fun j c => { c with index := j }) (fun s j _ => rfl) hinj
    (Boot.write { s with
      levelsTbl := Function.update s.levelsTbl cluster
        (Function.update (s.levelsTbl cluster) level (some ptr)) } ptr
      fun c => { c with children := child })
  refine ⟨?_, fun j hj => ?_, fun q hq hentry => ?_⟩
  · refine (hout ptr hptr).trans ?_
    simp [Boot.write]
  · refine (hin j hj).trans ?_
    simp [Boot.write, (hptr j hj).symm]
  · refine (hout q hentry).trans ?_
    simp [Boot.write, hq]

lemma foldl_adopt_heap (ptr : ℕ) (child : ℕ → Option ℕ) (s : Boot)
    (hchild : ∀ j < 4, ∀ c, child j = some c → c = entry j) :
    (∀ j < 4, ((List.range 4).foldl (Boot.adopt entry child ptr) s).heap (entry j) =
        if (child j).isSome then { s.heap (entry j) with parent := some ptr }
        else s.heap (entry j)) ∧
      ∀ q, (∀ j < 4, q ≠ entry j) →
        ((List.range 4).foldl (Boot.adopt entry child ptr) s).heap q = s.heap q :=
  foldl_heap (f := fun j c => if (child j).isSome then { c with parent := some ptr } else c)
    (fun s j hj => adopt_heap child s (hchild j hj)) hinj s

lemma link_spec (child : ℕ → Option ℕ) (s : Boot) (cluster : Option ℕ) {level : ℕ}
    (hptr : ∀ j < 4, ptr ≠ entry j) (hlevel : 0 < level)
    (hnone : cluster = none → child = (s.heap ptr).children) :
    ∃ s', (match cluster with
        | none => s
        | some cluster => s.install entry child ptr cluster level) = s' ∧
      s'.heap ptr = { s.heap ptr with children := child } ∧
      (cluster.isSome → ∀ j < 4, s'.heap (entry j) = { s.heap (entry j) with index := j }) ∧
      (∀ q, q ≠ ptr → (∀ j < 4, q ≠ entry j) → s'.heap q = s.heap q) ∧
      s'.allocated = s.allocated ∧ ∀ cid, s'.levelsTbl cid 0 = s.levelsTbl cid 0 := by
  cases cluster with
  | none =>
    refine ⟨s, rfl, ?_, fun h => absurd h (by simp), fun _ _ _ => rfl, rfl, fun _ => rfl⟩
    rw [hnone rfl]
  | some cluster =>
    obtain ⟨hself, hentry, hother⟩ := install_heap hinj child s cluster level hptr
    obtain ⟨hallocated, htbl⟩ := install_keeps entry ptr child s cluster level
    refine ⟨_, rfl, hself, fun _ => hentry, hother, hallocated, fun cid => ?_⟩
    rw [htbl]
    rcases eq_or_ne cid cluster with rfl | hne
    · rw [Function.update_self, Function.update_of_ne hlevel.ne]
    · rw [Function.update_of_ne hne]

end Install

lemma Block.children_eq_some {j c : ℕ} (h : b.children cell addr j = some c) :
    0 < b.level ∧ j < 4 ∧ (b.child j).IsUp cell ∧ c = addr (b.child j) := by
  unfold Block.children at h
  split_ifs at h with hj
  obtain rfl := Option.some.inj h
  exact ⟨hj.1, hj.2.1, hj.2.2, rfl⟩

lemma Block.children_of_not_isUp (h : ¬ b.IsUp cell) : b.children cell addr = fun _ => none := by
  funext j
  refine if_neg ?_
  rintro ⟨hlevel, hj, hup⟩
  exact h ((Block.isUp_iff hlevel).mpr ⟨j, hj, hup⟩)

lemma archDqdtMakeCluster_spec (hkmem : kmem.Succeeds) {matrix : Matrix} {x y : ℕ}
    (hlevel : 0 < b.level)
    (hmatrix : ∀ j < 4, matrix (quarter x y j) = some (addr (b.child j)))
    (hheap : ∀ j < 4, s.heap (addr (b.child j)) = (b.child j).logical cell addr none 0)
    (hinj : ∀ j < 4, ∀ k < 4, addr (b.child j) = addr (b.child k) → j = k)
    (halloc : ∀ j < 4, addr (b.child j) ∈ s.allocated) :
    ∃ s' ptr, archDqdtMakeCluster kmem s matrix b.level x y = .ok (s', some ptr) ∧
      ptr ∉ s.allocated ∧ Made cell addr b ptr s s' ∧
      ∀ cid, s'.levelsTbl cid 0 = s.levelsTbl cid 0 := by
  set entry : ℕ → ℕ := fun j => (matrix (quarter x y j)).getD 0 with hentryDef
  have hentry : ∀ j < 4, entry j = addr (b.child j) := fun j hj => by
    rw [hentryDef]
    simp [hmatrix j hj]
  have hinj' : ∀ j < 4, ∀ k < 4, entry j = entry k → j = k := fun j hj k hk h =>
    hinj j hj k hk (by rwa [← hentry j hj, ← hentry k hk])
  have hheap' : ∀ j < 4, s.heap (entry j) = (b.child j).logical cell addr none 0 := fun j hj => by
    rw [hentry j hj, hheap j hj]
  have hnofault : ¬ ∃ j < 4, matrix (quarter x y j) = none := by
    rintro ⟨j, hj, hnone⟩
    simp [hmatrix j hj] at hnone
  obtain ⟨hcluster, hchilds, hcores, hchild, hclstr⟩ := scan_spec hheap' le_rfl
  obtain ⟨hhome, hflags⟩ := hclstr (by omega)
  obtain ⟨k, hk, hck⟩ := scan_clstr s.heap entry le_rfl
  rw [← Block.home_child hlevel] at hcluster
  rw [← Block.cores_child hlevel] at hcores
  obtain ⟨ptr, hptr, hfresh⟩ := hkmem.logical s (scan s.heap entry 4).cluster
  have hchildren : (scan s.heap entry 4).child = b.children cell addr := by
    funext j
    rw [hchild, Block.children]
    by_cases hj : j < 4
    · simp [hlevel, hj, hentry j hj]
    · simp [hj]
  have hne : ∀ j < 4, ptr ≠ entry j := fun j hj heq =>
    hfresh (heq ▸ hentry j hj ▸ halloc j hj)
  -- the state before the children are entered
  obtain ⟨s₁, hs₁⟩ : ∃ s₁ : Boot, s₁ = Boot.write { s with
      heap := Function.update s.heap ptr zeroCluster
      allocated := insert ptr s.allocated
      allocs := s.allocs + 1 } ptr fun c =>
        { c with
          level := b.level
          home := (Function.update s.heap ptr zeroCluster (scan s.heap entry 4).clstr).home
          flags := (Function.update s.heap ptr zeroCluster (scan s.heap entry 4).clstr).flags } :=
    ⟨_, rfl⟩
  have hself₁ : s₁.heap ptr = { zeroCluster with
      level := b.level
      home := b.home cell
      flags := if b.IsUp cell then dqdtClusterUp else 0 } := by
    have hclstrNe : (scan s.heap entry 4).clstr ≠ ptr := hck ▸ (hne k hk).symm
    simp only [hs₁, Boot.write, Function.update_self, Function.update_of_ne hclstrNe, hhome, hflags,
      hcluster]
    rfl
  have hother₁ : ∀ q, q ≠ ptr → s₁.heap q = s.heap q := fun q hq => by
    simp [hs₁, Boot.write, hq]
  obtain ⟨s₂, hs₂, hself₂, hentry₂, hother₂, hallocated₂, htbl₂⟩ :=
    link_spec hinj' (b.children cell addr) s₁ (scan s.heap entry 4).cluster hne hlevel fun hnone => by
      rw [hself₁, Block.children_of_not_isUp]
      · rfl
      · rw [Block.IsUp, ← hcluster, hnone]
        exact Bool.false_ne_true
  obtain ⟨hentry₃, hother₃⟩ := foldl_adopt_heap hinj' ptr (b.children cell addr) s₂
    fun j hj c hc => by
      rw [hentry j hj]
      exact (Block.children_eq_some hc).2.2.2
  have htbl₃ := foldl_keeps (g := Boot.adopt entry (b.children cell addr) ptr) Boot.levelsTbl
    (fun s j => by unfold Boot.adopt; split <;> rfl) (List.range 4) s₂
  obtain ⟨s₃, hs₃⟩ : ∃ s₃, s₃ = (List.range 4).foldl
    (Boot.adopt entry (b.children cell addr) ptr) s₂ := ⟨_, rfl⟩
  rw [← hs₃] at hentry₃ hother₃ htbl₃
  have hallocated₃ := foldl_adopt_allocated entry ptr (b.children cell addr) s₂ 4
  rw [← hs₃, hallocated₂, hs₁] at hallocated₃
  refine ⟨s₃.write ptr fun c => { c with
    coresNr := (scan s.heap entry 4).coresNr
    childsNr := (scan s.heap entry 4).childsNr }, ptr, ?_, hfresh, ?_, fun cid => ?_⟩
  · unfold archDqdtMakeCluster
    rw [if_neg hnofault]
    simp only [Boot.kmemAlloc, ← hentryDef, hptr, Option.map_some, hchildren, ← hs₁]
    rw [hs₃]
    subst hs₂
    rfl
  · refine ⟨?_, fun _ j hj hup => ?_, fun q hq hqentry => ?_, fun q => ?_⟩
    · rw [Boot.write_self, hother₃ ptr hne, hself₂, hself₁, hcores, hchilds]
      simp only [Block.logical, Block.childsNr, hlevel, true_and]
      rfl
    · -- a quarter that is up has a cluster, and so has the block
      have hsome : (scan s.heap entry 4).cluster.isSome := by
        rw [hcluster]
        exact (Block.isUp_iff hlevel).mpr ⟨j, hj, hup⟩
      have hchildj : (b.children cell addr j).isSome := by
        simp [Block.children, hlevel, hj, hup]
      rw [← hentry j hj, Boot.write_of_ne _ _ _ (hne j hj).symm, hentry₃ j hj, if_pos hchildj,
        hentry₂ hsome j hj, hother₁ _ (hne j hj).symm]
    · have hqptr : q ≠ ptr := fun heq => hfresh (heq ▸ hq)
      have hqentry' : ∀ j < 4, q ≠ entry j := fun j hj => by
        rw [hentry j hj]
        exact hqentry hlevel j hj
      rw [Boot.write_of_ne _ _ _ hqptr, hother₃ q hqentry', hother₂ q hqptr hqentry',
        hother₁ q hqptr]
    · rw [Boot.write_allocated, hallocated₃, Boot.write_allocated, Finset.mem_insert]
      have hfreed : (∀ j < 4, b.children cell addr j = none → q ≠ entry j) ↔
          ∀ j < 4, 0 < b.level → ¬ (b.child j).IsUp cell → q ≠ addr (b.child j) := by
        refine forall₂_congr fun j hj => ?_
        simp [Block.children, hlevel, hj, hentry j hj]
      constructor
      · rintro ⟨rfl | hq, hnot⟩
        · exact .inl rfl
        · exact .inr ⟨hq, hfreed.mp hnot⟩
      · rintro (rfl | ⟨hq, hnot⟩)
        · exact ⟨.inl rfl, fun j hj _ => hne j hj⟩
        · exact ⟨.inr hq, hfreed.mpr hnot⟩
  · rw [Boot.write_levelsTbl, htbl₃, htbl₂, hs₁, Boot.write_levelsTbl]

end Almos.DqdtBuild
