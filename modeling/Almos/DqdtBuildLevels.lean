import Mathlib
import Almos.DqdtBuildRun

/-!
# The levels of the construction
-/
namespace Almos.DqdtBuild

/-- A loop over distinct items whose rounds succeed and keep what holds of those that are done. -/
lemma foldlM_spec {σ α ε : Type*} {f : σ → α → Except ε σ} (Inv : Set α → σ → Prop) {l : List α}
    (hl : l.Nodup) (hstep : ∀ a ∈ l, ∀ done s, a ∉ done → Inv done s →
      ∃ s', f s a = .ok s' ∧ Inv (insert a done) s') {s : σ} (hstart : Inv ∅ s) :
    ∃ s', l.foldlM f s = .ok s' ∧ Inv {a | a ∈ l} s' := by
  suffices h : ∀ rest : List α, rest.Nodup → rest ⊆ l → ∀ done s, (∀ a ∈ rest, a ∉ done) → Inv done s →
      ∃ s', rest.foldlM f s = .ok s' ∧ Inv ({a | a ∈ rest} ∪ done) s' by
    obtain ⟨s', hs', hinv⟩ := h l hl (List.Subset.refl l) ∅ s (fun _ _ => Set.notMem_empty _) hstart
    rw [Set.union_empty] at hinv
    exact ⟨s', hs', hinv⟩
  intro rest
  induction rest with
  | nil =>
    intro _ _ done s _ hinv
    refine ⟨s, rfl, ?_⟩
    simpa using hinv
  | cons a rest ih =>
    intro hnodup hsub done s hnew hinv
    obtain ⟨ha, hrest⟩ := List.nodup_cons.mp hnodup
    obtain ⟨s₁, hs₁, hinv₁⟩ := hstep a (hsub List.mem_cons_self) done s (hnew a List.mem_cons_self) hinv
    have hnew₁ : ∀ c ∈ rest, c ∉ insert a done := by
      rintro c hc (rfl | hdone)
      · exact ha hc
      · exact hnew c (List.mem_cons_of_mem a hc) hdone
    obtain ⟨s₂, hs₂, hinv₂⟩ := ih hrest (fun c hc => hsub (List.mem_cons_of_mem a hc)) _ s₁ hnew₁ hinv₁
    refine ⟨s₂, ?_, ?_⟩
    · rw [List.foldlM_cons, hs₁]
      exact hs₂
    · have hset : {c | c ∈ a :: rest} ∪ done = {c | c ∈ rest} ∪ insert a done := by
        ext c
        simp [or_assoc]
      rwa [hset]

/-- The logical clusters of a level in the matrix of the level, and the leaves in the clusters. -/
structure Grid (cell : ℕ → ℕ → Option (ℕ × ℕ)) (addr : Block → ℕ) (k : ℕ) (made : Set Block) (s : Boot)
    (matrix : Matrix) : Prop where
  forest : Forest cell addr made s
  low : ∀ b ∈ made, b.level ≤ k
  entry : ∀ x y, ⟨k, x, y⟩ ∈ made → matrix (x, y) = some (addr ⟨k, x, y⟩)
  hole : ∀ x y, ⟨k, x, y⟩ ∉ made → matrix (x, y) = none
  leaf : ∀ x y cid cores, ⟨0, x, y⟩ ∈ made → cell x y = some (cid, cores) →
    s.levelsTbl cid 0 = some (addr ⟨0, x, y⟩)

variable {kmem : Kmem} {cell : ℕ → ℕ → Option (ℕ × ℕ)} {addr : Block → ℕ} {made : Set Block}
  {s s' : Boot} {matrix : Matrix} {b : Block} {k ptr x y : ℕ}

lemma Grid.nil (s : Boot) : Grid cell addr 0 ∅ s fun _ => none := by
  refine ⟨⟨?_, ?_, ?_, ?_, ?_⟩, ?_, ?_, ?_, ?_⟩ <;> simp

lemma Grid.next (h : Grid cell addr k made s matrix) : Grid cell addr (k + 1) made s fun _ => none := by
  refine ⟨h.forest, fun b hb => (h.low b hb).trans (Nat.le_succ k), fun x y hmem => ?_, fun _ _ _ => rfl,
    h.leaf⟩
  have := h.low _ hmem
  dsimp only at this
  omega

lemma Grid.add (h : Grid cell addr k made s matrix) (hnew : ⟨k, x, y⟩ ∉ made)
    (hchild : 0 < k → ∀ j < 4, Block.child ⟨k, x, y⟩ j ∈ made) (hfresh : ptr ∉ s.allocated)
    (hmade : Made cell addr ⟨k, x, y⟩ ptr s s')
    (hleaf : ∀ x' y' cid cores, ⟨0, x', y'⟩ ∈ insert ⟨k, x, y⟩ made → cell x' y' = some (cid, cores) →
      s'.levelsTbl cid 0 = some (Function.update addr ⟨k, x, y⟩ ptr ⟨0, x', y'⟩)) :
    Grid cell (Function.update addr ⟨k, x, y⟩ ptr) k (insert ⟨k, x, y⟩ made) s'
      (Function.update matrix (x, y) (some ptr)) := by
  have hup : Block.up ⟨k, x, y⟩ ∉ made := fun hmem => by
    have := h.low _ hmem
    dsimp only [Block.up] at this
    omega
  refine ⟨h.forest.make hnew hup hchild hfresh hmade, ?_, fun x' y' hmem => ?_, fun x' y' hmem => ?_,
    hleaf⟩
  · rintro b (rfl | hb)
    · exact le_rfl
    · exact h.low b hb
  · by_cases heq : (x', y') = (x, y)
    · obtain ⟨rfl, rfl⟩ := Prod.mk.inj heq
      rw [Function.update_self, Function.update_self]
    · have hne : (⟨k, x', y'⟩ : Block) ≠ ⟨k, x, y⟩ := fun h => heq (by simpa using h)
      rw [Function.update_of_ne heq, Function.update_of_ne hne]
      exact h.entry x' y' (hmem.resolve_left hne)
  · have hne : (x', y') ≠ (x, y) := fun heq => hmem (.inl (by simpa using heq))
    rw [Function.update_of_ne hne]
    exact h.hole x' y' fun hm => hmem (.inr hm)

lemma logical_leaf (cell : ℕ → ℕ → Option (ℕ × ℕ)) (addr : Block → ℕ) (x y : ℕ) :
    Block.logical cell addr ⟨0, x, y⟩ none 0 =
      { zeroCluster with
        flags := if (cell x y).isSome then dqdtClusterUp else 0
        coresNr := ((cell x y).map Prod.snd).getD 0
        home := (cell x y).map Prod.fst } := by
  simp [Block.logical, zeroCluster, Block.childsNr, Block.cores, Block.home, Block.IsUp, coresOf,
    homeOf]
  rfl

lemma made_leaf (hfresh : ptr ∉ s.allocated)
    (hheap : s'.heap = Function.update s.heap ptr (Block.logical cell addr ⟨0, x, y⟩ none 0))
    (halloc : s'.allocated = insert ptr s.allocated) : Made cell addr ⟨0, x, y⟩ ptr s s' := by
  refine ⟨?_, fun h => absurd h (lt_irrefl 0), fun q hq _ => ?_, fun q => ?_⟩
  · rw [hheap, Function.update_self]
  · have hne : q ≠ ptr := fun heq => hfresh (heq ▸ hq)
    rw [hheap, Function.update_of_ne hne]
  · simp [halloc]

lemma meshCell_eq_some {clustersTbl : ℕ → Option ℕ} {header : ArchBibHeader} {cid cores : ℕ}
    (h : meshCell clustersTbl header x y = some (cid, cores)) :
    x < header.xMax ∧ y < header.yMax ∧ cid = clusterIndex x y header.yMax ∧
      clustersTbl cid = some cores := by
  unfold meshCell at h
  split_ifs at h with hxy
  obtain ⟨_, htbl, heq⟩ := Option.map_eq_some_iff.mp h
  obtain ⟨rfl, rfl⟩ := Prod.mk.inj heq
  exact ⟨hxy.1, hxy.2, rfl, htbl⟩

lemma meshCell_inj {clustersTbl : ℕ → Option ℕ} {header : ArchBibHeader} {x' y' cid cores cores' : ℕ}
    (h : meshCell clustersTbl header x y = some (cid, cores))
    (h' : meshCell clustersTbl header x' y' = some (cid, cores')) : x = x' ∧ y = y' := by
  obtain ⟨-, hy, hcid, -⟩ := meshCell_eq_some h
  obtain ⟨-, hy', hcid', -⟩ := meshCell_eq_some h'
  have heq : y + header.yMax * x = y' + header.yMax * x' := by
    have := hcid.symm.trans hcid'
    unfold clusterIndex at this
    linarith [mul_comm header.yMax x, mul_comm header.yMax x']
  have hpos : 0 < header.yMax := by omega
  have hdiv := congrArg (· / header.yMax) heq
  have hmod := congrArg (· % header.yMax) heq
  simp only [Nat.add_mul_div_left _ _ hpos, Nat.div_eq_of_lt hy, Nat.div_eq_of_lt hy',
    Nat.zero_add] at hdiv
  simp only [Nat.add_mul_mod_self_left, Nat.mod_eq_of_lt hy, Nat.mod_eq_of_lt hy'] at hmod
  exact ⟨hdiv, hmod⟩

lemma isUp_leaf : Block.IsUp cell ⟨0, x, y⟩ ↔ ∃ cid cores, cell x y = some (cid, cores) := by
  simp [Block.IsUp, Block.home, homeOf, Option.isSome_iff_exists]

section Chip
variable {clustersTbl : ℕ → Option ℕ} {header : ArchBibHeader} (hkmem : kmem.Succeeds)
include hkmem

lemma chipCluster_spec (hx : x < header.xMax) (hy : y < header.yMax)
    (h : Grid (meshCell clustersTbl header) addr 0 made s matrix) (hnew : ⟨0, x, y⟩ ∉ made) :
    ∃ st, chipCluster kmem clustersTbl header.yMax (s, matrix) (x, y) = .ok st ∧
      ∃ addr', Grid (meshCell clustersTbl header) addr' 0
        {b | b ∈ made ∨ b = ⟨0, x, y⟩ ∧ b.IsUp (meshCell clustersTbl header)} st.1 st.2 := by
  have hcell : meshCell clustersTbl header x y =
      (clustersTbl (clusterIndex x y header.yMax)).map fun cores =>
        (clusterIndex x y header.yMax, cores) := if_pos ⟨hx, hy⟩
  cases htbl : clustersTbl (clusterIndex x y header.yMax) with
  | none =>
    refine ⟨(s, matrix), by simp [chipCluster, htbl], addr, ?_⟩
    have hmade : {b | b ∈ made ∨ b = ⟨0, x, y⟩ ∧ b.IsUp (meshCell clustersTbl header)} = made := by
      ext b
      constructor
      · rintro (hb | ⟨rfl, hup⟩)
        · exact hb
        · simp [Block.IsUp, Block.home, homeOf, hcell, htbl] at hup
      · exact .inl
    rwa [hmade]
  | some onlnCpuNr =>
    rw [htbl, Option.map_some] at hcell
    obtain ⟨ptr, hptr, hfresh⟩ := hkmem.logical s (some (clusterIndex x y header.yMax))
    have hmade : {b | b ∈ made ∨ b = ⟨0, x, y⟩ ∧ b.IsUp (meshCell clustersTbl header)} =
        insert ⟨0, x, y⟩ made := by
      ext b
      constructor
      · rintro (hb | ⟨rfl, -⟩)
        · exact .inr hb
        · exact .inl rfl
      · rintro (rfl | hb)
        · exact .inr ⟨rfl, by simp [Block.IsUp, Block.home, homeOf, hcell]⟩
        · exact .inl hb
    rw [hmade]
    refine ⟨_, by simp only [chipCluster, htbl, Boot.kmemAlloc, hptr, Option.map_some]; rfl,
      Function.update addr ⟨0, x, y⟩ ptr, h.add hnew (fun h => absurd h (lt_irrefl 0)) hfresh
        (made_leaf hfresh ?_ rfl) ?_⟩
    · simp only [Boot.setLeaf, Boot.write, Function.update_idem, Function.update_self, logical_leaf, hcell]
      rfl
    · intro x' y' cid cores hmem hcell'
      by_cases heq : (⟨0, x', y'⟩ : Block) = ⟨0, x, y⟩
      · obtain ⟨rfl, rfl⟩ : x' = x ∧ y' = y := by simpa using heq
        obtain ⟨rfl, -⟩ := Prod.mk.inj (Option.some.inj (hcell.symm.trans hcell'))
        simp [Boot.setLeaf]
      · have hcid : cid ≠ clusterIndex x y header.yMax := by
          rintro rfl
          obtain ⟨rfl, rfl⟩ := meshCell_inj hcell' hcell
          exact heq rfl
        rw [Function.update_of_ne heq, ← h.leaf x' y' cid cores (hmem.resolve_left heq) hcell']
        simp [Boot.setLeaf, Function.update_of_ne hcid]

lemma chipHole_spec (h : Grid cell addr 0 made s matrix)
    (hmem : Block.IsUp cell ⟨0, x, y⟩ → ⟨0, x, y⟩ ∈ made) :
    ∃ st, chipHole kmem (s, matrix) (x, y) = .ok st ∧
      ∃ addr', Grid cell addr' 0 (insert ⟨0, x, y⟩ made) st.1 st.2 := by
  by_cases hin : ⟨0, x, y⟩ ∈ made
  · refine ⟨(s, matrix), by simp [chipHole, h.entry x y hin], addr, ?_⟩
    rwa [Set.insert_eq_of_mem hin]
  · obtain ⟨ptr, hptr, hfresh⟩ := hkmem.logical s none
    have hcell : cell x y = none := by
      have hup := mt hmem hin
      simpa [Block.IsUp, Block.home, homeOf] using hup
    refine ⟨_, by simp only [chipHole, h.hole x y hin, Boot.kmemAlloc, hptr, Option.map_some]; rfl,
      Function.update addr ⟨0, x, y⟩ ptr, h.add hin (fun h => absurd h (lt_irrefl 0)) hfresh
        (made_leaf hfresh ?_ rfl) fun x' y' cid cores hmem' hcell' => ?_⟩
    · rw [logical_leaf, hcell]
      rfl
    · have hne : (⟨0, x', y'⟩ : Block) ≠ ⟨0, x, y⟩ := by
        rintro heq
        obtain ⟨rfl, rfl⟩ : x' = x ∧ y' = y := by simpa using heq
        rw [hcell] at hcell'
        exact absurd hcell' (Option.some_ne_none _).symm
      rw [Function.update_of_ne hne, ← h.leaf x' y' cid cores (hmem'.resolve_left hne) hcell']

lemma chipClusters_spec (clustersTbl : ℕ → Option ℕ) (header : ArchBibHeader) (s : Boot) :
    ∃ st, (List.range header.xMax ×ˢ List.range header.yMax).foldlM
        (chipCluster kmem clustersTbl header.yMax) (s, fun _ => none) = .ok st ∧
      ∃ addr, Grid (meshCell clustersTbl header) addr 0
        {b | b.level = 0 ∧ b.IsUp (meshCell clustersTbl header)} st.1 st.2 := by
  set cell := meshCell clustersTbl header
  obtain ⟨st, hst, addr, hgrid⟩ := foldlM_spec (f := chipCluster kmem clustersTbl header.yMax)
    (fun done st => ∃ addr, Grid cell addr 0
      {b | b.level = 0 ∧ (b.x, b.y) ∈ done ∧ b.IsUp cell} st.1 st.2)
    (List.nodup_range.product List.nodup_range) (by
      rintro ⟨x, y⟩ hmem done ⟨s, matrix⟩ hnew ⟨addr, hgrid⟩
      obtain ⟨hx, hy⟩ := List.pair_mem_product.mp hmem
      obtain ⟨st, hst, addr', hgrid'⟩ := chipCluster_spec hkmem (List.mem_range.mp hx)
        (List.mem_range.mp hy) hgrid fun h => hnew h.2.1
      refine ⟨st, hst, addr', ?_⟩
      convert hgrid' using 1
      ext ⟨k, x', y'⟩
      simp only [Set.mem_ofPred_eq, Set.mem_insert_iff, Prod.mk.injEq, Block.mk.injEq]
      tauto)
    (s := (s, fun _ => none)) ⟨fun _ => 0, by simpa using Grid.nil s⟩
  refine ⟨st, hst, addr, ?_⟩
  convert hgrid using 1
  ext ⟨k, x, y⟩
  simp only [Set.mem_ofPred_eq]
  constructor
  · rintro ⟨rfl, hup⟩
    obtain ⟨cid, cores, hcell⟩ := isUp_leaf.mp hup
    obtain ⟨hx, hy, -, -⟩ := meshCell_eq_some hcell
    exact ⟨rfl, List.pair_mem_product.mpr ⟨List.mem_range.mpr hx, List.mem_range.mpr hy⟩, hup⟩
  · exact fun h => ⟨h.1, h.2.2⟩

lemma chipHoles_spec {l : List (ℕ × ℕ)} (hl : l.Nodup) {st : Boot × Matrix}
    (h : Grid cell addr 0 {b | b.level = 0 ∧ b.IsUp cell} st.1 st.2) :
    ∃ st', l.foldlM (chipHole kmem) st = .ok st' ∧
      ∃ addr', Grid cell addr' 0 {b | b.level = 0 ∧ (b.IsUp cell ∨ (b.x, b.y) ∈ l)} st'.1 st'.2 := by
  refine foldlM_spec (f := chipHole kmem) (fun done st => ∃ addr, Grid cell addr 0
    {b | b.level = 0 ∧ (b.IsUp cell ∨ (b.x, b.y) ∈ done)} st.1 st.2) hl ?_ ⟨addr, by simpa using h⟩
  rintro ⟨x, y⟩ - done ⟨s, matrix⟩ - ⟨addr, hgrid⟩
  obtain ⟨st, hst, addr', hgrid'⟩ := chipHole_spec hkmem hgrid fun hup => ⟨rfl, .inl hup⟩
  refine ⟨st, hst, addr', ?_⟩
  convert hgrid' using 1
  ext ⟨k, x', y'⟩
  simp only [Set.mem_ofPred_eq, Set.mem_insert_iff, Prod.mk.injEq, Block.mk.injEq]
  tauto

lemma archDqdtChipInit_spec {top : ℕ} (clustersTbl : ℕ → Option ℕ)
    (hxMax : header.xMax ≤ 2 ^ top) (hyMax : header.yMax ≤ 2 ^ top)
    (s : Boot) :
    ∃ st, archDqdtChipInit kmem (2 ^ top) clustersTbl header s = .ok st ∧
      ∃ addr, Grid (meshCell clustersTbl header) addr 0 {b | b.InChip top ∧ b.level ≤ 0} st.1 st.2 := by
  obtain ⟨st₁, hst₁, addr₁, hgrid₁⟩ := chipClusters_spec hkmem clustersTbl header s
  obtain ⟨st₂, hst₂, addr₂, hgrid₂⟩ := chipHoles_spec hkmem
    ((List.nodup_range (n := 2 ^ top)).product (List.nodup_range (n := 2 ^ top))) hgrid₁
  refine ⟨st₂, ?_, addr₂, ?_⟩
  · unfold archDqdtChipInit
    rw [hst₁]
    exact hst₂
  · convert hgrid₂ using 1
    ext ⟨k, x, y⟩
    simp only [Set.mem_ofPred_eq, Block.InChip, Nat.le_zero]
    constructor
    · rintro ⟨⟨-, hx, hy⟩, rfl⟩
      exact ⟨rfl, .inr (List.pair_mem_product.mpr ⟨List.mem_range.mpr hx, List.mem_range.mpr hy⟩)⟩
    · rintro ⟨rfl, hup | hmem⟩
      · obtain ⟨cid, cores, hcell⟩ := isUp_leaf.mp hup
        obtain ⟨hx, hy, -, -⟩ := meshCell_eq_some hcell
        exact ⟨⟨Nat.zero_le _, hx.trans_le hxMax, hy.trans_le hyMax⟩, rfl⟩
      · obtain ⟨hx, hy⟩ := List.pair_mem_product.mp hmem
        exact ⟨⟨Nat.zero_le _, List.mem_range.mp hx, List.mem_range.mp hy⟩, rfl⟩

end Chip

def upTo (top k : ℕ) (done : Set (ℕ × ℕ)) : Set Block :=
  {b | b.InChip top ∧ (b.level ≤ k ∨ b.level = k + 1 ∧ (b.x, b.y) ∈ done)}

lemma upTo_empty (top k : ℕ) : upTo top k ∅ = {b | b.InChip top ∧ b.level ≤ k} := by
  ext b
  simp [upTo]

lemma upTo_all {top : ℕ} {l : Set (ℕ × ℕ)} (hl : ∀ x y, Block.InChip top ⟨k + 1, x, y⟩ → (x, y) ∈ l) :
    upTo top k l = {b | b.InChip top ∧ b.level ≤ k + 1} := by
  ext ⟨n, x, y⟩
  simp only [upTo, Set.mem_ofPred_eq]
  constructor
  · rintro ⟨hin, hle | ⟨rfl, -⟩⟩
    · exact ⟨hin, hle.trans (Nat.le_succ k)⟩
    · exact ⟨hin, le_rfl⟩
  · rintro ⟨hin, hle⟩
    rcases Nat.le_succ_iff.mp hle with hlt | rfl
    · exact ⟨hin, .inl hlt⟩
    · exact ⟨hin, .inr ⟨rfl, hl x y hin⟩⟩

section Levels
variable {top : ℕ} (hkmem : kmem.Succeeds)
include hkmem

lemma make_block (hlevel : 0 < b.level) (hnew : b ∉ made)
    (hforest : Forest cell addr made s) (hchild : ∀ j < 4, b.child j ∈ made)
    (hmatrix : ∀ x y, ⟨b.level - 1, x, y⟩ ∈ made → matrix (x, y) = some (addr ⟨b.level - 1, x, y⟩)) :
    ∃ s' ptr, archDqdtMakeCluster kmem s matrix b.level (2 * b.x) (2 * b.y) = .ok (s', some ptr) ∧
      ptr ∉ s.allocated ∧ Made cell addr b ptr s s' ∧
      ∀ cid, s'.levelsTbl cid 0 = s.levelsTbl cid 0 := by
  have hupChild : ∀ j < 4, (b.child j).up ∉ made := fun j hj => by
    rwa [Block.up_child hlevel hj]
  refine archDqdtMakeCluster_spec hkmem hlevel (fun j hj => ?_) (fun j hj => ?_) (fun j hj k hk h => ?_)
    fun j hj => ?_
  · exact hmatrix _ _ (hchild j hj)
  · exact hforest.top _ (hchild j hj) (hupChild j hj)
  · exact Block.child_inj hj hk (hforest.inj _ (hchild j hj) _ (hchild k hk) (.inr (hupChild j hj))
      (.inr (hupChild k hk)) h)
  · exact hforest.allocated _ (hchild j hj) (.inr (hupChild j hj))

lemma buildCell_spec {current : Matrix} {done : Set (ℕ × ℕ)} (xmax : ℕ)
    (hb : Block.InChip top ⟨k + 1, x, y⟩) (hnew : (x, y) ∉ done)
    (h : Grid cell addr (k + 1) (upTo top k done) s matrix)
    (hcurrent : ∀ x y, Block.InChip top ⟨k, x, y⟩ → current (x, y) = some (addr ⟨k, x, y⟩)) :
    ∃ st, buildCell kmem current xmax (k + 1) (s, matrix) (x, y) = .ok st ∧
      ∃ addr', Grid cell addr' (k + 1) (upTo top k (insert (x, y) done)) st.1 st.2 ∧
        ∀ x y, Block.InChip top ⟨k, x, y⟩ → current (x, y) = some (addr' ⟨k, x, y⟩) := by
  have hbnew : ⟨k + 1, x, y⟩ ∉ upTo top k done := by
    rintro ⟨-, hlevel | ⟨-, hmem⟩⟩
    · exact absurd hlevel (Nat.not_succ_le_self k)
    · exact hnew hmem
  have hchild : ∀ j < 4, Block.child ⟨k + 1, x, y⟩ j ∈ upTo top k done := fun j hj =>
    ⟨hb.child (Nat.succ_pos k) hj, .inl (Nat.le_of_eq (Nat.add_sub_cancel k 1))⟩
  obtain ⟨s', ptr, hmake, hfresh, hmade, htbl⟩ := make_block (b := ⟨k + 1, x, y⟩) hkmem (Nat.succ_pos k)
    hbnew h.forest hchild fun x y hmem => hcurrent x y hmem.1
  refine ⟨(s', Function.update matrix (x, y) (some ptr)), ?_,
    Function.update addr ⟨k + 1, x, y⟩ ptr, ?_, fun x' y' hin => ?_⟩
  · unfold buildCell
    dsimp only at hmake ⊢
    rw [hmake]
    rfl
  · have hset : upTo top k (insert (x, y) done) = insert ⟨k + 1, x, y⟩ (upTo top k done) := by
      ext ⟨l, x', y'⟩
      simp only [upTo, Set.mem_ofPred_eq, Set.mem_insert_iff, Prod.mk.injEq, Block.mk.injEq]
      constructor
      · tauto
      · rintro (⟨rfl, rfl, rfl⟩ | h)
        · exact ⟨hb, .inr ⟨rfl, .inl ⟨rfl, rfl⟩⟩⟩
        · tauto
    rw [hset]
    refine h.add hbnew (fun _ => hchild) hfresh hmade fun x' y' cid cores hmem hcell => ?_
    have hne : (⟨0, x', y'⟩ : Block) ≠ ⟨k + 1, x, y⟩ := fun heq => by simp at heq
    rw [Function.update_of_ne hne, htbl]
    exact h.leaf x' y' cid cores (hmem.resolve_left hne) hcell
  · have hne : (⟨k, x', y'⟩ : Block) ≠ ⟨k + 1, x, y⟩ := fun heq => by simp at heq
    rw [Function.update_of_ne hne]
    exact hcurrent x' y' hin

lemma buildLevels_spec {current : Matrix} (m : ℕ) (htop : k + m + 1 = top)
    (h : Grid cell addr k {b | b.InChip top ∧ b.level ≤ k} s current) :
    ∃ st addr', buildLevels kmem s current (2 ^ (m + 1)) (2 ^ (m + 1)) (k + 1) = .ok st ∧
      st.2.2 = top ∧ Grid cell addr' (top - 1) {b | b.InChip top ∧ b.level ≤ top - 1} st.1 st.2.1 := by
  induction m generalizing k addr s current with
  | zero =>
    subst htop
    refine ⟨(s, current, k + 1), addr, ?_, rfl, h⟩
    rw [buildLevels]
    simp
  | succ m ih =>
    have hside : 2 ^ (top - (k + 1)) = 2 ^ (m + 1) := by
      congr 1
      omega
    have hpow : 2 ^ (m + 2) = 2 * 2 ^ (m + 1) := pow_succ' 2 (m + 1)
    have hpos : 0 < 2 ^ m := Nat.two_pow_pos m
    have hpow' : 2 ^ (m + 1) = 2 * 2 ^ m := pow_succ' 2 m
    obtain ⟨st, hst, addr', hgrid, -⟩ := foldlM_spec (f := buildCell kmem current (2 ^ (m + 2)) (k + 1))
      (fun done st => ∃ addr', Grid cell addr' (k + 1) (upTo top k done) st.1 st.2 ∧
        ∀ x y, Block.InChip top ⟨k, x, y⟩ → current (x, y) = some (addr' ⟨k, x, y⟩))
      ((List.nodup_range (n := 2 ^ (m + 1))).product (List.nodup_range (n := 2 ^ (m + 1)))) (by
        rintro ⟨x, y⟩ hmem done ⟨s, matrix⟩ hnew ⟨addr, hgrid, hcurrent⟩
        obtain ⟨hx, hy⟩ := List.pair_mem_product.mp hmem
        refine buildCell_spec hkmem _ ⟨by dsimp only; omega, ?_, ?_⟩ hnew hgrid hcurrent
        · dsimp only
          rw [hside]
          exact List.mem_range.mp hx
        · dsimp only
          rw [hside]
          exact List.mem_range.mp hy)
      (s := (s, fun _ => none)) ⟨addr, by
        rw [upTo_empty]
        exact h.next, fun x y hin => h.entry x y ⟨hin, le_rfl⟩⟩
    rw [upTo_all fun x y hin => ?_] at hgrid
    · obtain ⟨st', addr'', hst', htop', hgrid'⟩ := ih (by omega) hgrid
      refine ⟨st', addr'', ?_, htop', hgrid'⟩
      rw [buildLevels, if_pos (by omega), if_neg (by simp [hkmem.matrix])]
      have hdiv : (2 ^ (m + 1 + 1) + 1) / 2 = 2 ^ (m + 1) := by omega
      have hdiv' : 2 ^ (m + 1 + 1) / 2 = 2 ^ (m + 1) := by omega
      rw [hdiv, hdiv', hst]
      exact hst'
    · obtain ⟨-, hx, hy⟩ := hin
      rw [hside] at hx hy
      exact List.pair_mem_product.mpr ⟨List.mem_range.mpr hx, List.mem_range.mpr hy⟩

/-- The whole construction: the logical clusters of all blocks, with that of the chip as the root. -/
lemma archDqdtBuild_spec (n : ℕ) (clustersTbl : ℕ → Option ℕ) (header : ArchBibHeader)
    (hxMax : header.xMax ≤ 2 ^ (n + 1)) (hyMax : header.yMax ≤ 2 ^ (n + 1)) (s : Boot) :
    ∃ s' addr, archDqdtBuild kmem (2 ^ (n + 1)) clustersTbl header s =
        .ok (s', some (addr ⟨n + 1, 0, 0⟩)) ∧
      Forest (meshCell clustersTbl header) addr {b | b.InChip (n + 1)} s' ∧
      ∀ x y cid cores, meshCell clustersTbl header x y = some (cid, cores) →
        s'.levelsTbl cid 0 = some (addr ⟨0, x, y⟩) := by
  obtain ⟨st₁, hst₁, addr₁, hgrid₁⟩ := archDqdtChipInit_spec hkmem clustersTbl hxMax hyMax s
  obtain ⟨st₂, addr₂, hst₂, htop, hgrid₂⟩ := buildLevels_spec hkmem n
    (show 0 + n + 1 = n + 1 by omega) hgrid₁
  rw [Nat.add_sub_cancel] at hgrid₂
  have hroot : Block.InChip (n + 1) ⟨n + 1, 0, 0⟩ := by simp [Block.InChip]
  have hnew : (⟨n + 1, 0, 0⟩ : Block) ∉ {b | Block.InChip (n + 1) b ∧ b.level ≤ n} := fun h =>
    absurd h.2 (Nat.not_succ_le_self n)
  have hchild : ∀ j < 4, Block.child ⟨n + 1, 0, 0⟩ j ∈ {b | Block.InChip (n + 1) b ∧ b.level ≤ n} :=
    fun j hj => ⟨hroot.child (Nat.succ_pos n) hj, Nat.le_of_eq (Nat.add_sub_cancel n 1)⟩
  obtain ⟨s', ptr, hmake, hfresh, hmade, htbl⟩ := make_block hkmem (Nat.succ_pos n) hnew hgrid₂.forest hchild
    hgrid₂.entry
  have hall : insert ⟨n + 1, 0, 0⟩ {b | Block.InChip (n + 1) b ∧ b.level ≤ n} =
      {b | Block.InChip (n + 1) b} := by
    ext ⟨k, x, y⟩
    simp only [Set.mem_insert_iff, Set.mem_ofPred_eq, Block.mk.injEq]
    constructor
    · rintro (⟨rfl, rfl, rfl⟩ | h)
      · exact hroot
      · exact h.1
    · intro h
      rcases Nat.le_succ_iff.mp h.1 with hle | heq
      · exact .inr ⟨h, hle⟩
      · exact .inl (Block.mk.inj (h.eq_root heq.ge))
  refine ⟨s', Function.update addr₂ ⟨n + 1, 0, 0⟩ ptr, ?_, ?_, fun x y cid cores hcell => ?_⟩
  · unfold archDqdtBuild
    rw [if_neg (by simp [hkmem.matrix]), hst₁, Function.update_self]
    obtain ⟨s₂, current, level⟩ := st₂
    dsimp only at htop
    subst htop
    obtain ⟨s₁, current₁⟩ := st₁
    simp only [bind, Except.bind, hst₂]
    exact hmake
  · rw [← hall]
    refine hgrid₂.forest.make hnew (fun h => ?_) (fun _ => hchild) hfresh hmade
    have := h.2
    dsimp only [Block.up] at this
    omega
  · have hne : (⟨0, x, y⟩ : Block) ≠ ⟨n + 1, 0, 0⟩ := fun heq => by simp at heq
    obtain ⟨hx, hy, -, -⟩ := meshCell_eq_some hcell
    rw [Function.update_of_ne hne, htbl]
    exact hgrid₂.leaf x y cid cores
      ⟨⟨Nat.zero_le _, hx.trans_le hxMax, hy.trans_le hyMax⟩, Nat.zero_le n⟩ hcell

end Levels

end Almos.DqdtBuild
