import Almos.DqdtRequest

namespace Almos
namespace DqdtMem

variable {heap : DqdtHeap} {homes : ℕ → DqdtHome} {rand : ℕ} {req : PpmDqdtReq}
  {root n m fuel index : ℕ} {attr : DqdtAttr} {entry : DqdtIndicators}

/-! ### The selection stays a permutation of the slots -/

structure IsSelection (select : ℕ → ℕ) : Prop where
  lt : ∀ i < 4, select i < 4
  covers : ∀ j < 4, ∃ i < 4, select i = j

lemma isSelection_id : IsSelection id :=
  ⟨fun _ hi => hi, fun j hj => ⟨j, hj, rfl⟩⟩

lemma swapEntries_apply {α : Type} (t : ℕ → α) (i j k : ℕ) :
    swapEntries t i j k = t (Equiv.swap i j k) := by
  rw [swapEntries, Equiv.swap_apply_def, Function.update_apply, Function.update_apply]
  by_cases hj : k = j
  · by_cases hi : k = i
    · simp [← hi, ← hj]
    · have hji : j ≠ i := fun h => hi (hj.trans h)
      simp [hj, hji]
  · by_cases hi : k = i
    · subst hi
      simp [hj]
    · simp [hi, hj]

lemma swap_lt {i j k : ℕ} (hi : i < 4) (hj : j < 4) (hk : k < 4) : Equiv.swap i j k < 4 := by
  rw [Equiv.swap_apply_def]
  split
  · exact hj
  · split
    · exact hi
    · exact hk

lemma IsSelection.swap {select : ℕ → ℕ} (h : IsSelection select) {i j : ℕ} (hi : i < 4)
    (hj : j < 4) : IsSelection (swapEntries select i j) := by
  constructor
  · intro k hk
    rw [swapEntries_apply]
    exact h.lt _ (swap_lt hi hj hk)
  · intro l hl
    obtain ⟨k, hk, hsel⟩ := h.covers l hl
    refine ⟨Equiv.swap i j k, swap_lt hi hj hk, ?_⟩
    rw [swapEntries_apply, Equiv.swap_apply_self, hsel]

lemma isSelection_primary (values : ℕ → ℤ) {aux : ℕ → ℕ} (h : IsSelection aux) :
    IsSelection (dqdtPrimaryTableSort1 4 values aux).2 := by
  refine List.foldlRecOn (motive := fun s : (ℕ → ℤ) × (ℕ → ℕ) => IsSelection s.2) _ _ h ?_
  intro s hs i hi
  refine List.foldlRecOn (motive := fun s : (ℕ → ℤ) × (ℕ → ℕ) => IsSelection s.2) _ _ hs ?_
  intro t ht j hj
  have hi4 := List.mem_range.1 hi
  have hj4 := List.mem_range'_1.1 hj
  split
  · exact ht.swap hi4 (by omega)
  · exact ht

lemma isSelection_secondary (key aux : ℕ → ℤ) {select : ℕ → ℕ} (h : IsSelection select) :
    IsSelection (dqdtSecondaryTableSort 4 key aux select).2 := by
  refine List.foldlRecOn (motive := fun s : (ℕ → ℤ) × (ℕ → ℕ) => IsSelection s.2) _ _ h ?_
  intro s hs _ _
  refine List.foldlRecOn (motive := fun s : (ℕ → ℤ) × (ℕ → ℕ) => IsSelection s.2) _ _ hs ?_
  intro t ht i hi
  have hi3 := List.mem_range.1 hi
  split
  · exact ht.swap (by omega) (by omega)
  · exact ht

/-- A leaf cluster with a free block of the requested order or more, and more free pages than
the threshold. -/
def CanServe (heap : DqdtHeap) (homes : ℕ → DqdtHome) (req : PpmDqdtReq) (n : ℕ) : Prop :=
  (∃ i, req.order ≤ i ∧ i < Ppm.maxOrder ∧ ((ppmOf heap homes n).freePages i).pagesNr ≠ 0) ∧
    req.threshold < (ppmOf heap homes n).freePagesNr

def Serves (heap : DqdtHeap) (homes : ℕ → DqdtHome) (req : PpmDqdtReq) (n m : ℕ) : Prop :=
  Below heap n m ∧ (heap m).level = 0 ∧ CanServe heap homes req m

lemma any_orders (order : ℕ) (pages : ℕ → ℕ) :
    (List.range' order (Ppm.maxOrder - order)).any (fun i => pages i != 0) = true ↔
      ∃ i, order ≤ i ∧ i < Ppm.maxOrder ∧ pages i ≠ 0 := by
  rw [List.any_eq_true]
  constructor
  · rintro ⟨i, hi, hne⟩
    have := List.mem_range'_1.1 hi
    exact ⟨i, this.1, by omega, by simpa using hne⟩
  · rintro ⟨i, hle, hlt, hne⟩
    exact ⟨i, List.mem_range'_1.2 ⟨hle, by omega⟩, by simpa using hne⟩

lemma checkMemIndicators_iff :
    dqdtCheckMemIndicators entry attr = true ↔
      (∃ i, attr.data.order ≤ i ∧ i < Ppm.maxOrder ∧ entry.pagesTbl i ≠ 0) ∧
        attr.data.threshold < entry.M := by
  rw [dqdtCheckMemIndicators, Bool.and_eq_true, any_orders, decide_eq_true_iff]

lemma Counts.check (h : Counts heap homes entry n) (htree : Tree heap root)
    (hn : Below heap root n) (hm : Serves heap homes attr.data n m) :
    dqdtCheckMemIndicators entry attr = true := by
  obtain ⟨hb, hlevel, ⟨i, hle, hlt, hne⟩, hthreshold⟩ := hm
  have hmem := (htree.mem_leaves hn le_rfl).2 ⟨hb, hlevel⟩
  rw [checkMemIndicators_iff]
  constructor
  · refine ⟨i, hle, hlt, ?_⟩
    rw [h.pages i hlt]
    have := List.single_le_sum (by simp) _
      (List.mem_map_of_mem (f := fun m => ((ppmOf heap homes m).freePages i).pagesNr) hmem)
    omega
  · rw [h.M]
    have := List.single_le_sum (by simp) _
      (List.mem_map_of_mem (f := fun m => (ppmOf heap homes m).freePagesNr) hmem)
    omega

lemma memDoRequest_spec (heap : DqdtHeap) (homes : ℕ → DqdtHome) (n : ℕ) (attr : DqdtAttr)
    (k : ℕ) :
    (CanServe heap homes attr.data n ∧ dqdtMemDoRequest heap homes n attr k =
      (true, { attr with cluster := (heap n).home, cpu := none })) ∨
    (¬ CanServe heap homes attr.data n ∧ dqdtMemDoRequest heap homes n attr k = (false, attr)) := by
  have hserve : CanServe heap homes attr.data n ↔
      ((List.range' attr.data.order (Ppm.maxOrder - attr.data.order)).any
        (fun i => ((ppmOf heap homes n).freePages i).pagesNr != 0) &&
        decide (attr.data.threshold < (ppmOf heap homes n).freePagesNr)) = true := by
    rw [CanServe, Bool.and_eq_true, decide_eq_true_iff, any_orders attr.data.order
      (fun i => ((ppmOf heap homes n).freePages i).pagesNr)]
  rw [hserve, dqdtMemDoRequest]
  split
  · rename_i h
    exact .inl ⟨h, rfl⟩
  · rename_i h
    exact .inr ⟨h, rfl⟩

/-- The sort fails when no child but the excluded one passes the test; else it leaves the
children in some order. -/
lemma sortByMD_spec (heap : DqdtHeap) (homes : ℕ → DqdtHome) (rand n : ℕ) (attr : DqdtAttr)
    (index : ℕ) :
    (∃ select, dqdtSortByMD heap homes rand n attr index =
        (true, { attr with selectTbl := select }) ∧ IsSelection select) ∨
    (dqdtSortByMD heap homes rand n attr index = (false, { attr with selectTbl := id }) ∧
      ∀ j < 4, ∀ c, (heap n).children j = some c → j ≠ index →
        dqdtCheckMemIndicators ((heap n).info.tbl j) attr = false) := by
  rw [dqdtSortByMD, dqdtSortByMDAt]
  split
  · exact .inl ⟨_, rfl, isSelection_secondary _ _ (isSelection_primary _ isSelection_id)⟩
  · rename_i hany
    refine .inr ⟨rfl, ?_⟩
    intro j hj c hchild hne
    by_contra hcheck
    refine hany (List.any_eq_true.2 ⟨j, List.mem_range.2 hj, ?_⟩)
    simp [excluded, hchild, hne, Bool.eq_true_of_not_eq_false hcheck]

/-! ### Searches and what they answer -/

section finds
variable {keeps : DqdtAttr → Prop} {gives : ℕ → DqdtAttr → Prop}

/-- A search ends, keeps what its tests need, and answers whether a cluster wanted exists; then what it
writes is given by one of them. -/
def Finds (keeps : DqdtAttr → Prop) (gives : ℕ → DqdtAttr → Prop) (wanted : ℕ → Prop)
    (result : Option (Bool × DqdtAttr)) : Prop :=
  ∃ done attr, result = some (done, attr) ∧ keeps attr ∧
    (done = true → ∃ m, wanted m ∧ gives m attr) ∧ (done = false → ∀ m, ¬ wanted m)

lemma Finds.congr {p q : ℕ → Prop} {result : Option (Bool × DqdtAttr)} (h : Finds keeps gives p result)
    (hpq : ∀ m, p m ↔ q m) : Finds keeps gives q result := by
  rwa [funext fun m => propext (hpq m)] at h

lemma finds_false {p : ℕ → Prop} {attr : DqdtAttr} (hkeeps : keeps attr) (h : ∀ m, ¬ p m) :
    Finds keeps gives p (some (false, attr)) :=
  ⟨false, attr, rfl, hkeeps, fun hf => absurd hf Bool.false_ne_true, fun _ => h⟩

def Beside (heap : DqdtHeap) (wanted : ℕ → ℕ → Prop) (n index j m : ℕ) : Prop :=
  ∃ c, (heap n).children j = some c ∧ j ≠ index ∧ wanted c m

/-- The loop over the children finds what the searches below those that pass find. -/
lemma childLoop_finds {down : ℕ → DqdtAttr → Option (Bool × DqdtAttr)} {select : DqdtSelect}
    {selectTbl : ℕ → ℕ} {n index : ℕ} {attr : DqdtAttr} (wanted : ℕ → ℕ → Prop) (is : List ℕ)
    (hselect : ∀ i ∈ is, ∀ c, (heap n).children (selectTbl i) = some c → ∀ attr, keeps attr →
      keeps (select c attr (selectTbl i)).2 ∧
      ((select c attr (selectTbl i)).1 = true →
        Finds keeps gives (wanted c) (down c (select c attr (selectTbl i)).2)) ∧
      ((select c attr (selectTbl i)).1 = false → ∀ m, ¬ wanted c m))
    (hkeeps : keeps attr) :
    Finds keeps gives (fun m => ∃ i ∈ is, Beside heap wanted n index (selectTbl i) m)
      (childLoop heap down select n index selectTbl is attr) := by
  induction is generalizing attr with
  | nil => exact finds_false hkeeps (by simp)
  | cons i rest ih =>
    have htail : ∀ attr, keeps attr → (∀ m, ¬ Beside heap wanted n index (selectTbl i) m) →
        Finds keeps gives (fun m => ∃ k ∈ i :: rest, Beside heap wanted n index (selectTbl k) m)
          (childLoop heap down select n index selectTbl rest attr) := by
      intro attr hkeeps hnone
      refine (ih (fun k hk => hselect k (List.mem_cons_of_mem _ hk)) hkeeps).congr fun m => ?_
      simp [hnone]
    rw [childLoop]
    cases hchild : (heap n).children (selectTbl i) with
    | none =>
      refine htail attr hkeeps ?_
      rintro m ⟨c, hc, -⟩
      simp [hchild] at hc
    | some c =>
      have hsame : ∀ {c'}, (heap n).children (selectTbl i) = some c' → c' = c :=
        fun h => Option.some.inj (h.symm.trans hchild)
      simp only
      by_cases hindex : selectTbl i = index
      · rw [if_pos hindex]
        refine htail attr hkeeps ?_
        rintro m ⟨c', -, hne, -⟩
        exact hne hindex
      · rw [if_neg hindex]
        obtain ⟨hkeeps', hpassed, hpruned⟩ := hselect i List.mem_cons_self c hchild attr hkeeps
        rcases hsel : select c attr (selectTbl i) with ⟨found, attr'⟩
        rw [hsel] at hkeeps' hpassed hpruned
        cases found with
        | false =>
          refine htail attr' hkeeps' ?_
          rintro m ⟨c', hc', -, hwanted⟩
          exact hpruned rfl m (hsame hc' ▸ hwanted)
        | true =>
          obtain ⟨done, attr'', hresult, hkeeps'', htrue, hfalse⟩ := hpassed rfl
          simp only at hresult
          simp only [hresult]
          cases done with
          | false =>
            refine htail attr'' hkeeps'' ?_
            rintro m ⟨c', hc', -, hwanted⟩
            exact hfalse rfl m (hsame hc' ▸ hwanted)
          | true =>
            obtain ⟨m, hwanted, hgives⟩ := htrue rfl
            refine ⟨true, attr'', rfl, hkeeps'', fun _ => ⟨m, ?_, hgives⟩, fun hf => ?_⟩
            · exact ⟨i, List.mem_cons_self, c, hchild, hindex, hwanted⟩
            · exact absurd hf.symm Bool.false_ne_true

end finds

/-- A search ends, and answers whether one of the leaves wanted exists; then the cluster it
gives is one of them. -/
def Answers (heap : DqdtHeap) (req : PpmDqdtReq) (wanted : ℕ → Prop)
    (result : Option (Bool × DqdtAttr)) : Prop :=
  ∃ done attr, result = some (done, attr) ∧ attr.data = req ∧
    (done = true → ∃ m, wanted m ∧ attr.cluster = (heap m).home) ∧
    (done = false → ∀ m, ¬ wanted m)

lemma Answers.congr {p q : ℕ → Prop} {result : Option (Bool × DqdtAttr)}
    (h : Answers heap req p result) (hpq : ∀ m, p m ↔ q m) : Answers heap req q result := by
  rwa [funext fun m => propext (hpq m)] at h

lemma answers_false {p : ℕ → Prop} (hdata : attr.data = req) (h : ∀ m, ¬ p m) :
    Answers heap req p (some (false, attr)) :=
  ⟨false, attr, rfl, hdata, fun hf => absurd hf Bool.false_ne_true, fun _ => h⟩

def ServesBeside (heap : DqdtHeap) (homes : ℕ → DqdtHome) (req : PpmDqdtReq) (n index j m : ℕ) :
    Prop :=
  ∃ c, (heap n).children j = some c ∧ j ≠ index ∧ Serves heap homes req c m

lemma childLoop_answers (homes : ℕ → DqdtHome)
    {down : ℕ → DqdtAttr → Option (Bool × DqdtAttr)} {select : DqdtSelect}
    {selectTbl : ℕ → ℕ} (is : List ℕ)
    (hdown : ∀ i ∈ is, ∀ c, (heap n).children (selectTbl i) = some c → ∀ attr : DqdtAttr,
      attr.data = req → Answers heap req (Serves heap homes req c) (down c attr))
    (hselect : ∀ i ∈ is, ∀ c, (heap n).children (selectTbl i) = some c → ∀ attr : DqdtAttr,
      attr.data = req → (select c attr (selectTbl i)).2 = attr ∧
        ((select c attr (selectTbl i)).1 = false → ∀ m, ¬ Serves heap homes req c m))
    (hdata : attr.data = req) :
    Answers heap req (fun m => ∃ i ∈ is, ServesBeside heap homes req n index (selectTbl i) m)
      (childLoop heap down select n index selectTbl is attr) := by
  refine childLoop_finds _ is (fun i hi c hchild attr hdata => ?_) hdata
  obtain ⟨hattr, hpruned⟩ := hselect i hi c hchild attr hdata
  rw [hattr]
  exact ⟨hdata, fun _ => hdown i hi c hchild attr hdata, hpruned⟩

/-- The leaves the search below a cluster looks at: the cluster itself, or those below its
children other than the excluded one. -/
def Explored (heap : DqdtHeap) (homes : ℕ → DqdtHome) (req : PpmDqdtReq) (n index m : ℕ) : Prop :=
  ((heap n).level = 0 ∧ m = n ∧ CanServe heap homes req m) ∨
    ∃ j < 4, ServesBeside heap homes req n index j m

lemma serves_iff (index : ℕ) :
    Serves heap homes req n m ↔ Explored heap homes req n index m ∨
      ∃ c, index < 4 ∧ (heap n).children index = some c ∧ Serves heap homes req c m := by
  constructor
  · rintro ⟨hb, hlevel, hserve⟩
    rcases Relation.ReflTransGen.cases_head hb with rfl | ⟨c, ⟨j, hj, hchild⟩, hbc⟩
    · exact .inl (.inl ⟨hlevel, rfl, hserve⟩)
    · by_cases hne : j = index
      · subst hne
        exact .inr ⟨c, hj, hchild, hbc, hlevel, hserve⟩
      · exact .inl (.inr ⟨j, hj, c, hchild, hne, hbc, hlevel, hserve⟩)
  · rintro ((⟨hlevel, rfl, hserve⟩ | ⟨j, hj, c, hchild, -, hbc, hlevel, hserve⟩) |
      ⟨c, hj, hchild, hbc, hlevel, hserve⟩)
    · exact ⟨.refl, hlevel, hserve⟩
    · exact ⟨.head ⟨j, hj, hchild⟩ hbc, hlevel, hserve⟩
    · exact ⟨.head ⟨index, hj, hchild⟩ hbc, hlevel, hserve⟩

/-- Below a cluster the search is exact: the sums prune no subtree with a leaf that can
serve. -/
lemma downTraversal_answers (htree : Tree heap root) (hexact : Exact heap homes root)
    (hn : Below heap root n) (hfuel : (heap n).level < fuel) (hdata : attr.data = req) :
    Answers heap req (Explored heap homes req n index)
      (dqdtDownTraversal heap (dqdtSortByMD heap homes rand) (dqdtSelectByM heap)
        (dqdtMemDoRequest heap homes) fuel n attr index) := by
  induction fuel generalizing n attr index with
  | zero => omega
  | succ fuel ih =>
    rw [dqdtDownTraversal]
    by_cases hlevel : (heap n).level = 0
    · rw [if_pos hlevel]
      have hleaf : ∀ m, Explored heap homes req n index m ↔
          m = n ∧ CanServe heap homes req m := by
        intro m
        constructor
        · rintro (⟨-, hm⟩ | ⟨j, hj, c, hchild, -⟩)
          · exact hm
          · have := htree.child_lt hn hj hchild
            omega
        · exact fun hm => .inl ⟨hlevel, hm⟩
      refine Answers.congr ?_ fun m => (hleaf m).symm
      rcases memDoRequest_spec heap homes n attr noIndex with ⟨hserve, hresult⟩ | ⟨hserve, hresult⟩
      · rw [hresult]
        refine ⟨true, _, rfl, hdata, fun _ => ⟨n, ⟨rfl, hdata ▸ hserve⟩, rfl⟩, fun hf => ?_⟩
        exact absurd hf.symm Bool.false_ne_true
      · rw [hresult]
        refine answers_false hdata ?_
        rintro m ⟨rfl, hm⟩
        exact hserve (hdata ▸ hm)
    · rw [if_neg hlevel]
      rcases sortByMD_spec heap homes rand n attr index with ⟨select, hsort, hselection⟩ |
        ⟨hsort, hnone⟩
      · rw [hsort]
        have hbelow : ∀ i ∈ List.range 4, ∀ c, (heap n).children (select i) = some c →
            Below heap root c ∧ (heap c).level < fuel := by
          intro i hi c hchild
          have hlt := hselection.lt i (List.mem_range.1 hi)
          have := htree.child_lt hn hlt hchild
          exact ⟨hn.tail ⟨select i, hlt, hchild⟩, by omega⟩
        refine Answers.congr (childLoop_answers homes (List.range 4) ?_ ?_ hdata) ?_
        · intro i hi c hchild attr hdata
          obtain ⟨hc, hlt⟩ := hbelow i hi c hchild
          refine (ih hc hlt hdata).congr fun m => ?_
          rw [serves_iff 5]
          simp
        · intro i hi c hchild attr hdata
          obtain ⟨hc, -⟩ := hbelow i hi c hchild
          refine ⟨rfl, fun hfalse m hserves => ?_⟩
          have hcheck := (hexact c hc).1.check htree hc (hdata ▸ hserves)
          exact Bool.false_ne_true (hfalse.symm.trans hcheck)
        · intro m
          constructor
          · rintro ⟨i, hi, hserves⟩
            exact .inr ⟨select i, hselection.lt i (List.mem_range.1 hi), hserves⟩
          · rintro (⟨hzero, -⟩ | ⟨j, hj, hserves⟩)
            · exact absurd hzero hlevel
            · obtain ⟨i, hi, rfl⟩ := hselection.covers j hj
              exact ⟨i, List.mem_range.2 hi, hserves⟩
      · rw [hsort]
        refine answers_false hdata ?_
        rintro m (⟨hzero, -⟩ | ⟨j, hj, c, hchild, hne, hserves⟩)
        · exact hlevel hzero
        · have hcheck := ((hexact n hn).2 j hj c hchild).check htree (hn.tail ⟨j, hj, hchild⟩)
            (hdata ▸ hserves)
          rw [hnone j hj c hchild hne] at hcheck
          exact Bool.false_ne_true hcheck

def Climb (heap : DqdtHeap) (n p : ℕ) : Prop :=
  (heap n).childsNr ≠ 1 ∧ (heap n).parent = some p

/-- A request from the first cluster gets to the second. -/
abbrev Reaches (heap : DqdtHeap) : ℕ → ℕ → Prop :=
  Relation.ReflTransGen (Climb heap)

/-- A request ends, and succeeds just when one of the leaves wanted exists; then the cluster it
gives is one of them. -/
def Settles (heap : DqdtHeap) (wanted : ℕ → Prop)
    (result : Option (Option RequestErr × DqdtAttr)) : Prop :=
  ∃ err attr, result = some (err, attr) ∧ (err = none ↔ ∃ m, wanted m) ∧
    (err = none → ∃ m, wanted m ∧ attr.cluster = (heap m).home)

lemma settles_err {p : ℕ → Prop} (err : RequestErr) (h : ∀ m, ¬ p m) :
    Settles heap p (some (some err, attr)) := by
  refine ⟨some err, attr, rfl, ⟨fun hf => ?_, ?_⟩, fun hf => ?_⟩
  · exact absurd hf (by simp)
  · rintro ⟨m, hm⟩
    exact absurd hm (h m)
  · exact absurd hf (by simp)

lemma Settles.congr {p q : ℕ → Prop} {result : Option (Option RequestErr × DqdtAttr)}
    (h : Settles heap p result) (hpq : ∀ m, p m ↔ q m) : Settles heap q result := by
  rwa [funext fun m => propext (hpq m)] at h

/-- The climb takes a step for each level above the cluster, and each search below takes one for
each level under it. -/
lemma upTraversal_settles (htree : Tree heap root) (hexact : Exact heap homes root)
    (hn : Below heap root n) (hfuel : 2 * dqdtMaxDepth + 2 ≤ fuel + (heap n).level)
    (hdata : attr.data = req)
    (hexcluded : ∀ c, index < 4 → (heap n).children index = some c →
      ∀ m, ¬ Serves heap homes req c m) :
    Settles heap (fun m => ∃ top, Reaches heap n top ∧ Serves heap homes req top m)
      (dqdtUpTraversal heap (dqdtSelectByM heap) (dqdtSortByMD heap homes rand)
        (dqdtSelectByM heap) (dqdtMemDoRequest heap homes) dqdtMaxDepth fuel (some n) attr
        index) := by
  induction fuel generalizing n attr index with
  | zero =>
    have := htree.level_le hn
    simp only [dqdtMaxDepth] at hfuel this
    omega
  | succ fuel ih =>
    have hdepth := htree.level_le hn
    have hlt : (heap n).level < fuel := by
      simp only [dqdtMaxDepth] at hfuel hdepth
      omega
    have hexplored : ∀ m, Explored heap homes req n index m ↔ Serves heap homes req n m := by
      intro m
      rw [serves_iff index]
      constructor
      · exact .inl
      · rintro (hm | ⟨c, hlt, hchild, hserves⟩)
        · exact hm
        · exact absurd hserves (hexcluded c hlt hchild m)
    have hsearch : Answers heap req (Serves heap homes req n)
        (if dqdtCheckMemIndicators (heap n).info.summary attr then
          dqdtDownTraversal heap (dqdtSortByMD heap homes rand) (dqdtSelectByM heap)
            (dqdtMemDoRequest heap homes) fuel n attr index
        else some (false, attr)) := by
      split
      · exact (downTraversal_answers htree hexact hn hlt hdata).congr hexplored
      · rename_i hcheck
        refine answers_false hdata fun m hserves => ?_
        exact hcheck ((hexact n hn).1.check htree hn (hdata ▸ hserves))
    obtain ⟨done, attr', hresult, hdata', htrue, hfalse⟩ := hsearch
    have hselect : dqdtSelectByM heap n attr noIndex =
        (dqdtCheckMemIndicators (heap n).info.summary attr, attr) := rfl
    rw [dqdtUpTraversal, if_neg (by omega), hselect]
    simp only [hresult]
    cases done with
    | true =>
      obtain ⟨m, hserves, hcluster⟩ := htrue rfl
      have hm : ∃ top, Reaches heap n top ∧ Serves heap homes req top m := ⟨n, .refl, hserves⟩
      exact ⟨none, attr', rfl, ⟨fun _ => ⟨m, hm⟩, fun _ => rfl⟩, fun _ => ⟨m, hm, hcluster⟩⟩
    | false =>
      have hnone := hfalse rfl
      -- a cluster above is reached only through the parent
      have hstop : (∀ p, ¬ Climb heap n p) →
          ∀ m, ¬ ∃ top, Reaches heap n top ∧ Serves heap homes req top m := by
        rintro hclimb m ⟨top, hreach, hserves⟩
        rcases Relation.ReflTransGen.cases_head hreach with rfl | ⟨p, hp, -⟩
        · exact hnone m hserves
        · exact hclimb p hp
      simp only
      by_cases hone : (heap n).childsNr = 1
      · rw [if_pos hone]
        exact settles_err .eagain (hstop fun p hp => hp.1 hone)
      · rw [if_neg hone]
        by_cases hroot : n = root
        · subst hroot
          have hparent := htree.parent_root
          have hstopped := hstop fun p hp => by
            have hsome := hp.2
            rw [hparent] at hsome
            exact Option.some_ne_none p hsome.symm
          obtain ⟨left, rfl⟩ : ∃ left, fuel = left + 1 := ⟨fuel - 1, by omega⟩
          rw [hparent, dqdtUpTraversal]
          exact settles_err .eagain hstopped
        · obtain ⟨p, hparent, hp, hindex, hchild⟩ := htree.parent hn hroot
          have hlevel := htree.child_lt hp hindex hchild
          rw [hparent]
          refine (ih hp (by omega) hdata' ?_).congr fun m => ?_
          · intro c _ hc m hserves
            rw [hchild] at hc
            exact hnone m (Option.some.inj hc ▸ hserves)
          · constructor
            · rintro ⟨top, hreach, hserves⟩
              exact ⟨top, .head ⟨hone, hparent⟩ hreach, hserves⟩
            · rintro ⟨top, hreach, hserves⟩
              rcases Relation.ReflTransGen.cases_head hreach with rfl | ⟨q, hq, hreach⟩
              · exact absurd hserves (hnone m)
              · obtain rfl := Option.some.inj (hparent.symm.trans hq.2)
                exact ⟨top, hreach, hserves⟩

end DqdtMem
end Almos
