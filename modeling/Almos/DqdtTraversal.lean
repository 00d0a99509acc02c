import Almos.DqdtSorts

/-!
# Which clusters a traversal offers to its request

The tests of a traversal depend on the tree and not on what the request wrote so far. Then the traversal
tries the request at the clusters of level zero that lie behind passed tests.
-/
namespace Almos
namespace DqdtMem

/-- The path of a search below a cluster to one of level zero: every inner cluster passed the sort, and
every child the selection. -/
inductive Offered (heap : DqdtHeap) (sorts passes : ℕ → Prop) : ℕ → ℕ → ℕ → Prop
  | leaf {n index} (hlevel : (heap n).level = 0) : Offered heap sorts passes n index n
  | child {n index j c m} (hlevel : (heap n).level ≠ 0) (hsorts : sorts n) (hj : j < 4)
      (hchild : (heap n).children j = some c) (hne : j ≠ index) (hpasses : passes c)
      (hrest : Offered heap sorts passes c 5 m) : Offered heap sorts passes n index m

/-- The path of a traversal up from a cluster, and then below one it climbed to. -/
inductive OfferedUp (heap : DqdtHeap) (sorts passes : ℕ → Prop) (limit : ℕ) : ℕ → ℕ → ℕ → Prop
  | here {n index m} (hlevel : (heap n).level ≤ limit) (hpasses : passes n)
      (hrest : Offered heap sorts passes n index m) : OfferedUp heap sorts passes limit n index m
  | up {n index p m} (hlevel : (heap n).level ≤ limit) (hchilds : (heap n).childsNr ≠ 1)
      (hparent : (heap n).parent = some p)
      (hrest : OfferedUp heap sorts passes limit p (heap n).index m) :
      OfferedUp heap sorts passes limit n index m

section
variable {heap : DqdtHeap} {sorts passes : ℕ → Prop} {limit n index m root : ℕ}

lemma Offered.isLeaf (h : Offered heap sorts passes n index m) (hn : Below heap root n) :
    IsLeaf heap root m := by
  induction h with
  | leaf hlevel => exact ⟨hn, hlevel⟩
  | child _ _ hj hchild _ _ _ ih => exact ih (hn.tail ⟨_, hj, hchild⟩)

lemma OfferedUp.isLeaf (htree : Tree heap root) (h : OfferedUp heap sorts passes limit n index m)
    (hn : Below heap root n) : IsLeaf heap root m := by
  induction h with
  | here _ _ hrest => exact hrest.isLeaf hn
  | @up n _ p _ _ _ hparent _ ih =>
    refine ih ?_
    have hne : n ≠ root := by
      rintro rfl
      rw [htree.parent_root] at hparent
      exact Option.some_ne_none p hparent.symm
    obtain ⟨q, hq, hb, -⟩ := htree.parent hn hne
    rw [hparent] at hq
    rwa [Option.some.inj hq]

/-- A cluster that is offered passed the selection itself, unless the search starts there. -/
lemma Offered.of_passes (h : Offered heap sorts passes n index m) (hn : passes n) : passes m := by
  induction h with
  | leaf _ => exact hn
  | child _ _ _ _ _ hpasses _ ih => exact ih hpasses

lemma OfferedUp.of_passes (h : OfferedUp heap sorts passes limit n index m) : passes m := by
  induction h with
  | here _ hpasses hrest => exact hrest.of_passes hpasses
  | up _ _ _ _ ih => exact ih

end

section finds
variable {keeps : DqdtAttr → Prop} {gives : ℕ → DqdtAttr → Prop} {heap : DqdtHeap}

/-- The tests of a traversal and its request, as conditions on the clusters. -/
structure Tests (keeps : DqdtAttr → Prop) (gives : ℕ → DqdtAttr → Prop) (sort select request : DqdtSelect)
    (sorts passes serves : ℕ → Prop) : Prop where
  sort : ∀ n attr index, keeps attr → keeps (sort n attr index).2 ∧
    ((sort n attr index).1 = true ↔ sorts n) ∧
    ((sort n attr index).1 = true → IsSelection (sort n attr index).2.selectTbl)
  select : ∀ n attr index, keeps attr → keeps (select n attr index).2 ∧
    ((select n attr index).1 = true ↔ passes n)
  request : ∀ n attr index, keeps attr → keeps (request n attr index).2 ∧
    ((request n attr index).1 = true ↔ serves n) ∧
    ((request n attr index).1 = true → gives n (request n attr index).2)

variable {sort select request : DqdtSelect} {sorts passes serves : ℕ → Prop} {root fuel limit n index : ℕ}
  {attr : DqdtAttr}

lemma offered_leaf_iff (hlevel : (heap n).level = 0) (m : ℕ) :
    Offered heap sorts passes n index m ↔ m = n := by
  constructor
  · intro h
    cases h with
    | leaf _ => rfl
    | child hne => exact absurd hlevel hne
  · rintro rfl
    exact .leaf hlevel

lemma downTraversal_finds (htree : Tree heap root)
    (htests : Tests keeps gives sort select request sorts passes serves) (hn : Below heap root n)
    (hfuel : (heap n).level < fuel) (hkeeps : keeps attr) :
    Finds keeps gives (fun m => Offered heap sorts passes n index m ∧ serves m)
      (dqdtDownTraversal heap sort select request fuel n attr index) := by
  induction fuel generalizing n attr index with
  | zero => omega
  | succ fuel ih =>
    rw [dqdtDownTraversal]
    by_cases hlevel : (heap n).level = 0
    · rw [if_pos hlevel]
      obtain ⟨hkeeps', hserves, hgives⟩ := htests.request n attr noIndex hkeeps
      rcases hrequest : request n attr noIndex with ⟨done, attr'⟩
      rw [hrequest] at hkeeps' hserves hgives
      refine ⟨done, attr', rfl, hkeeps', fun hdone => ?_, fun hdone m hm => ?_⟩
      · exact ⟨n, ⟨.leaf hlevel, hserves.mp hdone⟩, hgives hdone⟩
      · obtain ⟨hoffered, hm⟩ := hm
        obtain rfl := (offered_leaf_iff hlevel m).mp hoffered
        exact Bool.false_ne_true (hdone.symm.trans (hserves.mpr hm))
    · rw [if_neg hlevel]
      obtain ⟨hkeeps', hsorts, hselection⟩ := htests.sort n attr index hkeeps
      rcases hsort : sort n attr index with ⟨found, attr'⟩
      rw [hsort] at hkeeps' hsorts hselection
      cases found with
      | false =>
        refine finds_false hkeeps' ?_
        rintro m ⟨hm, -⟩
        cases hm with
        | leaf hzero => exact hlevel hzero
        | child _ hs => exact Bool.false_ne_true (hsorts.mpr hs)
      | true =>
        have hselected := hselection rfl
        refine (childLoop_finds (fun c m => passes c ∧ Offered heap sorts passes c 5 m ∧ serves m)
          (List.range 4) ?_ hkeeps').congr fun m => ?_
        · intro i hi c hchild attr hkeeps
          have hlt := hselected.lt i (List.mem_range.mp hi)
          have hlower := htree.child_lt hn hlt hchild
          obtain ⟨hkeeps', hpasses⟩ := htests.select c attr (attr'.selectTbl i) hkeeps
          refine ⟨hkeeps', fun htrue => ?_, fun hfalse m hm => ?_⟩
          · refine (ih (hn.tail ⟨_, hlt, hchild⟩) (by omega) hkeeps').congr fun m => ?_
            simp [hpasses.mp htrue]
          · exact Bool.false_ne_true (hfalse.symm.trans (hpasses.mpr hm.1))
        · constructor
          · rintro ⟨i, hi, c, hchild, hne, hpasses, hoffered, hserves⟩
            have hlt := hselected.lt i (List.mem_range.mp hi)
            exact ⟨.child hlevel (hsorts.mp rfl) hlt hchild hne hpasses hoffered, hserves⟩
          · rintro ⟨hoffered, hserves⟩
            cases hoffered with
            | leaf hzero => exact absurd hzero hlevel
            | child _ _ hj hchild hne hpasses hrest =>
              obtain ⟨i, hi, rfl⟩ := hselected.covers _ hj
              exact ⟨i, List.mem_range.mpr hi, _, hchild, hne, hpasses, hrest, hserves⟩

/-- A traversal ends, and succeeds just when a cluster wanted exists; then what it writes is given by one
of them. -/
def Ends (gives : ℕ → DqdtAttr → Prop) (wanted : ℕ → Prop)
    (result : Option (Option RequestErr × DqdtAttr)) : Prop :=
  ∃ err attr, result = some (err, attr) ∧ (err = none → ∃ m, wanted m ∧ gives m attr) ∧
    (err ≠ none → ∀ m, ¬ wanted m)

lemma ends_err {p : ℕ → Prop} (err : RequestErr) (h : ∀ m, ¬ p m) :
    Ends gives p (some (some err, attr)) :=
  ⟨some err, attr, rfl, fun hf => absurd hf (Option.some_ne_none err), fun _ => h⟩

/-- The climb takes a step for each level above the cluster, and each search below takes one for each
level under it. -/
lemma upTraversal_ends (htree : Tree heap root)
    (htests : Tests keeps gives sort select request sorts passes serves) (hn : Below heap root n)
    (hfuel : 2 * dqdtMaxDepth + 2 ≤ fuel + (heap n).level) (hkeeps : keeps attr) :
    Ends gives (fun m => OfferedUp heap sorts passes limit n index m ∧ serves m)
      (dqdtUpTraversal heap select sort select request limit fuel (some n) attr index) := by
  induction fuel generalizing n attr index with
  | zero =>
    have := htree.level_le hn
    simp only [dqdtMaxDepth] at hfuel this
    omega
  | succ fuel ih =>
    have hdepth := htree.level_le hn
    have hlower : (heap n).level < fuel := by
      simp only [dqdtMaxDepth] at hfuel hdepth
      omega
    rw [dqdtUpTraversal]
    by_cases hlimit : limit < (heap n).level
    · rw [if_pos hlimit]
      refine ends_err .erange ?_
      rintro m ⟨hm, -⟩
      cases hm with
      | here hle => exact absurd hlimit hle.not_gt
      | up hle => exact absurd hlimit hle.not_gt
    · rw [if_neg hlimit]
      have hle : (heap n).level ≤ limit := not_lt.mp hlimit
      obtain ⟨hkeeps', hpasses⟩ := htests.select n attr noIndex hkeeps
      rcases hselect : select n attr noIndex with ⟨found, attr'⟩
      rw [hselect] at hkeeps' hpasses
      have hsearch : Finds keeps gives
          (fun m => passes n ∧ Offered heap sorts passes n index m ∧ serves m)
          (if found then dqdtDownTraversal heap sort select request fuel n attr' index
            else some (false, attr')) := by
        cases found with
        | true =>
          rw [if_pos rfl]
          refine (downTraversal_finds htree htests hn hlower hkeeps').congr fun m => ?_
          simp [hpasses.mp rfl]
        | false =>
          rw [if_neg Bool.false_ne_true]
          exact finds_false hkeeps' fun m hm => Bool.false_ne_true (hpasses.mpr hm.1)
      obtain ⟨done, attr'', hresult, hkeeps'', htrue, hfalse⟩ := hsearch
      simp only [hresult]
      cases done with
      | true =>
        obtain ⟨m, ⟨hp, hoffered, hserves⟩, hgives⟩ := htrue rfl
        exact ⟨none, attr'', rfl, fun _ => ⟨m, ⟨.here hle hp hoffered, hserves⟩, hgives⟩,
          fun hf => absurd rfl hf⟩
      | false =>
        have hnone := hfalse rfl
        -- what is left to find lies above
        have hstop : (∀ p, (heap n).childsNr ≠ 1 → (heap n).parent ≠ some p) →
            ∀ m, ¬ (OfferedUp heap sorts passes limit n index m ∧ serves m) := by
          rintro hclimb m ⟨hm, hserves⟩
          cases hm with
          | here _ hp hrest => exact hnone m ⟨hp, hrest, hserves⟩
          | up _ hchilds hparent => exact hclimb _ hchilds hparent
        simp only
        by_cases hone : (heap n).childsNr = 1
        · rw [if_pos hone]
          exact ends_err .eagain (hstop fun p hchilds => absurd hone hchilds)
        · rw [if_neg hone]
          by_cases hroot : n = root
          · subst hroot
            have hparent := htree.parent_root
            obtain ⟨left, rfl⟩ : ∃ left, fuel = left + 1 := ⟨fuel - 1, by omega⟩
            rw [hparent, dqdtUpTraversal]
            exact ends_err .eagain (hstop fun p _ hsome => by simp [hparent] at hsome)
          · obtain ⟨p, hparent, hp, hindex, hchild⟩ := htree.parent hn hroot
            have hlevel := htree.child_lt hp hindex hchild
            rw [hparent]
            obtain ⟨err, attr₃, hup, hfound, hfailed⟩ := @ih p (heap n).index _ hp
              (by omega) hkeeps''
            refine ⟨err, attr₃, hup, fun herr => ?_, fun herr m hm => ?_⟩
            · obtain ⟨m, ⟨hoffered, hserves⟩, hgives⟩ := hfound herr
              exact ⟨m, ⟨.up hle hone hparent hoffered, hserves⟩, hgives⟩
            · obtain ⟨hm, hserves⟩ := hm
              cases hm with
              | here _ hp hrest => exact hnone m ⟨hp, hrest, hserves⟩
              | up _ _ hparent' hrest =>
                obtain rfl := Option.some.inj (hparent.symm.trans hparent')
                exact hfailed herr m ⟨hrest, hserves⟩

end finds
end DqdtMem
end Almos
