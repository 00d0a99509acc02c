import Mathlib.Data.List.Basic
import Mathlib.Logic.Relation
import Mathlib.Algebra.Order.BigOperators.Group.List
import Mathlib.Tactic.Linarith
import Almos.Ppm

namespace Almos

/-- `DQDT_MAX_DEPTH` -/
def dqdtMaxDepth : ℕ := 4

structure DqdtIndicators where
  T : ℤ
  U : ℕ
  M : ℕ
  pagesTbl : ℕ → ℕ

structure DqdtEstimation where
  summary : DqdtIndicators
  tbl : ℕ → DqdtIndicators

structure DqdtCluster where
  index : ℕ
  level : ℕ
  flags : ℕ
  childsNr : ℕ
  coresNr : ℕ
  info : DqdtEstimation
  home : Option ℕ
  parent : Option ℕ
  children : ℕ → Option ℕ

/-- The logical clusters by their addresses. -/
abbrev DqdtHeap := ℕ → DqdtCluster

structure DqdtHome where
  xCoord : ℤ
  yCoord : ℤ
  ppm : Ppm

namespace DqdtMem

variable {heap : DqdtHeap} {homes : ℕ → DqdtHome} {c fuel j m n root : ℕ}

def IsChild (heap : DqdtHeap) (n c : ℕ) : Prop :=
  ∃ j < 4, (heap n).children j = some c

/-- The second cluster is in the subtree of the first. -/
abbrev Below (heap : DqdtHeap) : ℕ → ℕ → Prop :=
  Relation.ReflTransGen (IsChild heap)

def IsLeaf (heap : DqdtHeap) (root n : ℕ) : Prop :=
  Below heap root n ∧ (heap n).level = 0

/-- The clusters above level zero have one to four children, all at lower levels, and each child
knows its slot and its parent. -/
structure Tree (heap : DqdtHeap) (root : ℕ) : Prop where
  depth : (heap root).level ≤ dqdtMaxDepth
  parent_root : (heap root).parent = none
  child_lt : ∀ {n j c}, Below heap root n → j < 4 → (heap n).children j = some c →
    (heap c).level < (heap n).level
  child_index : ∀ {n j c}, Below heap root n → j < 4 → (heap n).children j = some c →
    (heap c).index = j
  child_parent : ∀ {n j c}, Below heap root n → j < 4 → (heap n).children j = some c →
    (heap c).parent = some n
  has_child : ∀ {n}, Below heap root n → (heap n).level ≠ 0 → ∃ c, IsChild heap n c
  childs_nr : ∀ {n}, Below heap root n →
    (heap n).childsNr = (List.range 4).countP fun j => ((heap n).children j).isSome

lemma Tree.subtree (h : Tree heap root) (hn : Below heap root n) :
    (heap n).level ≤ (heap root).level := by
  induction hn with
  | refl => exact le_rfl
  | tail hb hc ih =>
    obtain ⟨j, hj, hchild⟩ := hc
    exact (h.child_lt hb hj hchild).le.trans ih

lemma Tree.level_le (h : Tree heap root) (hn : Below heap root n) :
    (heap n).level ≤ dqdtMaxDepth :=
  (h.subtree hn).trans h.depth

/-- A cluster other than the root hangs in the slot of its parent that its index names. -/
lemma Tree.parent (h : Tree heap root) (hn : Below heap root n) (hne : n ≠ root) :
    ∃ p, (heap n).parent = some p ∧ Below heap root p ∧ (heap n).index < 4 ∧
      (heap p).children (heap n).index = some n := by
  rcases Relation.ReflTransGen.cases_tail hn with heq | ⟨p, hb, j, hj, hchild⟩
  · exact absurd heq.symm hne.symm
  · have hindex := h.child_index hb hj hchild
    refine ⟨p, h.child_parent hb hj hchild, hb, ?_, ?_⟩
    · rw [hindex]
      exact hj
    · rw [hindex]
      exact hchild

lemma Tree.below_leaf (h : Tree heap root) (hn : Below heap root n) (hlevel : (heap n).level = 0)
    (hm : Below heap n m) : m = n := by
  rcases Relation.ReflTransGen.cases_head hm with heq | ⟨c, ⟨j, hj, hchild⟩, -⟩
  · exact heq.symm
  · have := h.child_lt hn hj hchild
    omega

def leaves (heap : DqdtHeap) : ℕ → ℕ → List ℕ
  | 0, n => [n]
  | fuel + 1, n =>
    if (heap n).level = 0 then [n]
    else (List.range 4).flatMap fun j => ((heap n).children j).elim [] (leaves heap fuel)

lemma Tree.mem_leaves (h : Tree heap root) (hn : Below heap root n)
    (hfuel : (heap n).level ≤ fuel) :
    m ∈ leaves heap fuel n ↔ Below heap n m ∧ (heap m).level = 0 := by
  induction fuel generalizing n with
  | zero =>
    have hzero : (heap n).level = 0 := by omega
    simp only [leaves, List.mem_singleton]
    constructor
    · rintro rfl
      exact ⟨.refl, hzero⟩
    · rintro ⟨hb, -⟩
      exact h.below_leaf hn hzero hb
  | succ fuel ih =>
    rw [leaves]
    by_cases hzero : (heap n).level = 0
    · rw [if_pos hzero, List.mem_singleton]
      constructor
      · rintro rfl
        exact ⟨.refl, hzero⟩
      · rintro ⟨hb, -⟩
        exact h.below_leaf hn hzero hb
    · rw [if_neg hzero, List.mem_flatMap]
      constructor
      · rintro ⟨j, hj, hmem⟩
        cases hchild : (heap n).children j with
        | none => simp [hchild] at hmem
        | some c =>
          have hj4 : j < 4 := List.mem_range.1 hj
          have hlt := h.child_lt hn hj4 hchild
          simp only [hchild, Option.elim_some] at hmem
          obtain ⟨hb, hm⟩ := (ih (hn.tail ⟨j, hj4, hchild⟩) (by omega)).1 hmem
          exact ⟨.head ⟨j, hj4, hchild⟩ hb, hm⟩
      · rintro ⟨hb, hm⟩
        rcases Relation.ReflTransGen.cases_head hb with rfl | ⟨c, ⟨j, hj, hchild⟩, hbc⟩
        · exact absurd hm hzero
        · have hlt := h.child_lt hn hj hchild
          refine ⟨j, List.mem_range.2 hj, ?_⟩
          simp only [hchild, Option.elim_some]
          exact (ih (hn.tail ⟨j, hj, hchild⟩) (by omega)).2 ⟨hbc, hm⟩

def ppmOf (heap : DqdtHeap) (homes : ℕ → DqdtHome) (n : ℕ) : Ppm :=
  (homes ((heap n).home.getD 0)).ppm

structure Counts (heap : DqdtHeap) (homes : ℕ → DqdtHome) (entry : DqdtIndicators) (n : ℕ) :
    Prop where
  M : entry.M =
    ((leaves heap (heap n).level n).map fun m => (ppmOf heap homes m).freePagesNr).sum
  pages : ∀ i < Ppm.maxOrder, entry.pagesTbl i =
    ((leaves heap (heap n).level n).map fun m => ((ppmOf heap homes m).freePages i).pagesNr).sum

/-- The indicators of every cluster, and those it keeps for its children, are exact sums. -/
def Exact (heap : DqdtHeap) (homes : ℕ → DqdtHome) (root : ℕ) : Prop :=
  ∀ n, Below heap root n → Counts heap homes (heap n).info.summary n ∧
    ∀ j < 4, ∀ c, (heap n).children j = some c → Counts heap homes ((heap n).info.tbl j) c

end DqdtMem
end Almos
