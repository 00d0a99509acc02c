import Almos.DqdtMemory

namespace Almos
namespace DqdtMem

variable {heap : DqdtHeap} {homes : ℕ → DqdtHome} {rand root n top fuel : ℕ}

lemma Tree.reaches (htree : Tree heap root) (hn : Below heap root n)
    (hreach : Reaches heap n top) : Below heap root top := by
  induction hreach with
  | refl => exact hn
  | tail _ hclimb ih =>
    rename_i b p _
    by_cases hroot : b = root
    · have hparent := hclimb.2
      rw [hroot, htree.parent_root] at hparent
      exact absurd hparent.symm (Option.some_ne_none p)
    · obtain ⟨q, hparent, hq, -⟩ := htree.parent ih hroot
      obtain rfl := Option.some.inj (hparent.symm.trans hclimb.2)
      exact hq

/-- A request for memory from a leaf succeeds just when some leaf can serve it, and then gives
such a cluster, if and only if no leaf can or one can below a cluster that the parents of the
origin lead to without passing a cluster with a single child. -/
theorem mem_request_complete (htree : Tree heap root) (hexact : Exact heap homes root)
    (horigin : IsLeaf heap root n) (attr : DqdtAttr) (hfuel : 2 * dqdtMaxDepth + 2 ≤ fuel) :
    Settles heap (fun m => IsLeaf heap root m ∧ CanServe heap homes attr.data m)
        (dqdtMemRequest heap homes rand fuel n attr) ↔
      ((∃ m, IsLeaf heap root m ∧ CanServe heap homes attr.data m) →
        ∃ top m, Reaches heap n top ∧ Serves heap homes attr.data top m) := by
  have hclimb : Settles heap (fun m => ∃ top, Reaches heap n top ∧
      Serves heap homes attr.data top m) (dqdtMemRequest heap homes rand fuel n attr) := by
    refine upTraversal_settles htree hexact horigin.1 (by omega) rfl fun c hlt hchild => ?_
    have hlevel := htree.child_lt horigin.1 hlt hchild
    have hzero := horigin.2
    omega
  have hleaf : ∀ m, (∃ top, Reaches heap n top ∧ Serves heap homes attr.data top m) →
      IsLeaf heap root m ∧ CanServe heap homes attr.data m := by
    rintro m ⟨top, hreach, hb, hlevel, hserve⟩
    exact ⟨⟨(htree.reaches horigin.1 hreach).trans hb, hlevel⟩, hserve⟩
  obtain ⟨err, attr', hresult, hiff, hcluster⟩ := hclimb
  constructor
  · rintro ⟨err', attr'', hresult', hiff', -⟩ hexists
    obtain ⟨rfl, rfl⟩ := Prod.mk.inj (Option.some.inj (hresult.symm.trans hresult'))
    obtain ⟨m, top, hreach, hserves⟩ := hiff.1 (hiff'.2 hexists)
    exact ⟨top, m, hreach, hserves⟩
  · intro hreachable
    refine ⟨err, attr', hresult, ⟨fun herr => ?_, fun hexists => ?_⟩, fun herr => ?_⟩
    · obtain ⟨m, hm⟩ := hiff.1 herr
      exact ⟨m, hleaf m hm⟩
    · obtain ⟨top, m, hreach, hserves⟩ := hreachable hexists
      exact hiff.2 ⟨m, top, hreach, hserves⟩
    · obtain ⟨m, hm, hhome⟩ := hcluster herr
      exact ⟨m, hleaf m hm, hhome⟩

/-! ### A cluster alone under its parent -/

def cell (index level childsNr : ℕ) (home : ℕ) (parent : Option ℕ) (children : ℕ → Option ℕ)
    (M : ℕ) (tblM : ℕ → ℕ) : DqdtCluster where
  index := index
  level := level
  flags := 3
  childsNr := childsNr
  coresNr := 0
  info := ⟨⟨0, 0, M, fun i => if i = 0 then M else 0⟩,
    fun j => ⟨0, 0, tblM j, fun i => if i = 0 then tblM j else 0⟩⟩
  home := some home
  parent := parent
  children := children

/-- Two clusters under the root: the first has a single leaf, the second two leaves, of which the
first has the only memory. -/
def lonelyHeap : DqdtHeap
  | 0 => cell 0 2 2 1 none (fun j => if j = 0 then some 1 else if j = 1 then some 2 else none) 1
      (fun j => if j = 1 then 1 else 0)
  | 1 => cell 0 1 1 0 (some 0) (fun j => if j = 0 then some 3 else none) 0 (fun _ => 0)
  | 2 => cell 1 1 2 1 (some 0) (fun j => if j = 0 then some 4 else if j = 1 then some 5 else none) 1
      (fun j => if j = 0 then 1 else 0)
  | 3 => cell 0 0 0 0 (some 1) (fun _ => none) 0 (fun _ => 0)
  | 4 => cell 0 0 0 1 (some 2) (fun _ => none) 1 (fun _ => 0)
  | _ => cell 1 0 0 0 (some 2) (fun _ => none) 0 (fun _ => 0)

def lonelyHomes (home : ℕ) : DqdtHome where
  xCoord := home
  yCoord := 0
  ppm := ⟨fun _ => Page.pageInit 0, fun i => ⟨[], if home = 1 ∧ i = 0 then 1 else 0⟩, 1,
    if home = 1 then 1 else 0⟩

def onePage : DqdtAttr := ⟨none, none, ⟨0, 0⟩, 0, .notset, id, 0⟩

lemma lonely_child {n j c : ℕ} (hn : n < 6) (hj : j < 4)
    (hchild : (lonelyHeap n).children j = some c) :
    c < 6 ∧ (lonelyHeap c).level < (lonelyHeap n).level ∧ (lonelyHeap c).index = j ∧
      (lonelyHeap c).parent = some n := by
  interval_cases n <;> interval_cases j <;>
    simp_all [lonelyHeap, cell] <;> subst hchild <;> decide

lemma lonely_below (hn : Below lonelyHeap 0 n) : n < 6 := by
  induction hn with
  | refl => decide
  | tail _ hchild ih =>
    obtain ⟨j, hj, hchild⟩ := hchild
    exact (lonely_child ih hj hchild).1

lemma lonely_tree : Tree lonelyHeap 0 := by
  refine ⟨by decide, rfl, ?_, ?_, ?_, ?_, ?_⟩
  · exact fun hn hj hchild => (lonely_child (lonely_below hn) hj hchild).2.1
  · exact fun hn hj hchild => (lonely_child (lonely_below hn) hj hchild).2.2.1
  · exact fun hn hj hchild => (lonely_child (lonely_below hn) hj hchild).2.2.2
  · intro n hn hlevel
    have hlt := lonely_below hn
    interval_cases n
    · exact ⟨1, 0, by decide, rfl⟩
    · exact ⟨3, 0, by decide, rfl⟩
    · exact ⟨4, 0, by decide, rfl⟩
    · exact absurd rfl hlevel
    · exact absurd rfl hlevel
    · exact absurd rfl hlevel
  · intro n hn
    have hlt := lonely_below hn
    interval_cases n <;> rfl

lemma lonely_exact : Exact lonelyHeap lonelyHomes 0 := by
  intro n hn
  have hlt := lonely_below hn
  have hsummary : ∀ n < 6, Counts lonelyHeap lonelyHomes (lonelyHeap n).info.summary n := by
    intro n hlt
    constructor
    · interval_cases n <;> rfl
    · intro i hi
      rw [Ppm.maxOrder] at hi
      interval_cases n <;> interval_cases i <;> rfl
  refine ⟨hsummary n hlt, fun j hj c hchild => ?_⟩
  have hc := (lonely_child hlt hj hchild).1
  have hentry : (lonelyHeap n).info.tbl j = (lonelyHeap c).info.summary := by
    interval_cases n <;> interval_cases j <;> interval_cases c <;>
      first | rfl | simp [lonelyHeap, cell] at hchild
  rw [hentry]
  exact hsummary c hc

/-- The request from the single leaf without memory gives up at its parent, which has no other
child. -/
theorem mem_request_gives_up :
    Tree lonelyHeap 0 ∧ Exact lonelyHeap lonelyHomes 0 ∧ IsLeaf lonelyHeap 0 3 ∧
      ¬ Settles lonelyHeap
        (fun m => IsLeaf lonelyHeap 0 m ∧ CanServe lonelyHeap lonelyHomes onePage.data m)
        (dqdtMemRequest lonelyHeap lonelyHomes 0 10 3 onePage) := by
  have hbelow : ∀ c ∈ [1, 2], Below lonelyHeap 0 c := by
    intro c hc
    fin_cases hc
    · exact .single ⟨0, by decide, rfl⟩
    · exact .single ⟨1, by decide, rfl⟩
  refine ⟨lonely_tree, lonely_exact, ⟨?_, rfl⟩, ?_⟩
  · exact (hbelow 1 (by simp)).tail ⟨0, by decide, rfl⟩
  · rintro ⟨err, attr, hresult, hiff, -⟩
    have hnone : err = none := by
      refine hiff.2 ⟨4, ⟨(hbelow 2 (by simp)).tail ⟨0, by decide, rfl⟩, rfl⟩, ?_⟩
      exact ⟨⟨0, le_rfl, by decide, by decide⟩, by decide⟩
    have hfails : (dqdtMemRequest lonelyHeap lonelyHomes 0 10 3 onePage).map Prod.fst =
        some (some .eagain) := by decide
    rw [hresult, hnone] at hfails
    simp at hfails

/-- The request from the other leaf without memory climbs to its parent and gets the memory beside. -/
theorem mem_request_complete_beside :
    Settles lonelyHeap
      (fun m => IsLeaf lonelyHeap 0 m ∧ CanServe lonelyHeap lonelyHomes onePage.data m)
      (dqdtMemRequest lonelyHeap lonelyHomes 0 10 5 onePage) ∧
    (dqdtMemRequest lonelyHeap lonelyHomes 0 10 5 onePage).map
      (fun r => (r.1, r.2.cluster)) = some (none, some 1) := by
  have hleaf : Below lonelyHeap 0 5 :=
    .tail (.single ⟨1, by decide, rfl⟩) ⟨1, by decide, rfl⟩
  refine ⟨(mem_request_complete lonely_tree lonely_exact ⟨hleaf, rfl⟩ onePage (by decide)).2 ?_,
    by decide⟩
  intro _
  exact ⟨2, 4, .single ⟨by decide, rfl⟩, .single ⟨0, by decide, rfl⟩, rfl,
    ⟨0, le_rfl, by decide, by decide⟩, by decide⟩

end DqdtMem
end Almos
