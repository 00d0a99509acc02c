import Almos.MapperPages
import Almos.RadixGang

/-!
# Contiguous pages of a mapper

`mapper_find_pages_contig` takes what the gang lookup gives from `start` on and keeps it as long as
the indexes follow one another; the slot after the last page kept is set to `NULL`.
-/
namespace Almos
open Radix

namespace Mapper
open Word

structure AddPage where
  page : ℕ
  index : ℕ
  allocs : List ℕ

def mapperStep (s : MapperState) (e : AddPage) : Option MapperState :=
  if (s.page e.page).mapper = none ∧ e.index < 2 ^ 32 then
    (s.addPage e.page e.index e.allocs).map Prod.fst
  else none

def mapperMachine : Machine MapperState AddPage where
  init s := (∃ heap, s.tree = radixTreeInit heap) ∧ s.map = fun _ => none
  step := mapperStep

/-- The loop of `mapper_find_pages_contig` from `i` on, over the pages found that are left. -/
def contigLoop (index : ℕ → ℕ) (nrPages : ℕ) : ℕ → List ℕ → ℕ
  | i, [] => i
  | i, page :: pages =>
      if index page = wadd nrPages i then contigLoop index nrPages (i + 1) pages else i

/-- What a call returns, the array `pages` after it and the slots written. -/
structure Found where
  ret : ℕ
  pages : ℕ → Option ℕ
  written : List ℕ

/-- `mapper_find_pages_contig`; `childOrder` and `fuel` are those of the lookup. -/
def mapperFindPagesContig (s : MapperState) (start nrPages : ℕ) (pages : ℕ → Option ℕ)
    (childOrder : ℕ → ℕ) (fuel : ℕ) : Option Found := do
  let found ← radixTreeGangLookup s.tree start nrPages childOrder fuel
  let pages := fun i => if i < found.length then found[i]? else pages i
  let i := contigLoop (fun page => (s.page page).index) nrPages 0 found
  return ⟨i, Function.update pages i none, List.range found.length ++ [i]⟩

variable {s t : MapperState} {m : ℕ → Option ℕ} {index : ℕ → ℕ}

/-- The index of each page is its key. -/
structure Keyed (s : MapperState) : Prop where
  index : ∀ k page, s.map k = some page → (s.page page).index = k ∧ (s.page page).mapper ≠ none
  small : ∀ k, 2 ^ 32 ≤ k → s.map k = none

lemma Keyed.step (h : Keyed s) {e : AddPage} (hstep : mapperStep s e = some t) : Keyed t := by
  unfold mapperStep at hstep
  split_ifs at hstep with hguard
  obtain ⟨⟨u, err⟩, hadd, rfl⟩ := Option.map_eq_some_iff.mp hstep
  obtain ⟨tree, -, hstate⟩ := MapperState.addPage_eq_some hadd
  by_cases herr : err = 0
  · rw [if_pos herr] at hstate
    subst hstate
    refine ⟨MapperState.withPage_index hguard.1 h.index, fun k hk => ?_⟩
    have hkey : k ≠ e.index := by omega
    exact (Function.update_of_ne hkey ..).trans (h.small k hk)
  · rw [if_neg herr] at hstate
    subst hstate
    exact ⟨h.index, h.small⟩

lemma keyed_reachable (hs : mapperMachine.Reachable s) : Keyed s := by
  refine hs.invariant (fun s hinit => ?_) fun s e t h hstep => h.step hstep
  have hnone : ∀ k, s.map k = none := fun k => by rw [hinit.2]
  refine ⟨fun k page hk => ?_, fun k _ => hnone k⟩
  rw [hnone k] at hk
  cases hk

/-- At most `limit` keys from `first` on, without a gap. -/
def Contig (m : ℕ → Option ℕ) (first limit : ℕ) : Set ℕ :=
  {n | n ≤ limit ∧ ∀ j < n, (m (first + j)).isSome}

lemma contig_none {first : ℕ} (h : m first = none) (limit : ℕ) :
    IsGreatest (Contig m first limit) 0 := by
  refine ⟨⟨Nat.zero_le _, by simp⟩, fun n hn => ?_⟩
  by_contra hpos
  have hfirst := hn.2 0 (by omega)
  rw [add_zero, h] at hfirst
  cases hfirst

lemma contig_succ {first limit r : ℕ} (h : (m first).isSome)
    (hr : IsGreatest (Contig m (first + 1) limit) r) :
    IsGreatest (Contig m first (limit + 1)) (r + 1) := by
  have hshift : ∀ j, m (first + (j + 1)) = m (first + 1 + j) := fun j => by rw [add_right_comm, add_assoc]
  refine ⟨⟨Nat.succ_le_succ hr.1.1, fun j hj => ?_⟩, fun n hn => ?_⟩
  · cases j with
    | zero => exact h
    | succ j =>
      rw [hshift]
      exact hr.1.2 j (Nat.lt_of_succ_lt_succ hj)
  · cases n with
    | zero => exact Nat.zero_le _
    | succ n =>
      refine Nat.succ_le_succ (hr.2 ⟨Nat.le_of_succ_le_succ hn.1, fun j hj => ?_⟩)
      rw [← hshift]
      exact hn.2 (j + 1) (Nat.succ_lt_succ hj)

lemma contigLoop_stop {nrPages i : ℕ} {l : List ℕ} (h : ∀ page ∈ l.head?, index page ≠ wadd nrPages i) :
    contigLoop index nrPages i l = i := by
  cases l with
  | nil => rfl
  | cons page pages => rw [contigLoop, if_neg (h page rfl)]

lemma contigLoop_run (hindex : ∀ k page, m k = some page → index page = k)
    (hsmall : ∀ k, 2 ^ 32 ≤ k → m k = none) (nrPages : ℕ) : ∀ len limit i,
    nrPages + i + len = 2 ^ 32 →
      ∃ r, contigLoop index nrPages i
          (((List.range' (nrPages + i) len).filterMap m).take limit) = i + r ∧
        IsGreatest (Contig m (nrPages + i) limit) r := by
  intro len
  induction len with
  | zero =>
    intro limit i hlen
    exact ⟨0, by simp [contigLoop], contig_none (hsmall _ (by omega)) limit⟩
  | succ len ih =>
    intro limit i hlen
    have hword : wadd nrPages i = nrPages + i := wadd_of_lt (by omega)
    rw [List.range'_succ]
    cases hfirst : m (nrPages + i) with
    | none =>
      rw [List.filterMap_cons_none hfirst]
      refine ⟨0, contigLoop_stop fun page hpage => ?_, contig_none hfirst limit⟩
      have hmem := List.mem_of_mem_take (List.mem_of_mem_head? hpage)
      obtain ⟨k, hk, hkey⟩ := List.mem_filterMap.mp hmem
      have hlow := (List.mem_range'_1.mp hk).1
      rw [hindex k page hkey, hword]
      omega
    | some page =>
      rw [List.filterMap_cons_some hfirst]
      cases limit with
      | zero => exact ⟨0, rfl, ⟨⟨le_rfl, by simp⟩, fun n hn => hn.1⟩⟩
      | succ limit =>
        obtain ⟨r, hloop, hr⟩ := ih limit (i + 1) (by omega)
        refine ⟨r + 1, ?_, contig_succ (by rw [hfirst]; rfl) hr⟩
        have hmatch : index page = wadd nrPages i := by rw [hindex _ page hfirst, hword]
        rw [List.take_succ_cons, contigLoop, if_pos hmatch, add_assoc, hloop]
        omega

lemma found_getElem? {j : ℕ} : ∀ {first len : ℕ}, j < len →
    (∀ i ≤ j, (m (first + i)).isSome) →
      ((List.range' first len).filterMap m)[j]? = m (first + j) := by
  induction j with
  | zero =>
    intro first len hlen hrun
    obtain ⟨len, rfl⟩ := Nat.exists_eq_succ_of_ne_zero hlen.ne'
    obtain ⟨page, hpage⟩ := Option.isSome_iff_exists.mp (hrun 0 le_rfl)
    rw [add_zero] at hpage ⊢
    rw [List.range'_succ, List.filterMap_cons_some hpage, List.getElem?_cons_zero, hpage]
  | succ j ih =>
    intro first len hlen hrun
    obtain ⟨len, rfl⟩ := Nat.exists_eq_succ_of_ne_zero (Nat.ne_of_gt (Nat.zero_lt_of_lt hlen))
    obtain ⟨page, hpage⟩ := Option.isSome_iff_exists.mp (hrun 0 (Nat.zero_le _))
    rw [add_zero] at hpage
    have hshift : ∀ i, first + 1 + i = first + (i + 1) := fun i => by omega
    rw [List.range'_succ, List.filterMap_cons_some hpage, List.getElem?_cons_succ,
      ih (by omega) fun i hi => by rw [hshift]; exact hrun (i + 1) (by omega), hshift]

/-- The longest run of at most `nrPages` pages from `start` on, in the first slots; no slot beyond
the last one is written. -/
structure ContigRun (m : ℕ → Option ℕ) (start nrPages : ℕ) (out : Found) : Prop where
  greatest : IsGreatest (Contig m start nrPages) out.ret
  pages : ∀ j < out.ret, out.pages j = m (start + j)
  inside : ∀ i ∈ out.written, i < nrPages

/-- The first key from `start` on. -/
def FirstFrom (m : ℕ → Option ℕ) (start k : ℕ) : Prop :=
  start ≤ k ∧ (m k).isSome ∧ ∀ j, start ≤ j → j < k → m j = none

/-- Either `start` is the number of pages and one of these is missing, or there is no page at `start`
and the first one after it does not have that number as its index. -/
def FindsRun (m : ℕ → Option ℕ) (start nrPages : ℕ) : Prop :=
  if start = nrPages then ∃ j < nrPages, m (start + j) = none
  else m start = none ∧ ¬FirstFrom m start nrPages

lemma filterMap_head {page : ℕ} : ∀ {len first : ℕ},
    ((List.range' first len).filterMap m).head? = some page →
      ∃ k, FirstFrom m first k ∧ m k = some page := by
  intro len
  induction len with
  | zero =>
    intro first h
    cases h
  | succ len ih =>
    intro first h
    rw [List.range'_succ] at h
    cases hfirst : m first with
    | some p =>
      rw [List.filterMap_cons_some hfirst, List.head?_cons, Option.some.injEq] at h
      exact ⟨first, ⟨le_rfl, by rw [hfirst]; rfl, by omega⟩, by rw [hfirst, h]⟩
    | none =>
      rw [List.filterMap_cons_none hfirst] at h
      obtain ⟨k, ⟨hle, hsome, hgap⟩, hkey⟩ := ih h
      refine ⟨k, ⟨by omega, hsome, fun j hj hlt => ?_⟩, hkey⟩
      obtain rfl | hlater := Nat.eq_or_lt_of_le hj
      · exact hfirst
      · exact hgap j hlater hlt

lemma FirstFrom.unique {start k k' : ℕ} (h : FirstFrom m start k) (h' : FirstFrom m start k') :
    k = k' := by
  by_contra hne
  obtain hlt | hlt := Nat.lt_or_gt_of_ne hne
  · have hnone := h'.2.2 k h.1 hlt
    have hsome := h.2.1
    rw [hnone] at hsome
    cases hsome
  · have hnone := h.2.2 k' h'.1 hlt
    have hsome := h'.2.1
    rw [hnone] at hsome
    cases hsome

lemma FirstFrom.at_start {start k : ℕ} (h : FirstFrom m start k) : m start = none ↔ k ≠ start := by
  constructor
  · rintro hnone rfl
    have hsome := h.2.1
    rw [hnone] at hsome
    cases hsome
  · intro hne
    have hle := h.1
    exact h.2.2 start le_rfl (by omega)

lemma slots_of_run {start nrPages r : ℕ} (hsmall : ∀ k, 2 ^ 32 ≤ k → m k = none)
    (hr : r ∈ Contig m start nrPages) (pages : ℕ → Option ℕ) {j : ℕ} (hj : j < r) :
    (if j < ((itemsFrom m start).take nrPages).length then
        ((itemsFrom m start).take nrPages)[j]? else pages j) = m (start + j) := by
  have hpresent := hr.2 j hj
  have hlt : start + j < 2 ^ 32 := by
    by_contra hge
    rw [hsmall _ (by omega)] at hpresent
    cases hpresent
  have hget : ((itemsFrom m start).take nrPages)[j]? = m (start + j) := by
    rw [List.getElem?_take_of_lt (hj.trans_le hr.1)]
    exact found_getElem? (by omega) fun i hi => hr.2 i (hi.trans_lt hj)
  obtain ⟨page, hpage⟩ := Option.isSome_iff_exists.mp hpresent
  have hlen : j < ((itemsFrom m start).take nrPages).length := by
    by_contra hge
    rw [List.getElem?_eq_none (Nat.not_lt.mp hge), hpage] at hget
    cases hget
  rw [if_pos hlen, hget]

lemma le_contigLoop {nrPages : ℕ} : ∀ (l : List ℕ) i, i ≤ contigLoop index nrPages i l := by
  intro l
  induction l with
  | nil => exact fun i => le_rfl
  | cons page pages ih =>
    intro i
    rw [contigLoop]
    split_ifs
    · exact (Nat.le_succ i).trans (ih (i + 1))
    · exact le_rfl

/-- What the call leaves, given the pages that the lookup found. -/
def kept (index : ℕ → ℕ) (nrPages : ℕ) (pages : ℕ → Option ℕ) (found : List ℕ) : Found :=
  ⟨contigLoop index nrPages 0 found,
    Function.update (fun i => if i < found.length then found[i]? else pages i)
      (contigLoop index nrPages 0 found) none,
    List.range found.length ++ [contigLoop index nrPages 0 found]⟩

section
variable {start nrPages : ℕ} (hsmall : ∀ k, 2 ^ 32 ≤ k → m k = none) (pages : ℕ → Option ℕ)
include hsmall

/-- A call that finds the run keeps inside the array if the run is not all of it. -/
lemma contigRun_of_greatest (hr : IsGreatest (Contig m start nrPages)
    (contigLoop index nrPages 0 ((itemsFrom m start).take nrPages))) :
    ContigRun m start nrPages (kept index nrPages pages ((itemsFrom m start).take nrPages)) ↔
      contigLoop index nrPages 0 ((itemsFrom m start).take nrPages) < nrPages := by
  constructor
  · intro hrun
    exact hrun.inside _ (List.mem_append_right _ (List.mem_singleton_self _))
  · intro hlt
    refine ⟨hr, fun j hj => ?_, fun i hi => ?_⟩
    · have hne : j ≠ contigLoop index nrPages 0 ((itemsFrom m start).take nrPages) :=
        Nat.ne_of_lt hj
      rw [← slots_of_run hsmall hr.1 pages hj]
      simp only [kept, Function.update_of_ne hne]
    · obtain hi | hi := List.mem_append.mp hi
      · exact (List.mem_range.mp hi).trans_le (List.length_take_le _ _)
      · rw [List.mem_singleton.mp hi]
        exact hlt

variable (hindex : ∀ k page, m k = some page → index page = k)
include hindex

lemma contigRun_at_nrPages (hword : nrPages < 2 ^ 32) :
    ContigRun m nrPages nrPages (kept index nrPages pages ((itemsFrom m nrPages).take nrPages)) ↔
      ∃ j < nrPages, m (nrPages + j) = none := by
  obtain ⟨r, hloop, hr⟩ := contigLoop_run hindex hsmall nrPages (2 ^ 32 - nrPages) nrPages 0
    (by omega)
  rw [add_zero, zero_add] at hloop
  rw [add_zero] at hr
  have hret : contigLoop index nrPages 0 ((itemsFrom m nrPages).take nrPages) = r := hloop
  rw [contigRun_of_greatest hsmall pages (by rw [hret]; exact hr), hret]
  constructor
  · intro hlt
    by_contra hall
    have hfull : nrPages ∈ Contig m nrPages nrPages := by
      refine ⟨le_rfl, fun j hj => Option.isSome_iff_ne_none.mpr fun hnone => ?_⟩
      exact hall ⟨j, hj, hnone⟩
    exact absurd (hr.2 hfull) (Nat.not_le.mpr hlt)
  · rintro ⟨j, hj, hnone⟩
    by_contra hge
    have hpresent := hr.1.2 j (hj.trans_le (Nat.not_lt.mp hge))
    rw [hnone] at hpresent
    cases hpresent

lemma contigRun_elsewhere (hpos : 1 ≤ nrPages) (hword : nrPages < 2 ^ 32) (hne : start ≠ nrPages) :
    ContigRun m start nrPages (kept index nrPages pages ((itemsFrom m start).take nrPages)) ↔
      m start = none ∧ ¬FirstFrom m start nrPages := by
  have hzero : wadd nrPages 0 = nrPages := wadd_of_lt hword
  obtain ⟨limit, rfl⟩ : ∃ limit, nrPages = limit + 1 := ⟨nrPages - 1, by omega⟩
  by_cases hfirst : FirstFrom m start (limit + 1)
  · -- the first page found has the index that the loop compares with
    refine iff_of_false (fun hrun => ?_) fun h => h.2 hfirst
    have hnone : m start = none := hfirst.at_start.mpr hne.symm
    have hret : contigLoop index (limit + 1) 0 ((itemsFrom m start).take (limit + 1)) = 0 :=
      hrun.greatest.unique (contig_none hnone _)
    obtain ⟨page, hpage⟩ := Option.isSome_iff_exists.mp hfirst.2.1
    have hmem : page ∈ itemsFrom m start :=
      List.mem_filterMap.mpr ⟨limit + 1, List.mem_range'_1.mpr ⟨hfirst.1, by omega⟩, hpage⟩
    cases hitems : itemsFrom m start with
    | nil =>
      rw [hitems] at hmem
      cases hmem
    | cons p rest =>
      have hhead : ((List.range' start (2 ^ 32 - start)).filterMap m).head? = some p := by
        change (itemsFrom m start).head? = some p
        rw [hitems]
        rfl
      obtain ⟨k, hk, hkey⟩ := filterMap_head hhead
      have hmatch : index p = wadd (limit + 1) 0 := by
        rw [hindex k p hkey, hzero, hk.unique hfirst]
      rw [hitems, List.take_succ_cons, contigLoop, if_pos hmatch] at hret
      have hle : 0 + 1 ≤ contigLoop index (limit + 1) (0 + 1) (rest.take limit) := le_contigLoop _ _
      omega
  · have hret : contigLoop index (limit + 1) 0 ((itemsFrom m start).take (limit + 1)) = 0 := by
      refine contigLoop_stop fun page hpage heq => hfirst ?_
      rw [List.head?_take, if_neg (Nat.succ_ne_zero limit)] at hpage
      obtain ⟨k, hk, hkey⟩ := filterMap_head hpage
      rw [hindex k page hkey, hzero] at heq
      rwa [← heq]
    refine Iff.trans ⟨fun hrun => ?_, fun hnone => ?_⟩ (and_iff_left hfirst).symm
    · by_contra hsome
      have hone : 1 ∈ Contig m start (limit + 1) := by
        refine ⟨by omega, fun j hj => ?_⟩
        rw [Nat.lt_one_iff.mp hj, add_zero]
        exact Option.isSome_iff_ne_none.mpr hsome
      have hle := hrun.greatest.2 hone
      rw [show (kept index (limit + 1) pages ((itemsFrom m start).take (limit + 1))).ret = 0 from
        hret] at hle
      omega
    · refine (contigRun_of_greatest hsmall pages ?_).mpr ?_
      · rw [hret]
        exact contig_none hnone _
      · rw [hret]
        exact Nat.succ_pos limit

end

/-- A call on a mapper filled with `mapper_add_page`, when the lookup gives the pages from `start` on
in the order of their keys: it gives the maximal run and stays inside the array exactly where `start`
is `nr_pages` and the run is shorter, or there is no page at `start` and the first one after it is
not the one with index `nr_pages`. -/
theorem mapper_find_pages_contig_run (s : MapperState) (hs : mapperMachine.Reachable s)
    (start nrPages : ℕ) (hpos : 1 ≤ nrPages) (hword : nrPages < 2 ^ 32)
    (pages : ℕ → Option ℕ) (childOrder : ℕ → ℕ) (fuel : ℕ)
    (hlookup : radixTreeGangLookup s.tree start nrPages childOrder fuel =
      some ((itemsFrom s.map start).take nrPages)) :
    ∃ out, mapperFindPagesContig s start nrPages pages childOrder fuel = some out ∧
      (ContigRun s.map start nrPages out ↔ FindsRun s.map start nrPages) := by
  have hkeyed := keyed_reachable hs
  refine ⟨kept (fun page => (s.page page).index) nrPages pages ((itemsFrom s.map start).take nrPages), ?_, ?_⟩
  · rw [mapperFindPagesContig, hlookup]
    rfl
  · by_cases heq : start = nrPages
    · subst heq
      rw [FindsRun, if_pos rfl]
      exact contigRun_at_nrPages hkeyed.small pages (fun k page hk => (hkeyed.index k page hk).1) hword
    · rw [FindsRun, if_neg heq]
      exact contigRun_elsewhere hkeyed.small pages (fun k page hk => (hkeyed.index k page hk).1) hpos hword heq

def twoPages (first : ℕ) : Option MapperState :=
  mapperMachine.run MapperState.fresh [⟨50, first, [0]⟩, ⟨60, first + 1, []⟩]

lemma twoPages_reachable {first : ℕ} (h : twoPages first = some s) : mapperMachine.Reachable s :=
  Machine.Reachable.run (.init ⟨⟨_, rfl⟩, rfl⟩) _ h

lemma itemsFrom_below {start bound : ℕ} (hle : start ≤ bound) (hbound : bound ≤ 2 ^ 32)
    (hnone : ∀ k, bound ≤ k → m k = none) :
    itemsFrom m start = (List.range' start (bound - start)).filterMap m := by
  have hsplit : List.range' start (2 ^ 32 - start) =
      List.range' start (bound - start) ++ List.range' bound (2 ^ 32 - bound) := by
    have happend := List.range'_append_1 (s := start) (m := bound - start) (n := 2 ^ 32 - bound)
    rw [Nat.add_sub_cancel' hle] at happend
    rw [happend]
    congr 1
    omega
  have hrest : (List.range' bound (2 ^ 32 - bound)).filterMap m = [] :=
    List.filterMap_eq_nil_iff.mpr fun k hk => hnone k (List.mem_range'_1.mp hk).1
  rw [itemsFrom, hsplit, List.filterMap_append, hrest, List.append_nil]

lemma twoPages_items {first start bound : ℕ} (hmap : s.map = Function.update
    (Function.update (fun _ => none) first (some 50)) (first + 1) (some 60)) (hle : start ≤ bound)
    (hbound : bound ≤ 2 ^ 32) (habove : first + 1 < bound) :
    itemsFrom s.map start = (List.range' start (bound - start)).filterMap s.map := by
  refine itemsFrom_below hle hbound fun k hk => ?_
  rw [hmap, Function.update_of_ne (by omega), Function.update_of_ne (by omega)]

/-- Three pages from the third on, of which there are two. -/
theorem mapper_find_pages_contig_third : ∃ s, twoPages 3 = some s ∧
    ∃ out, mapperFindPagesContig s 3 3 (fun _ => none) (fun _ => 0) 70 = some out ∧
      (ContigRun s.map 3 3 out ↔ FindsRun s.map 3 3) := by
  obtain ⟨s, hs, hmap, hlookup, hitems⟩ : ∃ s, twoPages 3 = some s ∧
      s.map = Function.update (Function.update (fun _ => none) 3 (some 50)) (3 + 1) (some 60) ∧
      radixTreeGangLookup s.tree 3 3 (fun _ => 0) 70 = some [50, 60] ∧
      (List.range' 3 (6 - 3)).filterMap s.map = [50, 60] :=
    ⟨_, rfl, rfl, by decide +kernel, by decide +kernel⟩
  refine ⟨s, hs, mapper_find_pages_contig_run s (twoPages_reachable hs) 3 3 (by decide) (by decide)
    (fun _ => none) (fun _ => 0) 70 ?_⟩
  rw [hlookup, twoPages_items hmap (by decide : 3 ≤ 6) (by decide) (by decide), hitems]
  rfl

/-- Both pages are there, and none is found. -/
theorem mapper_find_pages_contig_misses : ¬∀ s, mapperMachine.Reachable s →
    ∀ start nrPages pages childOrder fuel out, 1 ≤ nrPages →
      radixTreeGangLookup s.tree start nrPages childOrder fuel =
        some ((itemsFrom s.map start).take nrPages) →
      mapperFindPagesContig s start nrPages pages childOrder fuel = some out →
        ContigRun s.map start nrPages out := by
  intro h
  obtain ⟨s, hs, hmap, hlookup, hitems, hfind⟩ : ∃ s, twoPages 5 = some s ∧
      s.map = Function.update (Function.update (fun _ => none) 5 (some 50)) (5 + 1) (some 60) ∧
      radixTreeGangLookup s.tree 5 2 (fun _ => 0) 70 = some [50, 60] ∧
      (List.range' 5 (7 - 5)).filterMap s.map = [50, 60] ∧
      (mapperFindPagesContig s 5 2 (fun _ => none) (fun _ => 0) 70).map Found.ret = some 0 :=
    ⟨_, rfl, rfl, by decide +kernel, by decide +kernel, by decide +kernel⟩
  obtain ⟨out, hout, hret⟩ := Option.map_eq_some_iff.mp hfind
  have hrun := h s (twoPages_reachable hs) 5 2 _ _ _ out (by decide)
    (by rw [hlookup, twoPages_items hmap (by decide : 5 ≤ 7) (by decide) (by decide), hitems]; rfl)
    hout
  have hone : 1 ∈ Contig s.map 5 2 := by
    refine ⟨by decide, fun j hj => ?_⟩
    obtain rfl := Nat.lt_one_iff.mp hj
    rw [hmap]
    decide
  have hle := hrun.greatest.2 hone
  rw [hret] at hle
  exact absurd hle (by decide)

end Mapper
end Almos
