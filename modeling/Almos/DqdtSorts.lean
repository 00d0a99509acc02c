import Almos.DqdtMemory
import Almos.ExchangeSort

/-!
# The orders in which the children of a cluster are tried

The passes of each sort move several tables along with the keys. `distance i` is what
`arch_dqdt_distance` gives for the child in slot `i` when the sort asks for it.
-/
namespace Almos
namespace DqdtMem
open ExchangeSort

def dqdtMaxT : ℤ := 0x1000

def dqdtMaxU : ℤ := 0x1000

def dqdtBigT : ℤ := 0x04F0

/-- `DQDT_SELECT_LTCN` -/
def dqdtSelectLtcn : ℕ := 0x001

def asUint (t : ℤ) : ℕ := (t % 2 ^ 32).toNat

def asSint (u : ℕ) : ℤ := (u : ℤ).bmod (2 ^ 32)

def dqdtPrimaryTableSort2 (count : ℕ) (key aux1 : ℕ → ℤ) (aux2 : ℕ → ℕ) :
    (ℕ → ℤ) × (ℕ → ℤ) × (ℕ → ℕ) :=
  (List.range count).foldl (fun s i =>
    (List.range' (i + 1) (count - (i + 1))).foldl (fun (s : (ℕ → ℤ) × (ℕ → ℤ) × (ℕ → ℕ)) j =>
      if s.1 j < s.1 i then
        (swapEntries s.1 i j, swapEntries s.2.1 i j, swapEntries s.2.2 i j)
      else s) s) (key, aux1, aux2)

def dqdtPrimaryTableSort3 (count : ℕ) (key aux1 aux2 : ℕ → ℤ) (aux3 : ℕ → ℕ) :
    (ℕ → ℤ) × (ℕ → ℤ) × (ℕ → ℤ) × (ℕ → ℕ) :=
  (List.range count).foldl (fun s i =>
    (List.range' (i + 1) (count - (i + 1))).foldl
      (fun (s : (ℕ → ℤ) × (ℕ → ℤ) × (ℕ → ℤ) × (ℕ → ℕ)) j =>
        if s.1 j < s.1 i then
          (swapEntries s.1 i j, swapEntries s.2.1 i j, swapEntries s.2.2.1 i j,
            swapEntries s.2.2.2 i j)
        else s) s) (key, aux1, aux2, aux3)

def dqdtTertiaryTableSort (count : ℕ) (key1 key2 aux : ℕ → ℤ) (select : ℕ → ℕ) :
    (ℕ → ℤ) × (ℕ → ℕ) :=
  (List.range (count + 1)).foldl (fun s _ =>
    (List.range (count - 1)).foldl (fun (s : (ℕ → ℤ) × (ℕ → ℕ)) i =>
      if key1 i = key1 (i + 1) ∧ key2 i = key2 (i + 1) ∧ s.1 (i + 1) < s.1 i then
        (swapEntries s.1 i (i + 1), swapEntries s.2 i (i + 1)) else s) s) (aux, select)

section sorts
variable (heap : DqdtHeap) (distance : ℕ → ℤ)

def tooManyThreads (n : ℕ) (attr : DqdtAttr) : Bool :=
  attr.flags &&& dqdtSelectLtcn ≠ 0 ∧ (heap n).coresNr ≤ asUint (heap n).info.summary.T

def threadsOf (n i : ℕ) : ℤ := ((heap n).info.tbl i).T

def usageOf (n i : ℕ) : ℤ := asSint ((heap n).info.tbl i).U

def coresRank (n i : ℕ) : ℤ :=
  let cores : ℤ := ((heap n).coresNr / (heap n).childsNr : ℕ)
  let val := cores - ((heap n).info.tbl i).T
  if 0 < val then val else dqdtBigT + (0 - val)

def dqdtSortByUTD : DqdtSelect := fun logical attr childIndex =>
  let usageTbl := childTbl heap logical childIndex dqdtMaxU (usageOf heap logical)
  let distanceTbl := childTbl heap logical childIndex dqdtMaxD distance
  let threadsTbl := childTbl heap logical childIndex dqdtMaxT (threadsOf heap logical)
  let primary := dqdtPrimaryTableSort3 4 usageTbl threadsTbl distanceTbl id
  let secondary := dqdtSecondaryTableSort 4 primary.1 primary.2.1 primary.2.2.2
  let tertiary := dqdtTertiaryTableSort 4 primary.1 secondary.1 primary.2.2.1 secondary.2
  (true, { attr with selectTbl := tertiary.2 })

def dqdtSortByTD : DqdtSelect := fun logical attr childIndex =>
  if tooManyThreads heap logical attr then (false, attr)
  else
    let threadsTbl := childTbl heap logical childIndex dqdtMaxT (threadsOf heap logical)
    let distanceTbl := childTbl heap logical childIndex dqdtMaxD distance
    let primary := dqdtPrimaryTableSort2 4 threadsTbl distanceTbl id
    let secondary := dqdtSecondaryTableSort 4 primary.1 primary.2.1 primary.2.2
    (true, { attr with selectTbl := secondary.2 })

def dqdtSortByRTD : DqdtSelect := fun logical attr childIndex =>
  if tooManyThreads heap logical attr then (false, attr)
  else
    let threadsTbl := childTbl heap logical childIndex dqdtMaxT (coresRank heap logical)
    let distanceTbl := childTbl heap logical childIndex dqdtMaxD distance
    let primary := dqdtPrimaryTableSort2 4 threadsTbl distanceTbl id
    let secondary := dqdtSecondaryTableSort 4 primary.1 primary.2.1 primary.2.2
    (true, { attr with selectTbl := secondary.2 })

end sorts

/-! ### The passes as permutations of the places -/

lemma swapEntries_comp {α : Type} (t : ℕ → α) (σ : Equiv.Perm ℕ) (i j : ℕ) :
    swapEntries (t ∘ σ) i j = t ∘ ⇑(σ * Equiv.swap i j) := by
  funext k
  rw [swapEntries_apply]
  rfl

/-- Loops that exchange along with the keys are described by the permutation of the keys. -/
lemma foldl_selection {β : Type} (key : ℕ → ℤ) (count : ℕ) (f : Equiv.Perm ℕ → β)
    (step : β → ℕ → ℕ → β)
    (hstep : ∀ σ i j, step (f σ) i j = f (compareExchange key σ i j)) :
    (List.range count).foldl (fun s i =>
      (List.range' (i + 1) (count - (i + 1))).foldl (fun s j => step s i j) s) (f 1) =
      f (selectionPerm key count) := by
  refine List.foldl_hom f fun σ i => ?_
  exact List.foldl_hom f fun σ j => hstep σ i j

lemma primaryTableSort1_eq (count : ℕ) (key : ℕ → ℤ) (aux : ℕ → ℕ) :
    dqdtPrimaryTableSort1 count key aux =
      (key ∘ selectionPerm key count, aux ∘ selectionPerm key count) := by
  refine foldl_selection key count (fun σ => (key ∘ σ, aux ∘ σ))
    (fun s i j => if s.1 j < s.1 i then (swapEntries s.1 i j, swapEntries s.2 i j) else s)
    fun σ i j => ?_
  simp only [compareExchange, Function.comp_apply]
  split
  · simp only [swapEntries_comp]
  · rfl

lemma primaryTableSort2_eq (count : ℕ) (key aux1 : ℕ → ℤ) (aux2 : ℕ → ℕ) :
    dqdtPrimaryTableSort2 count key aux1 aux2 =
      (key ∘ selectionPerm key count, aux1 ∘ selectionPerm key count,
        aux2 ∘ selectionPerm key count) := by
  refine foldl_selection key count (fun σ => (key ∘ σ, aux1 ∘ σ, aux2 ∘ σ))
    (fun s i j => if s.1 j < s.1 i then
      (swapEntries s.1 i j, swapEntries s.2.1 i j, swapEntries s.2.2 i j) else s)
    fun σ i j => ?_
  simp only [compareExchange, Function.comp_apply]
  split
  · simp only [swapEntries_comp]
  · rfl

lemma primaryTableSort3_eq (count : ℕ) (key aux1 aux2 : ℕ → ℤ) (aux3 : ℕ → ℕ) :
    dqdtPrimaryTableSort3 count key aux1 aux2 aux3 =
      (key ∘ selectionPerm key count, aux1 ∘ selectionPerm key count,
        aux2 ∘ selectionPerm key count, aux3 ∘ selectionPerm key count) := by
  refine foldl_selection key count (fun σ => (key ∘ σ, aux1 ∘ σ, aux2 ∘ σ, aux3 ∘ σ))
    (fun s i j => if s.1 j < s.1 i then
      (swapEntries s.1 i j, swapEntries s.2.1 i j, swapEntries s.2.2.1 i j,
        swapEntries s.2.2.2 i j) else s)
    fun σ i j => ?_
  simp only [compareExchange, Function.comp_apply]
  split
  · simp only [swapEntries_comp]
  · rfl

def tieKey {κ : Type} (key : ℕ → κ) (aux : ℕ → ℤ) (k : ℕ) : κ ×ₗ ℤ := toLex (key k, aux k)

def tiePerm {κ : Type} [LinearOrder κ] (count : ℕ) (key : ℕ → κ) (aux : ℕ → ℤ) : Equiv.Perm ℕ :=
  bubblePerm (tieKey key aux) count (count + 1)

structure TieState {κ : Type} (key : ℕ → κ) (aux : ℕ → ℤ) (select : ℕ → ℕ)
    (s : (ℕ → ℤ) × (ℕ → ℕ)) (σ : Equiv.Perm ℕ) : Prop where
  tables : s = (aux ∘ σ, select ∘ σ)
  key : ∀ k, key (σ k) = key k

lemma TieState.step {κ : Type} [LinearOrder κ] {key : ℕ → κ} {aux : ℕ → ℤ} {select : ℕ → ℕ}
    {s : (ℕ → ℤ) × (ℕ → ℕ)} {σ : Equiv.Perm ℕ} (h : TieState key aux select s σ) {i : ℕ}
    (hkey : key i ≤ key (i + 1)) :
    TieState key aux select
      (if key i = key (i + 1) ∧ s.1 (i + 1) < s.1 i then
        (swapEntries s.1 i (i + 1), swapEntries s.2 i (i + 1)) else s)
      (compareExchange (tieKey key aux) σ i (i + 1)) := by
  obtain ⟨rfl, hsame⟩ := h
  have hiff : tieKey key aux (σ (i + 1)) < tieKey key aux (σ i) ↔
      key i = key (i + 1) ∧ aux (σ (i + 1)) < aux (σ i) := by
    unfold tieKey
    rw [Prod.Lex.toLex_lt_toLex, hsame, hsame]
    constructor
    · rintro (hlt | ⟨heq, hlt⟩)
      · exact absurd hlt hkey.not_gt
      · exact ⟨heq.symm, hlt⟩
    · rintro ⟨heq, hlt⟩
      exact .inr ⟨heq.symm, hlt⟩
  unfold compareExchange
  simp only [Function.comp_apply]
  by_cases htest : key i = key (i + 1) ∧ aux (σ (i + 1)) < aux (σ i)
  · rw [if_pos (hiff.mpr htest), if_pos htest]
    refine ⟨by simp only [swapEntries_comp], fun k => ?_⟩
    rw [Equiv.Perm.mul_apply, hsame, Equiv.swap_apply_def]
    split_ifs with hi hj
    · rw [hi, htest.1]
    · rw [hj, htest.1]
    · rfl
  · rw [if_neg fun hlt => htest (hiff.mp hlt), if_neg htest]
    exact ⟨rfl, hsame⟩

lemma foldl_ties {κ : Type} [LinearOrder κ] {count : ℕ} {key : ℕ → κ}
    (hkey : MonotoneOn key (Set.Iio count)) (aux : ℕ → ℤ) (select : ℕ → ℕ) :
    TieState key aux select
      ((List.range (count + 1)).foldl (fun s _ =>
        (List.range (count - 1)).foldl (fun (s : (ℕ → ℤ) × (ℕ → ℕ)) i =>
          if key i = key (i + 1) ∧ s.1 (i + 1) < s.1 i then
            (swapEntries s.1 i (i + 1), swapEntries s.2 i (i + 1)) else s) s) (aux, select))
      (tiePerm count key aux) := by
  refine List.foldl_rel (r := TieState key aux select) ⟨rfl, fun _ => rfl⟩ ?_
  intro _ _ s σ h
  refine List.foldl_rel (r := TieState key aux select) h ?_
  intro i hi s σ h
  have := List.mem_range.mp hi
  exact h.step (hkey (show i < count by omega) (show i + 1 < count by omega) (Nat.le_succ i))

lemma secondaryTableSort_eq {count : ℕ} {key : ℕ → ℤ} (hkey : MonotoneOn key (Set.Iio count))
    (aux : ℕ → ℤ) (select : ℕ → ℕ) :
    dqdtSecondaryTableSort count key aux select =
      (aux ∘ tiePerm count key aux, select ∘ tiePerm count key aux) :=
  (foldl_ties hkey aux select).tables

lemma tertiaryTableSort_eq {count : ℕ} {key1 key2 : ℕ → ℤ}
    (hkey : MonotoneOn (tieKey key1 key2) (Set.Iio count)) (aux : ℕ → ℤ) (select : ℕ → ℕ) :
    dqdtTertiaryTableSort count key1 key2 aux select =
      (aux ∘ tiePerm count (tieKey key1 key2) aux,
        select ∘ tiePerm count (tieKey key1 key2) aux) := by
  have hties := (foldl_ties hkey aux select).tables
  rw [← hties, dqdtTertiaryTableSort]
  have hpair : ∀ i, tieKey key1 key2 i = tieKey key1 key2 (i + 1) ↔
      key1 i = key1 (i + 1) ∧ key2 i = key2 (i + 1) := fun i => by
    simp [tieKey]
  simp only [hpair, and_assoc]

lemma tiePerm_key {κ : Type} [LinearOrder κ] {count : ℕ} {key : ℕ → κ}
    (hkey : MonotoneOn key (Set.Iio count)) (aux : ℕ → ℤ) (k : ℕ) :
    key (tiePerm count key aux k) = key k :=
  (foldl_ties hkey aux id).key k

def Eligible (heap : DqdtHeap) (n childIndex i : ℕ) : Prop :=
  (heap n).children i ≠ none ∧ i ≠ childIndex

structure SortsBy {κ : Type} [LinearOrder κ] (eligible : ℕ → Prop) (key : ℕ → κ)
    (select : ℕ → ℕ) : Prop where
  selection : IsSelection select
  le : ∀ k l, k < l → l < 4 → eligible (select k) → eligible (select l) →
    key (select k) ≤ key (select l)

def SortsChildren {κ : Type} [LinearOrder κ] (heap : DqdtHeap) (sort : DqdtSelect) (n : ℕ)
    (attr : DqdtAttr) (childIndex : ℕ) (key : ℕ → κ) : Prop :=
  ∀ attr', sort n attr childIndex = (true, attr') →
    SortsBy (Eligible heap n childIndex) key attr'.selectTbl

def TiesAgree (tie : ℕ → ℕ → Prop) (standing own : ℕ → ℤ) : Prop :=
  ∀ a < 4, ∀ b < 4, tie a b → toLex (standing a, a) < toLex (standing b, b) → own a ≤ own b

lemma tiesAgree_self (tie : ℕ → ℕ → Prop) (own : ℕ → ℤ) : TiesAgree tie own own := by
  intro a _ b _ _ hlt
  rw [Prod.Lex.toLex_lt_toLex] at hlt
  rcases hlt with hlt | ⟨heq, -⟩
  · exact hlt.le
  · exact heq.le

lemma IsSelection.comp {select : ℕ → ℕ} (h : IsSelection select) {σ : Equiv.Perm ℕ}
    (hσ : Fixes 4 σ) : IsSelection (select ∘ σ) := by
  refine ⟨fun i hi => h.lt _ (hσ.lt hi), fun j hj => ?_⟩
  obtain ⟨i, hi, rfl⟩ := h.covers j hj
  exact ⟨σ.symm i, hσ.symm.lt hi, congrArg select (σ.apply_symm_apply i)⟩

lemma isSelection_perm {σ : Equiv.Perm ℕ} (hσ : Fixes 4 σ) : IsSelection σ :=
  isSelection_id.comp hσ

lemma fixes_tiePerm {κ : Type} [LinearOrder κ] (count : ℕ) (key : ℕ → κ) (aux : ℕ → ℤ) :
    Fixes count (tiePerm count key aux) :=
  fixes_bubblePerm _ _ _

section ties
variable {κ : Type} [LinearOrder κ] {eligible : ℕ → Prop} {select : ℕ → ℕ} {key : ℕ → κ}

/-- The passes within equal keys order the children by their own distances if and only if the
distances that stand in the places agree with them. -/
lemma sortsBy_ties_iff (own : ℕ → κ) (standing distance : ℕ → ℤ) (hselect : IsSelection select)
    (hown : ∀ a < 4, eligible (select a) → key a = own (select a)) :
    SortsBy eligible (fun c => (toLex (own c, distance c) : κ ×ₗ ℤ))
        (select ∘ tiePerm 4 key standing) ↔
      TiesAgree (fun a b => eligible (select a) ∧ eligible (select b) ∧ own (select a) = own (select b))
        standing (distance ∘ select) := by
  set σ := tiePerm 4 key standing with hσ
  have hfix : Fixes 4 σ := fixes_tiePerm 4 key standing
  have hlt : ∀ {a b}, a < 4 → b < 4 → (σ.symm a < σ.symm b ↔
      toLex (tieKey key standing a, a) < toLex (tieKey key standing b, b)) := fun ha hb =>
    lt_iff_of_bubblePerm (tieKey key standing) (Nat.le_succ 4) ha hb
  constructor
  · rintro ⟨-, hle⟩ a ha b hb ⟨hea, heb, htie⟩ hstanding
    have hkey : key a = key b := by rw [hown a ha hea, hown b hb heb, htie]
    have hplaces : σ.symm a < σ.symm b := by
      rw [hlt ha hb, Prod.Lex.toLex_lt_toLex]
      rw [Prod.Lex.toLex_lt_toLex] at hstanding
      rcases hstanding with hstanding | ⟨heq, hab⟩
      · exact .inl (Prod.Lex.toLex_lt_toLex.mpr (.inr ⟨hkey, hstanding⟩))
      · exact .inr ⟨congrArg toLex (Prod.ext hkey heq), hab⟩
    have hchildren := hle _ _ hplaces (hfix.symm.lt hb)
    simp only [Function.comp_apply, Equiv.apply_symm_apply] at hchildren
    have hlex := hchildren hea heb
    rw [Prod.Lex.toLex_le_toLex, htie] at hlex
    rcases hlex with hlex | ⟨-, hlex⟩
    · exact absurd hlex (lt_irrefl _)
    · exact hlex
  · intro hagree
    refine ⟨hselect.comp hfix, fun k l hkl hl hek hel => ?_⟩
    have hk4 := hfix.lt (hkl.trans hl)
    have hl4 := hfix.lt hl
    have hplaces : σ.symm (σ k) < σ.symm (σ l) := by
      rwa [Equiv.symm_apply_apply, Equiv.symm_apply_apply]
    rw [hlt hk4 hl4, Prod.Lex.toLex_lt_toLex] at hplaces
    have hok := hown _ hk4 hek
    have hol := hown _ hl4 hel
    simp only [Function.comp_apply]
    rw [Prod.Lex.toLex_le_toLex]
    have hcases : key (σ k) < key (σ l) ∨ key (σ k) = key (σ l) ∧
        toLex (standing (σ k), σ k) < toLex (standing (σ l), σ l) := by
      rcases hplaces with hplaces | ⟨heq, hplaces⟩
      · rcases Prod.Lex.toLex_lt_toLex.mp hplaces with h | ⟨h, hs⟩
        · exact .inl h
        · exact .inr ⟨h, Prod.Lex.toLex_lt_toLex.mpr (.inl hs)⟩
      · have hpair := Prod.ext_iff.mp (toLex.injective heq)
        exact .inr ⟨hpair.1, Prod.Lex.toLex_lt_toLex.mpr (.inr ⟨hpair.2, hplaces⟩)⟩
    rcases hcases with h | ⟨heq, hstanding⟩
    · rw [hok, hol] at h
      exact .inl h
    · rw [hok, hol] at heq
      exact .inr ⟨heq, hagree _ hk4 _ hl4 ⟨hek, hel, heq⟩ hstanding⟩

end ties

variable {heap : DqdtHeap} {n childIndex i : ℕ} {most : ℤ} {value : ℕ → ℤ}

lemma excluded_eq_false (h : Eligible heap n childIndex i) : excluded heap n childIndex i = false := by
  obtain ⟨hchild, hne⟩ := h
  obtain ⟨c, hc⟩ := Option.ne_none_iff_exists'.mp hchild
  simp [excluded, hc, hne]

lemma childTbl_eligible (h : Eligible heap n childIndex i) :
    childTbl heap n childIndex most value i = value i := by
  rw [childTbl, excluded_eq_false h, if_neg Bool.false_ne_true]

lemma sortsBy_two (value distance : ℕ → ℤ) (most : ℤ) {primary : (ℕ → ℤ) × (ℕ → ℤ) × (ℕ → ℕ)}
    (hprimary : primary = dqdtPrimaryTableSort2 4 (childTbl heap n childIndex most value)
      (childTbl heap n childIndex dqdtMaxD distance) id) :
    SortsBy (Eligible heap n childIndex) (fun c => (toLex (value c, distance c) : ℤ ×ₗ ℤ))
      (dqdtSecondaryTableSort 4 primary.1 primary.2.1 primary.2.2).2 := by
  rw [hprimary, primaryTableSort2_eq]
  set σ := selectionPerm (childTbl heap n childIndex most value) 4 with hσ
  rw [secondaryTableSort_eq (monotoneOn_selectionPerm _ 4)]
  have hown : ∀ a < 4, Eligible heap n childIndex (σ a) →
      (childTbl heap n childIndex most value ∘ σ) a = value (σ a) := fun a _ ha => childTbl_eligible ha
  refine (sortsBy_ties_iff value _ distance (isSelection_perm (fixes_selectionPerm _ 4)) hown).mpr ?_
  intro a ha b hb htie hstanding
  simp only [Function.comp_apply] at hstanding
  rw [childTbl_eligible htie.1, childTbl_eligible htie.2.1] at hstanding
  exact tiesAgree_self (fun _ _ => True) (distance ∘ σ) a ha b hb trivial hstanding

lemma sortByTD_sorts (heap : DqdtHeap) (distance : ℕ → ℤ) (n : ℕ) (attr : DqdtAttr) (childIndex : ℕ) :
    SortsChildren heap (dqdtSortByTD heap distance) n attr childIndex
      (fun c => (toLex (threadsOf heap n c, distance c) : ℤ ×ₗ ℤ)) := by
  intro attr' h
  unfold dqdtSortByTD at h
  split at h
  · exact absurd (congrArg Prod.fst h) Bool.false_ne_true
  · obtain rfl := congrArg Prod.snd h
    exact sortsBy_two (threadsOf heap n) distance dqdtMaxT rfl

lemma sortByRTD_sorts (heap : DqdtHeap) (distance : ℕ → ℤ) (n : ℕ) (attr : DqdtAttr) (childIndex : ℕ) :
    SortsChildren heap (dqdtSortByRTD heap distance) n attr childIndex
      (fun c => (toLex (coresRank heap n c, distance c) : ℤ ×ₗ ℤ)) := by
  intro attr' h
  unfold dqdtSortByRTD at h
  split at h
  · exact absurd (congrArg Prod.fst h) Bool.false_ne_true
  · obtain rfl := congrArg Prod.snd h
    exact sortsBy_two (coresRank heap n) distance dqdtMaxT rfl

def usageOrder (heap : DqdtHeap) (n childIndex : ℕ) : ℕ → ℕ :=
  (dqdtPrimaryTableSort1 4 (childTbl heap n childIndex dqdtMaxU (usageOf heap n)) id).2

def usageThreadsOrder (heap : DqdtHeap) (n childIndex : ℕ) : ℕ → ℕ :=
  (dqdtSecondaryTableSort 4
    (childTbl heap n childIndex dqdtMaxU (usageOf heap n) ∘ usageOrder heap n childIndex)
    (childTbl heap n childIndex dqdtMaxT (threadsOf heap n) ∘ usageOrder heap n childIndex)
    (usageOrder heap n childIndex)).2

/-- Where two places of the order of usage and threads hold children that tie in both, the
distances of the children in these places of the order of usage agree with theirs. -/
def UsageTiesAgree (heap : DqdtHeap) (distance : ℕ → ℤ) (n childIndex : ℕ) : Prop :=
  let order := usageThreadsOrder heap n childIndex
  TiesAgree
    (fun a b => Eligible heap n childIndex (order a) ∧ Eligible heap n childIndex (order b) ∧
      usageOf heap n (order a) = usageOf heap n (order b) ∧
      threadsOf heap n (order a) = threadsOf heap n (order b))
    (childTbl heap n childIndex dqdtMaxD distance ∘ usageOrder heap n childIndex)
    (distance ∘ order)

lemma sortByUTD_sorts_iff (heap : DqdtHeap) (distance : ℕ → ℤ) (n : ℕ) (attr : DqdtAttr)
    (childIndex : ℕ) :
    SortsChildren heap (dqdtSortByUTD heap distance) n attr childIndex
      (fun c => (toLex (toLex (usageOf heap n c, threadsOf heap n c), distance c) : (ℤ ×ₗ ℤ) ×ₗ ℤ)) ↔
      UsageTiesAgree heap distance n childIndex := by
  set usage := childTbl heap n childIndex dqdtMaxU (usageOf heap n) with husage
  set threads := childTbl heap n childIndex dqdtMaxT (threadsOf heap n) with hthreads
  set places := childTbl heap n childIndex dqdtMaxD distance with hplaces
  set σ := selectionPerm usage 4 with hσ
  have hmono : MonotoneOn (usage ∘ σ) (Set.Iio 4) := monotoneOn_selectionPerm usage 4
  set τ := tiePerm 4 (usage ∘ σ) (threads ∘ σ) with hτ
  have hτusage : ∀ k, usage (σ (τ k)) = usage (σ k) := tiePerm_key hmono (threads ∘ σ)
  have horder : usageOrder heap n childIndex = σ := by
    unfold usageOrder
    rw [primaryTableSort1_eq]
    rfl
  have horder' : usageThreadsOrder heap n childIndex = σ ∘ τ := by
    unfold usageThreadsOrder
    rw [horder, secondaryTableSort_eq hmono]
  have hpairs : MonotoneOn (tieKey (usage ∘ σ) (threads ∘ σ ∘ τ)) (Set.Iio 4) := by
    have hsorted := monotoneOn_bubblePerm (tieKey (usage ∘ σ) (threads ∘ σ)) (Nat.le_succ 4)
    have heq : tieKey (usage ∘ σ) (threads ∘ σ ∘ τ) = tieKey (usage ∘ σ) (threads ∘ σ) ∘ τ := by
      funext k
      simp only [tieKey, Function.comp_apply, hτusage]
    rwa [heq]
  have hown : ∀ a < 4, Eligible heap n childIndex ((σ ∘ τ) a) →
      tieKey (usage ∘ σ) (threads ∘ σ ∘ τ) a =
        toLex (usageOf heap n ((σ ∘ τ) a), threadsOf heap n ((σ ∘ τ) a)) := by
    intro a _ ha
    have hu : usage (σ a) = usageOf heap n (σ (τ a)) := (hτusage a).symm.trans (childTbl_eligible ha)
    have ht : threads (σ (τ a)) = threadsOf heap n (σ (τ a)) := childTbl_eligible ha
    simp only [tieKey, Function.comp_apply, hu, ht]
  have hselect : IsSelection (σ ∘ τ) :=
    (isSelection_perm (fixes_selectionPerm usage 4)).comp (fixes_tiePerm 4 _ _)
  have hresult : dqdtSortByUTD heap distance n attr childIndex = (true, { attr with
      selectTbl := (σ ∘ τ) ∘ tiePerm 4 (tieKey (usage ∘ σ) (threads ∘ σ ∘ τ)) (places ∘ σ) }) := by
    unfold dqdtSortByUTD
    simp only [primaryTableSort3_eq, ← husage, ← hthreads, ← hplaces, ← hσ, Function.id_comp]
    rw [secondaryTableSort_eq hmono]
    exact congrArg (fun s : (ℕ → ℤ) × (ℕ → ℕ) => (true, { attr with selectTbl := s.2 }))
      (tertiaryTableSort_eq hpairs (places ∘ σ) (σ ∘ τ))
  have hiff := sortsBy_ties_iff (fun c => toLex (usageOf heap n c, threadsOf heap n c)) (places ∘ σ)
    distance hselect hown
  have hties : UsageTiesAgree heap distance n childIndex ↔
      TiesAgree (fun a b => Eligible heap n childIndex ((σ ∘ τ) a) ∧
        Eligible heap n childIndex ((σ ∘ τ) b) ∧
        toLex (usageOf heap n ((σ ∘ τ) a), threadsOf heap n ((σ ∘ τ) a)) =
          toLex (usageOf heap n ((σ ∘ τ) b), threadsOf heap n ((σ ∘ τ) b)))
        (places ∘ σ) (distance ∘ (σ ∘ τ)) := by
    unfold UsageTiesAgree
    rw [horder, horder']
    simp only [toLex_inj, Prod.mk.injEq]
    exact Iff.rfl
  rw [hties, ← hiff]
  unfold SortsChildren
  rw [hresult]
  refine ⟨fun h => h _ rfl, fun h attr' heq => ?_⟩
  obtain rfl := congrArg Prod.snd heq
  exact h

def memoryRank (heap : DqdtHeap) (n : ℕ) (attr : DqdtAttr) (i : ℕ) : ℤ :=
  if dqdtCheckMemIndicators ((heap n).info.tbl i) attr then 0 else dqdtMaxM

def memoryOrder (heap : DqdtHeap) (n : ℕ) (attr : DqdtAttr) (childIndex : ℕ) : ℕ → ℕ :=
  (dqdtPrimaryTableSort1 4 (childTbl heap n childIndex dqdtMaxM (memoryRank heap n attr)) id).2

/-- Where two places of the order of the memory test hold children that tie in it, the distances of
the children in the slots of these numbers agree with theirs. -/
def MemoryTiesAgree (heap : DqdtHeap) (distance : ℕ → ℤ) (n : ℕ) (attr : DqdtAttr)
    (childIndex : ℕ) : Prop :=
  let order := memoryOrder heap n attr childIndex
  TiesAgree
    (fun a b => Eligible heap n childIndex (order a) ∧ Eligible heap n childIndex (order b) ∧
      memoryRank heap n attr (order a) = memoryRank heap n attr (order b))
    (childTbl heap n childIndex dqdtMaxD distance) (distance ∘ order)

def anyPasses (heap : DqdtHeap) (n : ℕ) (attr : DqdtAttr) (childIndex : ℕ) : Bool :=
  (List.range 4).any fun i =>
    !excluded heap n childIndex i && dqdtCheckMemIndicators ((heap n).info.tbl i) attr

lemma sortByMD_sorts_iff (heap : DqdtHeap) (distance : ℕ → ℤ) (n : ℕ) (attr : DqdtAttr)
    (childIndex : ℕ) :
    SortsChildren heap (dqdtSortByMDAt heap distance) n attr childIndex
      (fun c => (toLex (memoryRank heap n attr c, distance c) : ℤ ×ₗ ℤ)) ↔
      (anyPasses heap n attr childIndex = true → MemoryTiesAgree heap distance n attr childIndex) := by
  set found := childTbl heap n childIndex dqdtMaxM (memoryRank heap n attr) with hfound
  have hfoundTbl : (fun i => if !excluded heap n childIndex i &&
      dqdtCheckMemIndicators ((heap n).info.tbl i) attr then 0 else dqdtMaxM) = found := by
    funext i
    simp only [hfound, childTbl, memoryRank]
    cases excluded heap n childIndex i
    · rfl
    · rfl
  set σ := selectionPerm found 4 with hσ
  have hmono : MonotoneOn (found ∘ σ) (Set.Iio 4) := monotoneOn_selectionPerm found 4
  have horder : memoryOrder heap n attr childIndex = σ := by
    unfold memoryOrder
    rw [primaryTableSort1_eq]
    rfl
  have hown : ∀ a < 4, Eligible heap n childIndex (σ a) → (found ∘ σ) a = memoryRank heap n attr (σ a) :=
    fun a _ ha => childTbl_eligible ha
  have hiff := sortsBy_ties_iff (memoryRank heap n attr) (childTbl heap n childIndex dqdtMaxD distance)
    distance (isSelection_perm (fixes_selectionPerm found 4)) hown
  have hties : MemoryTiesAgree heap distance n attr childIndex ↔
      TiesAgree (fun a b => Eligible heap n childIndex (σ a) ∧ Eligible heap n childIndex (σ b) ∧
        memoryRank heap n attr (σ a) = memoryRank heap n attr (σ b))
        (childTbl heap n childIndex dqdtMaxD distance) (distance ∘ σ) := by
    unfold MemoryTiesAgree
    rw [horder]
  rw [hties, ← hiff]
  unfold SortsChildren dqdtSortByMDAt
  simp only [hfoundTbl, primaryTableSort1_eq, ← hσ, secondaryTableSort_eq hmono, Function.id_comp]
  cases hany : anyPasses heap n attr childIndex with
  | false =>
    unfold anyPasses at hany
    rw [if_neg (by rw [hany]; exact Bool.false_ne_true)]
    exact ⟨fun _ hf => absurd hf Bool.false_ne_true,
      fun _ attr' h => absurd (congrArg Prod.fst h) Bool.false_ne_true⟩
  | true =>
    unfold anyPasses at hany
    rw [if_pos hany]
    refine ⟨fun h _ => h _ rfl, fun h attr' heq => ?_⟩
    obtain rfl := congrArg Prod.snd heq
    exact h rfl

/-- The sorts by threads and by cores left are lexicographic; the sorts by usage and by the memory test
are if and only if the distances, which they do not move with the children, agree where children tie. -/
theorem dqdt_sorts_lexicographic (heap : DqdtHeap) (distance : ℕ → ℤ) (n : ℕ) (attr : DqdtAttr)
    (childIndex : ℕ) :
    SortsChildren heap (dqdtSortByTD heap distance) n attr childIndex
      (fun c => (toLex (threadsOf heap n c, distance c) : ℤ ×ₗ ℤ)) ∧
    SortsChildren heap (dqdtSortByRTD heap distance) n attr childIndex
      (fun c => (toLex (coresRank heap n c, distance c) : ℤ ×ₗ ℤ)) ∧
    (SortsChildren heap (dqdtSortByUTD heap distance) n attr childIndex
      (fun c => (toLex (toLex (usageOf heap n c, threadsOf heap n c), distance c) : (ℤ ×ₗ ℤ) ×ₗ ℤ)) ↔
      UsageTiesAgree heap distance n childIndex) ∧
    (SortsChildren heap (dqdtSortByMDAt heap distance) n attr childIndex
      (fun c => (toLex (memoryRank heap n attr c, distance c) : ℤ ×ₗ ℤ)) ↔
      (anyPasses heap n attr childIndex = true → MemoryTiesAgree heap distance n attr childIndex)) :=
  ⟨sortByTD_sorts heap distance n attr childIndex, sortByRTD_sorts heap distance n attr childIndex,
    sortByUTD_sorts_iff heap distance n attr childIndex, sortByMD_sorts_iff heap distance n attr childIndex⟩

def threeChildren : DqdtHeap := fun _ =>
  { index := 0, level := 1, flags := 3, childsNr := 3, coresNr := 12
    info := ⟨⟨1, 0, 2, fun _ => 1⟩, fun i =>
      if i = 0 then ⟨1, 0, 0, fun _ => 0⟩ else ⟨0, 0, 1, fun _ => 1⟩⟩
    home := none, parent := none
    children := fun i => if i < 3 then some (i + 1) else none }

def anyAttr : DqdtAttr := ⟨none, none, ⟨0, 0⟩, 0, .default, id, 0⟩

def nearAndFar : ℕ → ℤ := fun i => if i = 0 then 1 else if i = 1 then 9 else 2

/-- Both sorts put the second child before the third: the distances they compare are those of the
first two. -/
theorem dqdt_sorts_mispair :
    ¬ SortsChildren threeChildren (dqdtSortByUTD threeChildren nearAndFar) 0 anyAttr 5
      (fun c => (toLex (toLex (usageOf threeChildren 0 c, threadsOf threeChildren 0 c), nearAndFar c) :
        (ℤ ×ₗ ℤ) ×ₗ ℤ)) ∧
    ¬ SortsChildren threeChildren (dqdtSortByMDAt threeChildren nearAndFar) 0 anyAttr 5
      (fun c => (toLex (memoryRank threeChildren 0 anyAttr c, nearAndFar c) : ℤ ×ₗ ℤ)) := by
  constructor
  · intro h
    have hle := (h _ rfl).le 0 1 (by decide) (by decide) ⟨by decide, by decide⟩ ⟨by decide, by decide⟩
    revert hle
    decide
  · intro h
    have hle := (h _ rfl).le 0 1 (by decide) (by decide) ⟨by decide, by decide⟩ ⟨by decide, by decide⟩
    revert hle
    decide

end DqdtMem
end Almos
