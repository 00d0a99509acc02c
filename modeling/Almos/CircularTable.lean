import Almos.CircularList

/-!
# Tables of circular lists

Several circular lists over the same links, each behind a root of its own.
-/
namespace Almos.Links
variable {α : Type*} {m m' : Links α} {root : ℕ → α} {l : ℕ → List α} {n i : ℕ} {a e x : α}
  {r t : List α}

structure IsTable (m : Links α) (root : ℕ → α) (n : ℕ) (l : ℕ → List α) : Prop where
  ring : ∀ i < n, m.IsRing (root i) (l i)
  disjoint : ∀ i < n, ∀ j < n, i ≠ j → (root i :: l i).Disjoint (root j :: l j)

def nodesFrom (l : ℕ → List α) (i left : ℕ) : List α := (List.range' i left).flatMap l

@[simp] lemma nodesFrom_zero : nodesFrom l i 0 = [] := rfl

lemma nodesFrom_succ {left : ℕ} : nodesFrom l i (left + 1) = l i ++ nodesFrom l (i + 1) left := rfl

namespace IsTable

lemma congr (h : m.IsTable root n l)
    (hnext : ∀ i < n, ∀ y ∈ root i :: l i, m'.next y = m.next y)
    (hpred : ∀ i < n, ∀ y ∈ root i :: l i, m'.pred y = m.pred y) : m'.IsTable root n l where
  ring i hi := (h.ring i hi).congr (hnext i hi) (hpred i hi)
  disjoint := h.disjoint

lemma nodup (h : m.IsTable root n l) : (nodesFrom l 0 n).Nodup := by
  refine List.nodup_flatMap.mpr ⟨fun i hi => ?_, ?_⟩
  · have hi : i < n := by simpa using hi
    exact (List.nodup_cons.mp (h.ring i hi).nodup).2
  · have hrange : (List.range' 0 n).Pairwise (· ≠ ·) := List.nodup_range'
    refine hrange.imp_of_mem fun {i j} hi hj hij => ?_
    have hi : i < n := by simpa using hi
    have hj : j < n := by simpa using hj
    exact fun y hyi hyj => h.disjoint i hi j hj hij (List.mem_cons_of_mem _ hyi)
      (List.mem_cons_of_mem _ hyj)

variable [DecidableEq α]

lemma update (h : m.IsTable root n l) (hi : i < n) (hring : m'.IsRing (root i) r)
    (hother : ∀ j < n, j ≠ i → m'.IsRing (root j) (l j))
    (hfresh : ∀ j < n, j ≠ i → ∀ y ∈ r, y ∉ l i → y ∉ root j :: l j) :
    m'.IsTable root n (Function.update l i r) := by
  have hdisjoint : ∀ j < n, j ≠ i → (root i :: r).Disjoint (root j :: l j) := by
    intro j hj hne y hy hyj
    obtain rfl | hy := List.mem_cons.mp hy
    · exact h.disjoint i hi j hj hne.symm List.mem_cons_self hyj
    · by_cases hmem : y ∈ l i
      · exact h.disjoint i hi j hj hne.symm (List.mem_cons_of_mem _ hmem) hyj
      · exact hfresh j hj hne y hy hmem hyj
  refine ⟨fun j hj => ?_, fun j hj k hk hjk => ?_⟩
  · by_cases hji : j = i
    · subst hji
      rw [Function.update_self]
      exact hring
    · rw [Function.update_of_ne hji]
      exact hother j hj hji
  · by_cases hji : j = i
    · subst hji
      rw [Function.update_self, Function.update_of_ne hjk.symm]
      exact hdisjoint k hk hjk.symm
    · rw [Function.update_of_ne hji]
      by_cases hki : k = i
      · subst hki
        rw [Function.update_self]
        exact (hdisjoint j hj hji).symm
      · rw [Function.update_of_ne hki]
        exact h.disjoint j hj k hk hjk

lemma add_last (h : m.IsTable root n l) (hi : i < n) (he : ∀ j < n, e ∉ root j :: l j) :
    (m.add (m.pred (root i)) e).IsTable root n (Function.update l i (l i ++ [e])) := by
  have hring := h.ring i hi
  have hlast : m.pred (root i) ∈ root i :: l i := hring.pred_mem List.mem_cons_self
  have hfirst : m.next (m.pred (root i)) ∈ root i :: l i := hring.next_mem hlast
  refine h.update hi ?_ (fun j hj hne => ?_) fun j hj _ y hy hnot => ?_
  · rw [hring.linked.pred_eq]
    have hring' : m.IsRing (root i) (l i ++ []) := by simpa using hring
    exact hring'.add_last (by simpa using he i hi)
  · refine (h.ring j hj).congr (fun y hy => ?_) fun y hy => ?_
    · have hye : y ≠ e := fun heq => he j hj (heq ▸ hy)
      have hya : y ≠ m.pred (root i) := fun heq => h.disjoint j hj i hi hne hy (heq ▸ hlast)
      exact (Function.update_of_ne hya ..).trans (Function.update_of_ne hye ..)
    · have hye : y ≠ e := fun heq => he j hj (heq ▸ hy)
      have hya : y ≠ m.next (m.pred (root i)) :=
        fun heq => h.disjoint j hj i hi hne hy (heq ▸ hfirst)
      exact (Function.update_of_ne hya ..).trans (Function.update_of_ne hye ..)
  · obtain hy | hy := List.mem_append.mp hy
    · exact absurd hy hnot
    · rw [List.mem_singleton.mp hy]
      exact he j hj

lemma unlink (h : m.IsTable root n l) (hi : i < n) (hl : l i = r ++ e :: t) :
    (m.unlink e).IsTable root n (Function.update l i (r ++ t)) := by
  have hring : m.IsRing (root i) (r ++ e :: t) := hl ▸ h.ring i hi
  have hmem : e ∈ root i :: l i := by
    rw [hl]
    simp
  have hnext : m.next e ∈ root i :: l i := (h.ring i hi).next_mem hmem
  have hpred : m.pred e ∈ root i :: l i := (h.ring i hi).pred_mem hmem
  refine h.update hi hring.unlink_mem (fun j hj hne => ?_) fun j hj _ y hy hnot => ?_
  · refine (h.ring j hj).congr (fun y hy => ?_) fun y hy => ?_
    · have hne : y ≠ m.pred e := fun heq => h.disjoint j hj i hi hne hy (heq ▸ hpred)
      exact Function.update_of_ne hne ..
    · have hne : y ≠ m.next e := fun heq => h.disjoint j hj i hi hne hy (heq ▸ hnext)
      exact Function.update_of_ne hne ..
  · refine absurd ?_ hnot
    rw [hl]
    obtain hy | hy := List.mem_append.mp hy <;> simp [hy]

lemma rootInit (h : m.IsTable root n l) (hl : l n = []) (hroot : ∀ j < n, root n ∉ root j :: l j) :
    (m.rootInit (root n)).IsTable root (n + 1) l := by
  have hold : ∀ j < n, ∀ y ∈ root j :: l j, y ≠ root n := fun j hj y hy heq =>
    hroot j hj (heq ▸ hy)
  refine ⟨fun j hj => ?_, fun j hj k hk hjk y hyj hyk => ?_⟩
  · obtain hj | rfl := Nat.lt_succ_iff_lt_or_eq.mp hj
    · refine (h.ring j hj).congr (fun y hy => ?_) fun y hy => ?_ <;>
        exact Function.update_of_ne (hold j hj y hy) ..
    · rw [hl]
      exact m.isRing_rootInit (root j)
  · obtain hj | rfl := Nat.lt_succ_iff_lt_or_eq.mp hj
    · obtain hk | rfl := Nat.lt_succ_iff_lt_or_eq.mp hk
      · exact h.disjoint j hj k hk hjk hyj hyk
      · rw [hl] at hyk
        exact hold j hj y hyj (List.mem_singleton.mp hyk)
    · obtain hk | rfl := Nat.lt_succ_iff_lt_or_eq.mp hk
      · rw [hl] at hyj
        exact hold k hk y hyk (List.mem_singleton.mp hyj)
      · exact hjk rfl

end IsTable
end Almos.Links
