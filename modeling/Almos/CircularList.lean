import Mathlib

/-!
# Doubly linked circular lists

A root and the nodes behind it, each with a link to the next one and to the one before. A node is
put behind another one, and the first node is taken out.
-/
namespace Almos
variable {α : Type*}

structure Links (α : Type*) where
  next : α → α
  pred : α → α

namespace Links
variable {m m' : Links α} {a b x e : α} {l r : List α}

def Linked (m : Links α) (a b : α) : Prop := m.next a = b ∧ m.pred b = a

def Segment (m : Links α) : α → List α → α → Prop
  | a, [], b => m.Linked a b
  | a, x :: l, b => m.Linked a x ∧ Segment m x l b

structure IsRing (m : Links α) (root : α) (l : List α) : Prop where
  nodup : (root :: l).Nodup
  linked : m.Segment root l root

lemma segment_append :
    m.Segment a (l ++ x :: r) b ↔ m.Segment a l x ∧ m.Segment x r b := by
  induction l generalizing a with
  | nil => exact Iff.rfl
  | cons y l ih =>
    change m.Linked a y ∧ m.Segment y (l ++ x :: r) b ↔ (m.Linked a y ∧ m.Segment y l x) ∧ _
    rw [ih, and_assoc]

lemma Segment.congr (h : m.Segment a l b) (hnext : ∀ y ∈ a :: l, m'.next y = m.next y)
    (hpred : ∀ y ∈ l ++ [b], m'.pred y = m.pred y) : m'.Segment a l b := by
  induction l generalizing a with
  | nil =>
    obtain ⟨hn, hp⟩ := h
    exact ⟨(hnext a (by simp)).trans hn, (hpred b (by simp)).trans hp⟩
  | cons x l ih =>
    obtain ⟨⟨hn, hp⟩, hrest⟩ := h
    refine ⟨⟨(hnext a (by simp)).trans hn, (hpred x (by simp)).trans hp⟩, ih hrest ?_ ?_⟩
    · exact fun y hy => hnext y (List.mem_cons_of_mem _ hy)
    · exact fun y hy => hpred y (List.mem_cons_of_mem _ hy)

lemma Segment.pred_eq (h : m.Segment a l b) : m.pred b = l.getLastD a := by
  induction l generalizing a with
  | nil => exact h.2
  | cons x l ih =>
    rw [List.getLastD_cons]
    exact ih h.2

lemma Segment.next_eq (h : m.Segment a l b) : m.next a = l.headD b := by
  cases l with
  | nil => exact h.1
  | cons x l => exact h.1.1

namespace IsRing

lemma rotate (h : m.IsRing a (l ++ x :: r)) : m.IsRing x (r ++ a :: l) where
  nodup := by
    have hperm : (x :: (r ++ a :: l)).Perm (a :: (l ++ x :: r)) := by
      have hswap : ((x :: r) ++ (a :: l)).Perm ((a :: l) ++ (x :: r)) := List.perm_append_comm
      exact hswap
    exact hperm.nodup_iff.mpr h.nodup
  linked := by
    obtain ⟨hl, hr⟩ := segment_append.mp h.linked
    exact segment_append.mpr ⟨hr, hl⟩

lemma next_nil (h : m.IsRing a []) : m.next a = a := h.linked.1

lemma next_cons (h : m.IsRing a (x :: l)) : m.next a = x := h.linked.1.1

lemma unique (h : m.IsRing a l) (hr : m.IsRing a r) : l = r := by
  have hsegment : ∀ {l r : List α} {b : α}, m.Segment b l a → m.Segment b r a → a ∉ l → a ∉ r →
      l = r := by
    intro l
    induction l with
    | nil =>
      intro r b hl hr _ hnot
      cases r with
      | nil => rfl
      | cons y r =>
        obtain rfl : a = y := hl.1.symm.trans hr.1.1
        exact absurd List.mem_cons_self hnot
    | cons x l ih =>
      intro r b hl hr hnotl hnotr
      cases r with
      | nil =>
        obtain rfl : a = x := hr.1.symm.trans hl.1.1
        exact absurd List.mem_cons_self hnotl
      | cons y r =>
        obtain rfl : x = y := hl.1.1.symm.trans hr.1.1
        rw [ih hl.2 hr.2 (fun hmem => hnotl (List.mem_cons_of_mem _ hmem))
          fun hmem => hnotr (List.mem_cons_of_mem _ hmem)]
  exact hsegment h.linked hr.linked (List.nodup_cons.mp h.nodup).1 (List.nodup_cons.mp hr.nodup).1

lemma congr (h : m.IsRing a l) (hnext : ∀ y ∈ a :: l, m'.next y = m.next y)
    (hpred : ∀ y ∈ a :: l, m'.pred y = m.pred y) : m'.IsRing a l where
  nodup := h.nodup
  linked := h.linked.congr hnext fun y hy => hpred y (List.perm_append_singleton a l |>.subset hy)

lemma next_mem (h : m.IsRing a l) (hx : x ∈ a :: l) : m.next x ∈ a :: l := by
  obtain rfl | hx := List.mem_cons.mp hx
  · rw [h.linked.next_eq]
    cases l <;> simp
  · obtain ⟨l, r, rfl⟩ := List.append_of_mem hx
    rw [(segment_append.mp h.linked).2.next_eq]
    cases r <;> simp

lemma pred_mem (h : m.IsRing a l) (hx : x ∈ a :: l) : m.pred x ∈ a :: l := by
  have hlast : ∀ l : List α, l.getLastD a ∈ a :: l := by
    intro l
    obtain rfl | ⟨l, y, rfl⟩ := l.eq_nil_or_concat' <;> simp
  obtain rfl | hx := List.mem_cons.mp hx
  · rw [h.linked.pred_eq]
    exact hlast l
  · obtain ⟨l, r, rfl⟩ := List.append_of_mem hx
    rw [(segment_append.mp h.linked).1.pred_eq]
    exact List.cons_subset_cons a (List.subset_append_left l _) (hlast l)

end IsRing

variable [DecidableEq α]

def rootInit (m : Links α) (root : α) : Links α where
  next := Function.update m.next root root
  pred := Function.update m.pred root root

def add (m : Links α) (root entry : α) : Links α where
  next := Function.update (Function.update m.next entry (m.next root)) root entry
  pred := Function.update (Function.update m.pred entry root) (m.next root) entry

def unlink (m : Links α) (entry : α) : Links α where
  next := Function.update m.next (m.pred entry) (m.next entry)
  pred := Function.update m.pred (m.next entry) (m.pred entry)

lemma isRing_rootInit (m : Links α) (root : α) : (m.rootInit root).IsRing root [] where
  nodup := List.nodup_singleton root
  linked := ⟨Function.update_self .., Function.update_self ..⟩

namespace IsRing

lemma add_root (h : m.IsRing a l) (he : e ∉ a :: l) : (m.add a e).IsRing a (e :: l) := by
  have hea : e ≠ a := fun heq => he (heq ▸ List.mem_cons_self)
  have hnodup : (a :: e :: l).Nodup :=
    (List.Perm.swap a e l).nodup_iff.mp (List.nodup_cons.mpr ⟨he, h.nodup⟩)
  have hroot : (m.add a e).Linked a e := by
    refine ⟨Function.update_self .., ?_⟩
    cases l with
    | nil =>
      have hne : e ≠ m.next a := by
        rw [h.next_nil]
        exact hea
      exact (Function.update_of_ne hne ..).trans (Function.update_self ..)
    | cons x l =>
      have hne : e ≠ m.next a := by
        rw [h.next_cons]
        rintro rfl
        exact he (by simp)
      exact (Function.update_of_ne hne ..).trans (Function.update_self ..)
  refine ⟨hnodup, hroot, ?_⟩
  have hnext : (m.add a e).next e = m.next a :=
    (Function.update_of_ne hea ..).trans (Function.update_self ..)
  have hpred : (m.add a e).pred (m.next a) = e := Function.update_self ..
  cases l with
  | nil =>
    rw [h.next_nil] at hpred
    exact ⟨hnext.trans h.next_nil, hpred⟩
  | cons x l =>
    have hx := h.next_cons
    rw [hx] at hpred
    refine ⟨⟨hnext.trans hx, hpred⟩, h.linked.2.congr (fun y hy => ?_) fun y hy => ?_⟩
    · have hya : y ≠ a := by
        rintro rfl
        exact (List.nodup_cons.mp h.nodup).1 hy
      have hye : y ≠ e := by
        rintro rfl
        exact he (List.mem_cons_of_mem _ hy)
      exact (Function.update_of_ne hya ..).trans (Function.update_of_ne hye ..)
    · have hnot := (List.nodup_cons.mp (List.nodup_cons.mp h.nodup).2).1
      have hyx : y ≠ m.next a := by
        rw [hx]
        rintro rfl
        obtain hmem | hmem := List.mem_append.mp hy
        · exact hnot hmem
        · rw [List.mem_singleton.mp hmem] at h
          exact (List.nodup_cons.mp h.nodup).1 List.mem_cons_self
      have hye : y ≠ e := by
        rintro rfl
        obtain hmem | hmem := List.mem_append.mp hy
        · exact he (by simp [hmem])
        · exact hea (List.mem_singleton.mp hmem)
      exact (Function.update_of_ne hyx ..).trans (Function.update_of_ne hye ..)

lemma add_last (h : m.IsRing a (l ++ r)) (he : e ∉ a :: (l ++ r)) :
    (m.add (l.getLastD a) e).IsRing a (l ++ e :: r) := by
  obtain rfl | ⟨l, x, rfl⟩ := l.eq_nil_or_concat'
  · exact h.add_root he
  · rw [List.getLastD_concat]
    have hring : m.IsRing a (l ++ x :: r) := by simpa using h
    have hnot : e ∉ x :: (r ++ a :: l) := by
      simp only [List.mem_cons, List.mem_append] at he ⊢
      tauto
    have hadd : (m.add x e).IsRing x ((e :: r) ++ a :: l) := hring.rotate.add_root hnot
    simpa using hadd.rotate

lemma unlink_first (h : m.IsRing a (e :: l)) : (m.unlink e).IsRing a l := by
  have hnot := (List.nodup_cons.mp h.nodup).1
  have hnodup := (List.nodup_cons.mp h.nodup).2
  have hpred : m.pred e = a := h.linked.1.2
  refine ⟨List.nodup_cons.mpr ⟨fun hmem => hnot (List.mem_cons_of_mem _ hmem),
    (List.nodup_cons.mp hnodup).2⟩, ?_⟩
  cases l with
  | nil =>
    obtain ⟨hnext, -⟩ := h.linked.2
    refine ⟨?_, ?_⟩
    · change Function.update m.next (m.pred e) (m.next e) a = a
      rw [hpred, hnext, Function.update_self]
    · change Function.update m.pred (m.next e) (m.pred e) a = a
      rw [hpred, hnext, Function.update_self]
  | cons x l =>
    obtain ⟨⟨hnext, -⟩, hrest⟩ := h.linked.2
    have hx : x ∉ l := (List.nodup_cons.mp (List.nodup_cons.mp hnodup).2).1
    have hxa : x ≠ a := by
      rintro rfl
      exact hnot (by simp)
    refine ⟨⟨?_, ?_⟩, hrest.congr (fun y hy => ?_) fun y hy => ?_⟩
    · change Function.update m.next (m.pred e) (m.next e) a = x
      rw [hpred, hnext, Function.update_self]
    · change Function.update m.pred (m.next e) (m.pred e) x = a
      rw [hpred, hnext, Function.update_self]
    · have hya : y ≠ m.pred e := by
        rw [hpred]
        rintro rfl
        exact hnot (List.mem_cons_of_mem _ hy)
      exact Function.update_of_ne hya ..
    · have hyx : y ≠ m.next e := by
        rw [hnext]
        rintro rfl
        obtain hmem | hmem := List.mem_append.mp hy
        · exact hx hmem
        · exact hxa (List.mem_singleton.mp hmem)
      exact Function.update_of_ne hyx ..

lemma unlink_mem (h : m.IsRing a (l ++ e :: r)) : (m.unlink e).IsRing a (l ++ r) := by
  obtain rfl | ⟨l, x, rfl⟩ := l.eq_nil_or_concat'
  · exact h.unlink_first
  · have hring : m.IsRing a (l ++ x :: e :: r) := by simpa using h
    have hunlink : (m.unlink e).IsRing x (r ++ a :: l) := hring.rotate.unlink_first
    simpa using hunlink.rotate

end IsRing

end Links
end Almos
