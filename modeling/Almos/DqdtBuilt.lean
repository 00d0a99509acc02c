import Mathlib
import Almos.DqdtBuildLevels

/-!
# The built tree

The logical clusters below the root are those of the blocks that are up.
-/
namespace Almos.DqdtBuild
open DqdtMem

/-- The clusters below the root are a tree, whose leaves are the clusters of the mesh. -/
structure WellFormed (cell : ℕ → ℕ → Option (ℕ × ℕ)) (s : Boot) (root : ℕ) : Prop where
  parent_root : (s.heap root).parent = none
  child_lt : ∀ {n j c}, Below s.heap root n → j < 4 → (s.heap n).children j = some c →
    (s.heap c).level < (s.heap n).level
  child_index : ∀ {n j c}, Below s.heap root n → j < 4 → (s.heap n).children j = some c →
    (s.heap c).index = j
  child_parent : ∀ {n j c}, Below s.heap root n → j < 4 → (s.heap n).children j = some c →
    (s.heap c).parent = some n
  has_child : ∀ {n}, Below s.heap root n → (s.heap n).level ≠ 0 → ∃ c, IsChild s.heap n c
  childs_nr : ∀ {n}, Below s.heap root n →
    (s.heap n).childsNr = (List.range 4).countP fun j => ((s.heap n).children j).isSome
  cores_nr : ∀ {n}, Below s.heap root n →
    (s.heap n).coresNr = ((leaves s.heap (s.heap n).level n).map fun m => (s.heap m).coresNr).sum
  leaves_nodup : ∀ {n}, Below s.heap root n → (leaves s.heap (s.heap n).level n).Nodup
  present : ∀ {x y cid cores}, cell x y = some (cid, cores) →
    ∃ leaf, s.levelsTbl cid 0 = some leaf ∧ IsLeaf s.heap root leaf ∧
      (s.heap leaf).home = some cid ∧ (s.heap leaf).coresNr = cores
  only_present : ∀ {n}, Below s.heap root n →
    ∃ x y cid cores, cell x y = some (cid, cores) ∧ (s.heap n).home = some cid ∧
      ((s.heap n).level = 0 → s.levelsTbl cid 0 = some n)
  allocated : ∀ {n}, Below s.heap root n → n ∈ s.allocated
  info : ∀ {n}, Below s.heap root n → (s.heap n).info = zeroCluster.info

lemma foldl_or_eq_some {α : Type*} {f : ℕ → Option α} {n : ℕ} {v : α}
    (h : (List.range n).foldl (fun h j => (f j).or h) none = some v) : ∃ j < n, f j = some v := by
  induction n with
  | zero => simp at h
  | succ n ih =>
    rw [List.range_succ, List.foldl_append, List.foldl_cons, List.foldl_nil, Option.or_eq_some_iff] at h
    rcases h with hn | ⟨-, hrest⟩
    · exact ⟨n, Nat.lt_succ_self n, hn⟩
    · obtain ⟨j, hj, hv⟩ := ih hrest
      exact ⟨j, Nat.lt_succ_of_lt hj, hv⟩

/-- The home of a block is a cluster of the mesh, of the place itself at level zero. -/
lemma Block.home_present {cell : ℕ → ℕ → Option (ℕ × ℕ)} {b : Block} {cid : ℕ}
    (h : b.home cell = some cid) :
    ∃ x y cores, cell x y = some (cid, cores) ∧ (b.level = 0 → b = ⟨0, x, y⟩) := by
  obtain ⟨k, x, y⟩ := b
  induction k generalizing x y with
  | zero =>
    obtain ⟨⟨_, cores⟩, hcell, rfl⟩ := Option.map_eq_some_iff.mp h
    exact ⟨x, y, cores, hcell, fun _ => rfl⟩
  | succ k ih =>
    rw [Block.home_child (Nat.succ_pos k)] at h
    obtain ⟨j, -, hj⟩ := foldl_or_eq_some h
    obtain ⟨x', y', cores, hcell, -⟩ := ih _ _ hj
    exact ⟨x', y', cores, hcell, fun hzero => absurd hzero (Nat.succ_ne_zero k)⟩

section WellFormed
variable {cell : ℕ → ℕ → Option (ℕ × ℕ)} {s : Boot} {n root : ℕ} (h : WellFormed cell s root)
include h

lemma WellFormed.tree (hdepth : (s.heap root).level ≤ dqdtMaxDepth) : Tree s.heap root where
  depth := hdepth
  parent_root := h.parent_root
  child_lt := h.child_lt
  child_index := h.child_index
  child_parent := h.child_parent
  has_child := h.has_child
  childs_nr := h.childs_nr

lemma WellFormed.level_le (hn : Below s.heap root n) : (s.heap n).level ≤ (s.heap root).level := by
  induction hn with
  | refl => exact le_rfl
  | tail hb hc ih =>
    obtain ⟨j, hj, hchild⟩ := hc
    exact (h.child_lt hb hj hchild).le.trans ih

lemma WellFormed.parent {p : ℕ} (hn : Below s.heap root n) (hp : (s.heap n).parent = some p) :
    Below s.heap root p ∧ (s.heap n).index < 4 ∧ (s.heap p).children (s.heap n).index = some n := by
  rcases Relation.ReflTransGen.cases_tail hn with rfl | ⟨q, hq, j, hj, hchild⟩
  · rw [h.parent_root] at hp
    exact absurd hp.symm (Option.some_ne_none p)
  · obtain rfl : q = p := Option.some.inj ((h.child_parent hq hj hchild).symm.trans hp)
    rw [h.child_index hq hj hchild]
    exact ⟨hq, hj, hchild⟩

end WellFormed

section Built
variable {cell : ℕ → ℕ → Option (ℕ × ℕ)} {addr : Block → ℕ} {s : Boot} {top : ℕ} {b : Block} {n : ℕ}
  (h : Forest cell addr {b | b.InChip top} s)
include h

lemma Forest.heap_eq (hb : b.InChip top) (hup : b.IsUp cell) :
    ∃ parent index, s.heap (addr b) = b.logical cell addr parent index ∧
      (b.level < top → parent = some (addr b.up) ∧ index = b.slot) ∧
      (b.level = top → parent = none) := by
  by_cases hlevel : b.level < top
  · refine ⟨_, _, h.inner b hb hup (hb.up hlevel), fun _ => ⟨rfl, rfl⟩, fun heq => ?_⟩
    exact absurd heq hlevel.ne
  · have hnot : b.up ∉ {b | Block.InChip top b} := fun hin => hlevel hin.1
    exact ⟨_, _, h.top b hb hnot, fun hlt => absurd hlt hlevel, fun _ => rfl⟩

lemma Forest.fields (hb : b.InChip top) (hup : b.IsUp cell) :
    (s.heap (addr b)).level = b.level ∧ (s.heap (addr b)).home = b.home cell ∧
      (s.heap (addr b)).children = b.children cell addr ∧
      (s.heap (addr b)).childsNr = b.childsNr cell ∧ (s.heap (addr b)).coresNr = b.cores cell := by
  obtain ⟨parent, index, heap, -, -⟩ := h.heap_eq hb hup
  rw [heap]
  exact ⟨rfl, rfl, rfl, rfl, rfl⟩

lemma Forest.child_fields (hb : b.InChip top) {j : ℕ} (hj : j < 4) (hlevel : 0 < b.level)
    (hup : (b.child j).IsUp cell) :
    (s.heap (addr (b.child j))).parent = some (addr b) ∧ (s.heap (addr (b.child j))).index = j := by
  obtain ⟨parent, index, heap, hinner, -⟩ := h.heap_eq (hb.child hlevel hj) hup
  have hlt : (b.child j).level < top := by
    have := hb.1
    simp only [Block.child]
    omega
  obtain ⟨rfl, rfl⟩ := hinner hlt
  rw [heap, Block.up_child hlevel hj, Block.slot_child hj]
  exact ⟨rfl, rfl⟩

lemma Forest.isChild_iff (hb : b.InChip top) (hup : b.IsUp cell) {c : ℕ} :
    IsChild s.heap (addr b) c ↔ 0 < b.level ∧ ∃ j < 4, (b.child j).IsUp cell ∧ c = addr (b.child j) := by
  obtain ⟨-, -, hchildren, -, -⟩ := h.fields hb hup
  unfold IsChild
  rw [hchildren]
  constructor
  · rintro ⟨j, hj, hc⟩
    obtain ⟨hlevel, -, hchild, rfl⟩ := Block.children_eq_some hc
    exact ⟨hlevel, j, hj, hchild, rfl⟩
  · rintro ⟨hlevel, j, hj, hchild, rfl⟩
    exact ⟨j, hj, if_pos ⟨hlevel, hj, hchild⟩⟩

lemma Forest.below_iff (hroot : Block.IsUp cell ⟨top, 0, 0⟩) :
    Below s.heap (addr ⟨top, 0, 0⟩) n ↔ ∃ b : Block, b.InChip top ∧ b.IsUp cell ∧ addr b = n := by
  constructor
  · intro hbelow
    induction hbelow with
    | refl => exact ⟨_, by simp [Block.InChip], hroot, rfl⟩
    | tail _ hchild ih =>
      obtain ⟨b, hb, hup, rfl⟩ := ih
      obtain ⟨hlevel, j, hj, hchildUp, rfl⟩ := (h.isChild_iff hb hup).mp hchild
      exact ⟨b.child j, hb.child hlevel hj, hchildUp, rfl⟩
  · rintro ⟨b, hb, hup, rfl⟩
    -- from the root down, by the levels that are left
    induction hk : top - b.level generalizing b with
    | zero =>
      rw [hb.eq_root (Nat.le_of_sub_eq_zero hk)]
    | succ k ih =>
      have hlt : b.level < top := by omega
      refine (ih b.up (hb.up hlt) hup.up ?_).tail
        ((h.isChild_iff (hb.up hlt) hup.up).mpr ⟨Nat.succ_pos _, b.slot, b.slot_lt, ?_, ?_⟩)
      · simp only [Block.up]
        omega
      · rwa [b.child_up]
      · rw [b.child_up]

lemma Forest.leaves_succ (hb : b.InChip top) (hup : b.IsUp cell) {k : ℕ} (hlevel : b.level = k + 1) :
    leaves s.heap (k + 1) (addr b) = (List.range 4).flatMap fun j =>
      if (b.child j).IsUp cell then leaves s.heap k (addr (b.child j)) else [] := by
  obtain ⟨hlevel', -, hchildren, -, -⟩ := h.fields hb hup
  rw [leaves, if_neg (by omega), hchildren]
  refine List.flatMap_congr fun j hj => ?_
  have hj4 : j < 4 := List.mem_range.mp hj
  have hpos : 0 < b.level := by omega
  by_cases hchild : (b.child j).IsUp cell
  · simp [Block.children, hpos, hj4, hchild]
  · simp [Block.children, hchild]

lemma Forest.sum_leaves (hb : b.InChip top) (hup : b.IsUp cell) :
    ((leaves s.heap b.level (addr b)).map fun m => (s.heap m).coresNr).sum = b.cores cell := by
  induction hk : b.level generalizing b with
  | zero =>
    obtain ⟨-, -, -, -, hcores⟩ := h.fields hb hup
    simp [leaves, hcores]
  | succ k ih =>
    have hpos : 0 < b.level := by omega
    rw [h.leaves_succ hb hup hk, List.map_flatMap, List.flatMap_def, List.sum_flatten, List.map_map,
      Block.cores_child hpos]
    congr 1
    refine List.map_congr_left fun j hj => ?_
    have hj4 : j < 4 := List.mem_range.mp hj
    rw [Function.comp_apply]
    split_ifs with hchild
    · refine ih (hb.child hpos hj4) hchild ?_
      simp only [Block.child]
      omega
    · rw [Block.cores_of_not_isUp hchild]
      rfl

lemma Forest.leaf_place (hb : b.InChip top) (hup : b.IsUp cell) {m : ℕ}
    (hm : m ∈ leaves s.heap b.level (addr b)) :
    ∃ c : Block, c.InChip top ∧ c.IsUp cell ∧ addr c = m ∧ c.level = 0 ∧
      c.x / 2 ^ b.level = b.x ∧ c.y / 2 ^ b.level = b.y := by
  induction hk : b.level generalizing b with
  | zero =>
    rw [hk, leaves, List.mem_singleton] at hm
    exact ⟨b, hb, hup, hm.symm, hk, by simp, by simp⟩
  | succ k ih =>
    have hpos : 0 < b.level := by omega
    rw [hk, h.leaves_succ hb hup hk, List.mem_flatMap] at hm
    obtain ⟨j, hj, hm⟩ := hm
    have hj4 : j < 4 := List.mem_range.mp hj
    split_ifs at hm with hchild
    · have hlevel : (b.child j).level = k := by
        simp only [Block.child]
        omega
      obtain ⟨c, hc, hcup, hcaddr, hczero, hx, hy⟩ :=
        ih (hb.child hpos hj4) hchild (by rwa [hlevel]) hlevel
      refine ⟨c, hc, hcup, hcaddr, hczero, ?_, ?_⟩
      · rw [pow_succ, ← Nat.div_div_eq_div_mul, hx]
        simp only [Block.child]
        omega
      · rw [pow_succ, ← Nat.div_div_eq_div_mul, hy]
        simp only [Block.child]
        omega
    · exact absurd hm List.not_mem_nil

lemma Forest.addr_inj (hb : b.InChip top) (hup : b.IsUp cell) {c : Block} (hc : c.InChip top)
    (hcup : c.IsUp cell) (heq : addr b = addr c) : b = c :=
  h.inj b hb c hc (.inl hup) (.inl hcup) heq

lemma Forest.nodup_leaves (hb : b.InChip top) (hup : b.IsUp cell) :
    (leaves s.heap b.level (addr b)).Nodup := by
  induction hk : b.level generalizing b with
  | zero => exact List.nodup_singleton _
  | succ k ih =>
    have hpos : 0 < b.level := by omega
    have hlevel : ∀ j, (b.child j).level = k := fun j => by
      simp only [Block.child]
      omega
    rw [h.leaves_succ hb hup hk, List.nodup_flatMap]
    constructor
    · intro j hj
      split_ifs with hchild
      · exact ih (hb.child hpos (List.mem_range.mp hj)) hchild (hlevel j)
      · exact List.nodup_nil
    · refine List.nodup_range.pairwise_of_forall_ne fun i hi j hj hne m hmi hmj => ?_
      have hi4 : i < 4 := List.mem_range.mp hi
      have hj4 : j < 4 := List.mem_range.mp hj
      have hiUp : (b.child i).IsUp cell := by
        by_contra hnot
        simp [hnot] at hmi
      have hjUp : (b.child j).IsUp cell := by
        by_contra hnot
        simp [hnot] at hmj
      simp only [if_pos hiUp, if_pos hjUp] at hmi hmj
      -- one leaf is not of places in two quarters
      rw [← hlevel i] at hmi
      rw [← hlevel j] at hmj
      obtain ⟨c, hc, hcup, hcaddr, -, hcx, hcy⟩ := h.leaf_place (hb.child hpos hi4) hiUp hmi
      obtain ⟨d, hd, hdup, hdaddr, -, hdx, hdy⟩ := h.leaf_place (hb.child hpos hj4) hjUp hmj
      obtain rfl := h.addr_inj hc hcup hd hdup (hcaddr.trans hdaddr.symm)
      rw [hlevel] at hcx hcy hdx hdy
      refine hne (Block.child_inj (b := b) hi4 hj4 ?_)
      ext
      · rw [hlevel, hlevel]
      · rw [← hcx, ← hdx]
      · rw [← hcy, ← hdy]

lemma Forest.wellFormed (hroot : Block.IsUp cell ⟨top, 0, 0⟩)
    (hmesh : ∀ x y cid cores, cell x y = some (cid, cores) → Block.InChip top ⟨0, x, y⟩)
    (hleaf : ∀ x y cid cores, cell x y = some (cid, cores) →
      s.levelsTbl cid 0 = some (addr ⟨0, x, y⟩)) :
    WellFormed cell s (addr ⟨top, 0, 0⟩) := by
  have hbelow := fun {n} => (h.below_iff (n := n) hroot)
  have hchild : ∀ {n j c}, Below s.heap (addr ⟨top, 0, 0⟩) n → j < 4 → (s.heap n).children j = some c →
      ∃ b : Block, b.InChip top ∧ b.IsUp cell ∧ addr b = n ∧ 0 < b.level ∧ (b.child j).IsUp cell ∧
        c = addr (b.child j) := by
    intro n j c hn hj hc
    obtain ⟨b, hb, hup, rfl⟩ := hbelow.mp hn
    obtain ⟨-, -, hchildren, -, -⟩ := h.fields hb hup
    rw [hchildren] at hc
    obtain ⟨hlevel, -, hcup, rfl⟩ := Block.children_eq_some hc
    exact ⟨b, hb, hup, rfl, hlevel, hcup, rfl⟩
  refine ⟨?_, ?_, ?_, ?_, ?_, ?_, ?_, ?_, ?_, ?_, ?_, ?_⟩
  · obtain ⟨parent, index, heap, -, hnone⟩ := h.heap_eq (by simp [Block.InChip]) hroot
    rw [heap]
    exact hnone rfl
  · intro n j c hn hj hc
    obtain ⟨b, hb, hup, rfl, hlevel, hcup, rfl⟩ := hchild hn hj hc
    rw [(h.fields hb hup).1, (h.fields (hb.child hlevel hj) hcup).1]
    exact Nat.sub_lt hlevel Nat.one_pos
  · intro n j c hn hj hc
    obtain ⟨b, hb, hup, rfl, hlevel, hcup, rfl⟩ := hchild hn hj hc
    exact (h.child_fields hb hj hlevel hcup).2
  · intro n j c hn hj hc
    obtain ⟨b, hb, hup, rfl, hlevel, hcup, rfl⟩ := hchild hn hj hc
    exact (h.child_fields hb hj hlevel hcup).1
  · intro n hn hlevel
    obtain ⟨b, hb, hup, rfl⟩ := hbelow.mp hn
    rw [(h.fields hb hup).1] at hlevel
    have hpos : 0 < b.level := Nat.pos_of_ne_zero hlevel
    obtain ⟨j, hj, hcup⟩ := (Block.isUp_iff hpos).mp hup
    exact ⟨_, (h.isChild_iff hb hup).mpr ⟨hpos, j, hj, hcup, rfl⟩⟩
  · intro n hn
    obtain ⟨b, hb, hup, rfl⟩ := hbelow.mp hn
    obtain ⟨-, -, hchildren, hchilds, -⟩ := h.fields hb hup
    rw [hchilds, hchildren]
    refine List.countP_congr fun j hj => ?_
    have hj4 : j < 4 := List.mem_range.mp hj
    simp [Block.children, hj4]
  · intro n hn
    obtain ⟨b, hb, hup, rfl⟩ := hbelow.mp hn
    obtain ⟨hlevel, -, -, -, hcores⟩ := h.fields hb hup
    rw [hlevel, hcores, h.sum_leaves hb hup]
  · intro n hn
    obtain ⟨b, hb, hup, rfl⟩ := hbelow.mp hn
    rw [(h.fields hb hup).1]
    exact h.nodup_leaves hb hup
  · intro x y cid cores hcell
    have hin := hmesh x y cid cores hcell
    have hup : Block.IsUp cell ⟨0, x, y⟩ := isUp_leaf.mpr ⟨cid, cores, hcell⟩
    obtain ⟨hlevel, hhome, -, -, hcores⟩ := h.fields hin hup
    refine ⟨_, hleaf x y cid cores hcell, ⟨hbelow.mpr ⟨_, hin, hup, rfl⟩, hlevel⟩, ?_, ?_⟩
    · rw [hhome]
      simp [Block.home, homeOf, hcell]
    · rw [hcores]
      simp [Block.cores, coresOf, hcell]
  · intro n hn
    obtain ⟨b, hb, hup, rfl⟩ := hbelow.mp hn
    obtain ⟨hlevel, hhome, -, -, -⟩ := h.fields hb hup
    obtain ⟨cid, hcid⟩ := Option.isSome_iff_exists.mp hup
    obtain ⟨x, y, cores, hcell, hplace⟩ := Block.home_present hcid
    refine ⟨x, y, cid, cores, hcell, hhome.trans hcid, fun hzero => ?_⟩
    rw [hplace (hlevel.symm.trans hzero)]
    exact hleaf x y cid cores hcell
  · intro n hn
    obtain ⟨b, hb, hup, rfl⟩ := hbelow.mp hn
    exact h.allocated b hb (.inl hup)
  · intro n hn
    obtain ⟨b, hb, hup, rfl⟩ := hbelow.mp hn
    obtain ⟨parent, index, heap, -, -⟩ := h.heap_eq hb hup
    rw [heap]
    rfl

end Built

end Almos.DqdtBuild
