import Mathlib
import Almos.DqdtBuild

/-!
# The shape of the built tree

The logical clusters of the blocks of the mesh: at level `k` a block has the side `2 ^ k`. A block that
has no cluster of the mesh is only held until the block above it is made.
-/
namespace Almos.DqdtBuild

@[ext]
structure Block where
  level : ℕ
  x : ℕ
  y : ℕ
deriving DecidableEq

namespace Block

def child (b : Block) (j : ℕ) : Block := ⟨b.level - 1, 2 * b.x + j % 2, 2 * b.y + j / 2⟩

def up (b : Block) : Block := ⟨b.level + 1, b.x / 2, b.y / 2⟩

def slot (b : Block) : ℕ := b.x % 2 + 2 * (b.y % 2)

variable {b c : Block} {j k : ℕ}

lemma slot_lt (b : Block) : b.slot < 4 := by
  unfold slot
  omega

lemma up_child (hlevel : 0 < b.level) (hj : j < 4) : (b.child j).up = b := by
  ext
  · simp only [child, up]
    omega
  · simp only [child, up]
    omega
  · simp only [child, up]
    omega

lemma slot_child (hj : j < 4) : (b.child j).slot = j := by
  simp only [child, slot]
  omega

lemma child_up (b : Block) : b.up.child b.slot = b := by
  ext
  · simp only [child, up]
    omega
  · simp only [child, up, slot]
    omega
  · simp only [child, up, slot]
    omega

lemma child_inj (hj : j < 4) (hk : k < 4) (h : b.child j = b.child k) : j = k := by
  rw [← slot_child hj, h, slot_child hk]

/-- The parts of a block above it in a chip of the side `2 ^ top`. -/
def InChip (top : ℕ) (b : Block) : Prop :=
  b.level ≤ top ∧ b.x < 2 ^ (top - b.level) ∧ b.y < 2 ^ (top - b.level)

lemma InChip.child {top : ℕ} (h : b.InChip top) (hlevel : 0 < b.level) (hj : j < 4) :
    (b.child j).InChip top := by
  obtain ⟨hle, hx, hy⟩ := h
  have hside : 2 ^ (top - (b.level - 1)) = 2 * 2 ^ (top - b.level) := by
    rw [← pow_succ']
    congr 1
    omega
  simp only [InChip, Block.child, hside]
  omega

lemma InChip.eq_root {top : ℕ} (h : b.InChip top) (hlevel : top ≤ b.level) : b = ⟨top, 0, 0⟩ := by
  obtain ⟨hle, hx, hy⟩ := h
  have heq : b.level = top := hle.antisymm hlevel
  rw [heq, Nat.sub_self, pow_zero, Nat.lt_one_iff] at hx hy
  ext
  · exact heq
  · exact hx
  · exact hy

lemma InChip.up {top : ℕ} (h : b.InChip top) (hlevel : b.level < top) : b.up.InChip top := by
  obtain ⟨-, hx, hy⟩ := h
  have hside : 2 ^ (top - b.level) = 2 * 2 ^ (top - (b.level + 1)) := by
    rw [← pow_succ']
    congr 1
    omega
  rw [hside] at hx hy
  simp only [InChip, Block.up]
  omega

end Block

/-- The `cid` and the cores at a place of the mesh. -/
def meshCell (clustersTbl : ℕ → Option ℕ) (header : ArchBibHeader) (x y : ℕ) : Option (ℕ × ℕ) :=
  if x < header.xMax ∧ y < header.yMax then
    (clustersTbl (clusterIndex x y header.yMax)).map fun cores => (clusterIndex x y header.yMax, cores)
  else none

section Mesh
variable (cell : ℕ → ℕ → Option (ℕ × ℕ))

/-- The physical cluster that a block is in the memory of: its own at level zero, else that of the last
quarter that has one. -/
def homeOf : ℕ → ℕ → ℕ → Option ℕ
  | 0, x, y => (cell x y).map Prod.fst
  | k + 1, x, y =>
    (List.range 4).foldl (fun h j => (homeOf k (2 * x + j % 2) (2 * y + j / 2)).or h) none

def coresOf : ℕ → ℕ → ℕ → ℕ
  | 0, x, y => ((cell x y).map Prod.snd).getD 0
  | k + 1, x, y => ((List.range 4).map fun j => coresOf k (2 * x + j % 2) (2 * y + j / 2)).sum

def Block.home (b : Block) : Option ℕ := homeOf cell b.level b.x b.y

def Block.cores (b : Block) : ℕ := coresOf cell b.level b.x b.y

def Block.IsUp (b : Block) : Prop := (b.home cell).isSome

instance (b : Block) : Decidable (b.IsUp cell) := by
  unfold Block.IsUp
  infer_instance

variable {cell} {b : Block}

lemma Block.home_child (hlevel : 0 < b.level) :
    b.home cell = (List.range 4).foldl (fun h j => ((b.child j).home cell).or h) none := by
  obtain ⟨k, hk⟩ := Nat.exists_eq_succ_of_ne_zero hlevel.ne'
  simp only [Block.home, Block.child, hk, homeOf, Nat.succ_eq_add_one, Nat.add_sub_cancel]

lemma Block.cores_child (hlevel : 0 < b.level) :
    b.cores cell = ((List.range 4).map fun j => (b.child j).cores cell).sum := by
  obtain ⟨k, hk⟩ := Nat.exists_eq_succ_of_ne_zero hlevel.ne'
  simp only [Block.cores, Block.child, hk, coresOf, Nat.succ_eq_add_one, Nat.add_sub_cancel]

lemma foldl_or_isSome {α : Type*} (f : ℕ → Option α) (h : Option α) (n : ℕ) :
    ((List.range n).foldl (fun h j => (f j).or h) h).isSome ↔ h.isSome ∨ ∃ j < n, (f j).isSome := by
  induction n with
  | zero => simp
  | succ n ih =>
    rw [List.range_succ, List.foldl_append, List.foldl_cons, List.foldl_nil, Option.isSome_or,
      Bool.or_eq_true, ih]
    constructor
    · rintro (hn | hh | ⟨j, hj, hsome⟩)
      · exact .inr ⟨n, Nat.lt_succ_self n, hn⟩
      · exact .inl hh
      · exact .inr ⟨j, Nat.lt_succ_of_lt hj, hsome⟩
    · rintro (hh | ⟨j, hj, hsome⟩)
      · exact .inr (.inl hh)
      · rcases Nat.lt_succ_iff_lt_or_eq.mp hj with hlt | rfl
        · exact .inr (.inr ⟨j, hlt, hsome⟩)
        · exact .inl hsome

lemma Block.isUp_iff (hlevel : 0 < b.level) :
    b.IsUp cell ↔ ∃ j < 4, (b.child j).IsUp cell := by
  rw [Block.IsUp, Block.home_child hlevel, foldl_or_isSome]
  simp [Block.IsUp]

lemma Block.IsUp.up (h : b.IsUp cell) : b.up.IsUp cell := by
  rw [Block.isUp_iff (Nat.succ_pos _)]
  exact ⟨b.slot, b.slot_lt, by rwa [b.child_up]⟩

lemma Block.IsUp.chip {top : ℕ} (hup : b.IsUp cell) (hb : b.InChip top) :
    Block.IsUp cell ⟨top, 0, 0⟩ := by
  induction hk : top - b.level generalizing b with
  | zero =>
    rw [hb.eq_root (by omega)] at hup
    exact hup
  | succ k ih =>
    refine ih hup.up (hb.up (by omega)) ?_
    simp only [Block.up]
    omega

lemma Block.cores_of_not_isUp (h : ¬ b.IsUp cell) : b.cores cell = 0 := by
  obtain ⟨k, x, y⟩ := b
  induction k generalizing x y with
  | zero =>
    simp only [Block.IsUp, Block.home, homeOf, Option.isSome_map, Bool.not_eq_true,
      Option.isSome_eq_false_iff, Option.isNone_iff_eq_none] at h
    simp [Block.cores, coresOf, h]
  | succ k ih =>
    rw [Block.isUp_iff (Nat.succ_pos k)] at h
    rw [Block.cores_child (Nat.succ_pos k), List.sum_eq_zero]
    intro n hn
    obtain ⟨j, hj, rfl⟩ := List.mem_map.mp hn
    exact ih _ _ fun hup => h ⟨j, List.mem_range.mp hj, hup⟩

end Mesh

section Forest
variable (cell : ℕ → ℕ → Option (ℕ × ℕ)) (addr : Block → ℕ)

def Block.children (b : Block) (j : ℕ) : Option ℕ :=
  if 0 < b.level ∧ j < 4 ∧ (b.child j).IsUp cell then some (addr (b.child j)) else none

def Block.childsNr (b : Block) : ℕ :=
  (List.range 4).countP fun j => 0 < b.level ∧ (b.child j).IsUp cell

def Block.logical (b : Block) (parent : Option ℕ) (index : ℕ) : DqdtCluster :=
  { zeroCluster with
    index, parent
    level := b.level
    flags := if b.IsUp cell then dqdtClusterUp else 0
    childsNr := b.childsNr cell
    coresNr := b.cores cell
    home := b.home cell
    children := b.children cell addr }

/-- Each block that is made has a logical cluster, of its own as long as it is held: if it is up, or
not yet part of another one. -/
structure Forest (made : Set Block) (s : Boot) : Prop where
  closed : ∀ b ∈ made, 0 < b.level → ∀ j < 4, b.child j ∈ made
  allocated : ∀ b ∈ made, b.IsUp cell ∨ b.up ∉ made → addr b ∈ s.allocated
  inj : ∀ b ∈ made, ∀ c ∈ made, b.IsUp cell ∨ b.up ∉ made → c.IsUp cell ∨ c.up ∉ made →
    addr b = addr c → b = c
  top : ∀ b ∈ made, b.up ∉ made → s.heap (addr b) = b.logical cell addr none 0
  inner : ∀ b ∈ made, b.IsUp cell → b.up ∈ made →
    s.heap (addr b) = b.logical cell addr (some (addr b.up)) b.slot

variable {cell addr} {made : Set Block} {s s' : Boot} {b : Block} {ptr : ℕ}

lemma Block.logical_congr {addr' : Block → ℕ} (parent : Option ℕ) (index : ℕ)
    (h : 0 < b.level → ∀ j < 4, addr' (b.child j) = addr (b.child j)) :
    b.logical cell addr' parent index = b.logical cell addr parent index := by
  have hchildren : b.children cell addr' = b.children cell addr := by
    funext j
    unfold Block.children
    split_ifs with hj
    · rw [h hj.1 j hj.2.1]
    · rfl
  unfold Block.logical
  rw [hchildren]

structure Made (cell : ℕ → ℕ → Option (ℕ × ℕ)) (addr : Block → ℕ) (b : Block) (ptr : ℕ)
    (s s' : Boot) : Prop where
  self : s'.heap ptr = b.logical cell addr none 0
  child : 0 < b.level → ∀ j < 4, (b.child j).IsUp cell →
    s'.heap (addr (b.child j)) = { s.heap (addr (b.child j)) with index := j, parent := some ptr }
  other : ∀ q ∈ s.allocated, (0 < b.level → ∀ j < 4, q ≠ addr (b.child j)) → s'.heap q = s.heap q
  allocated : ∀ q, q ∈ s'.allocated ↔ q = ptr ∨
    q ∈ s.allocated ∧ ∀ j < 4, 0 < b.level → ¬ (b.child j).IsUp cell → q ≠ addr (b.child j)

lemma Block.up_eq {c : Block} (h : c.up = b) : 0 < b.level ∧ c = b.child c.slot := by
  subst h
  exact ⟨Nat.succ_pos _, (c.child_up).symm⟩

lemma Forest.make (h : Forest cell addr made s) (hnew : b ∉ made) (hup : b.up ∉ made)
    (hchild : 0 < b.level → ∀ j < 4, b.child j ∈ made) (hfresh : ptr ∉ s.allocated)
    (hmade : Made cell addr b ptr s s') :
    Forest cell (Function.update addr b ptr) (insert b made) s' := by
  have hne : ∀ c ∈ made, c ≠ b := fun c hc hcb => hnew (hcb ▸ hc)
  have haddr : ∀ c ∈ made, Function.update addr b ptr c = addr c := fun c hc =>
    Function.update_of_ne (hne c hc) _ _
  have hself : Function.update addr b ptr b = ptr := Function.update_self _ _ _
  have hbup : b.up ≠ b := fun heq => by
    have := congrArg Block.level heq
    simp [Block.up] at this
  -- of the blocks that were held, those that are still held
  have hheld : ∀ c ∈ made, c.IsUp cell ∨ c.up ∉ insert b made → c.IsUp cell ∨ c.up ∉ made :=
    fun c _ hc => hc.imp_right fun hc hmem => hc (.inr hmem)
  -- a held block is another one than the quarters
  have hdistinct : ∀ c ∈ made, c.up ≠ b → (c.IsUp cell ∨ c.up ∉ made) →
      0 < b.level → ∀ j < 4, addr c ≠ addr (b.child j) := by
    intro c hc hcup hcheld hlevel j hj heq
    have hbc := hchild hlevel j hj
    have hbcup : (b.child j).up ∉ made := by
      rwa [Block.up_child hlevel hj]
    refine hcup ?_
    rw [h.inj c hc _ hbc hcheld (.inr hbcup) heq, Block.up_child hlevel hj]
  have hlogical : ∀ c ∈ insert b made, ∀ parent index,
      c.logical cell (Function.update addr b ptr) parent index = c.logical cell addr parent index := by
    intro c hc parent index
    refine Block.logical_congr parent index fun hlevel j hj => ?_
    rcases hc with rfl | hc
    · exact haddr _ (hchild hlevel j hj)
    · exact haddr _ (h.closed c hc hlevel j hj)
  refine ⟨?_, ?_, ?_, ?_, ?_⟩
  · rintro c (rfl | hc) hlevel j hj
    · exact .inr (hchild hlevel j hj)
    · exact .inr (h.closed c hc hlevel j hj)
  · rintro c (rfl | hc) hcheld
    · rw [hself, hmade.allocated]
      exact .inl rfl
    · rw [haddr c hc, hmade.allocated]
      refine .inr ⟨h.allocated c hc (hheld c hc hcheld), fun j hj hlevel hnotUp => ?_⟩
      by_cases hcup : c.up = b
      · -- a quarter that is not up is no longer held
        obtain ⟨-, hcslot⟩ := Block.up_eq hcup
        have hcIsUp : c.IsUp cell := hcheld.resolve_right fun hn => hn (.inl hcup)
        intro heq
        have hbcup : (b.child j).up ∉ made := by
          rwa [Block.up_child hlevel hj]
        have hcj := h.inj c hc _ (hchild hlevel j hj) (.inl hcIsUp) (.inr hbcup) heq
        exact hnotUp (hcj ▸ hcIsUp)
      · exact hdistinct c hc hcup (hheld c hc hcheld) hlevel j hj
  · have hsep : ∀ c ∈ made, (c.IsUp cell ∨ c.up ∉ insert b made) → addr c ≠ ptr :=
      fun c hc hcheld heq => hfresh (heq ▸ h.allocated c hc (hheld c hc hcheld))
    rintro c (rfl | hc) d (rfl | hd) hcheld hdheld heq
    · rfl
    · rw [hself, haddr d hd] at heq
      exact absurd heq.symm (hsep d hd hdheld)
    · rw [hself, haddr c hc] at heq
      exact absurd heq (hsep c hc hcheld)
    · rw [haddr c hc, haddr d hd] at heq
      exact h.inj c hc d hd (hheld c hc hcheld) (hheld d hd hdheld) heq
  · rintro c hcm hcup
    rw [hlogical c hcm]
    rcases hcm with rfl | hc
    · rw [hself, hmade.self]
    · have hcup' : c.up ∉ made := fun hmem => hcup (.inr hmem)
      have hcb : c.up ≠ b := fun heq => hcup (.inl heq)
      rw [haddr c hc, hmade.other _ (h.allocated c hc (.inr hcup'))
        (hdistinct c hc hcb (.inr hcup')), h.top c hc hcup']
  · rintro c hcm hcIsUp hcup
    rw [hlogical c hcm]
    rcases hcm with rfl | hc
    · rcases hcup with heq | hmem
      · exact absurd heq hbup
      · exact absurd hmem hup
    · rw [haddr c hc]
      rcases hcup with hcb | hmem
      · -- the quarters that are up get their parent
        obtain ⟨hlevel, hcslot⟩ := Block.up_eq hcb
        have hchildUp : (b.child c.slot).IsUp cell := hcslot ▸ hcIsUp
        have hcup' : c.up ∉ made := hcb ▸ hnew
        have hheap := hmade.child hlevel c.slot c.slot_lt hchildUp
        rw [← hcslot] at hheap
        rw [hheap, h.top c hc hcup', hcb, hself]
        rfl
      · have hcb : c.up ≠ b := hne _ hmem
        rw [hmade.other _ (h.allocated c hc (.inl hcIsUp)) (hdistinct c hc hcb (.inl hcIsUp)),
          h.inner c hc hcIsUp hmem, haddr _ hmem]

end Forest

end Almos.DqdtBuild
