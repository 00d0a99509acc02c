import Mathlib

/-!
# Red-black trees with a hole

A path is a tree with a hole. Left and right are treated alike: `join d` puts a tree on side `d`
of a node and another one on the other side. The repairs after a new red node and after a
removed black one are stated for the place where the tree is wrong.
-/
namespace Almos.RedBlack
open RBTree RBTree.RBNode RBTree.RBColor

inductive Side
  | left
  | right
  deriving DecidableEq

namespace Side

def other : Side → Side
  | left => right
  | right => left

@[simp] lemma other_other (d : Side) : d.other.other = d := by cases d <;> rfl

end Side

variable {α : Type*} {c c' c₀ : RBColor} {d : Side} {v w : α} {x y z t : RBNode α} {path : Path α}
  {n n₀ : ℕ}

/-- The node with `x` on side `d`. -/
def join (d : Side) (c : RBColor) (v : α) (x y : RBNode α) : RBNode α :=
  match d with
  | .left => .node c x v y
  | .right => .node c y v x

/-- The hole on side `d` of a node. -/
def down (d : Side) (c : RBColor) (v : α) (y : RBNode α) (path : Path α) : Path α :=
  match d with
  | .left => .left c path v y
  | .right => .right c y v path

@[simp] lemma fill_down : (down d c v y path).fill x = path.fill (join d c v x y) := by
  cases d <;> rfl

lemma join_other : join d.other c v x y = join d c v y x := by cases d <;> rfl

@[simp] lemma setBlack_join : (join d c v x y).setBlack = join d black v x y := by
  cases d <;> rfl

lemma exists_join (d : Side) (h : t ≠ nil) : ∃ c v x y, t = join d c v x y := by
  cases t with
  | nil => exact absurd rfl h
  | node c l v r =>
    cases d with
    | left => exact ⟨c, v, l, r, rfl⟩
    | right => exact ⟨c, v, r, l, rfl⟩

lemma path_cases (path : Path α) : path = .root ∨ ∃ d c v y path', path = down d c v y path' := by
  cases path with
  | root => exact .inl rfl
  | left c path' v y => exact .inr ⟨.left, c, v, y, path', rfl⟩
  | right c y v path' => exact .inr ⟨.right, c, v, y, path', rfl⟩

theorem path_induction {motive : Path α → Prop} (root : motive .root)
    (down : ∀ d c v y path, motive path → motive (down d c v y path)) (path : Path α) :
    motive path := by
  induction path with
  | root => exact root
  | left c path v y ih => exact down .left c v y path ih
  | right c y v path ih => exact down .right c v y path ih

theorem toList_fill (path : Path α) (t : RBNode α) :
    (path.fill t).toList = path.listL ++ t.toList ++ path.listR := Path.fill_toList

lemma toList_join_color (c c' : RBColor) : (join d c v x y).toList = (join d c' v x y).toList := by
  cases d <;> simp [join]

lemma Balanced.join_red (hx : x.Balanced black n) (hy : y.Balanced black n) :
    (join d red v x y).Balanced red n := by
  cases d with
  | left => exact .red hx hy
  | right => exact .red hy hx

lemma Balanced.join_black {c₁ c₂ : RBColor} (hx : x.Balanced c₁ n) (hy : y.Balanced c₂ n) :
    (join d black v x y).Balanced black (n + 1) := by
  cases d with
  | left => exact .black hx hy
  | right => exact .black hy hx

lemma Balanced.of_join (h : (join d c' v x y).Balanced c n) :
    c = c' ∧ (c = red ∧ x.Balanced black n ∧ y.Balanced black n ∨
      c = black ∧ ∃ m c₁ c₂, n = m + 1 ∧ x.Balanced c₁ m ∧ y.Balanced c₂ m) := by
  cases d with
  | left =>
    cases h with
    | red hx hy => exact ⟨rfl, .inl ⟨rfl, hx, hy⟩⟩
    | black hx hy => exact ⟨rfl, .inr ⟨rfl, _, _, _, rfl, hx, hy⟩⟩
  | right =>
    cases h with
    | red hx hy => exact ⟨rfl, .inl ⟨rfl, hy, hx⟩⟩
    | black hx hy => exact ⟨rfl, .inr ⟨rfl, _, _, _, rfl, hy, hx⟩⟩

lemma Balanced.of_red (h : (join d c' v x y).Balanced red n) :
    c' = red ∧ x.Balanced black n ∧ y.Balanced black n := by
  obtain ⟨rfl, ⟨-, hx, hy⟩ | ⟨hc, -⟩⟩ := Balanced.of_join h
  · exact ⟨rfl, hx, hy⟩
  · cases hc

lemma Balanced.of_black (h : (join d c' v x y).Balanced black n) :
    c' = black ∧ ∃ m c₁ c₂, n = m + 1 ∧ x.Balanced c₁ m ∧ y.Balanced c₂ m := by
  obtain ⟨rfl, ⟨hc, -⟩ | ⟨-, h⟩⟩ := Balanced.of_join h
  · cases hc
  · exact ⟨rfl, h⟩

lemma Path.Balanced.black_of_red (h : path.Balanced black n₀ red n) :
    path.Balanced black n₀ black n := by
  cases h with
  | blackL hy hpath => exact .blackL hy hpath
  | blackR hx hpath => exact .blackR hx hpath

lemma Path.Balanced.down_red (hy : y.Balanced black n) (h : path.Balanced c₀ n₀ red n) :
    (down d red v y path).Balanced c₀ n₀ black n := by
  cases d with
  | left => exact .redL hy h
  | right => exact .redR hy h

lemma Path.Balanced.down_black {c₁ c₂ : RBColor} (hy : y.Balanced c₁ n)
    (h : path.Balanced c₀ n₀ black (n + 1)) : (down d black v y path).Balanced c₀ n₀ c₂ n := by
  cases d with
  | left => exact .blackL hy h
  | right => exact .blackR hy h

lemma Path.Balanced.of_down (h : (down d c' v y path).Balanced c₀ n₀ c n) :
    c' = red ∧ c = black ∧ y.Balanced black n ∧ path.Balanced c₀ n₀ red n ∨
      c' = black ∧ (∃ c₁, y.Balanced c₁ n) ∧ path.Balanced c₀ n₀ black (n + 1) := by
  cases d with
  | left =>
    cases h with
    | redL hy hpath => exact .inl ⟨rfl, rfl, hy, hpath⟩
    | blackL hy hpath => exact .inr ⟨rfl, ⟨_, hy⟩, hpath⟩
  | right =>
    cases h with
    | redR hy hpath => exact .inl ⟨rfl, rfl, hy, hpath⟩
    | blackR hy hpath => exact .inr ⟨rfl, ⟨_, hy⟩, hpath⟩

theorem Path.Balanced.of_fill (h : (path.fill t).Balanced black n₀) :
    ∃ c n, path.Balanced black n₀ c n ∧ t.Balanced c n := by
  induction path using path_induction generalizing t with
  | root => exact ⟨black, n₀, .root, h⟩
  | down d c v y path ih =>
    rw [fill_down] at h
    obtain ⟨c₁, n, hpath, ht⟩ := ih h
    obtain ⟨rfl, ⟨rfl, hx, hy⟩ | ⟨rfl, m, c₂, c₃, rfl, hx, hy⟩⟩ := Balanced.of_join ht
    · exact ⟨black, n, Path.Balanced.down_red hy hpath, hx⟩
    · exact ⟨c₂, m, Path.Balanced.down_black hy hpath, hx⟩

def Lacking (t : RBNode α) (n : ℕ) : Prop :=
  t.Balanced black n ∨ ∃ d v x y, t = join d red v x y ∧ (join d black v x y).Balanced black (n + 1)

lemma lacking_red (hx : x.Balanced c n) (hy : y.Balanced c' n) : Lacking (join d red v x y) n :=
  .inr ⟨d, v, x, y, rfl, Balanced.join_black hx hy⟩

end Almos.RedBlack
