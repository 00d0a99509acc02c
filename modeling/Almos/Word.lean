import Mathlib

/-!
# Unsigned machine words

Natural numbers reduced modulo `2 ^ 32` stand for the `uint_t` of a 32-bit target.
An operation that does not wrap is the plain operation on natural numbers.
-/
namespace Almos

inductive Errno
  | enomem
  | eexist
  | einval
  | eagain
  deriving DecidableEq

namespace Word

def wadd (a b : ℕ) : ℕ := (a + b) % 2 ^ 32

def wsub (a b : ℕ) : ℕ := (((a : ℤ) - b) % 2 ^ 32).toNat

theorem wadd_lt (a b : ℕ) : wadd a b < 2 ^ 32 := Nat.mod_lt _ (by decide)

theorem wsub_lt (a b : ℕ) : wsub a b < 2 ^ 32 := by
  unfold wsub
  omega

theorem wadd_of_lt {a b : ℕ} (h : a + b < 2 ^ 32) : wadd a b = a + b :=
  Nat.mod_eq_of_lt h

theorem wsub_of_le {a b : ℕ} (hb : b ≤ a) (ha : a < 2 ^ 32) : wsub a b = a - b := by
  unfold wsub
  omega

end Word
end Almos
