import Mathlib

/-!
# Bytes and 32-bit words in memory

Memory as a byte for each address, with little-endian words and copies of ranges. A store
or a copy is described by what is read back and by the bytes outside it.
-/
namespace Almos

abbrev ByteMemory : Type := ℕ → BitVec 8

namespace ByteMemory

def load32 (mem : ByteMemory) (a : ℕ) : ℕ :=
  (mem a).toNat + 2 ^ 8 * (mem (a + 1)).toNat + 2 ^ 16 * (mem (a + 2)).toNat +
    2 ^ 24 * (mem (a + 3)).toNat

def store32 (mem : ByteMemory) (a w : ℕ) : ByteMemory := fun x =>
  if a ≤ x ∧ x < a + 4 then BitVec.ofNat 8 (w / 2 ^ (8 * (x - a))) else mem x

def load16 (mem : ByteMemory) (a : ℕ) : ℕ := (mem a).toNat + 2 ^ 8 * (mem (a + 1)).toNat

def store16 (mem : ByteMemory) (a w : ℕ) : ByteMemory := fun x =>
  if a ≤ x ∧ x < a + 2 then BitVec.ofNat 8 (w / 2 ^ (8 * (x - a))) else mem x

/-- `strcpy`, with the NUL. -/
def strcpy (mem : ByteMemory) (dst : ℕ) (s : List (BitVec 8)) : ByteMemory := fun x =>
  if dst ≤ x ∧ x ≤ dst + s.length then s.getD (x - dst) 0 else mem x

def copy (mem : ByteMemory) (dst src n : ℕ) : ByteMemory := fun x =>
  if dst ≤ x ∧ x < dst + n then mem (src + (x - dst)) else mem x

def fill (mem : ByteMemory) (dst n : ℕ) (byte : BitVec 8) : ByteMemory := fun x =>
  if dst ≤ x ∧ x < dst + n then byte else mem x

/-- Two memories hold the same bytes from `a` up to `b`. -/
def SameOn (mem mem' : ByteMemory) (a b : ℕ) : Prop := ∀ x, a ≤ x → x < b → mem' x = mem x

variable {mem mem' mem'' : ByteMemory} {a b c d w n x : ℕ}

lemma SameOn.refl (mem : ByteMemory) (a b : ℕ) : SameOn mem mem a b := fun _ _ _ => rfl

lemma SameOn.trans (h : SameOn mem mem' a b) (h' : SameOn mem' mem'' a b) :
    SameOn mem mem'' a b :=
  fun x hax hxb => (h' x hax hxb).trans (h x hax hxb)

lemma SameOn.mono (h : SameOn mem mem' a b) (hac : a ≤ c) (hdb : d ≤ b) :
    SameOn mem mem' c d :=
  fun x hcx hxd => h x (hac.trans hcx) (hxd.trans_le hdb)

lemma load32_lt (mem : ByteMemory) (a : ℕ) : load32 mem a < 2 ^ 32 := by
  have h₀ := (mem a).isLt
  have h₁ := (mem (a + 1)).isLt
  have h₂ := (mem (a + 2)).isLt
  have h₃ := (mem (a + 3)).isLt
  unfold load32
  omega

lemma SameOn.load32 (h : SameOn mem mem' a (a + 4)) : load32 mem' a = load32 mem a := by
  unfold ByteMemory.load32
  rw [h a (by omega) (by omega), h (a + 1) (by omega) (by omega), h (a + 2) (by omega) (by omega),
    h (a + 3) (by omega) (by omega)]

lemma store32_of_outside (h : x < a ∨ a + 4 ≤ x) : store32 mem a w x = mem x :=
  if_neg (by omega)

lemma load32_store32 (hw : w < 2 ^ 32) : load32 (store32 mem a w) a = w := by
  have hbyte : ∀ i < 4, (store32 mem a w (a + i)).toNat = w / 2 ^ (8 * i) % 2 ^ 8 := by
    intro i hi
    have hin : a ≤ a + i ∧ a + i < a + 4 := ⟨by omega, by omega⟩
    simp only [store32, if_pos hin, Nat.add_sub_cancel_left, BitVec.toNat_ofNat]
  unfold load32
  have h₀ := hbyte 0 (by omega)
  rw [Nat.add_zero] at h₀
  rw [h₀, hbyte 1 (by omega), hbyte 2 (by omega), hbyte 3 (by omega)]
  omega

lemma load32_store32_of_apart (h : b + 4 ≤ a ∨ a + 4 ≤ b) :
    load32 (store32 mem a w) b = load32 mem b :=
  SameOn.load32 fun x hbx hxb => store32_of_outside (by omega)

lemma store32_load32 (mem : ByteMemory) (a : ℕ) : store32 mem a (load32 mem a) = mem := by
  have h₀ := (mem a).isLt
  have h₁ := (mem (a + 1)).isLt
  have h₂ := (mem (a + 2)).isLt
  have h₃ := (mem (a + 3)).isLt
  funext x
  by_cases hout : x < a ∨ a + 4 ≤ x
  · exact store32_of_outside hout
  · have hin : a ≤ x ∧ x < a + 4 := by omega
    rw [store32, if_pos hin]
    refine BitVec.eq_of_toNat_eq ?_
    rw [BitVec.toNat_ofNat]
    unfold load32
    obtain rfl | rfl | rfl | rfl : x = a ∨ x = a + 1 ∨ x = a + 2 ∨ x = a + 3 := by omega
    · rw [Nat.sub_self]
      omega
    · rw [Nat.add_sub_cancel_left]
      omega
    · rw [Nat.add_sub_cancel_left]
      omega
    · rw [Nat.add_sub_cancel_left]
      omega

lemma copy_of_outside {dst src : ℕ} (h : x < dst ∨ dst + n ≤ x) :
    copy mem dst src n x = mem x :=
  if_neg (by omega)

lemma fill_of_outside {dst : ℕ} {byte : BitVec 8} (h : x < dst ∨ dst + n ≤ x) :
    fill mem dst n byte x = mem x :=
  if_neg (by omega)

lemma copy_inside {dst src i : ℕ} (hi : i < n) :
    copy mem dst src n (dst + i) = mem (src + i) := by
  have hin : dst ≤ dst + i ∧ dst + i < dst + n := ⟨by omega, by omega⟩
  rw [copy, if_pos hin, Nat.add_sub_cancel_left]

lemma SameOn.load16 (h : SameOn mem mem' a (a + 2)) : load16 mem' a = load16 mem a := by
  unfold ByteMemory.load16
  rw [h a (by omega) (by omega), h (a + 1) (by omega) (by omega)]

lemma store16_of_outside (h : x < a ∨ a + 2 ≤ x) : store16 mem a w x = mem x := if_neg (by omega)

lemma load16_store16 (hw : w < 2 ^ 16) : load16 (store16 mem a w) a = w := by
  have hbyte : ∀ i < 2, (store16 mem a w (a + i)).toNat = w / 2 ^ (8 * i) % 2 ^ 8 := by
    intro i hi
    have hin : a ≤ a + i ∧ a + i < a + 2 := ⟨by omega, by omega⟩
    simp only [store16, if_pos hin, Nat.add_sub_cancel_left, BitVec.toNat_ofNat]
  have h₀ := hbyte 0 (by omega)
  rw [Nat.add_zero] at h₀
  unfold load16
  rw [h₀, hbyte 1 (by omega)]
  omega

lemma strcpy_of_outside {dst : ℕ} {s : List (BitVec 8)} (h : x < dst ∨ dst + s.length < x) : strcpy mem dst s x = mem x :=
  if_neg (by omega)

lemma strcpy_inside {dst i : ℕ} {s : List (BitVec 8)} (hi : i < s.length) : strcpy mem dst s (dst + i) = s[i] := by
  have hin : dst ≤ dst + i ∧ dst + i ≤ dst + s.length := ⟨by omega, by omega⟩
  rw [strcpy, if_pos hin, Nat.add_sub_cancel_left, List.getD_eq_getElem s 0 hi]

end ByteMemory
end Almos
