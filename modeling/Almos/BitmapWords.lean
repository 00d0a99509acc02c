import Almos.Bits

/-!
# Bitmaps as arrays of words

The searches and the ranges of bits on bitmaps with an end. An access to a word past the end has no
result. What is found or changed is what the operations on unbounded bitmaps find or change.
-/
namespace Almos.BitmapWords
open Bits

/-- The value of an unsigned word as `sint_t`. -/
def sint (n : ℕ) : ℤ := (n : ℤ).bmod (2 ^ 32)

def position : Option ℕ → ℤ
  | some k => sint k
  | none => -1

/-- The loop over whole words of both searches, which leaves out the words equal to `skip`. -/
def scanWords (scan : BitVec 32 → ℕ → ℕ → Option ℕ) (skip : BitVec 32)
    (bitmap : List (BitVec 32)) : ℕ → ℕ → Option (Option ℕ)
  | 0, _ => some none
  | n + 1, i => do
      let w ← bitmap[i]?
      match if w ≠ skip then scan w cpuWidth 0 else none with
      | some j => some (some (i * cpuWidth + j))
      | none => scanWords scan skip bitmap n (i + 1)

/-- Both searches: the first bit that `scan` finds from `index` on, in a bitmap of `size` bytes. -/
def search (scan : BitVec 32 → ℕ → ℕ → Option ℕ) (skip : BitVec 32)
    (bitmap : List (BitVec 32)) (index size : ℕ) : Option ℤ :=
  let i := index / cpuWidth
  let j := index % cpuWidth
  -- size <<= 3
  let words := size * 8 % 2 ^ 32 / cpuWidth
  if j ≠ 0 then do
    let w ← bitmap[i]?
    match scan w (cpuWidth - j) j with
    | some j => some (position (some (i * cpuWidth + j)))
    | none => (scanWords scan skip bitmap (words - (i + 1)) (i + 1)).map position
  else (scanWords scan skip bitmap (words - i) i).map position

def bitmapFfs2 (bitmap : List (BitVec 32)) (index size : ℕ) : Option ℤ :=
  search scanWord 0#32 bitmap index size

def bitmapFfc2 (bitmap : List (BitVec 32)) (index size : ℕ) : Option ℤ :=
  search scanWordClear (-1#32) bitmap index size

/-- The loop of both range operations. The sum of `len` and `index` is compared as an unsigned word,
which two values of `sint_t` that are not negative do not exceed. -/
def rangeLoop (op : BitVec 32 → BitVec 32 → BitVec 32) :
    ℕ → List (BitVec 32) → ℕ → ℕ → ℕ → Option (List (BitVec 32))
  | 0, bitmap, _, _, _ => some bitmap
  | fuel + 1, bitmap, i, index, len =>
      if len = 0 then some bitmap
      else if cpuWidth ≤ len + index then do
        let val := if index = 0 then BitVec.allOnes 32 else 1#32 <<< (cpuWidth - index) - 1#32
        let w ← bitmap[i]?
        rangeLoop op fuel (bitmap.set i (op w (val <<< index))) (i + 1) 0
          (len - (cpuWidth - index))
      else do
        let w ← bitmap[i]?
        some (bitmap.set i (op w ((1#32 <<< len - 1#32) <<< index)))

def bitmapSetRange (bitmap : List (BitVec 32)) (index len : ℕ) : Option (List (BitVec 32)) :=
  rangeLoop (fun w mask => w ||| mask) len bitmap (index / cpuWidth) (index % cpuWidth) len

def bitmapClearRange (bitmap : List (BitVec 32)) (index len : ℕ) : Option (List (BitVec 32)) :=
  rangeLoop (fun w mask => w &&& ~~~mask) len bitmap (index / cpuWidth) (index % cpuWidth) len

def unbounded (bitmap : List (BitVec 32)) : Bitmap := fun i => bitmap.getD i 0#32

/-- `bitmap_state` -/
def state (bitmap : List (BitVec 32)) (k : ℕ) : Bool := bitmapState (unbounded bitmap) k

variable {bitmap : List (BitVec 32)}

lemma getElem?_eq_unbounded {i : ℕ} (hi : i < bitmap.length) :
    bitmap[i]? = some (unbounded bitmap i) := by
  simp [unbounded, hi]

lemma unbounded_set {i : ℕ} (hi : i < bitmap.length) (w : BitVec 32) :
    unbounded (bitmap.set i w) = setWord (unbounded bitmap) i w := by
  funext k
  unfold unbounded setWord
  by_cases hk : k = i
  · subst hk
    simp [hi]
  · rw [Function.update_of_ne hk]
    simp [Ne.symm hk]

def complemented (bitmap : List (BitVec 32)) : List (BitVec 32) := bitmap.map fun w => ~~~w

lemma state_complemented {k : ℕ} (hk : k < cpuWidth * bitmap.length) :
    state (complemented bitmap) k = !state bitmap k := by
  have hword : k / cpuWidth < bitmap.length := by
    unfold cpuWidth at *
    omega
  have hbit : k % cpuWidth < 32 := Nat.mod_lt _ (by decide)
  unfold state bitmapState unbounded complemented
  simp [hword, hbit]

lemma complemented_complemented (bitmap : List (BitVec 32)) :
    complemented (complemented bitmap) = bitmap := by
  simp [complemented, Function.comp_def]

lemma length_complemented (bitmap : List (BitVec 32)) :
    (complemented bitmap).length = bitmap.length := List.length_map ..

lemma scanWords_eq {n i : ℕ} (h : i + n ≤ bitmap.length) :
    scanWords scanWord 0#32 bitmap n i = some (Bits.scanWords (unbounded bitmap) n i) := by
  induction n generalizing i with
  | zero => rfl
  | succ n ih =>
    rw [scanWords, getElem?_eq_unbounded (by omega), Option.bind_eq_bind, Option.bind_some,
      ih (by omega), Bits.scanWords]
    simp only [BitVec.ofNat_eq_ofNat]
    cases if unbounded bitmap i ≠ 0 then scanWord (unbounded bitmap i) cpuWidth 0 else none <;> rfl

lemma scanWords_complemented (n i : ℕ) :
    scanWords scanWordClear (-1#32) bitmap n i = scanWords scanWord 0#32 (complemented bitmap) n i := by
  induction n generalizing i with
  | zero => rfl
  | succ n ih =>
    rw [scanWords, scanWords, ih, complemented, List.getElem?_map]
    cases bitmap[i]? with
    | none => rfl
    | some w =>
      have hskip : w = -1#32 ↔ ~~~w = 0#32 := by
        constructor
        · rintro rfl
          rfl
        · intro hzero
          have hnot : ~~~(~~~w) = ~~~(0#32) := congrArg (~~~·) hzero
          rwa [BitVec.not_not] at hnot
      simp only [Option.map_some, Option.bind_eq_bind, Option.bind_some, ne_eq, hskip,
        scanWordClear_eq w (show 0 + cpuWidth ≤ 32 by decide)]

lemma bitmapFfc2_complemented (index size : ℕ) :
    bitmapFfc2 bitmap index size = bitmapFfs2 (complemented bitmap) index size := by
  have hj : index % cpuWidth < 32 := Nat.mod_lt _ (by decide)
  unfold bitmapFfc2 bitmapFfs2 search
  simp only [scanWords_complemented, complemented, List.getElem?_map]
  cases bitmap[index / cpuWidth]? with
  | none => rfl
  | some w =>
    simp only [Option.map_some, Option.bind_eq_bind, Option.bind_some,
      scanWordClear_eq w (show index % cpuWidth + (cpuWidth - index % cpuWidth) ≤ 32 by
        unfold cpuWidth at *; omega)]

/-- As long as the shift of the size does not wrap, the search is the one of an unbounded bitmap. -/
lemma bitmapFfs2_eq (hlength : bitmap.length < 2 ^ 27) {index : ℕ}
    (hindex : index < cpuWidth * bitmap.length) :
    bitmapFfs2 bitmap index (4 * bitmap.length) =
      some (position (Bits.bitmapFfs2 (unbounded bitmap) index (4 * bitmap.length))) := by
  have hwords : 4 * bitmap.length * 8 % 2 ^ 32 / cpuWidth = bitmap.length := by
    unfold cpuWidth
    omega
  have hwords' : 4 * bitmap.length * 8 / cpuWidth = bitmap.length := by
    unfold cpuWidth
    omega
  have hi : index / cpuWidth < bitmap.length := by
    unfold cpuWidth at *
    omega
  unfold bitmapFfs2 search Bits.bitmapFfs2
  simp only [hwords, hwords', getElem?_eq_unbounded hi, Option.bind_eq_bind, Option.bind_some,
    scanWords_eq (show index / cpuWidth + (bitmap.length - index / cpuWidth) ≤ bitmap.length by omega),
    scanWords_eq (show index / cpuWidth + 1 + (bitmap.length - (index / cpuWidth + 1)) ≤
      bitmap.length by omega), Option.map_some]
  split_ifs with hj
  · cases scanWord (unbounded bitmap (index / cpuWidth)) (cpuWidth - index % cpuWidth)
      (index % cpuWidth) <;> rfl
  · rfl

/-- The first bit with a value from `index` on, or -1 without one. -/
def IsFirst (value : Bool) (bitmap : List (BitVec 32)) (index : ℕ) (r : ℤ) : Prop :=
  (∃ k : ℕ, r = k ∧ index ≤ k ∧ k < cpuWidth * bitmap.length ∧ state bitmap k = value ∧
    ∀ i, index ≤ i → i < k → state bitmap i = !value) ∨
  r = -1 ∧ ∀ i, index ≤ i → i < cpuWidth * bitmap.length → state bitmap i = !value

lemma sint_of_lt {n : ℕ} (h : n < 2 ^ 31) : sint n = n := by
  unfold sint
  rw [Int.bmod_eq_of_le] <;> omega

lemma bitmapFfs2_isFirst (hlength : bitmap.length ≤ 2 ^ 26) {index : ℕ}
    (hindex : index < cpuWidth * bitmap.length) :
    ∃ r, bitmapFfs2 bitmap index (4 * bitmap.length) = some r ∧ IsFirst true bitmap index r := by
  have hsize : 4 * bitmap.length * 8 = cpuWidth * bitmap.length := by
    unfold cpuWidth
    omega
  have hspec := bitmapFfs2_spec (unbounded bitmap) (hsize ▸ hindex) ⟨bitmap.length, hsize⟩
  rw [hsize] at hspec
  refine ⟨_, bitmapFfs2_eq (by omega) hindex, ?_⟩
  cases hfound : Bits.bitmapFfs2 (unbounded bitmap) index (4 * bitmap.length) with
  | none =>
    rw [hfound] at hspec
    exact Or.inr ⟨rfl, hspec⟩
  | some k =>
    rw [hfound] at hspec
    obtain ⟨hlo, hhi, hset, hbefore⟩ := hspec
    refine Or.inl ⟨k, sint_of_lt ?_, hlo, hhi, hset, hbefore⟩
    unfold cpuWidth at hhi
    omega

lemma bitmapFfc2_isFirst (hlength : bitmap.length ≤ 2 ^ 26) {index : ℕ}
    (hindex : index < cpuWidth * bitmap.length) :
    ∃ r, bitmapFfc2 bitmap index (4 * bitmap.length) = some r ∧ IsFirst false bitmap index r := by
  have hlen := length_complemented bitmap
  obtain ⟨r, hr, hfirst⟩ := bitmapFfs2_isFirst (hlen.trans_le hlength) (hlen.symm ▸ hindex)
  rw [hlen, ← bitmapFfc2_complemented] at hr
  refine ⟨r, hr, ?_⟩
  obtain ⟨k, rfl, hlo, hhi, hset, hbefore⟩ | ⟨rfl, hnone⟩ := hfirst
  · rw [hlen] at hhi
    rw [state_complemented hhi, Bool.not_eq_true'] at hset
    refine Or.inl ⟨k, rfl, hlo, hhi, hset, fun i hi hlt => ?_⟩
    have hclear := hbefore i hi hlt
    rw [state_complemented (hlt.trans hhi)] at hclear
    simpa using hclear
  · refine Or.inr ⟨rfl, fun i hi hlt => ?_⟩
    have hclear := hnone i hi (hlen.symm ▸ hlt)
    rw [state_complemented hlt] at hclear
    simpa using hclear

lemma rangeLoop_or (bitmap : List (BitVec 32)) {fuel i index len : ℕ} (hindex : index < cpuWidth) (hlen : len ≤ fuel)
    (h : i * cpuWidth + index + len ≤ cpuWidth * bitmap.length) :
    ∃ changed, rangeLoop (fun w mask => w ||| mask) fuel bitmap i index len = some changed ∧
      changed.length = bitmap.length ∧
      unbounded changed = setRangeLoop fuel (unbounded bitmap) i index len := by
  induction fuel generalizing bitmap i index len with
  | zero => exact ⟨bitmap, rfl, rfl, rfl⟩
  | succ fuel ih =>
    by_cases hz : len = 0
    · subst hz
      exact ⟨bitmap, rfl, rfl, rfl⟩
    · have hi : i < bitmap.length := by
        unfold cpuWidth at *
        omega
      rw [rangeLoop, setRangeLoop, if_neg hz, if_neg hz, getElem?_eq_unbounded hi]
      simp only [Option.bind_eq_bind, Option.bind_some]
      by_cases hfull : cpuWidth ≤ len + index
      · rw [if_pos hfull, if_pos hfull, ← unbounded_set hi]
        have hend : ∀ w, (i + 1) * cpuWidth + 0 + (len - (cpuWidth - index)) ≤
            cpuWidth * (bitmap.set i w).length := by
          intro w
          rw [List.length_set]
          unfold cpuWidth at *
          omega
        obtain ⟨changed, hchanged, hlength, heq⟩ := ih _ (show 0 < cpuWidth by decide)
          (show len - (cpuWidth - index) ≤ fuel by omega) (hend _)
        exact ⟨changed, hchanged, hlength.trans List.length_set, heq⟩
      · rw [if_neg hfull, if_neg hfull, ← unbounded_set hi]
        exact ⟨_, rfl, List.length_set, rfl⟩

lemma complemented_set (bitmap : List (BitVec 32)) (i : ℕ) (w : BitVec 32) :
    complemented (bitmap.set i w) = (complemented bitmap).set i (~~~w) := List.map_set

lemma rangeLoop_clear (bitmap : List (BitVec 32)) (fuel i index len : ℕ) :
    rangeLoop (fun w mask => w &&& ~~~mask) fuel bitmap i index len =
      (rangeLoop (fun w mask => w ||| mask) fuel (complemented bitmap) i index len).map
        complemented := by
  induction fuel generalizing bitmap i index len with
  | zero => exact congrArg some (complemented_complemented bitmap).symm
  | succ fuel ih =>
    have hget : (complemented bitmap)[i]? = bitmap[i]?.map fun w => ~~~w := List.getElem?_map ..
    by_cases hz : len = 0
    · rw [rangeLoop, rangeLoop, if_pos hz, if_pos hz]
      exact congrArg some (complemented_complemented bitmap).symm
    · rw [rangeLoop, rangeLoop, if_neg hz, if_neg hz, hget]
      cases bitmap[i]? with
      | none =>
        split
        · rfl
        · rfl
      | some w =>
        simp only [Option.map_some, Option.bind_eq_bind, Option.bind_some]
        by_cases hfull : cpuWidth ≤ len + index
        · rw [if_pos hfull, if_pos hfull, ih, complemented_set, BitVec.not_and, BitVec.not_not]
        · rw [if_neg hfull, if_neg hfull, Option.map_some, complemented_set, BitVec.not_or,
            BitVec.not_not, complemented_complemented]

lemma state_bitmapSetRange {index len : ℕ} (h : index + len ≤ cpuWidth * bitmap.length) :
    ∃ changed, bitmapSetRange bitmap index len = some changed ∧
      changed.length = bitmap.length ∧
      ∀ k, state changed k = (state bitmap k || decide (index ≤ k ∧ k < index + len)) := by
  have hidx : index / cpuWidth * cpuWidth + index % cpuWidth = index := Nat.div_add_mod' ..
  obtain ⟨changed, hchanged, hlength, heq⟩ := rangeLoop_or bitmap
    (Nat.mod_lt index (by decide)) (le_refl len) (hidx.symm ▸ h)
  refine ⟨changed, hchanged, hlength, fun k => ?_⟩
  rw [state, heq]
  exact bitmapState_bitmapSetRange (unbounded bitmap) index len k

lemma state_bitmapClearRange {index len : ℕ} (h : index + len ≤ cpuWidth * bitmap.length) :
    ∃ changed, bitmapClearRange bitmap index len = some changed ∧
      changed.length = bitmap.length ∧ ∀ k < cpuWidth * bitmap.length,
        state changed k = (state bitmap k && !decide (index ≤ k ∧ k < index + len)) := by
  have hlen := length_complemented bitmap
  obtain ⟨changed, hchanged, hlength, hstate⟩ := state_bitmapSetRange
    (show index + len ≤ cpuWidth * (complemented bitmap).length from hlen.symm ▸ h)
  refine ⟨complemented changed, ?_, ?_, fun k hk => ?_⟩
  · rw [bitmapClearRange, rangeLoop_clear]
    exact congrArg (Option.map complemented) hchanged
  · rw [length_complemented, hlength, hlen]
  · rw [state_complemented (by rwa [hlength, hlen]), hstate, state_complemented hk]
    simp

/-- In a bitmap whose positions fit `sint_t` the searches find the first bit, and the ranges change
their bits alone in any bitmap. No operation leaves the bitmap. -/
theorem bitmap_primitives (bitmap : List (BitVec 32)) :
    (bitmap.length ≤ 2 ^ 26 → ∀ index < cpuWidth * bitmap.length,
      (∃ r, bitmapFfs2 bitmap index (4 * bitmap.length) = some r ∧ IsFirst true bitmap index r) ∧
      ∃ r, bitmapFfc2 bitmap index (4 * bitmap.length) = some r ∧ IsFirst false bitmap index r) ∧
    ∀ index len, index + len ≤ cpuWidth * bitmap.length →
      (∃ changed, bitmapSetRange bitmap index len = some changed ∧
        changed.length = bitmap.length ∧ ∀ k < cpuWidth * bitmap.length,
          state changed k = (state bitmap k || decide (index ≤ k ∧ k < index + len))) ∧
      ∃ changed, bitmapClearRange bitmap index len = some changed ∧
        changed.length = bitmap.length ∧ ∀ k < cpuWidth * bitmap.length,
          state changed k = (state bitmap k && !decide (index ≤ k ∧ k < index + len)) := by
  refine ⟨fun hlength index hindex => ⟨bitmapFfs2_isFirst hlength hindex,
    bitmapFfc2_isFirst hlength hindex⟩, fun index len h => ⟨?_, state_bitmapClearRange h⟩⟩
  obtain ⟨changed, hchanged, hlength, hstate⟩ := state_bitmapSetRange h
  exact ⟨changed, hchanged, hlength, fun k _ => hstate k⟩

theorem bitmap_primitives_two_words :
    (∃ r, bitmapFfs2 [0#32, 4#32] 3 8 = some r ∧ IsFirst true [0#32, 4#32] 3 r) ∧
    ∃ changed, bitmapSetRange [0#32, 4#32] 31 2 = some changed ∧ changed.length = 2 ∧
      ∀ k < 64, state changed k =
        (state [0#32, 4#32] k || decide (31 ≤ k ∧ k < 33)) :=
  ⟨((bitmap_primitives [0#32, 4#32]).1 (by decide) 3 (by decide)).1,
    ((bitmap_primitives [0#32, 4#32]).2 31 2 (by decide)).1⟩

lemma bitmapFfs2_wrapped (h : bitmap.length = 2 ^ 27) :
    bitmapFfs2 bitmap 0 (4 * bitmap.length) = some (-1) := by
  have hwords : 4 * 2 ^ 27 * 8 % 2 ^ 32 / cpuWidth = 0 := by decide
  have hzero : 0 % cpuWidth = 0 := rfl
  unfold bitmapFfs2 search
  rw [h]
  simp only [hwords, hzero, ne_eq, not_true_eq_false, if_false, Nat.zero_sub, scanWords,
    Option.map_some, position]

theorem bitmapFfs2_misses :
    0 < cpuWidth * (List.replicate (2 ^ 27) 1#32).length ∧
    bitmapFfs2 (List.replicate (2 ^ 27) 1#32) 0 (4 * (List.replicate (2 ^ 27) 1#32).length) =
      some (-1) ∧
    ¬IsFirst true (List.replicate (2 ^ 27) 1#32) 0 (-1) := by
  have hlength : (List.replicate (2 ^ 27) 1#32).length = 2 ^ 27 := List.length_replicate
  have hpos : 0 < cpuWidth * (List.replicate (2 ^ 27) 1#32).length := by
    rw [hlength]
    decide
  refine ⟨hpos, bitmapFfs2_wrapped hlength, ?_⟩
  rintro (⟨k, hk, -⟩ | ⟨-, hclear⟩)
  · omega
  · have hset : state (List.replicate (2 ^ 27) 1#32) 0 = true := by
      have hword : (List.replicate (2 ^ 27) 1#32)[0]? = some 1#32 := by
        rw [List.getElem?_replicate]
        rfl
      unfold state bitmapState unbounded
      rw [List.getD_eq_getElem?_getD, Nat.zero_div, hword]
      rfl
    rw [hclear 0 le_rfl hpos] at hset
    exact Bool.noConfusion hset

end Almos.BitmapWords
