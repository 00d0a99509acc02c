import Mathlib

/-!
# Bit operations

Rounding, and bitmaps of 32-bit words. `bitmapState` reads one bit; every other
operation on bitmaps is described by what it does to the bits.
-/
namespace Almos.Bits

/-- `ARROUND_UP`, for a `size` that is a power of two. -/
def arroundUp (val size : ℕ) : ℕ := if val % size = 0 then val else val / size * size + size

abbrev Bitmap : Type := ℕ → BitVec 32

/-- `__CPU_WIDTH` -/
def cpuWidth : ℕ := 32

def bitmapState (bitmap : Bitmap) (index : ℕ) : Bool :=
  (bitmap (index / cpuWidth)).getLsbD (index % cpuWidth)

def setWord (bitmap : Bitmap) (i : ℕ) (w : BitVec 32) : Bitmap := Function.update bitmap i w

def bitmapSet (bitmap : Bitmap) (index : ℕ) : Bitmap :=
  setWord bitmap (index / cpuWidth)
    (bitmap (index / cpuWidth) ||| 1#32 <<< (index % cpuWidth))

def bitmapClear (bitmap : Bitmap) (index : ℕ) : Bitmap :=
  setWord bitmap (index / cpuWidth)
    (bitmap (index / cpuWidth) &&& ~~~(1#32 <<< (index % cpuWidth)))

/-- The first set bit of a word from position `j` on, among the next `n` positions. -/
def scanWord (w : BitVec 32) : ℕ → ℕ → Option ℕ
  | 0, _ => none
  | n + 1, j => if w.getLsbD j then some j else scanWord w n (j + 1)

/-- The loop over whole words of `bitmap_ffs2`, for `n` words from word `i` on. -/
def scanWords (bitmap : Bitmap) : ℕ → ℕ → Option ℕ
  | 0, _ => none
  | n + 1, i =>
      match if bitmap i ≠ 0 then scanWord (bitmap i) cpuWidth 0 else none with
      | some j => some (i * cpuWidth + j)
      | none => scanWords bitmap n (i + 1)

/-- The first set bit from `index` on in a bitmap of `size` bytes; no result stands for -1. -/
def bitmapFfs2 (bitmap : Bitmap) (index size : ℕ) : Option ℕ :=
  let i := index / cpuWidth
  let j := index % cpuWidth
  let words := size * 8 / cpuWidth
  if j ≠ 0 then
    match scanWord (bitmap i) (cpuWidth - j) j with
    | some j => some (i * cpuWidth + j)
    | none => scanWords bitmap (words - (i + 1)) (i + 1)
  else scanWords bitmap (words - i) i

/-- The loop of `bitmap_set_range`: `len` bits from bit `index` of word `i` on. -/
def setRangeLoop : ℕ → Bitmap → ℕ → ℕ → ℕ → Bitmap
  | 0, bitmap, _, _, _ => bitmap
  | fuel + 1, bitmap, i, index, len =>
      if len = 0 then bitmap
      else if cpuWidth ≤ len + index then
        let val := if index = 0 then BitVec.allOnes 32 else 1#32 <<< (cpuWidth - index) - 1#32
        setRangeLoop fuel (setWord bitmap i (bitmap i ||| val <<< index)) (i + 1) 0
          (len - (cpuWidth - index))
      else setWord bitmap i (bitmap i ||| (1#32 <<< len - 1#32) <<< index)

def bitmapSetRange (bitmap : Bitmap) (index len : ℕ) : Bitmap :=
  setRangeLoop len bitmap (index / cpuWidth) (index % cpuWidth) len

theorem bitmapState_setWord (bitmap : Bitmap) (i : ℕ) (w : BitVec 32) (k : ℕ) :
    bitmapState (setWord bitmap i w) k =
      if k / cpuWidth = i then w.getLsbD (k % cpuWidth) else bitmapState bitmap k := by
  unfold bitmapState setWord
  by_cases h : k / cpuWidth = i
  · simp [h]
  · simp [h]

theorem one_shiftLeft_getLsbD {i j : ℕ} (hi : i < 32) :
    (1#32 <<< i).getLsbD j = decide (j = i) := by
  rw [← BitVec.twoPow_eq, BitVec.getLsbD_twoPow]
  by_cases h : j = i
  · simp [h, hi]
  · simp [h, Ne.symm h]

@[simp] theorem bitmapState_bitmapSet (bitmap : Bitmap) (index k : ℕ) :
    bitmapState (bitmapSet bitmap index) k = (bitmapState bitmap k || decide (k = index)) := by
  have hlt : index % cpuWidth < 32 := Nat.mod_lt _ (by decide)
  have hk := Nat.div_add_mod k cpuWidth
  have hi := Nat.div_add_mod index cpuWidth
  rw [bitmapSet, bitmapState_setWord]
  by_cases hword : k / cpuWidth = index / cpuWidth
  · rw [hword] at hk
    have hbit : k % cpuWidth = index % cpuWidth ↔ k = index := by omega
    simp [bitmapState, hword, one_shiftLeft_getLsbD hlt, hbit]
  · have hne : k ≠ index := fun h => hword (by rw [h])
    simp [hword, hne]

@[simp] theorem bitmapState_bitmapClear (bitmap : Bitmap) (index k : ℕ) :
    bitmapState (bitmapClear bitmap index) k = (bitmapState bitmap k && !decide (k = index)) := by
  have hlt : index % cpuWidth < 32 := Nat.mod_lt _ (by decide)
  have hklt : k % cpuWidth < 32 := Nat.mod_lt _ (by decide)
  have hk := Nat.div_add_mod k cpuWidth
  have hi := Nat.div_add_mod index cpuWidth
  rw [bitmapClear, bitmapState_setWord]
  by_cases hword : k / cpuWidth = index / cpuWidth
  · rw [hword] at hk
    have hbit : k % cpuWidth = index % cpuWidth ↔ k = index := by omega
    rw [if_pos hword, BitVec.getLsbD_and, BitVec.getLsbD_not, one_shiftLeft_getLsbD hlt]
    simp [bitmapState, hword, hbit, hklt]
  · have hne : k ≠ index := fun h => hword (by rw [h])
    simp [hword, hne]

theorem scanWord_eq_some {w : BitVec 32} {n j k : ℕ} (h : scanWord w n j = some k) :
    j ≤ k ∧ k < j + n ∧ w.getLsbD k = true ∧ ∀ i, j ≤ i → i < k → w.getLsbD i = false := by
  induction n generalizing j with
  | zero => simp [scanWord] at h
  | succ n ih =>
    by_cases hj : w.getLsbD j = true
    · obtain rfl : j = k := by simpa [scanWord, hj] using h
      exact ⟨le_rfl, by omega, hj, fun i hi hi' => by omega⟩
    · obtain ⟨hle, hlt, hk, hmin⟩ := ih (by simpa [scanWord, hj] using h)
      refine ⟨by omega, by omega, hk, ?_⟩
      intro i hi hik
      by_cases hij : i = j
      · simpa [hij] using hj
      · exact hmin i (by omega) hik

theorem scanWord_eq_none {w : BitVec 32} {n j : ℕ} (h : scanWord w n j = none) :
    ∀ i, j ≤ i → i < j + n → w.getLsbD i = false := by
  induction n generalizing j with
  | zero =>
    intro i hi hi'
    omega
  | succ n ih =>
    intro i hi hi'
    by_cases hj : w.getLsbD j = true
    · simp [scanWord, hj] at h
    · by_cases hij : i = j
      · simpa [hij] using hj
      · exact ih (by simpa [scanWord, hj] using h) i (by omega) (by omega)

theorem scanWord_zero (n j : ℕ) : scanWord 0#32 n j = none := by
  induction n generalizing j with
  | zero => rfl
  | succ n ih => simp [scanWord, ih]

def LeastSet (bitmap : Bitmap) (lo hi : ℕ) : Option ℕ → Prop
  | some k => lo ≤ k ∧ k < hi ∧ bitmapState bitmap k = true ∧
      ∀ i, lo ≤ i → i < k → bitmapState bitmap i = false
  | none => ∀ i, lo ≤ i → i < hi → bitmapState bitmap i = false

theorem bitmapState_word (bitmap : Bitmap) {i j : ℕ} (hj : j < 32) :
    bitmapState bitmap (i * cpuWidth + j) = (bitmap i).getLsbD j := by
  have hdiv : (i * cpuWidth + j) / cpuWidth = i := by unfold cpuWidth; omega
  have hmod : (i * cpuWidth + j) % cpuWidth = j := by unfold cpuWidth; omega
  simp [bitmapState, hdiv, hmod]

theorem leastSet_scanWord (bitmap : Bitmap) (i : ℕ) {n j : ℕ} (h : j + n = 32) :
    LeastSet bitmap (i * cpuWidth + j) ((i + 1) * cpuWidth)
      ((scanWord (bitmap i) n j).map (i * cpuWidth + ·)) := by
  have hpos : ∀ k, i * cpuWidth + j ≤ k → k < (i + 1) * cpuWidth →
      bitmapState bitmap k = (bitmap i).getLsbD (k - i * cpuWidth) := by
    intro k hk hk'
    have hkw : k = i * cpuWidth + (k - i * cpuWidth) := by unfold cpuWidth at *; omega
    rw [hkw, bitmapState_word bitmap (by unfold cpuWidth at *; omega), ← hkw]
  cases hs : scanWord (bitmap i) n j with
  | none =>
    intro k hk hk'
    rw [hpos k hk hk']
    exact scanWord_eq_none hs _ (by omega) (by unfold cpuWidth at *; omega)
  | some k =>
    obtain ⟨hle, hlt, hset, hmin⟩ := scanWord_eq_some hs
    have hk : k < 32 := by omega
    change LeastSet bitmap _ _ (some (i * cpuWidth + k))
    refine ⟨by omega, by unfold cpuWidth; omega, ?_, ?_⟩
    · rw [bitmapState_word bitmap hk]
      exact hset
    · intro l hl hl'
      rw [hpos l hl (by unfold cpuWidth at *; omega)]
      exact hmin _ (by omega) (by omega)

theorem LeastSet.append {bitmap : Bitmap} {lo mid hi : ℕ} {r s : Option ℕ} (hlo : lo ≤ mid)
    (hhi : mid ≤ hi) (h₁ : LeastSet bitmap lo mid r) (h₂ : LeastSet bitmap mid hi s) :
    LeastSet bitmap lo hi (r.or s) := by
  cases r with
  | some k =>
    obtain ⟨hle, hlt, hset, hmin⟩ := h₁
    exact ⟨hle, by omega, hset, hmin⟩
  | none =>
    cases s with
    | some k =>
      obtain ⟨hle, hlt, hset, hmin⟩ := h₂
      refine ⟨by omega, hlt, hset, ?_⟩
      intro i hi' hik
      by_cases him : i < mid
      · exact h₁ i hi' him
      · exact hmin i (by omega) hik
    | none =>
      intro i hi' hik
      by_cases him : i < mid
      · exact h₁ i hi' him
      · exact h₂ i (by omega) hik

theorem leastSet_scanWords (bitmap : Bitmap) (n i : ℕ) :
    LeastSet bitmap (i * cpuWidth) ((i + n) * cpuWidth) (scanWords bitmap n i) := by
  induction n generalizing i with
  | zero =>
    intro k hk hk'
    simp only [Nat.add_zero] at hk'
    omega
  | succ n ih =>
    have hword := leastSet_scanWord bitmap i (n := 32) (j := 0) rfl
    have hrest := ih (i + 1)
    have happ := hword.append (by unfold cpuWidth; omega) (by unfold cpuWidth; omega) hrest
    have hend : i + 1 + n = i + (n + 1) := by omega
    rw [Nat.add_zero, hend] at happ
    have hskip : (if bitmap i ≠ 0 then scanWord (bitmap i) cpuWidth 0 else none) =
        scanWord (bitmap i) 32 0 := by
      by_cases hz : bitmap i = 0
      · simp [hz, scanWord_zero]
      · rw [if_pos hz]
        rfl
    rw [scanWords, hskip]
    cases hs : scanWord (bitmap i) 32 0 with
    | none => simpa [hs] using happ
    | some j => simpa [hs] using happ

theorem bitmapFfs2_spec (bitmap : Bitmap) {index size : ℕ} (hsize : index < size * 8)
    (hword : cpuWidth ∣ size * 8) :
    LeastSet bitmap index (size * 8) (bitmapFfs2 bitmap index size) := by
  obtain ⟨words, hw⟩ := hword
  have hdiv : size * 8 / cpuWidth = words := by
    rw [hw]
    exact Nat.mul_div_cancel_left _ (by decide)
  have hidx := Nat.div_add_mod index cpuWidth
  have hmod : index % cpuWidth < cpuWidth := Nat.mod_lt _ (by decide)
  have hlt : index / cpuWidth < words := by
    rw [Nat.div_lt_iff_lt_mul (by decide)]
    rw [hw, Nat.mul_comm] at hsize
    exact hsize
  unfold bitmapFfs2
  simp only [hdiv]
  by_cases hj : index % cpuWidth = 0
  · have hs := leastSet_scanWords bitmap (words - index / cpuWidth) (index / cpuWidth)
    rw [if_neg (by simpa using hj)]
    have hlo : index / cpuWidth * cpuWidth = index := by rw [Nat.mul_comm]; omega
    have hhi : (index / cpuWidth + (words - index / cpuWidth)) * cpuWidth = size * 8 := by
      rw [hw, Nat.mul_comm]
      congr 1
      omega
    rw [hlo, hhi] at hs
    exact hs
  · have hs := leastSet_scanWords bitmap (words - (index / cpuWidth + 1)) (index / cpuWidth + 1)
    have hhead := leastSet_scanWord bitmap (index / cpuWidth) (n := cpuWidth - index % cpuWidth)
      (j := index % cpuWidth) (by unfold cpuWidth at *; omega)
    have hlo : index / cpuWidth * cpuWidth + index % cpuWidth = index := by
      rw [Nat.mul_comm]
      exact hidx
    have hhi : (index / cpuWidth + 1 + (words - (index / cpuWidth + 1))) * cpuWidth = size * 8 := by
      rw [hw, Nat.mul_comm]
      congr 1
      omega
    rw [hlo] at hhead
    rw [hhi] at hs
    have happ := hhead.append (by unfold cpuWidth at *; omega) (by
      rw [hw, Nat.mul_comm cpuWidth]
      exact Nat.mul_le_mul_right _ hlt) hs
    rw [if_pos hj]
    cases hscan : scanWord (bitmap (index / cpuWidth)) (cpuWidth - index % cpuWidth)
        (index % cpuWidth) with
    | none => simpa [hscan] using happ
    | some k => simpa [hscan] using happ

theorem ones_getLsbD {len j : ℕ} (hlen : len < 32) :
    (1#32 <<< len - 1#32).getLsbD j = decide (j < len) := by
  have hpow : 2 ^ len < 2 ^ 32 := Nat.pow_lt_pow_right (by decide) hlen
  have hpos : 0 < 2 ^ len := by positivity
  have hval : (1#32 <<< len - 1#32).toNat = 2 ^ len - 1 := by
    rw [← BitVec.twoPow_eq, BitVec.toNat_sub, BitVec.toNat_twoPow, Nat.mod_eq_of_lt hpow]
    have hone : (1#32).toNat = 1 := rfl
    rw [hone]
    omega
  rw [← BitVec.testBit_toNat, hval, Nat.testBit_two_pow_sub_one]

theorem setRangeLoop_spec {fuel : ℕ} (bitmap : Bitmap) (i : ℕ) {index len : ℕ} (hlen : len ≤ fuel)
    (hindex : index < 32) (k : ℕ) :
    bitmapState (setRangeLoop fuel bitmap i index len) k =
      (bitmapState bitmap k ||
        decide (i * cpuWidth + index ≤ k ∧ k < i * cpuWidth + index + len)) := by
  induction fuel generalizing bitmap i index len with
  | zero =>
    obtain rfl : len = 0 := by omega
    simp [setRangeLoop]
  | succ fuel ih =>
    have hk := Nat.div_add_mod k cpuWidth
    have hkmod : k % cpuWidth < cpuWidth := Nat.mod_lt _ (by decide)
    by_cases hz : len = 0
    · subst hz
      simp [setRangeLoop]
    · by_cases hfull : cpuWidth ≤ len + index
      · have hval : ∀ j < 32, ((if index = 0 then BitVec.allOnes 32
            else 1#32 <<< (cpuWidth - index) - 1#32) <<< index).getLsbD j = decide (index ≤ j) := by
          intro j hj
          by_cases h0 : index = 0
          · subst h0
            rw [if_pos rfl, BitVec.getLsbD_shiftLeft, BitVec.getLsbD_allOnes]
            simp [hj]
          · have hw : cpuWidth - index < 32 := by unfold cpuWidth; omega
            rw [if_neg h0, BitVec.getLsbD_shiftLeft, ones_getLsbD hw]
            by_cases hij : index ≤ j
            · have hlt : j - index < cpuWidth - index := by unfold cpuWidth; omega
              simp [hj, hij, hlt]
            · simp [hij, Nat.lt_of_not_le hij]
        rw [setRangeLoop, if_neg hz, if_pos hfull,
          ih _ (i + 1) (by unfold cpuWidth at *; omega) (by omega), bitmapState_setWord]
        by_cases hword : k / cpuWidth = i
        · rw [if_pos hword, BitVec.getLsbD_or, hval _ hkmod]
          have hstate : bitmapState bitmap k = (bitmap i).getLsbD (k % cpuWidth) := by
            rw [bitmapState, hword]
          rw [hstate, Bool.or_assoc, ← Bool.decide_or]
          congr 2
          rw [hword] at hk
          unfold cpuWidth at *
          simp only [eq_iff_iff]
          omega
        · rw [if_neg hword]
          congr 2
          have hne : ¬(i * cpuWidth ≤ k ∧ k < i * cpuWidth + cpuWidth) := by
            intro hin
            apply hword
            unfold cpuWidth at *
            omega
          unfold cpuWidth at *
          simp only [eq_iff_iff]
          omega
      · rw [setRangeLoop, if_neg hz, if_neg hfull, bitmapState_setWord]
        by_cases hword : k / cpuWidth = i
        · have hstate : bitmapState bitmap k = (bitmap i).getLsbD (k % cpuWidth) := by
            rw [bitmapState, hword]
          have hl : len < 32 := by unfold cpuWidth at *; omega
          rw [if_pos hword, BitVec.getLsbD_or, BitVec.getLsbD_shiftLeft, ones_getLsbD hl, hstate]
          congr 1
          rw [hword] at hk
          unfold cpuWidth at *
          rw [Bool.eq_iff_iff]
          simp only [Bool.and_eq_true, Bool.not_eq_true', decide_eq_true_eq, decide_eq_false_iff_not]
          omega
        · have hne : ¬(i * cpuWidth + index ≤ k ∧ k < i * cpuWidth + index + len) := by
            intro hin
            apply hword
            unfold cpuWidth at *
            omega
          simp [hword, hne]

theorem bitmapState_bitmapSetRange (bitmap : Bitmap) (index len k : ℕ) :
    bitmapState (bitmapSetRange bitmap index len) k =
      (bitmapState bitmap k || decide (index ≤ k ∧ k < index + len)) := by
  have hidx : index / cpuWidth * cpuWidth + index % cpuWidth = index := by
    rw [Nat.mul_comm]
    exact Nat.div_add_mod _ _
  have hmod : index % cpuWidth < 32 := Nat.mod_lt _ (by decide)
  rw [bitmapSetRange, setRangeLoop_spec _ _ le_rfl hmod, hidx]

/-- The first clear bit of a word from position `j` on, among the next `n` positions. -/
def scanWordClear (w : BitVec 32) : ℕ → ℕ → Option ℕ
  | 0, _ => none
  | n + 1, j => if w.getLsbD j = false then some j else scanWordClear w n (j + 1)

/-- The loop over whole words of `bitmap_ffc` and `bitmap_ffc2`. -/
def scanWordsClear (bitmap : Bitmap) : ℕ → ℕ → Option ℕ
  | 0, _ => none
  | n + 1, i =>
      match if bitmap i ≠ -1#32 then scanWordClear (bitmap i) cpuWidth 0 else none with
      | some j => some (i * cpuWidth + j)
      | none => scanWordsClear bitmap n (i + 1)

def bitmapFfc (bitmap : Bitmap) (size : ℕ) : Option ℕ :=
  scanWordsClear bitmap (size * 8 / cpuWidth) 0

/-- The first clear bit from `index` on in a bitmap of `size` bytes. -/
def bitmapFfc2 (bitmap : Bitmap) (index size : ℕ) : Option ℕ :=
  let i := index / cpuWidth
  let j := index % cpuWidth
  let words := size * 8 / cpuWidth
  if j ≠ 0 then
    match scanWordClear (bitmap i) (cpuWidth - j) j with
    | some j => some (i * cpuWidth + j)
    | none => scanWordsClear bitmap (words - (i + 1)) (i + 1)
  else scanWordsClear bitmap (words - i) i

/-- The number of clear bits among the first `n`. -/
def clearBits (bitmap : Bitmap) (n : ℕ) : ℕ :=
  ((Finset.range n).filter fun i => bitmapState bitmap i = false).card

def complement (bitmap : Bitmap) : Bitmap := fun i => ~~~bitmap i

lemma bitmapState_complement (bitmap : Bitmap) (k : ℕ) :
    bitmapState (complement bitmap) k = !bitmapState bitmap k := by
  have hk : k % cpuWidth < 32 := Nat.mod_lt _ (by decide)
  simp [bitmapState, complement, hk]

lemma scanWordClear_eq (w : BitVec 32) {n j : ℕ} (h : j + n ≤ 32) :
    scanWordClear w n j = scanWord (~~~w) n j := by
  induction n generalizing j with
  | zero => rfl
  | succ n ih =>
    have hj : j < 32 := by omega
    rw [scanWordClear, scanWord, ih (by omega)]
    simp [hj]

lemma scanWordsClear_eq (bitmap : Bitmap) (n i : ℕ) :
    scanWordsClear bitmap n i = scanWords (complement bitmap) n i := by
  induction n generalizing i with
  | zero => rfl
  | succ n ih =>
    have hzero : bitmap i = -1#32 ↔ complement bitmap i = 0 := by
      constructor
      · intro hones
        rw [complement, hones]
        rfl
      · intro hnone
        have hnot : ~~~(~~~bitmap i) = ~~~(0#32) := congrArg (~~~·) hnone
        rwa [BitVec.not_not] at hnot
    rw [scanWordsClear, scanWords, ih, scanWordClear_eq _ (by decide)]
    simp only [ne_eq, hzero, complement]
    rfl

lemma bitmapFfc2_eq (bitmap : Bitmap) (index size : ℕ) :
    bitmapFfc2 bitmap index size = bitmapFfs2 (complement bitmap) index size := by
  have hj : index % cpuWidth < 32 := Nat.mod_lt _ (by decide)
  have hword := scanWordClear_eq (bitmap (index / cpuWidth))
    (show index % cpuWidth + (cpuWidth - index % cpuWidth) ≤ 32 by unfold cpuWidth at *; omega)
  simp only [bitmapFfc2, bitmapFfs2, hword, scanWordsClear_eq, complement]

/-- `k` is the first clear bit from `lo` on, below `hi`. -/
def LeastClear (bitmap : Bitmap) (lo hi : ℕ) : Option ℕ → Prop
  | some k => lo ≤ k ∧ k < hi ∧ bitmapState bitmap k = false ∧
      ∀ i, lo ≤ i → i < k → bitmapState bitmap i = true
  | none => ∀ i, lo ≤ i → i < hi → bitmapState bitmap i = true

lemma LeastSet.leastClear {bitmap : Bitmap} {lo hi : ℕ} {r : Option ℕ}
    (h : LeastSet (complement bitmap) lo hi r) : LeastClear bitmap lo hi r := by
  cases r with
  | some k =>
    obtain ⟨hlo, hhi, hset, hbefore⟩ := h
    rw [bitmapState_complement, Bool.not_eq_true'] at hset
    refine ⟨hlo, hhi, hset, fun i hi hlt => ?_⟩
    have hclear := hbefore i hi hlt
    rwa [bitmapState_complement, Bool.not_eq_false'] at hclear
  | none =>
    intro i hi hlt
    have hclear := h i hi hlt
    rwa [bitmapState_complement, Bool.not_eq_false'] at hclear

theorem bitmapFfc2_spec (bitmap : Bitmap) {index size : ℕ} (hsize : index < size * 8)
    (hword : cpuWidth ∣ size * 8) :
    LeastClear bitmap index (size * 8) (bitmapFfc2 bitmap index size) := by
  rw [bitmapFfc2_eq]
  exact (bitmapFfs2_spec (complement bitmap) hsize hword).leastClear

theorem bitmapFfc_spec (bitmap : Bitmap) {size : ℕ} (hword : cpuWidth ∣ size * 8) :
    LeastClear bitmap 0 (size * 8) (bitmapFfc bitmap size) := by
  have hspec := leastSet_scanWords (complement bitmap) (size * 8 / cpuWidth) 0
  rw [Nat.zero_mul, Nat.zero_add, Nat.div_mul_cancel hword, ← scanWordsClear_eq] at hspec
  exact hspec.leastClear

lemma clearBits_congr {bitmap bitmap' : Bitmap} {n : ℕ}
    (h : ∀ i < n, bitmapState bitmap' i = bitmapState bitmap i) :
    clearBits bitmap' n = clearBits bitmap n := by
  unfold clearBits
  congr 1
  apply Finset.filter_congr
  intro i hi
  rw [h i (Finset.mem_range.mp hi)]

lemma clearBits_pos_iff {bitmap : Bitmap} {n : ℕ} :
    0 < clearBits bitmap n ↔ ∃ i < n, bitmapState bitmap i = false := by
  rw [clearBits, Finset.card_pos]
  constructor
  · rintro ⟨i, hi⟩
    rw [Finset.mem_filter, Finset.mem_range] at hi
    exact ⟨i, hi⟩
  · rintro ⟨i, hi⟩
    exact ⟨i, by rwa [Finset.mem_filter, Finset.mem_range]⟩

lemma clearBits_le (bitmap : Bitmap) (n : ℕ) : clearBits bitmap n ≤ n := by
  have hle := Finset.card_filter_le (Finset.range n) fun i => bitmapState bitmap i = false
  rwa [Finset.card_range] at hle

lemma clearBits_bitmapSet {bitmap : Bitmap} {n k : ℕ} (hk : k < n)
    (hclear : bitmapState bitmap k = false) :
    clearBits (bitmapSet bitmap k) n + 1 = clearBits bitmap n := by
  have herase : (Finset.range n).filter (fun i => bitmapState (bitmapSet bitmap k) i = false) =
      ((Finset.range n).filter fun i => bitmapState bitmap i = false).erase k := by
    ext i
    simp only [Finset.mem_filter, Finset.mem_erase, Finset.mem_range, bitmapState_bitmapSet,
      Bool.or_eq_false_iff, decide_eq_false_iff_not]
    tauto
  unfold clearBits
  rw [herase]
  exact Finset.card_erase_add_one (Finset.mem_filter.mpr ⟨Finset.mem_range.mpr hk, hclear⟩)

lemma clearBits_bitmapClear {bitmap : Bitmap} {n k : ℕ} (hk : k < n)
    (hset : bitmapState bitmap k = true) :
    clearBits (bitmapClear bitmap k) n = clearBits bitmap n + 1 := by
  have hclear : bitmapState (bitmapClear bitmap k) k = false := by simp
  rw [← clearBits_bitmapSet hk hclear]
  congr 1
  apply clearBits_congr
  intro i _
  rw [bitmapState_bitmapSet, bitmapState_bitmapClear]
  by_cases hi : i = k
  · simp [hi, hset]
  · simp [hi]

end Almos.Bits
