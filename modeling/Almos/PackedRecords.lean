import Mathlib

/-!
# Packed records in files

Records of a fixed width, one field after the other without padding, with the low byte of a word
first. A file is the list of its bytes: a write past the end leaves zeros in between, and a read
gives a number of records or nothing.
-/
namespace Almos

/-- A record of `width` bytes. -/
structure Packed (α : Type*) where
  width : ℕ
  encode : α → List (BitVec 8)
  decode : List (BitVec 8) → α
  length_encode : ∀ a, (encode a).length = width
  decode_encode : ∀ a rest, decode (encode a ++ rest) = a

namespace Packed
variable {α β γ : Type*}

def byte : Packed (BitVec 8) where
  width := 1
  encode w := [w]
  decode
    | b :: _ => b
    | [] => 0
  length_encode _ := rfl
  decode_encode _ _ := rfl

def word16 : Packed (BitVec 16) where
  width := 2
  encode w := [w.extractLsb' 0 8, w.extractLsb' 8 8]
  decode
    | b₀ :: b₁ :: _ => b₁ ++ b₀
    | _ => 0
  length_encode _ := rfl
  decode_encode w _ := by
    change w.extractLsb' 8 8 ++ w.extractLsb' 0 8 = w
    apply BitVec.eq_of_getLsbD_eq
    intro i hi
    simp only [BitVec.getLsbD_append, BitVec.getLsbD_extractLsb']
    split_ifs with hlow
    · simp [hlow]
    · simp [show i - 8 < 8 by omega, show 8 + (i - 8) = i by omega]

def word32 : Packed (BitVec 32) where
  width := 4
  encode w := [w.extractLsb' 0 8, w.extractLsb' 8 8, w.extractLsb' 16 8, w.extractLsb' 24 8]
  decode
    | b₀ :: b₁ :: b₂ :: b₃ :: _ => (b₃ ++ b₂) ++ (b₁ ++ b₀)
    | _ => 0
  length_encode _ := rfl
  decode_encode w _ := by
    change (w.extractLsb' 24 8 ++ w.extractLsb' 16 8) ++
      (w.extractLsb' 8 8 ++ w.extractLsb' 0 8) = w
    apply BitVec.eq_of_getLsbD_eq
    intro i hi
    simp only [BitVec.getLsbD_append, BitVec.getLsbD_extractLsb']
    split_ifs with hhalf hlow hlow
    · simp [hlow]
    · simp [show i - 8 < 8 by omega, show 8 + (i - 8) = i by omega]
    · simp [hlow, show 16 + (i - 16) = i by omega]
    · simp [show i - 16 - 8 < 8 by omega, show 24 + (i - 16 - 8) = i by omega]

def bytes (n : ℕ) : Packed (Vector (BitVec 8) n) where
  width := n
  encode v := v.toList
  decode l := Vector.ofFn fun i => l.getD i 0
  length_encode v := by simp
  decode_encode v rest := by
    apply Vector.ext
    intro i hi
    have hlength : i < v.toList.length := by simpa using hi
    have hget : (v.toList ++ rest)[i]? = v.toList[i]? := List.getElem?_append_left hlength
    simp [hget, hi]

def append (p : Packed α) (q : Packed β) : Packed (α × β) where
  width := p.width + q.width
  encode a := p.encode a.1 ++ q.encode a.2
  decode l := (p.decode l, q.decode (l.drop p.width))
  length_encode a := by simp [p.length_encode, q.length_encode]
  decode_encode a rest := by
    rw [List.append_assoc, p.decode_encode]
    have hdrop : (p.encode a.1 ++ (q.encode a.2 ++ rest)).drop p.width = q.encode a.2 ++ rest :=
      List.drop_left' (p.length_encode a.1)
    rw [hdrop, q.decode_encode]

def fields (p : Packed α) (toFields : γ → α) (ofFields : α → γ)
    (h : ∀ c, ofFields (toFields c) = c) : Packed γ where
  width := p.width
  encode c := p.encode (toFields c)
  decode l := ofFields (p.decode l)
  length_encode c := p.length_encode (toFields c)
  decode_encode c rest := by rw [p.decode_encode, h]

variable (p : Packed α)

def encodeList (as : List α) : List (BitVec 8) := as.flatMap p.encode

def decodeList : ℕ → List (BitVec 8) → List α
  | 0, _ => []
  | n + 1, l => p.decode l :: decodeList n (l.drop p.width)

@[simp] lemma encodeList_nil : p.encodeList [] = [] := rfl

@[simp] lemma encodeList_cons (a : α) (as : List α) :
    p.encodeList (a :: as) = p.encode a ++ p.encodeList as := rfl

@[simp] lemma encodeList_append (as bs : List α) :
    p.encodeList (as ++ bs) = p.encodeList as ++ p.encodeList bs := List.flatMap_append

@[simp] lemma length_encodeList (as : List α) :
    (p.encodeList as).length = p.width * as.length := by
  induction as with
  | nil => rfl
  | cons a as ih =>
    rw [encodeList_cons, List.length_append, p.length_encode, ih, List.length_cons, Nat.mul_succ,
      Nat.add_comm]

lemma decodeList_encodeList (as : List α) (rest : List (BitVec 8)) :
    p.decodeList as.length (p.encodeList as ++ rest) = as := by
  induction as with
  | nil => rfl
  | cons a as ih =>
    rw [encodeList_cons, List.append_assoc, List.length_cons, decodeList, p.decode_encode,
      List.drop_left' (p.length_encode a), ih]

/-- `fread` of some records at a position. -/
def readAt (file : List (BitVec 8)) (pos count : ℕ) : Option (List α) :=
  if p.width * count ≤ (file.drop pos).length then some (p.decodeList count (file.drop pos))
  else none

lemma readAt_eq {file rest : List (BitVec 8)} {pos : ℕ} {as : List α}
    (h : file.drop pos = p.encodeList as ++ rest) : p.readAt file pos as.length = some as := by
  rw [readAt, h, if_pos (by simp), decodeList_encodeList]

end Packed

/-- `fwrite` at a position, with zeros up to it past the end of the file. -/
def writeAt (file : List (BitVec 8)) (pos : ℕ) (data : List (BitVec 8)) : List (BitVec 8) :=
  if data = [] then file
  else (file ++ List.replicate (pos - file.length) 0).take pos ++ data ++
    file.drop (pos + data.length)

section Files
variable (file data more : List (BitVec 8)) (pos : ℕ)

def hole : List (BitVec 8) := if data = [] then [] else List.replicate pos 0 ++ data

lemma writeAt_zero : writeAt file 0 data = data ++ file.drop data.length := by
  unfold writeAt
  split_ifs with hempty
  · simp [hempty]
  · simp

lemma writeAt_length : writeAt (file ++ more) file.length data = file ++ data ++ more.drop data.length := by
  unfold writeAt
  split_ifs with hempty
  · simp [hempty]
  · rw [List.append_assoc file more, List.take_left, List.drop_append]
    simp

lemma drop_hole : (hole data pos).drop pos = data := by
  unfold hole
  split_ifs with hempty
  · simp [hempty]
  · simp

lemma writeAt_hole : writeAt (hole data pos) (pos + data.length) more = hole (data ++ more) pos := by
  unfold hole
  by_cases hmore : more = []
  · simp [hmore, writeAt]
  · by_cases hdata : data = []
    · simp [hdata, hmore, writeAt]
    · have hlength : (List.replicate pos 0 ++ data).length = pos + data.length := by simp
      rw [if_neg hdata, if_neg (by simp [hdata]), ← hlength]
      have happend := writeAt_length (List.replicate pos 0 ++ data) more []
      simpa using happend

end Files
end Almos
