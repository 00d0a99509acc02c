import Mathlib
import Almos.FileIo

/-!
# Moving the offset of a file

`vfs_lseek` asks the operation of the file system, with the new offset in the file. The operation moves
what it keeps privately for the file.
-/
namespace Almos.FileSeek
open Vfs

/-- What `vfs_lseek` reads and writes of the file and its node, with the private part of the file. -/
structure SeekFile (δ : Type*) where
  directory : Bool
  fOffset : ℕ
  nSize : ℕ
  dirty : Bool
  pv : δ

/-- `VFS_SEEK_SET`, `VFS_SEEK_CUR` and `VFS_SEEK_END` -/
def seekSet : ℕ := 0

def seekCur : ℕ := 1

def seekEnd : ℕ := 2

def uint32Max : ℕ := 2 ^ 32 - 1

variable {δ : Type*}

/-- The new offset for each `whence`; only the one from the end is a sum of words. -/
def newOffset (file : SeekFile δ) (offset whence : ℕ) : Option ℕ :=
  if whence = seekSet then some offset
  else if whence = seekCur then some (file.fOffset + offset)
  else if whence = seekEnd then some (Word.wadd (file.nSize % 2 ^ 32) offset)
  else none

/-- `vfs_lseek`, with the operation `op` and the word at `new_offset_ptr` if it is given -/
def vfsLseek (op : δ → ℕ → δ × ℤ) (file : SeekFile δ) (offset whence : ℕ) (newOffsetPtr : Option ℕ) :
    SeekFile δ × Option ℕ × ℤ :=
  if file.directory = true then (file, newOffsetPtr, ebadf)
  else if whence = seekSet ∧ offset = file.fOffset then (file, newOffsetPtr, 0)
  else
    match newOffset file offset whence with
    | none => (file, newOffsetPtr, einval)
    | some target =>
      if uint32Max ≤ target then (file, newOffsetPtr, eoverflow)
      else
        let r := op file.pv target
        let hasToLock := file.nSize % 2 ^ 32 < target
        if r.2 ≠ 0 then ({ file with pv := r.1 }, newOffsetPtr, -r.2)
        else
          ({ file with
              fOffset := target
              nSize := if hasToLock ∧ file.nSize < target then target else file.nSize
              dirty := file.dirty || decide hasToLock
              pv := r.1 }, newOffsetPtr.map fun _ => target, 0)

/-- `ext2_lseek` -/
def ext2Lseek (pv : δ) (_ : ℕ) : δ × ℤ := (pv, 0)

/-! ### Seeks between reads and writes -/

def seekFile (flags : FileFlags) (f : OpenFile) : SeekFile Unit :=
  ⟨flags.directory, f.fOffset, f.nSize, false, ()⟩

def whenceWord : Whence → ℕ
  | .set => seekSet
  | .cur => seekCur
  | .fromEnd => seekEnd
  | .other => 3

/-- The seeks of the sequences of calls on an open file are calls of `vfs_lseek`, where the operation
returns `lseekErr`. -/
theorem vfsLseek_openFile (flags : FileFlags) (f : OpenFile) (offset : ℕ) (whence : Whence)
    (lseekErr : ℤ) {r : SeekFile Unit × Option ℕ × ℤ}
    (hr : vfsLseek (fun pv _ => (pv, lseekErr)) (seekFile flags f) offset (whenceWord whence) none = r) :
    Vfs.vfsLseek flags f offset whence lseekErr =
      ({ f with fOffset := r.1.fOffset, nSize := r.1.nSize }, ⟨[], r.2.2⟩) := by
  have hmax : uint32Max = 2 ^ 32 - 1 := rfl
  subst hr
  cases hdir : flags.directory with
  | true => simp [Vfs.vfsLseek, vfsLseek, seekFile, hdir]
  | false =>
    cases whence with
    | set =>
      by_cases hsame : offset = f.fOffset
      · simp [Vfs.vfsLseek, vfsLseek, seekFile, hdir, whenceWord, hsame]
      · simp [Vfs.vfsLseek, vfsLseek, seekFile, hdir, whenceWord, newOffset, seekTo, hsame, hmax]
        split_ifs <;> rfl
    | cur =>
      simp [Vfs.vfsLseek, vfsLseek, seekFile, hdir, whenceWord, newOffset, seekTo, hmax, seekSet, seekCur]
      split_ifs <;> rfl
    | fromEnd =>
      simp [Vfs.vfsLseek, vfsLseek, seekFile, hdir, whenceWord, newOffset, seekTo, hmax, seekSet, seekCur, seekEnd]
      split_ifs <;> rfl
    | other =>
      simp [Vfs.vfsLseek, vfsLseek, seekFile, hdir, whenceWord, newOffset, seekSet, seekCur, seekEnd]

def signed (offset : ℕ) : ℤ := if offset < 2 ^ 31 then offset else (offset : ℤ) - 2 ^ 32

def base (file : SeekFile δ) (whence : ℕ) : Option ℤ :=
  if whence = seekSet then some 0
  else if whence = seekCur then some file.fOffset
  else if whence = seekEnd then some file.nSize
  else none

def InReach (op : δ → ℕ → δ × ℤ) (file : SeekFile δ) (offset whence : ℕ) : Prop :=
  ∃ b, base file whence = some b ∧ ∃ target < uint32Max, (target : ℤ) = b + signed offset ∧
    (op file.pv target).2 = 0

structure LseekLaw (op : δ → ℕ → δ × ℤ) (file : SeekFile δ) (offset whence : ℕ)
    (newOffsetPtr : Option ℕ) : Prop where
  moved : (vfsLseek op file offset whence newOffsetPtr).2.2 = 0 →
    (∃ b, base file whence = some b ∧
      ((vfsLseek op file offset whence newOffsetPtr).1.fOffset : ℤ) = b + signed offset) ∧
    ∀ v, (vfsLseek op file offset whence newOffsetPtr).2.1 = some v →
      v = (vfsLseek op file offset whence newOffsetPtr).1.fOffset
  succeeds : InReach op file offset whence →
    (vfsLseek op file offset whence newOffsetPtr).2.2 = 0
  unchanged : (vfsLseek op file offset whence newOffsetPtr).2.2 ≠ 0 →
    (vfsLseek op file offset whence newOffsetPtr).1.fOffset = file.fOffset ∧
      (vfsLseek op file offset whence newOffsetPtr).1.nSize = file.nSize

/-- The calls that meet the law: directories are not asked for an offset in reach; a seek to the old
offset gives a word that has it already; the offset is not negative, from the start and from the old
offset, and does not wrap from the end, or the new offset is not taken. -/
def Regular (op : δ → ℕ → δ × ℤ) (file : SeekFile δ) (offset whence : ℕ)
    (newOffsetPtr : Option ℕ) : Prop :=
  if file.directory = true then ¬ InReach op file offset whence
  else if whence = seekSet then
    if offset = file.fOffset then offset < 2 ^ 31 ∧ ∀ v, newOffsetPtr = some v → v = offset
    else offset < 2 ^ 31 ∨ offset = uint32Max ∨ (op file.pv offset).2 ≠ 0
  else if whence = seekCur then
    offset < 2 ^ 31 ∨
      (file.fOffset + offset < uint32Max ∧ (op file.pv (file.fOffset + offset)).2 ≠ 0) ∨
      (uint32Max ≤ file.fOffset + offset ∧ ¬ InReach op file offset whence)
  else if whence = seekEnd then
    let target := Word.wadd (file.nSize % 2 ^ 32) offset
    (target : ℤ) = file.nSize + signed offset ∨ target = uint32Max ∨ (op file.pv target).2 ≠ 0
  else True

variable {op : δ → ℕ → δ × ℤ} {file : SeekFile δ} {offset whence : ℕ} {newOffsetPtr : Option ℕ}

lemma lseekLaw_fails {err : ℤ} (herr : err ≠ 0)
    (h : vfsLseek op file offset whence newOffsetPtr = (file, newOffsetPtr, err)) :
    LseekLaw op file offset whence newOffsetPtr ↔ ¬ InReach op file offset whence := by
  constructor
  · intro hlaw hreach
    have hzero := hlaw.succeeds hreach
    rw [h] at hzero
    exact herr hzero
  · intro hreach
    refine ⟨fun hzero => ?_, fun hin => absurd hin hreach, fun _ => ?_⟩
    · rw [h] at hzero
      exact absurd hzero herr
    · rw [h]
      exact ⟨rfl, rfl⟩

lemma lseekLaw_asks {b : ℤ} {target : ℕ} (hdir : file.directory = false)
    (hsame : ¬ (whence = seekSet ∧ offset = file.fOffset))
    (hnew : newOffset file offset whence = some target) (hlt : target < uint32Max)
    (hbase : base file whence = some b)
    (hmod : (target : ℤ) ≠ b + signed offset → b + signed offset < 0 ∨ uint32Max ≤ b + signed offset) :
    LseekLaw op file offset whence newOffsetPtr ↔
      (target : ℤ) = b + signed offset ∨ (op file.pv target).2 ≠ 0 := by
  have hcall : vfsLseek op file offset whence newOffsetPtr =
      if (op file.pv target).2 ≠ 0 then
        ({ file with pv := (op file.pv target).1 }, newOffsetPtr, -(op file.pv target).2)
      else
        ({ file with
            fOffset := target
            nSize := if file.nSize % 2 ^ 32 < target ∧ file.nSize < target then target else file.nSize
            dirty := file.dirty || decide (file.nSize % 2 ^ 32 < target)
            pv := (op file.pv target).1 }, newOffsetPtr.map fun _ => target, 0) := by
    rw [vfsLseek, if_neg (by simp [hdir]), if_neg hsame, hnew]
    dsimp only
    rw [if_neg (not_le_of_gt hlt)]
  by_cases hop : (op file.pv target).2 = 0
  · rw [if_neg (not_not_intro hop)] at hcall
    rw [or_iff_left (not_not_intro hop)]
    constructor
    · intro hlaw
      obtain ⟨⟨b', hb', hmoved⟩, -⟩ := hlaw.moved (by rw [hcall])
      rw [hcall] at hmoved
      rw [hbase] at hb'
      rw [Option.some.inj hb']
      exact hmoved
    · intro heq
      refine ⟨fun _ => ⟨⟨b, hbase, by rw [hcall]; exact heq⟩, fun v hv => ?_⟩, fun _ => by rw [hcall],
        fun herr => absurd (by rw [hcall]) herr⟩
      rw [hcall] at hv ⊢
      obtain ⟨w, -, rfl⟩ := Option.map_eq_some_iff.mp hv
      rfl
  · rw [if_pos hop] at hcall
    have herr : -(op file.pv target).2 ≠ 0 := neg_ne_zero.mpr hop
    refine iff_of_true ⟨fun hzero => ?_, fun hreach => ?_, fun _ => ?_⟩ (.inr hop)
    · rw [hcall] at hzero
      exact absurd hzero herr
    · obtain ⟨b', hb', place, hplace, hsum, haccepts⟩ := hreach
      obtain rfl := Option.some.inj (hbase.symm.trans hb')
      have heq : (target : ℤ) = b + signed offset := by
        by_contra hne
        rcases hmod hne with hneg | hbig <;> omega
      obtain rfl : place = target := by omega
      exact absurd haccepts hop
    · rw [hcall]
      exact ⟨rfl, rfl⟩

lemma lseekLaw_stays (hdir : file.directory = false) (hset : whence = seekSet)
    (hsame : offset = file.fOffset) (hoffset : offset < 2 ^ 32) :
    LseekLaw op file offset whence newOffsetPtr ↔
      offset < 2 ^ 31 ∧ ∀ v, newOffsetPtr = some v → v = offset := by
  have hcall : vfsLseek op file offset whence newOffsetPtr = (file, newOffsetPtr, 0) := by
    rw [vfsLseek, if_neg (by simp [hdir]), if_pos ⟨hset, hsame⟩]
  have hbase : base file whence = some 0 := if_pos hset
  have hsigned : (offset : ℤ) = 0 + signed offset ↔ offset < 2 ^ 31 := by
    rw [signed]
    split_ifs <;> omega
  constructor
  · intro hlaw
    obtain ⟨⟨b, hb, hmoved⟩, hword⟩ := hlaw.moved (by rw [hcall])
    obtain rfl := Option.some.inj (hbase.symm.trans hb)
    rw [hcall, ← hsame] at hmoved
    refine ⟨hsigned.mp hmoved, fun v hv => ?_⟩
    rw [hcall] at hword
    exact (hword v hv).trans hsame.symm
  · rintro ⟨hlow, hword⟩
    refine ⟨fun _ => ⟨⟨0, hbase, ?_⟩, fun v hv => ?_⟩, fun _ => by rw [hcall],
      fun herr => absurd (by rw [hcall]) herr⟩
    · rw [hcall, ← hsame]
      exact hsigned.mpr hlow
    · rw [hcall] at hv ⊢
      exact (hword v hv).trans hsame

lemma lseekLaw_overflows {target : ℕ} (hdir : file.directory = false)
    (hsame : ¬ (whence = seekSet ∧ offset = file.fOffset))
    (hnew : newOffset file offset whence = some target) (hle : uint32Max ≤ target) :
    LseekLaw op file offset whence newOffsetPtr ↔ ¬ InReach op file offset whence := by
  refine lseekLaw_fails (by decide : eoverflow ≠ 0) ?_
  rw [vfsLseek, if_neg (by simp [hdir]), if_neg hsame, hnew]
  dsimp only
  rw [if_pos hle]

lemma lseekLaw_set (hdir : file.directory = false) (hsame : offset ≠ file.fOffset)
    (hoffset : offset < 2 ^ 32) :
    LseekLaw op file offset seekSet newOffsetPtr ↔
      offset < 2 ^ 31 ∨ offset = uint32Max ∨ (op file.pv offset).2 ≠ 0 := by
  have hmax : uint32Max = 2 ^ 32 - 1 := rfl
  rcases Nat.lt_or_ge offset uint32Max with hlt | hge
  · rw [lseekLaw_asks (b := 0) hdir (fun h => hsame h.2) rfl hlt rfl ?_]
    · have hsigned : (offset : ℤ) = 0 + signed offset ↔ offset < 2 ^ 31 := by
        rw [signed]
        split_ifs <;> omega
      rw [hsigned, or_iff_right hlt.ne]
    · rw [signed]
      split_ifs <;> omega
  · rw [lseekLaw_overflows hdir (fun h => hsame h.2) rfl hge]
    refine iff_of_true ?_ (.inr (.inl (by omega)))
    rintro ⟨b, hb, target, -, hsum, -⟩
    obtain rfl : (0 : ℤ) = b := Option.some.inj hb
    rw [signed, if_neg (by omega)] at hsum
    omega

lemma lseekLaw_cur (hdir : file.directory = false) (hoffset : offset < 2 ^ 32) :
    LseekLaw op file offset seekCur newOffsetPtr ↔ offset < 2 ^ 31 ∨
      (file.fOffset + offset < uint32Max ∧ (op file.pv (file.fOffset + offset)).2 ≠ 0) ∨
      (uint32Max ≤ file.fOffset + offset ∧ ¬ InReach op file offset seekCur) := by
  have hmax : uint32Max = 2 ^ 32 - 1 := rfl
  have hsame : ¬ (seekCur = seekSet ∧ offset = file.fOffset) := fun h => absurd h.1 (by decide)
  rcases Nat.lt_or_ge (file.fOffset + offset) uint32Max with hlt | hge
  · rw [lseekLaw_asks (b := file.fOffset) hdir hsame rfl hlt rfl ?_]
    · have hsigned : ((file.fOffset + offset : ℕ) : ℤ) = file.fOffset + signed offset ↔
          offset < 2 ^ 31 := by
        rw [signed]
        split_ifs <;> omega
      rw [hsigned]
      constructor
      · rintro (hlow | hop)
        · exact .inl hlow
        · exact .inr (.inl ⟨hlt, hop⟩)
      · rintro (hlow | ⟨-, hop⟩ | ⟨hge, -⟩)
        · exact .inl hlow
        · exact .inr hop
        · omega
    · rw [signed]
      split_ifs <;> omega
  · rw [lseekLaw_overflows hdir hsame rfl hge]
    constructor
    · intro hreach
      exact .inr (.inr ⟨hge, hreach⟩)
    · rintro (hlow | ⟨hlt, -⟩ | ⟨-, hreach⟩)
      · rintro ⟨b, hb, target, htarget, hsum, -⟩
        obtain rfl : (file.fOffset : ℤ) = b := Option.some.inj hb
        rw [signed, if_pos hlow] at hsum
        omega
      · omega
      · exact hreach

lemma lseekLaw_end (hdir : file.directory = false) {target : ℕ}
    (htarget : target = Word.wadd (file.nSize % 2 ^ 32) offset) :
    LseekLaw op file offset seekEnd newOffsetPtr ↔
      (target : ℤ) = file.nSize + signed offset ∨ target = uint32Max ∨ (op file.pv target).2 ≠ 0 := by
  have hmax : uint32Max = 2 ^ 32 - 1 := rfl
  have hsame : ¬ (seekEnd = seekSet ∧ offset = file.fOffset) := fun h => absurd h.1 (by decide)
  have hnew : newOffset file offset seekEnd = some target := by
    rw [htarget]
    rfl
  have hword : target = (file.nSize + offset) % 2 ^ 32 := by
    rw [htarget, Word.wadd]
    omega
  rcases Nat.lt_or_ge target uint32Max with hlt | hge
  · rw [lseekLaw_asks (b := file.nSize) hdir hsame hnew hlt rfl ?_,
      or_iff_right (a := target = uint32Max) hlt.ne]
    rw [signed]
    split_ifs <;> omega
  · rw [lseekLaw_overflows hdir hsame hnew hge]
    refine iff_of_true ?_ (.inr (.inl (by omega)))
    rintro ⟨b, hb, place, hplace, hsum, -⟩
    obtain rfl : (file.nSize : ℤ) = b := Option.some.inj hb
    rw [signed] at hsum
    split_ifs at hsum <;> omega

/-- `vfs_lseek` meets the law of lseek exactly for the regular calls. -/
theorem vfs_lseek_law (op : δ → ℕ → δ × ℤ) (file : SeekFile δ) {offset : ℕ} (whence : ℕ)
    (newOffsetPtr : Option ℕ) (hoffset : offset < 2 ^ 32) :
    LseekLaw op file offset whence newOffsetPtr ↔ Regular op file offset whence newOffsetPtr := by
  rw [Regular]
  cases hdir : file.directory with
  | true =>
    rw [if_pos rfl]
    refine lseekLaw_fails (by decide : ebadf ≠ 0) ?_
    rw [vfsLseek, if_pos hdir]
  | false =>
    rw [if_neg (by simp)]
    split_ifs with hset hsame hcur hend
    · exact lseekLaw_stays hdir hset hsame hoffset
    · rw [hset]
      exact lseekLaw_set hdir hsame hoffset
    · rw [hcur]
      exact lseekLaw_cur hdir hoffset
    · rw [hend]
      exact lseekLaw_end hdir rfl
    · refine iff_of_true ?_ trivial
      rw [lseekLaw_fails (by decide : einval ≠ 0)]
      · rintro ⟨b, hb, -⟩
        rw [base, if_neg hset, if_neg hcur, if_neg hend] at hb
        cases hb
      · rw [vfsLseek, if_neg (by simp [hdir]), if_neg fun h => hset h.1, newOffset, if_neg hset,
          if_neg hcur, if_neg hend]

def tenBytes : SeekFile Unit := ⟨false, 5, 10, false, ()⟩

/-- Three bytes on from the offset 5 -/
theorem vfs_lseek_law_tenBytes :
    LseekLaw ext2Lseek tenBytes 3 seekCur (some 0) ∧
      vfsLseek ext2Lseek tenBytes 3 seekCur (some 0) = ({ tenBytes with fOffset := 8 }, some 8, 0) :=
  ⟨(vfs_lseek_law ext2Lseek tenBytes seekCur (some 0) (by decide)).mpr
    (Or.inl (by decide : 3 < 2 ^ 31)), rfl⟩

/-- A seek back by one from the old offset is an overflow. -/
theorem back_overflows : ¬ ∀ (file : SeekFile Unit) (offset whence : ℕ) (newOffsetPtr : Option ℕ),
    file.fOffset < 2 ^ 32 → offset < 2 ^ 32 → LseekLaw ext2Lseek file offset whence newOffsetPtr := by
  intro h
  have hlaw := h tenBytes (2 ^ 32 - 1) seekCur none (by decide) (by decide)
  have hzero := hlaw.succeeds ⟨5, rfl, 4, by decide, by decide, rfl⟩
  have herr : (vfsLseek ext2Lseek tenBytes (2 ^ 32 - 1) seekCur none).2.2 = eoverflow := by decide
  rw [herr] at hzero
  exact absurd hzero (by decide)

end Almos.FileSeek
