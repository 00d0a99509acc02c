import Almos.FatDirectory

/-!
# Short names

The name of a directory entry has a base of up to eight bytes and an extension of up to three, each
padded with spaces. The conversion from a string copies three bytes after the dot, whatever the
length of the extension.
-/
namespace Almos.Vfat

/-- A name of at most eight characters with an extension of at most three. -/
structure ShortName where
  base : List UInt8
  ext : List UInt8
  base_ne : base ≠ []
  base_length : base.length ≤ 8
  ext_length : ext.length ≤ 3
  chars : ∀ c ∈ base ++ ext, c ≠ 0 ∧ c ≠ dot ∧ c ≠ space

namespace ShortName

def bytes (n : ShortName) : List UInt8 := n.base ++ if n.ext = [] then [] else dot :: n.ext

variable (n : ShortName) (junk : UInt8 × UInt8)

lemma base_char {c : UInt8} (hc : c ∈ n.base) : c ≠ 0 ∧ c ≠ dot ∧ c ≠ space :=
  n.chars c (List.mem_append_left _ hc)

lemma ext_char {c : UInt8} (hc : c ∈ n.ext) : c ≠ 0 ∧ c ≠ dot ∧ c ≠ space :=
  n.chars c (List.mem_append_right _ hc)

lemma takeWhile_append {p : UInt8 → Bool} {l r : List UInt8} (hl : ∀ c ∈ l, p c = true)
    (hr : ∀ c, r.head? = some c → p c = false) : (l ++ r).takeWhile p = l := by
  rw [List.takeWhile_append_of_pos hl]
  cases r with
  | nil => simp
  | cons c r => simp [hr c rfl]

lemma takeWhile_dot : (n.bytes.takeWhile (· != dot)).take 11 = n.base := by
  have hbase : n.bytes.takeWhile (· != dot) = n.base := by
    apply takeWhile_append
    · intro c hc
      simpa using (n.base_char hc).2.1
    · intro c hc
      split_ifs at hc with hext
      · simp at hc
      · obtain rfl : dot = c := by simpa using hc
        rfl
  rw [hbase]
  exact List.take_of_length_le (n.base_length.trans (by decide))

lemma vfatConvertName_bytes :
    vfatConvertName n.bytes junk = n.base ++ List.replicate (8 - n.base.length) space ++
      if n.ext = [] then List.replicate 3 space else (n.ext ++ [0, junk.1, junk.2]).take 3 := by
  have hlen := n.base_length
  have hpad : List.replicate (11 - n.base.length) space =
      List.replicate (8 - n.base.length) space ++ List.replicate 3 space := by
    rw [List.replicate_append_replicate]
    congr 1
    omega
  have hrest : n.bytes.drop n.base.length = if n.ext = [] then [] else dot :: n.ext := by
    rw [bytes, List.drop_left]
  have htake : (n.base ++ List.replicate (8 - n.base.length) space ++
      List.replicate 3 space).take 8 = n.base ++ List.replicate (8 - n.base.length) space := by
    apply List.take_left'
    rw [List.length_append, List.length_replicate]
    omega
  simp only [vfatConvertName, takeWhile_dot, hrest, hpad, ← List.append_assoc]
  by_cases hext : n.ext = []
  · simp [hext]
  · simp only [if_neg hext, hlen, List.head?_cons, and_self, if_true, List.tail_cons, htake]

lemma ext_tail : ∃ z, ((n.ext ++ [0, junk.1, junk.2]).take 3).takeWhile (· != space) = n.ext ++ z ∧
    ∀ c, z.head? = some c → c = 0 := by
  have hsplit : (n.ext ++ [0, junk.1, junk.2]).take 3 =
      n.ext ++ [0, junk.1, junk.2].take (3 - n.ext.length) := by
    rw [List.take_append, List.take_of_length_le n.ext_length]
  rw [hsplit, List.takeWhile_append_of_pos fun c hc => by simpa using (n.ext_char hc).2.2]
  refine ⟨_, rfl, ?_⟩
  intro c hc
  cases hlen : 3 - n.ext.length with
  | zero => simp [hlen] at hc
  | succ k =>
    rw [hlen, List.take_succ_cons, List.takeWhile_cons_of_pos (by decide), List.head?_cons] at hc
    cases hc
    rfl

lemma takeWhile_bytes (rest : List UInt8) (hrest : ∀ c, rest.head? = some c → c = 0) :
    (n.bytes ++ rest).takeWhile (· != 0) = n.bytes := by
  apply takeWhile_append
  · intro c hc
    rcases List.mem_append.1 hc with hc | hc
    · simpa using (n.base_char hc).1
    · split_ifs at hc with hext
      · simp at hc
      · rcases List.mem_cons.1 hc with rfl | hc
        · rfl
        · simpa using (n.ext_char hc).1
  · intro c hc
    simp [hrest c hc]

/-- The name that an entry shows, from the padded base and the three bytes of the extension. -/
lemma vfatGetshortname_append {ext : List UInt8} (hext : ext.length = 3) :
    vfatGetshortname (n.base ++ List.replicate (8 - n.base.length) space ++ ext) =
      (n.base ++ if ext.getD 0 0 ≠ space then dot :: ext.takeWhile (· != space) else []).takeWhile
        (· != 0) := by
  have hlen : (n.base ++ List.replicate (8 - n.base.length) space).length = 8 := by
    have := n.base_length
    rw [List.length_append, List.length_replicate]
    omega
  have hbase : (n.base ++ List.replicate (8 - n.base.length) space).takeWhile (· != space) =
      n.base := by
    apply takeWhile_append
    · intro c hc
      simpa using (n.base_char hc).2.2
    · intro c hc
      have hmem := List.eq_of_mem_replicate (List.mem_of_mem_head? hc)
      simp [hmem]
  rw [vfatGetshortname, List.take_left' hlen, List.drop_left' hlen,
    List.getD_append_right _ _ _ _ hlen.le, hlen, hbase, List.take_of_length_le hext.le]

lemma ext_head (hext : n.ext ≠ []) (rest : List UInt8) : (n.ext ++ rest).getD 0 0 ≠ space := by
  cases hcons : n.ext with
  | nil => exact absurd hcons hext
  | cons c tail =>
    have hc := (n.ext_char (c := c) (by simp [hcons])).2.2
    simpa using hc

theorem vfatGetshortname_convertName : vfatGetshortname (vfatConvertName n.bytes junk) = n.bytes := by
  rw [vfatConvertName_bytes]
  by_cases hext : n.ext = []
  · have hname := n.takeWhile_bytes [] (by simp)
    rw [if_pos hext, vfatGetshortname_append n (by simp), if_neg (by decide)]
    simpa [bytes, hext] using hname
  · obtain ⟨z, hz, hzero⟩ := n.ext_tail junk
    have hsplit : (n.ext ++ [0, junk.1, junk.2]).take 3 =
        n.ext ++ [0, junk.1, junk.2].take (3 - n.ext.length) := by
      rw [List.take_append, List.take_of_length_le n.ext_length]
    have hhead : ((n.ext ++ [0, junk.1, junk.2]).take 3).getD 0 0 ≠ space := by
      rw [hsplit]
      exact n.ext_head hext _
    rw [if_neg hext, vfatGetshortname_append n (by simp), if_pos hhead, hz, ← List.cons_append,
      ← List.append_assoc]
    have hname := n.takeWhile_bytes z hzero
    rwa [bytes, if_neg hext] at hname ⊢

def field : List UInt8 :=
  n.base ++ List.replicate (8 - n.base.length) space ++
    (n.ext ++ List.replicate (3 - n.ext.length) space)

/-- A part that is missing or has its full length is converted as it should be. -/
lemma convertedExt_eq_iff :
    (if n.ext = [] then List.replicate 3 space else (n.ext ++ [0, junk.1, junk.2]).take 3) =
        n.ext ++ List.replicate (3 - n.ext.length) space ↔
      n.ext.length = 0 ∨ n.ext.length = 3 := by
  have hle := n.ext_length
  by_cases hext : n.ext = []
  · simp [hext]
  · have hpos : 0 < n.ext.length := List.length_pos_iff.2 hext
    rw [if_neg hext, List.take_append, List.take_of_length_le hle, List.append_cancel_left_eq]
    constructor
    · intro h
      by_contra hshort
      obtain ⟨k, hk⟩ : ∃ k, 3 - n.ext.length = k + 1 := ⟨2 - n.ext.length, by omega⟩
      rw [hk, List.take_succ_cons, List.replicate_succ, List.cons.injEq] at h
      exact absurd h.1 (by decide)
    · rintro (h | h)
      · omega
      · simp [h]

/-- A converted name is the padded one just when its extension is missing or has three bytes. -/
lemma vfatConvertName_eq_field :
    vfatConvertName n.bytes junk = n.field ↔ n.ext.length = 0 ∨ n.ext.length = 3 := by
  rw [vfatConvertName_bytes, field, List.append_cancel_left_eq, convertedExt_eq_iff]

lemma vfatGetshortname_field : vfatGetshortname n.field = n.bytes := by
  have hlength : (n.ext ++ List.replicate (3 - n.ext.length) space).length = 3 := by
    have := n.ext_length
    rw [List.length_append, List.length_replicate]
    omega
  have hname := n.takeWhile_bytes [] (by simp)
  rw [List.append_nil] at hname
  rw [field, vfatGetshortname_append n hlength]
  by_cases hext : n.ext = []
  · rw [bytes, if_pos hext] at hname ⊢
    rw [hext, if_neg (by decide), hname]
  · have hpad : (n.ext ++ List.replicate (3 - n.ext.length) space).takeWhile (· != space) =
        n.ext := by
      apply takeWhile_append
      · intro c hc
        simpa using (n.ext_char hc).2.2
      · intro c hc
        have hmem := List.eq_of_mem_replicate (List.mem_of_mem_head? hc)
        simp [hmem]
    rw [bytes, if_neg hext] at hname ⊢
    rw [if_pos (n.ext_head hext _), hpad, hname]

end ShortName

/-- The name comes back from its conversion, which is the padded name whatever follows the string
and no conversion of another name, and the padded name comes back from its short name. -/
structure RoundTrips (n : ShortName) : Prop where
  back : ∀ junk, vfatGetshortname (vfatConvertName n.bytes junk) = n.bytes
  padded : ∀ junk, vfatConvertName n.bytes junk = n.field
  distinct : ∀ (m : ShortName) (junk junk' : UInt8 × UInt8), m.bytes ≠ n.bytes →
    vfatConvertName m.bytes junk' ≠ vfatConvertName n.bytes junk
  field_back : ∀ junk, vfatConvertName (vfatGetshortname n.field) junk = n.field

/-- A name round-trips just when it has no extension or one of three bytes. -/
theorem shortname_round_trips (n : ShortName) :
    RoundTrips n ↔ n.ext.length = 0 ∨ n.ext.length = 3 := by
  constructor
  · intro h
    exact (n.vfatConvertName_eq_field (0, 0)).1 (h.padded (0, 0))
  · intro hext
    have hpadded : ∀ junk, vfatConvertName n.bytes junk = n.field :=
      fun junk => (n.vfatConvertName_eq_field junk).2 hext
    refine ⟨n.vfatGetshortname_convertName, hpadded, fun m junk junk' hne heq => ?_, fun junk => ?_⟩
    · refine hne ?_
      rw [← m.vfatGetshortname_convertName junk', heq, n.vfatGetshortname_convertName]
    · rw [n.vfatGetshortname_field, hpadded]

/-- `a.c`: after the conversion of the extension of one byte stands the end of the string, and what
followed it in memory. -/
theorem short_extension_not_padded : ¬∀ n : ShortName, RoundTrips n := by
  intro h
  have hpadded := (h ⟨[0x61], [0x63], by decide, by decide, by decide, by simp [dot, space]⟩).padded
    (0x78, 0x79)
  exact absurd hpadded (by decide)

end Almos.Vfat
