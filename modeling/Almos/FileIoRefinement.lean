import Almos.FileIo

/-!
# An open file refines an array of bytes

A transfer is right when it starts at the start of a page or stays inside one: the loops take a
whole page at a time from wherever they are.
-/
namespace Almos.Vfs
open Word

variable {fr : PageFrames} {flags : FileFlags} {p q r : FilePages}

def Access.Inside (a : Access) : Prop := a.off + a.len ≤ pageSize

instance (a : Access) : Decidable a.Inside := inferInstanceAs (Decidable (_ ≤ _))

/-- From `p` to `q` only pages of the file were accessed, and only inside. -/
structure Confined (fr : PageFrames) (p q : FilePages) : Prop where
  inside : (∀ a ∈ p.accesses, a.Inside) → ∀ a ∈ q.accesses, a.Inside
  outside : ∀ addr, (∀ index, addr / pageSize ≠ fr.frame index) → q.mem addr = p.mem addr

lemma Confined.refl (p : FilePages) : Confined fr p p := ⟨id, fun _ _ => rfl⟩

lemma Confined.trans (hpq : Confined fr p q) (hqr : Confined fr q r) : Confined fr p r :=
  ⟨fun h => hqr.inside (hpq.inside h),
    fun addr h => (hqr.outside addr h).trans (hpq.outside addr h)⟩

variable (fr) in
lemma addr_div (index off : ℕ) (hoff : off < pageSize) :
    (pageAddr fr index + off) / pageSize = fr.frame index := by
  simp only [pageAddr, pageSize] at hoff ⊢
  omega

lemma content_getPage (index : ℕ) : content fr (mapperGetPage fr p index) = content fr p := by
  funext pos
  unfold mapperGetPage
  split_ifs with hload
  · rfl
  · have hdiv := addr_div fr (pos / pageSize) (pos % pageSize) (Nat.mod_lt _ (by decide))
    simp only [content, hdiv, Function.update_apply]
    rcases eq_or_ne (pos / pageSize) index with heq | hne
    · simp [heq, hload]
    · simp [hne, fr.frame_inj.ne hne]

variable (fr) in
lemma loaded_getPage (index : ℕ) : (mapperGetPage fr p index).loaded index = true := by
  unfold mapperGetPage
  split_ifs with hload
  · exact hload
  · simp

lemma confined_getPage (index : ℕ) : Confined fr p (mapperGetPage fr p index) := by
  unfold mapperGetPage
  split_ifs
  · exact .refl p
  · exact ⟨id, fun addr h => if_neg (h index)⟩

variable (fr) in
lemma copyFrom_eq {pos len : ℕ} (hload : p.loaded (pos / pageSize) = true)
    (hinside : pos % pageSize + len ≤ pageSize) :
    (copyFrom fr p (pos / pageSize) (pos % pageSize) len).2 =
      (List.range len).map fun k => content fr p (pos + k) := by
  refine List.map_congr_left fun k hk => ?_
  have hlt : k < len := List.mem_range.1 hk
  have hdiv : (pos + k) / pageSize = pos / pageSize := by
    simp only [pageSize] at hinside ⊢
    omega
  have hmod : (pos + k) % pageSize = pos % pageSize + k := by
    simp only [pageSize] at hinside ⊢
    omega
  rw [content, hdiv, hmod, if_pos hload, add_assoc]

variable (fr) in
lemma confined_copyFrom (index : ℕ) {off len : ℕ} (hinside : off + len ≤ pageSize) :
    Confined fr p (copyFrom fr p index off len).1 := by
  refine ⟨fun h a ha => ?_, fun _ _ => rfl⟩
  rcases List.mem_cons.1 ha with rfl | ha
  · exact hinside
  · exact h a ha

/-- `buffer` written over `data` at a position. -/
def putAt (pos : ℕ) (buffer : List UInt8) (data : ℕ → UInt8) : ℕ → UInt8 := fun x =>
  if pos ≤ x then (buffer[x - pos]?).getD (data x) else data x

lemma putAt_of_le (pos : ℕ) {x : ℕ} {buffer : List UInt8} {data : ℕ → UInt8}
    (h : pos ≤ x → pos + buffer.length ≤ x) : putAt pos buffer data x = data x := by
  unfold putAt
  split_ifs with hle
  · rw [List.getElem?_eq_none (by have := h hle; omega)]
    rfl
  · rfl

variable (fr) in
lemma content_copyTo {pos : ℕ} {bytes : List UInt8} (hload : p.loaded (pos / pageSize) = true)
    (hinside : pos % pageSize + bytes.length ≤ pageSize) :
    content fr (copyTo fr p (pos / pageSize) (pos % pageSize) bytes) =
      putAt pos bytes (content fr p) := by
  have hpage : 0 < pageSize := by decide
  funext x
  have hx := Nat.mod_lt x hpage
  have hxdiv := Nat.div_add_mod x pageSize
  have hposdiv := Nat.div_add_mod pos pageSize
  rcases eq_or_ne (x / pageSize) (pos / pageSize) with heq | hne
  · rw [heq] at hxdiv
    have hle : pageAddr fr (pos / pageSize) + pos % pageSize ≤
        pageAddr fr (pos / pageSize) + x % pageSize ↔ pos ≤ x := by omega
    have hsub : pageAddr fr (pos / pageSize) + x % pageSize -
        (pageAddr fr (pos / pageSize) + pos % pageSize) = x - pos := by omega
    simp only [content, copyTo, putAt, heq, hload, if_true, hle, hsub]
  · have hkeep : putAt pos bytes (content fr p) x = content fr p x := by
      apply putAt_of_le
      intro hle
      have hlt : pos / pageSize < x / pageSize :=
        lt_of_le_of_ne (Nat.div_le_div_right hle) (Ne.symm hne)
      have hmul := Nat.mul_le_mul_left pageSize (Nat.succ_le_of_lt hlt)
      rw [Nat.mul_succ] at hmul
      omega
    have hother : putAt (pageAddr fr (pos / pageSize) + pos % pageSize) bytes p.mem
        (pageAddr fr (x / pageSize) + x % pageSize) =
        p.mem (pageAddr fr (x / pageSize) + x % pageSize) := by
      apply putAt_of_le
      intro hle
      have hframe : fr.frame (x / pageSize) ≠ fr.frame (pos / pageSize) := fr.frame_inj.ne hne
      have hlt : fr.frame (pos / pageSize) < fr.frame (x / pageSize) := by
        by_contra hge
        have hmul := Nat.mul_le_mul_right pageSize
          (Nat.succ_le_of_lt (lt_of_le_of_ne (not_lt.1 hge) hframe))
        rw [Nat.succ_mul] at hmul
        simp only [pageAddr] at hle
        omega
      have hmul := Nat.mul_le_mul_right pageSize (Nat.succ_le_of_lt hlt)
      rw [Nat.succ_mul] at hmul
      simp only [pageAddr]
      omega
    rw [hkeep]
    cases hloaded : p.loaded (x / pageSize) with
    | false => simp [content, copyTo, hloaded]
    | true =>
      simp only [content, copyTo, hloaded, if_true]
      exact hother

variable (fr) in
lemma confined_copyTo (index : ℕ) {off : ℕ} {bytes : List UInt8}
    (hinside : off + bytes.length ≤ pageSize) : Confined fr p (copyTo fr p index off bytes) := by
  constructor
  · intro h a ha
    rcases List.mem_cons.1 ha with rfl | ha
    · exact hinside
    · exact h a ha
  · intro addr hout
    refine putAt_of_le (pageAddr fr index + off) fun hle => ?_
    by_contra hlt
    have hdiv := addr_div fr index (addr - pageAddr fr index) (by omega)
    rw [Nat.add_sub_cancel' (by omega)] at hdiv
    exact hout index hdiv

/-- A transfer of `n` bytes at `pos` starts with a page, or stays inside one. -/
def InPages (pos n : ℕ) : Prop := pos % pageSize = 0 ∨ pos % pageSize + n ≤ pageSize

lemma InPages.next {pos left n : ℕ} (h : InPages pos n) (hleft : left = pageSize ∨ n = left)
    (hle : left ≤ n) : InPages (pos + left) (n - left) := by
  have hpage : pageSize = 4096 := rfl
  rcases hleft with rfl | rfl
  · have haligned : pos % pageSize = 0 := by
      rcases h with h | h
      · exact h
      · omega
    exact .inl (by rw [Nat.add_mod_right]; exact haligned)
  · refine .inr ?_
    rw [Nat.sub_self]
    exact (Nat.mod_lt _ (by decide)).le

lemma InPages.chunk {pos n len : ℕ} (h : InPages pos n) (hlen : len ≤ n) (hpage : len ≤ pageSize) :
    pos % pageSize + len ≤ pageSize := by
  rcases h with h | h
  · omega
  · omega

variable (fr) in
theorem readLoop_eq {nSize fuel pos size n : ℕ} (hfuel : size ≤ fuel)
    (hn : n = min size (nSize - pos)) (hpages : InPages pos n) (hword : pos + n < 2 ^ 32) :
    (readLoop fr nSize fuel p pos size).2 =
        ((List.range n).map fun k => content fr p (pos + k), size - n) ∧
      content fr (readLoop fr nSize fuel p pos size).1 = content fr p ∧
      Confined fr p (readLoop fr nSize fuel p pos size).1 := by
  induction fuel generalizing p pos size n with
  | zero =>
    obtain rfl : size = 0 := by omega
    obtain rfl : n = 0 := by omega
    exact ⟨rfl, rfl, .refl p⟩
  | succ fuel ih =>
    by_cases hturn : 0 < size ∧ pos < nSize
    · obtain ⟨left, hleft⟩ :
          ∃ left, left = if pageSize < nSize - pos then pageSize else nSize - pos := ⟨_, rfl⟩
      have hpage : left ≤ pageSize ∧ 0 < left ∧ left ≤ nSize - pos := by
        have hsize : pageSize = 4096 := rfl
        split_ifs at hleft <;> omega
      have hload := loaded_getPage fr (p := p) (pos / pageSize)
      by_cases hle : left ≤ size
      · have hnext : wadd pos left = pos + left := wadd_of_lt (by omega)
        have hchunk : pos % pageSize + left ≤ pageSize := hpages.chunk (by omega) hpage.1
        have hbytes := copyFrom_eq fr hload hchunk
        rw [content_getPage] at hbytes
        have hcopied := confined_copyFrom fr (p := mapperGetPage fr p (pos / pageSize))
          (pos / pageSize) hchunk
        have hfuel : size - left ≤ fuel := by omega
        obtain ⟨hrest, hcontent, hconfined⟩ := ih
          (p := (copyFrom fr (mapperGetPage fr p (pos / pageSize)) (pos / pageSize)
            (pos % pageSize) left).1)
          (n := n - left) hfuel (by omega)
          (hpages.next (by split_ifs at hleft <;> omega) (by omega)) (by omega)
        have hsame : content fr (copyFrom fr (mapperGetPage fr p (pos / pageSize)) (pos / pageSize)
            (pos % pageSize) left).1 = content fr p := content_getPage _
        rw [hsame] at hrest hcontent
        simp only [readLoop, if_pos hturn, ← hleft, if_pos hle, hnext, hrest]
        refine ⟨?_, hcontent, ((confined_getPage _).trans hcopied).trans hconfined⟩
        refine Prod.ext ?_ (by simp only; omega)
        have hsplit : n = left + (n - left) := by omega
        rw [hbytes]
        conv_rhs => rw [hsplit, List.range_add, List.map_append, List.map_map]
        simp only [add_assoc, Function.comp_def]
      · have hchunk : pos % pageSize + size ≤ pageSize := hpages.chunk (by omega) (by omega)
        have hbytes := copyFrom_eq fr hload hchunk
        rw [content_getPage] at hbytes
        have hcopied := confined_copyFrom fr (p := mapperGetPage fr p (pos / pageSize))
          (pos / pageSize) hchunk
        obtain rfl : n = size := by omega
        simp only [readLoop, if_pos hturn, ← hleft, if_neg hle, hbytes, Nat.sub_self]
        exact ⟨trivial, content_getPage _, (confined_getPage _).trans hcopied⟩
    · obtain rfl : n = 0 := by omega
      simp only [readLoop, if_neg hturn]
      exact ⟨rfl, trivial, .refl p⟩

lemma putAt_nil {pos : ℕ} (data : ℕ → UInt8) : putAt pos [] data = data := by
  funext x
  simp [putAt]

lemma putAt_split {pos : ℕ} (len : ℕ) (buffer : List UInt8) (data : ℕ → UInt8) :
    putAt (pos + len) (buffer.drop len) (putAt pos (buffer.take len) data) =
      putAt pos buffer data := by
  funext x
  simp only [putAt, List.getElem?_drop, List.getElem?_take]
  by_cases hpos : pos ≤ x
  · by_cases hlow : pos + len ≤ x
    · have hindex : len + (x - (pos + len)) = x - pos := by omega
      rw [if_pos hlow, if_pos hpos, if_pos hpos, if_neg (by omega), hindex]
      rfl
    · rw [if_neg hlow, if_pos hpos, if_pos hpos, if_pos (by omega)]
  · rw [if_neg (by omega), if_neg hpos, if_neg hpos]

variable (fr) in
theorem writeLoop_eq {fuel pos : ℕ} {buffer : List UInt8} (hfuel : buffer.length ≤ fuel)
    (hpages : InPages pos buffer.length) (hword : pos + buffer.length < 2 ^ 32) :
    (writeLoop fr fuel p pos buffer).2 = [] ∧
      content fr (writeLoop fr fuel p pos buffer).1 = putAt pos buffer (content fr p) ∧
      Confined fr p (writeLoop fr fuel p pos buffer).1 := by
  induction fuel generalizing p pos buffer with
  | zero =>
    obtain rfl : buffer = [] := List.length_eq_zero_iff.1 (by omega)
    exact ⟨rfl, (putAt_nil _).symm, .refl p⟩
  | succ fuel ih =>
    have hpage : pageSize = 4096 := rfl
    have hload := loaded_getPage fr (p := p) (pos / pageSize)
    by_cases hturn : 0 < buffer.length
    · by_cases hle : pageSize ≤ buffer.length
      · have hnext : wadd pos pageSize = pos + pageSize := wadd_of_lt (by omega)
        have htake : (buffer.take pageSize).length = pageSize := by
          rw [List.length_take]
          omega
        have hchunk : pos % pageSize + (buffer.take pageSize).length ≤ pageSize := by
          rw [htake]
          exact hpages.chunk hle le_rfl
        have hcontent := content_copyTo fr hload hchunk
        rw [content_getPage] at hcontent
        have hcopied := confined_copyTo fr (p := mapperGetPage fr p (pos / pageSize))
          (pos / pageSize) hchunk
        have hdrop : (buffer.drop pageSize).length = buffer.length - pageSize := List.length_drop
        have hfuel : (buffer.drop pageSize).length ≤ fuel := by omega
        obtain ⟨hleft, hrest, hconfined⟩ := ih
          (p := copyTo fr (mapperGetPage fr p (pos / pageSize)) (pos / pageSize) (pos % pageSize)
            (buffer.take pageSize))
          hfuel (by rw [hdrop]; exact hpages.next (.inl rfl) hle) (by omega)
        rw [hcontent, putAt_split] at hrest
        simp only [writeLoop, if_pos hturn, if_pos hle, hnext]
        exact ⟨hleft, hrest, ((confined_getPage _).trans hcopied).trans hconfined⟩
      · have hchunk : pos % pageSize + buffer.length ≤ pageSize := hpages.chunk le_rfl (by omega)
        have hcontent := content_copyTo fr hload hchunk
        rw [content_getPage] at hcontent
        simp only [writeLoop, if_pos hturn, if_neg hle]
        exact ⟨trivial, hcontent, (confined_getPage _).trans (confined_copyTo fr _ hchunk)⟩
    · obtain rfl : buffer = [] := List.length_eq_zero_iff.1 (by omega)
      exact ⟨rfl, (putAt_nil _).symm, .refl p⟩

/-- A transfer that the loops get right, whose length is a positive `ssize_t` and whose end is an
offset. -/
structure Transfers (pos n : ℕ) : Prop where
  inPages : InPages pos n
  signed : n < 2 ^ 31
  word : pos + n < 2 ^ 32

def Fits (flags : FileFlags) (f : OpenFile) : Call → Prop
  | .read count => flags.directory = false → flags.rdonly = true → flags.fifo = false →
      Transfers f.fOffset (min (sizeToRead flags f.nSize f.fOffset count) (f.nSize - f.fOffset))
  | .write buffer => flags.directory = false → flags.wronly = true → flags.fifo = false →
      Transfers f.fOffset buffer.length
  | .lseek _ _ _ => True

lemma ssize_of_lt {n : ℕ} (h : n < 2 ^ 31) : ssize n = n := if_pos h

/-- A call on `f` gave the state and the answer `out`, as `spec` says. -/
structure Agrees (fr : PageFrames) (f : OpenFile) (out : OpenFile × Answer)
    (spec : ByteFile × Answer) : Prop where
  answer : out.2 = spec.2
  state : toByteFile fr out.1 = spec.1
  confined : Confined fr f.pages out.1.pages

lemma Agrees.denied (f : OpenFile) (a : Answer) : Agrees fr f (f, a) (toByteFile fr f, a) :=
  ⟨rfl, rfl, .refl _⟩

variable (fr) in
lemma vfsDefaultRead_eq {f : OpenFile} {size n : ℕ} (hfifo : flags.fifo = false)
    (hn : n = min size (f.nSize - f.fOffset)) (h : Transfers f.fOffset n) :
    (vfsDefaultRead fr flags f size).2 = ((toByteFile fr f).slice n, (n : ℤ)) ∧
      content fr (vfsDefaultRead fr flags f size).1 = content fr f.pages ∧
      Confined fr f.pages (vfsDefaultRead fr flags f size).1 := by
  rcases eq_or_ne size 0 with rfl | hsize
  · obtain rfl : n = 0 := by omega
    simp only [vfsDefaultRead, hfifo, Bool.false_eq_true, if_false, if_true]
    exact ⟨rfl, trivial, .refl _⟩
  · obtain ⟨hresult, hcontent, hconfined⟩ :=
      readLoop_eq fr (p := f.pages) le_rfl hn h.inPages h.word
    have hsum : size - (size - n) = n := by omega
    simp only [vfsDefaultRead, hfifo, Bool.false_eq_true, if_false, if_neg hsize, hresult, hsum,
      ssize_of_lt h.signed]
    exact ⟨rfl, hcontent, hconfined⟩

variable (fr) in
lemma vfsDefaultWrite_eq {f : OpenFile} {buffer : List UInt8} (hfifo : flags.fifo = false)
    (h : Transfers f.fOffset buffer.length) :
    (vfsDefaultWrite fr flags f buffer).2 = (buffer.length : ℤ) ∧
      content fr (vfsDefaultWrite fr flags f buffer).1 = (toByteFile fr f).put buffer ∧
      Confined fr f.pages (vfsDefaultWrite fr flags f buffer).1 := by
  rcases eq_or_ne buffer.length 0 with hsize | hsize
  · obtain rfl : buffer = [] := List.length_eq_zero_iff.1 hsize
    simp only [vfsDefaultWrite, hfifo, Bool.false_eq_true, if_false, List.length_nil, if_true]
    exact ⟨rfl, (putAt_nil _).symm, .refl _⟩
  · obtain ⟨hleft, hcontent, hconfined⟩ :=
      writeLoop_eq fr (p := f.pages) le_rfl h.inPages h.word
    simp only [vfsDefaultWrite, hfifo, Bool.false_eq_true, if_false, if_neg hsize, hleft,
      List.length_nil, Nat.sub_zero, ssize_of_lt h.signed]
    exact ⟨trivial, hcontent, hconfined⟩

lemma read_agrees {f : OpenFile} {count : ℕ} (h : Fits flags f (.read count)) :
    Agrees fr f (vfsRead fr flags f count) ((toByteFile fr f).read flags count) := by
  cases hdirectory : flags.directory with
  | true => simpa [vfsRead, ByteFile.read, hdirectory] using Agrees.denied f _
  | false =>
    cases hrdonly : flags.rdonly with
    | false => simpa [vfsRead, ByteFile.read, hdirectory, hrdonly] using Agrees.denied f _
    | true =>
      cases hfifo : flags.fifo with
      | true =>
        simpa [vfsRead, ByteFile.read, hdirectory, hrdonly, vfsDefaultRead, hfifo, einval] using
          Agrees.denied f ⟨[], -22⟩
      | false =>
        obtain ⟨n, hn⟩ : ∃ n, n = min (sizeToRead flags f.nSize f.fOffset count)
          (f.nSize - f.fOffset) := ⟨_, rfl⟩
        have hfits := h hdirectory hrdonly hfifo
        rw [← hn] at hfits
        obtain ⟨hresult, hcontent, hconfined⟩ := vfsDefaultRead_eq fr hfifo hn hfits
        have hcount : (toByteFile fr f).readCount flags count = n := hn.symm
        have hoffset : wadd f.fOffset n = f.fOffset + n := wadd_of_lt hfits.word
        have hnonneg : ¬(n : ℤ) < 0 := by omega
        simp only [vfsRead, ByteFile.read, hdirectory, hrdonly, hfifo, hcount, Bool.false_eq_true,
          not_true_eq_false, if_false, hresult, if_neg hnonneg, Int.toNat_natCast, hoffset]
        refine ⟨rfl, ?_, hconfined⟩
        simp only [toByteFile, hcontent]

lemma write_agrees {f : OpenFile} {buffer : List UInt8} (h : Fits flags f (.write buffer)) :
    Agrees fr f (vfsWrite fr flags f buffer) ((toByteFile fr f).write flags buffer) := by
  cases hdirectory : flags.directory with
  | true => simpa [vfsWrite, ByteFile.write, hdirectory] using Agrees.denied f _
  | false =>
    cases hwronly : flags.wronly with
    | false => simpa [vfsWrite, ByteFile.write, hdirectory, hwronly] using Agrees.denied f _
    | true =>
      cases hfifo : flags.fifo with
      | true =>
        simpa [vfsWrite, ByteFile.write, hdirectory, hwronly, vfsDefaultWrite, hfifo, einval] using
          Agrees.denied f ⟨[], -22⟩
      | false =>
        have hfits := h hdirectory hwronly hfifo
        obtain ⟨hresult, hcontent, hconfined⟩ := vfsDefaultWrite_eq fr hfifo hfits
        have hoffset : wadd f.fOffset buffer.length = f.fOffset + buffer.length :=
          wadd_of_lt hfits.word
        have hend : wadd buffer.length f.fOffset = f.fOffset + buffer.length := by
          rw [wadd_of_lt (by have := hfits.word; omega), add_comm]
        have hnonneg : ¬(buffer.length : ℤ) < 0 := by omega
        have hsize : (if (¬flags.dev ∧ f.nSize < f.fOffset + buffer.length) ∧
            f.nSize < f.fOffset + buffer.length then f.fOffset + buffer.length else f.nSize) =
            if flags.dev then f.nSize else max f.nSize (f.fOffset + buffer.length) := by
          cases flags.dev with
          | true => simp
          | false =>
            simp only [Bool.false_eq_true, not_false_eq_true, true_and, and_self, if_false]
            split_ifs <;> omega
        simp only [vfsWrite, ByteFile.write, hdirectory, hwronly, hfifo, Bool.false_eq_true,
          not_true_eq_false, if_false, hresult, if_neg hnonneg, Int.toNat_natCast, hoffset, hend,
          hsize]
        refine ⟨rfl, ?_, hconfined⟩
        simp only [toByteFile, hcontent]

lemma seekTo_agrees (f : OpenFile) (lseekErr : ℤ) (new : ℕ) :
    Agrees fr f (seekTo f lseekErr new) ((toByteFile fr f).seekTo lseekErr new) := by
  unfold seekTo ByteFile.seekTo
  by_cases hover : 2 ^ 32 - 1 ≤ new
  · rw [if_pos hover, if_pos hover]
    exact .denied f _
  · rw [if_neg hover, if_neg hover]
    by_cases herr : lseekErr ≠ 0
    · rw [if_pos herr, if_pos herr]
      exact .denied f _
    · have hsize : (if f.nSize % 2 ^ 32 < new ∧ f.nSize < new then new else f.nSize) =
          max f.nSize new := by
        split_ifs <;> omega
      rw [if_neg herr, if_neg herr]
      simp only [hsize]
      exact ⟨rfl, rfl, .refl _⟩

lemma lseek_agrees (f : OpenFile) (offset : ℕ) (whence : Whence) (lseekErr : ℤ) :
    Agrees fr f (vfsLseek flags f offset whence lseekErr)
      ((toByteFile fr f).seek flags offset whence lseekErr) := by
  unfold vfsLseek ByteFile.seek
  cases hdirectory : flags.directory with
  | true => exact .denied f _
  | false =>
    cases whence with
    | set =>
      change Agrees fr f (if offset = f.fOffset then _ else _) (if offset = f.fOffset then _ else _)
      split_ifs
      · exact .denied f _
      · exact seekTo_agrees f lseekErr offset
    | cur => exact seekTo_agrees f lseekErr _
    | fromEnd => exact seekTo_agrees f lseekErr _
    | other => exact .denied f _

variable (fr) in
lemma call_agrees {f : OpenFile} {c : Call} (h : Fits flags f c) :
    Agrees fr f (call fr flags f c) ((toByteFile fr f).call flags c) := by
  cases c with
  | read count => exact read_agrees h
  | write buffer => exact write_agrees h
  | lseek offset whence lseekErr => exact lseek_agrees f offset whence lseekErr

def AllFit (fr : PageFrames) (flags : FileFlags) (f : OpenFile) : List Call → Prop
  | [] => True
  | c :: cs => Fits flags f c ∧ AllFit fr flags (call fr flags f c).1 cs

/-- Any sequence of calls gives the answers of an array of bytes, and leaves its contents, size and
position; only pages of the file are accessed, and only inside. -/
theorem file_refines_bytes {f : OpenFile} {cs : List Call} (h : AllFit fr flags f cs) :
    (calls fr flags f cs).2 = ((toByteFile fr f).calls flags cs).2 ∧
      toByteFile fr (calls fr flags f cs).1 = ((toByteFile fr f).calls flags cs).1 ∧
      ((∀ a ∈ f.pages.accesses, a.Inside) →
        ∀ a ∈ (calls fr flags f cs).1.pages.accesses, a.Inside) ∧
      ∀ addr, (∀ index, addr / pageSize ≠ fr.frame index) →
        (calls fr flags f cs).1.pages.mem addr = f.pages.mem addr := by
  have hmain : Confined fr f.pages (calls fr flags f cs).1.pages ∧
      (calls fr flags f cs).2 = ((toByteFile fr f).calls flags cs).2 ∧
      toByteFile fr (calls fr flags f cs).1 = ((toByteFile fr f).calls flags cs).1 := by
    induction cs generalizing f with
    | nil => exact ⟨.refl _, rfl, rfl⟩
    | cons c cs ih =>
      obtain ⟨hanswer, hstate, hconfined⟩ := call_agrees fr h.1
      obtain ⟨hrest, hanswers, hfinal⟩ := ih h.2
      rw [hstate] at hanswers hfinal
      refine ⟨hconfined.trans hrest, ?_, hfinal⟩
      simp only [calls, ByteFile.calls, hanswer, hanswers]
  exact ⟨hmain.2.1, hmain.2.2, hmain.1.inside, hmain.1.outside⟩

def spacedFrames : PageFrames := ⟨fun index => 2 * index, fun a b h => by simpa using h⟩

def readWrite : FileFlags := ⟨false, true, true, false, false, false⟩

def twoPages (fOffset : ℕ) : OpenFile :=
  ⟨⟨fun a => if a = 8192 then 1 else 0, fun index => decide (index < 2), []⟩, 8192, fOffset⟩

theorem file_refines_bytes_within_page :
    AllFit spacedFrames readWrite (twoPages 0) [.write [7, 8], .lseek 1 .set 0, .read 1] ∧
      (calls spacedFrames readWrite (twoPages 0) [.write [7, 8], .lseek 1 .set 0, .read 1]).2 =
        [⟨[], 2⟩, ⟨[], 0⟩, ⟨[8], 1⟩] := by
  have hfit : AllFit spacedFrames readWrite (twoPages 0)
      [.write [7, 8], .lseek 1 .set 0, .read 1] :=
    ⟨fun _ _ _ => ⟨.inl rfl, by decide, by decide⟩, trivial,
      fun _ _ _ => ⟨.inr (by decide), by decide, by decide⟩, trivial⟩
  exact ⟨hfit, (file_refines_bytes hfit).1⟩

/-- Across a page boundary a read takes the byte after the page in memory, and a write changes it:
neither is a byte of the file. -/
theorem transfer_leaves_page :
    (vfsRead spacedFrames readWrite (twoPages 4095) 2).2.bytes = [0, 0] ∧
      ((toByteFile spacedFrames (twoPages 4095)).read readWrite 2).2.bytes = [0, 1] ∧
      (∃ a ∈ (vfsRead spacedFrames readWrite (twoPages 4095) 2).1.pages.accesses, ¬a.Inside) ∧
      (vfsWrite spacedFrames readWrite (twoPages 4095) [7, 8]).1.pages.mem 4096 = 8 ∧
      ∀ index, 4096 / pageSize ≠ spacedFrames.frame index := by
  refine ⟨by decide, by decide, by decide, by decide, ?_⟩
  intro index
  simp only [spacedFrames, pageSize]
  omega

end Almos.Vfs
