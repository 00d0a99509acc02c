import Mathlib
import Almos.ByteMemory
import Almos.Word
import Almos.VmRegion

/-!
# Loading an executable

The headers of the segments are read into a buffer of the kernel and gone through there. The outcomes of
the calls of the file system and of `vmm_mmap` are given for each round, and so is what other memory
holds.
-/
namespace Almos.Elf
open Word Vm

/-- The fields of `Elf32_Ehdr` that are looked at -/
structure Ehdr where
  eIdent : List ℕ
  eType : ℕ
  eMachine : ℕ
  ePhoff : ℕ
  ePhnum : ℕ

/-- The fields of `Elf32_Phdr` that are looked at -/
structure Phdr where
  pType : ℕ
  pOffset : ℕ
  pVaddr : ℕ
  pMemsz : ℕ

/-- `sizeof(Elf32_Phdr)` -/
def phdrSize : ℕ := 32

def ptLoad : ℕ := 1

/-- `USR_OFFSET` -/
def usrOffset : ℕ := 0x4000

def pmmPageSize : ℕ := 4096

def eperm : ℤ := 1

def enomem : ℤ := 12

def eacces : ℤ := 13

def einval : ℤ := 22

/-- `elf_isElfHeader` -/
def elfIsElfHeader (h : Ehdr) : Bool :=
  h.eIdent.getD 0 0 == 0x7f && h.eIdent.getD 1 0 == 0x45 && h.eIdent.getD 2 0 == 0x4c &&
    h.eIdent.getD 3 0 == 0x46

/-- `elf_isValidHeader`: 32 bits, little endian, the current version, System V, one of the machines, an
executable file -/
def elfIsValidHeader (h : Ehdr) : Bool :=
  h.eIdent.getD 4 0 == 1 && h.eIdent.getD 5 0 == 1 && h.eIdent.getD 6 0 == 1 &&
    h.eIdent.getD 7 0 == 0 && (h.eMachine == 8 || h.eMachine == 10 || h.eMachine == 3) && h.eType == 2

def readPhdr (mem : ByteMemory) (a : ℕ) : Phdr :=
  ⟨mem.load32 a, mem.load32 (a + 4), mem.load32 (a + 8), mem.load32 (a + 20)⟩

/-- What the load of a file depends on: the bytes of the file, the buffer that `kmem_alloc` gives, how the
calls before the loop end, and for each round of the loop how its calls end and what memory holds outside
the buffer. -/
structure Env where
  file : ℕ → BitVec 8
  buffer : Option ℕ
  phoffErr : ℤ
  readCount : ℤ
  outside : ℕ → ByteMemory
  seekErr : ℕ → ℤ
  mapOk : ℕ → Bool
  errno : ℕ → ℤ

/-- The size that `elf_program_entries_read` asks for -/
def entriesSize (h : Ehdr) : ℕ := h.ePhoff * h.ePhnum % 2 ^ 32

/-- `elf_program_entries_read`: the error, the entries (`NULL` is 0) and the buffer that is filled. Fewer
bytes than expected are an error that is their number. -/
def elfProgramEntriesRead (env : Env) (h : Ehdr) : ℤ × ℕ × Option ℕ :=
  let size := entriesSize h
  if size = 0 then (einval, 0, none)
  else
    match env.buffer with
    | none => (enomem, 0, none)
    | some buff =>
      if env.phoffErr ≠ 0 then (env.phoffErr, 0, none)
      else if env.readCount % 2 ^ 32 ≠ size then (env.readCount, 0, none)
      else (0, buff, some buff)

def memory (env : Env) (h : Ehdr) (buffer : Option ℕ) (index : ℕ) : ByteMemory := fun a =>
  match buffer with
  | none => env.outside index a
  | some buff =>
    if buff ≤ a ∧ a < buff + entriesSize h then env.file (h.ePhoff + (a - buff))
    else env.outside index a

structure Load where
  textStart : ℕ
  textEnd : ℕ
  dataStart : ℕ
  dataEnd : ℕ
  heapStart : ℕ
  heapCurrent : ℕ
  fCount : ℕ
  examined : List ℕ
  mapped : List Phdr
  err : ℤ

/-- The call of `vmm_mmap`, and whether the loop goes on -/
def mapSegment (env : Env) (index : ℕ) (p : Phdr) (st : Load) : Load × Bool :=
  if env.mapOk index then
    ({ st with mapped := st.mapped ++ [p], fCount := st.fCount + 1 }, true)
  else ({ st with err := env.errno index }, false)

/-- A header in the loop of `elf_segments_load`, and whether the loop goes on -/
def loadSegment (env : Env) (index : ℕ) (p : Phdr) (st : Load) : Load × Bool :=
  if p.pType ≠ ptLoad then (st, true)
  else if p.pVaddr < usrOffset ∨ usrLimit ≤ p.pVaddr then ({ st with err := eperm }, false)
  else if env.seekErr index ≠ 0 then ({ st with err := env.seekErr index }, false)
  else
    let start := p.pVaddr
    let limit := wadd p.pVaddr p.pMemsz
    if start % pmmPageSize ≠ 0 ∨ limit % pmmPageSize ≠ 0 then ({ st with err := eacces }, false)
    else if st.textStart = 0 then
      mapSegment env index p { st with textStart := start, textEnd := limit }
    else if st.dataStart ≠ 0 then (st, true)
    else
      mapSegment env index p
        { st with dataStart := start, dataEnd := limit, heapStart := limit, heapCurrent := limit }

/-- `elf_segments_load`, from a header on -/
def elfSegmentsLoad (env : Env) (mem : ℕ → ByteMemory) : ℕ → ℕ → ℕ → Load → Load
  | 0, _, _, st => st
  | rounds + 1, index, pEntry, st =>
    let r := loadSegment env index (readPhdr (mem index) pEntry)
      { st with examined := st.examined ++ [pEntry] }
    if r.2 then elfSegmentsLoad env mem rounds (index + 1) (pEntry + phdrSize) r.1 else r.1

/-- `elf_load_task` after its header is read, with the buffer that is filled -/
def elfLoadTask (env : Env) (h : Ehdr) : Load × Option ℕ :=
  let entries := elfProgramEntriesRead env h
  let st : Load := ⟨0, 0, 0, 0, 0, 0, 1, [], [], entries.1⟩
  if entries.1 ≠ 0 then (st, none)
  else (elfSegmentsLoad env (memory env h entries.2.2) h.ePhnum 0 entries.2.1 st, entries.2.2)

/-- The headers looked at are in the buffer that is filled, and the segments mapped are in user space. -/
structure LoadSafe (env : Env) (h : Ehdr) : Prop where
  inside : ∀ a ∈ (elfLoadTask env h).1.examined, ∃ buff, (elfLoadTask env h).2 = some buff ∧
    buff ≤ a ∧ a + phdrSize ≤ buff + entriesSize h
  user : ∀ p ∈ (elfLoadTask env h).1.mapped, usrOffset ≤ p.pVaddr ∧ p.pVaddr < p.pVaddr + p.pMemsz ∧
    p.pVaddr + p.pMemsz ≤ usrLimit

section Headers
variable (env : Env) (eh : Ehdr) (buff : ℕ)

def header (i : ℕ) : Phdr := readPhdr (memory env eh (some buff) i) (buff + phdrSize * i)

def Refused (i : ℕ) : Prop :=
  (header env eh buff i).pType = ptLoad ∧
    ((header env eh buff i).pVaddr < usrOffset ∨ usrLimit ≤ (header env eh buff i).pVaddr ∨
      env.seekErr i ≠ 0 ∨ (header env eh buff i).pVaddr % pmmPageSize ≠ 0 ∨
      wadd (header env eh buff i).pVaddr (header env eh buff i).pMemsz % pmmPageSize ≠ 0)

def Taken (i : ℕ) : Prop := (header env eh buff i).pType = ptLoad ∧ ¬ Refused env eh buff i

instance : DecidablePred (Refused env eh buff) := fun _ => inferInstanceAs (Decidable (_ ∧ _))

instance : DecidablePred (Taken env eh buff) := fun _ => inferInstanceAs (Decidable (_ ∧ _))

def Chosen (i : ℕ) : Prop := Taken env eh buff i ∧ Nat.count (Taken env eh buff) i < 2

def Stops (i : ℕ) : Prop := Refused env eh buff i ∨ Chosen env eh buff i ∧ env.mapOk i = false

/-- The condition on the file: the calls before the loop do not end with an empty read, and when they
fill the buffer, all headers are whole in it or one of those stops the load, and the text and the data
are not empty and end in user space. -/
def Fitting : Prop :=
  (entriesSize eh ≠ 0 → ∀ buff, env.buffer = some buff → env.phoffErr = 0 →
    (env.readCount % 2 ^ 32 ≠ entriesSize eh → env.readCount ≠ 0) ∧
    (env.readCount % 2 ^ 32 = entriesSize eh →
      (eh.ePhnum ≤ entriesSize eh / phdrSize ∨ ∃ i < entriesSize eh / phdrSize, Stops env eh buff i) ∧
      ∀ i < eh.ePhnum, (∀ j < i, ¬ Stops env eh buff j) → Chosen env eh buff i →
        env.mapOk i = true → 0 < (header env eh buff i).pMemsz ∧
          (header env eh buff i).pVaddr + (header env eh buff i).pMemsz ≤ usrLimit))

end Headers

variable {env : Env} {eh : Ehdr} {buff i : ℕ} {st : Load}

structure Counts (st : Load) (n : ℕ) : Prop where
  text : st.textStart = 0 ↔ n = 0
  data : st.dataStart = 0 ↔ n < 2

lemma mapSegment_spec (env : Env) (i : ℕ) (p : Phdr) (st : Load) :
    (mapSegment env i p st).1.examined = st.examined ∧ (mapSegment env i p st).2 = env.mapOk i ∧
    (∀ q, q ∈ (mapSegment env i p st).1.mapped ↔ q ∈ st.mapped ∨ env.mapOk i = true ∧ q = p) ∧
    (mapSegment env i p st).1.textStart = st.textStart ∧
    (mapSegment env i p st).1.dataStart = st.dataStart := by
  rw [mapSegment]
  split_ifs with hok
  · refine ⟨rfl, hok.symm, fun q => ?_, rfl, rfl⟩
    rw [List.mem_append, List.mem_singleton, and_iff_right hok]
  · refine ⟨rfl, (Bool.eq_false_iff.mpr hok).symm, fun q => ?_, rfl, rfl⟩
    rw [or_iff_left fun h => hok h.1]

lemma loadSegment_refused (st : Load) (h : Refused env eh buff i) :
    ∃ err, loadSegment env i (header env eh buff i) st = ({ st with err := err }, false) := by
  obtain ⟨hload, hcause⟩ := h
  rw [loadSegment, if_neg (not_not_intro hload)]
  dsimp only
  split_ifs with hrange hseek halign htext hdata
  · exact ⟨_, rfl⟩
  · exact ⟨_, rfl⟩
  · exact ⟨_, rfl⟩
  all_goals
    rw [not_or] at hrange halign
    exact absurd hcause (by tauto)

lemma loadSegment_taken (st : Load) (h : Taken env eh buff i) :
    (header env eh buff i).pVaddr ≠ 0 ∧
    loadSegment env i (header env eh buff i) st =
      if st.textStart = 0 then
        mapSegment env i (header env eh buff i)
          { st with
            textStart := (header env eh buff i).pVaddr
            textEnd := wadd (header env eh buff i).pVaddr (header env eh buff i).pMemsz }
      else if st.dataStart ≠ 0 then (st, true)
      else
        mapSegment env i (header env eh buff i)
          { st with
            dataStart := (header env eh buff i).pVaddr
            dataEnd := wadd (header env eh buff i).pVaddr (header env eh buff i).pMemsz
            heapStart := wadd (header env eh buff i).pVaddr (header env eh buff i).pMemsz
            heapCurrent := wadd (header env eh buff i).pVaddr (header env eh buff i).pMemsz } := by
  obtain ⟨hload, hpass⟩ := h
  rw [Refused, and_iff_right hload, not_or, not_or, not_or, not_or, not_not, not_not, not_not] at hpass
  obtain ⟨hlow, hhigh, hseek, hstart, hlimit⟩ := hpass
  constructor
  · have hpos : 0 < usrOffset := by decide
    omega
  · rw [loadSegment, if_neg (not_not_intro hload), if_neg (not_or.mpr ⟨hlow, hhigh⟩),
      if_neg (not_not_intro hseek)]
    dsimp only
    rw [if_neg (not_or.mpr ⟨not_not_intro hstart, not_not_intro hlimit⟩)]

lemma loadSegment_spec (hst : Counts st (Nat.count (Taken env eh buff) i)) :
    (loadSegment env i (header env eh buff i) st).1.examined = st.examined ∧
    ((loadSegment env i (header env eh buff i) st).2 = true ↔ ¬ Stops env eh buff i) ∧
    (∀ p, p ∈ (loadSegment env i (header env eh buff i) st).1.mapped ↔
      p ∈ st.mapped ∨ Chosen env eh buff i ∧ env.mapOk i = true ∧ p = header env eh buff i) ∧
    ((loadSegment env i (header env eh buff i) st).2 = true →
      Counts (loadSegment env i (header env eh buff i) st).1
        (Nat.count (Taken env eh buff) (i + 1))) := by
  by_cases href : Refused env eh buff i
  · obtain ⟨err, hload⟩ := loadSegment_refused st href
    have hchosen : ¬ Chosen env eh buff i := fun hc => hc.1.2 href
    rw [hload]
    refine ⟨rfl, iff_of_false (by simp) (not_not_intro (.inl href)), fun p => ?_, by simp⟩
    rw [or_iff_left fun hp => hchosen hp.1]
  · by_cases htaken : Taken env eh buff i
    · obtain ⟨hstart, hload⟩ := loadSegment_taken st htaken
      have hstops : Stops env eh buff i ↔ Chosen env eh buff i ∧ env.mapOk i = false := or_iff_right href
      rw [hload, hstops, Nat.count_succ, if_pos htaken]
      rcases Nat.lt_or_ge (Nat.count (Taken env eh buff) i) 2 with hfirst | hlater
      · have hchosen : Chosen env eh buff i := ⟨htaken, hfirst⟩
        have hdata := hst.data.mpr hfirst
        rw [and_iff_right hchosen, Bool.not_eq_false]
        by_cases htext : st.textStart = 0
        · -- the text
          have hzero := hst.text.mp htext
          rw [if_pos htext]
          obtain ⟨hexam, hgo, hmapped, htextEq, hdataEq⟩ :=
            mapSegment_spec env i (header env eh buff i)
              { st with
                textStart := (header env eh buff i).pVaddr
                textEnd := wadd (header env eh buff i).pVaddr (header env eh buff i).pMemsz }
          refine ⟨hexam, by rw [hgo], fun p => ?_, fun _ => ⟨?_, ?_⟩⟩
          · rw [hmapped, and_iff_right hchosen]
          · rw [htextEq]
            exact iff_of_false hstart (Nat.succ_ne_zero _)
          · rw [hdataEq, hzero]
            exact iff_of_true hdata (by decide)
        · -- the data
          have hone : Nat.count (Taken env eh buff) i ≠ 0 := fun heq => htext (hst.text.mpr heq)
          rw [if_neg htext, if_neg (not_not_intro hdata)]
          obtain ⟨hexam, hgo, hmapped, htextEq, hdataEq⟩ :=
            mapSegment_spec env i (header env eh buff i)
              { st with
                dataStart := (header env eh buff i).pVaddr
                dataEnd := wadd (header env eh buff i).pVaddr (header env eh buff i).pMemsz
                heapStart := wadd (header env eh buff i).pVaddr (header env eh buff i).pMemsz
                heapCurrent := wadd (header env eh buff i).pVaddr (header env eh buff i).pMemsz }
          refine ⟨hexam, by rw [hgo], fun p => ?_, fun _ => ⟨?_, ?_⟩⟩
          · rw [hmapped, and_iff_right hchosen]
          · rw [htextEq]
            exact iff_of_false htext (Nat.succ_ne_zero _)
          · rw [hdataEq]
            exact iff_of_false hstart (by omega)
      · have hchosen : ¬ Chosen env eh buff i := fun hc => absurd hc.2 (not_lt_of_ge hlater)
        have htext : st.textStart ≠ 0 := fun heq => by
          have := hst.text.mp heq
          omega
        have hdata : st.dataStart ≠ 0 := fun heq => absurd (hst.data.mp heq) (not_lt_of_ge hlater)
        rw [if_neg htext, if_pos hdata]
        refine ⟨rfl, iff_of_true rfl fun hc => hchosen hc.1, fun p => ?_, fun _ => ⟨?_, ?_⟩⟩
        · rw [or_iff_left fun hp => hchosen hp.1]
        · exact iff_of_false htext (Nat.succ_ne_zero _)
        · exact iff_of_false hdata (by omega)
    · have hload : ¬ (header env eh buff i).pType = ptLoad := fun heq => htaken ⟨heq, href⟩
      have hchosen : ¬ Chosen env eh buff i := fun hc => htaken hc.1
      rw [loadSegment, if_pos hload, Nat.count_succ, if_neg htaken]
      refine ⟨rfl, iff_of_true rfl ?_, fun p => ?_, fun _ => hst⟩
      · rintro (hr | ⟨hc, -⟩)
        · exact href hr
        · exact hchosen hc
      · rw [or_iff_left fun hp => hchosen hp.1]

/-- The rounds that a loop of `rounds` rounds from `i` on comes to -/
def Reaches (env : Env) (eh : Ehdr) (buff i rounds j : ℕ) : Prop :=
  i ≤ j ∧ j < i + rounds ∧ ∀ l, i ≤ l → l < j → ¬ Stops env eh buff l

lemma reaches_succ {rounds j : ℕ} :
    Reaches env eh buff i (rounds + 1) j ↔
      j = i ∨ ¬ Stops env eh buff i ∧ Reaches env eh buff (i + 1) rounds j := by
  constructor
  · rintro ⟨hle, hlt, hpass⟩
    rcases hle.eq_or_lt with rfl | hgt
    · exact .inl rfl
    · exact .inr ⟨hpass i le_rfl hgt, hgt, by omega, fun l hl hlj => hpass l (by omega) hlj⟩
  · rintro (rfl | ⟨hstop, hle, hlt, hpass⟩)
    · exact ⟨le_rfl, by omega, fun l hl hlj => absurd hlj (not_lt_of_ge hl)⟩
    · refine ⟨by omega, by omega, fun l hl hlj => ?_⟩
      rcases hl.eq_or_lt with rfl | hgt
      · exact hstop
      · exact hpass l hgt hlj

/-- The loop looks at the headers of the rounds it comes to, and maps the chosen ones. -/
lemma elfSegmentsLoad_spec (rounds : ℕ) (hst : Counts st (Nat.count (Taken env eh buff) i)) :
    (∀ a, a ∈ (elfSegmentsLoad env (memory env eh (some buff)) rounds i (buff + phdrSize * i) st).examined ↔
      a ∈ st.examined ∨ ∃ j, Reaches env eh buff i rounds j ∧ a = buff + phdrSize * j) ∧
    ∀ p, p ∈ (elfSegmentsLoad env (memory env eh (some buff)) rounds i (buff + phdrSize * i) st).mapped ↔
      p ∈ st.mapped ∨ ∃ j, Reaches env eh buff i rounds j ∧ Chosen env eh buff j ∧ env.mapOk j = true ∧
        p = header env eh buff j := by
  induction rounds generalizing i st with
  | zero =>
    have hnone : ∀ j, ¬ Reaches env eh buff i 0 j := fun j hj => by
      obtain ⟨hle, hlt, -⟩ := hj
      omega
    refine ⟨fun a => ?_, fun p => ?_⟩
    · rw [elfSegmentsLoad, or_iff_left fun ⟨j, hj, _⟩ => hnone j hj]
    · rw [elfSegmentsLoad, or_iff_left fun ⟨j, hj, _⟩ => hnone j hj]
  | succ rounds ih =>
    set st' : Load := { st with examined := st.examined ++ [buff + phdrSize * i] } with hst'
    have hcounts : Counts st' (Nat.count (Taken env eh buff) i) := ⟨hst.text, hst.data⟩
    obtain ⟨hexam, hgo, hmapped, hnext⟩ := loadSegment_spec hcounts
    have hplace : buff + phdrSize * i + phdrSize = buff + phdrSize * (i + 1) := by
      rw [Nat.mul_add, Nat.mul_one, Nat.add_assoc]
    have hexam' : ∀ a, a ∈ (loadSegment env i (header env eh buff i) st').1.examined ↔
        a ∈ st.examined ∨ a = buff + phdrSize * i := by
      intro a
      rw [hexam, hst', List.mem_append, List.mem_singleton]
    have hrun : elfSegmentsLoad env (memory env eh (some buff)) (rounds + 1) i (buff + phdrSize * i) st =
        if (loadSegment env i (header env eh buff i) st').2 = true then
          elfSegmentsLoad env (memory env eh (some buff)) rounds (i + 1)
            (buff + phdrSize * i + phdrSize) (loadSegment env i (header env eh buff i) st').1
        else (loadSegment env i (header env eh buff i) st').1 := rfl
    rw [hrun]
    by_cases hstop : Stops env eh buff i
    · rw [if_neg fun hr => hgo.mp hr hstop]
      refine ⟨fun a => ?_, fun p => ?_⟩
      · rw [hexam']
        simp only [reaches_succ, hstop, not_true_eq_false, false_and, or_false, exists_eq_left]
      · rw [hmapped]
        simp only [hst', reaches_succ, hstop, not_true_eq_false, false_and, or_false, exists_eq_left]
    · obtain ⟨hinside, huser⟩ := ih (hnext (hgo.mpr hstop))
      rw [if_pos (hgo.mpr hstop), hplace]
      refine ⟨fun a => ?_, fun p => ?_⟩
      · rw [hinside, hexam']
        simp only [reaches_succ, hstop, not_false_eq_true, true_and, or_and_right, exists_or,
          exists_eq_left, or_assoc]
      · rw [huser, hmapped]
        simp only [hst', reaches_succ, hstop, not_false_eq_true, true_and, or_and_right, exists_or,
          exists_eq_left, or_assoc]

lemma loadSegment_examined (p : Phdr) : (loadSegment env i p st).1.examined = st.examined := by
  rw [loadSegment]
  dsimp only
  split_ifs
  · rfl
  · rfl
  · rfl
  · rfl
  · exact (mapSegment_spec _ _ _ _).1
  · rfl
  · exact (mapSegment_spec _ _ _ _).1

lemma elfSegmentsLoad_keeps {mem : ℕ → ByteMemory} {rounds pEntry a : ℕ} (ha : a ∈ st.examined) :
    a ∈ (elfSegmentsLoad env mem rounds i pEntry st).examined := by
  induction rounds generalizing i pEntry st with
  | zero => exact ha
  | succ rounds ih =>
    have hnext : a ∈ (loadSegment env i (readPhdr (mem i) pEntry)
        { st with examined := st.examined ++ [pEntry] }).1.examined := by
      rw [loadSegment_examined]
      exact List.mem_append_left _ ha
    rw [elfSegmentsLoad]
    split_ifs
    · exact ih hnext
    · exact hnext

lemma loadSafe_fails {buffer : Option ℕ} {entries : ℕ} {err : ℤ} (herr : err ≠ 0)
    (h : elfProgramEntriesRead env eh = (err, entries, buffer)) : LoadSafe env eh := by
  have hload : (elfLoadTask env eh).1.examined = [] ∧ (elfLoadTask env eh).1.mapped = [] := by
    rw [elfLoadTask, h]
    dsimp only
    rw [if_pos herr]
    exact ⟨rfl, rfl⟩
  constructor
  · rw [hload.1]
    exact fun a ha => absurd ha List.not_mem_nil
  · rw [hload.2]
    exact fun p hp => absurd hp List.not_mem_nil

lemma loadSafe_null (hnum : eh.ePhnum ≠ 0) (h : elfProgramEntriesRead env eh = (0, 0, none)) :
    ¬ LoadSafe env eh := by
  intro hsafe
  have hbuffer : (elfLoadTask env eh).2 = none := by
    rw [elfLoadTask, h]
    rfl
  have hexam : 0 ∈ (elfLoadTask env eh).1.examined := by
    obtain ⟨rounds, hrounds⟩ := Nat.exists_eq_succ_of_ne_zero hnum
    rw [elfLoadTask, h]
    dsimp only
    rw [if_neg (not_not_intro rfl), hrounds, Nat.succ_eq_add_one, elfSegmentsLoad]
    dsimp only
    have hfirst : ∀ p, 0 ∈ (loadSegment env 0 p ⟨0, 0, 0, 0, 0, 0, 1, [] ++ [0], [], 0⟩).1.examined := by
      intro p
      rw [loadSegment_examined]
      exact List.mem_singleton.mpr rfl
    split_ifs
    · exact elfSegmentsLoad_keeps (hfirst _)
    · exact hfirst _
  obtain ⟨buff, hsome, -⟩ := hsafe.inside 0 hexam
  rw [hbuffer] at hsome
  cases hsome

lemma loadSafe_filled (h : elfProgramEntriesRead env eh = (0, buff, some buff)) :
    LoadSafe env eh ↔
      (eh.ePhnum ≤ entriesSize eh / phdrSize ∨
        ∃ i < entriesSize eh / phdrSize, Stops env eh buff i) ∧
      ∀ i < eh.ePhnum, (∀ j < i, ¬ Stops env eh buff j) → Chosen env eh buff i →
        env.mapOk i = true → 0 < (header env eh buff i).pMemsz ∧
          (header env eh buff i).pVaddr + (header env eh buff i).pMemsz ≤ usrLimit := by
  have hload : elfLoadTask env eh = (elfSegmentsLoad env (memory env eh (some buff)) eh.ePhnum 0
      (buff + phdrSize * 0) ⟨0, 0, 0, 0, 0, 0, 1, [], [], 0⟩, some buff) := by
    rw [elfLoadTask, h]
    dsimp only
    rw [if_neg (not_not_intro rfl), Nat.mul_zero, Nat.add_zero]
  have hcounts : Counts (⟨0, 0, 0, 0, 0, 0, 1, [], [], 0⟩ : Load)
      (Nat.count (Taken env eh buff) 0) := by
    rw [Nat.count_zero]
    exact ⟨iff_of_true rfl rfl, iff_of_true rfl (by decide)⟩
  obtain ⟨hexam, hmapped⟩ := elfSegmentsLoad_spec eh.ePhnum hcounts
  have hreach : ∀ j, Reaches env eh buff 0 eh.ePhnum j ↔
      j < eh.ePhnum ∧ ∀ l < j, ¬ Stops env eh buff l := by
    intro j
    rw [Reaches, Nat.zero_add]
    exact ⟨fun ⟨_, hlt, hpass⟩ => ⟨hlt, fun l hl => hpass l (Nat.zero_le l) hl⟩,
      fun ⟨hlt, hpass⟩ => ⟨Nat.zero_le j, hlt, fun l _ hl => hpass l hl⟩⟩
  have hfits : ∀ j, buff + phdrSize * j + phdrSize ≤ buff + entriesSize eh ↔
      j < entriesSize eh / phdrSize := by
    intro j
    rw [Nat.lt_iff_add_one_le, Nat.le_div_iff_mul_le (by decide : 0 < phdrSize), Nat.add_assoc,
      Nat.add_le_add_iff_left, Nat.mul_comm phdrSize, Nat.add_mul, Nat.one_mul]
  constructor
  · intro hsafe
    constructor
    · by_contra hnone
      rw [not_or, not_le] at hnone
      obtain ⟨hnum, hpass⟩ := hnone
      obtain ⟨b, hb, -, hend⟩ := hsafe.inside (buff + phdrSize * (entriesSize eh / phdrSize)) (by
        rw [hload]
        exact (hexam _).mpr (.inr ⟨_, (hreach _).mpr
          ⟨hnum, fun l hl hstop => hpass ⟨l, hl, hstop⟩⟩, rfl⟩))
      rw [hload] at hb
      obtain rfl := Option.some.inj hb
      exact absurd ((hfits _).mp hend) (lt_irrefl _)
    · intro i hi hpass hchosen hok
      obtain ⟨-, hpos, hend⟩ := hsafe.user (header env eh buff i) (by
        rw [hload]
        exact (hmapped _).mpr (.inr ⟨i, (hreach i).mpr ⟨hi, hpass⟩, hchosen, hok, rfl⟩))
      exact ⟨by omega, hend⟩
  · rintro ⟨hwhole, huser⟩
    constructor
    · intro a ha
      rw [hload] at ha
      rcases (hexam a).mp ha with hnil | ⟨j, hj, rfl⟩
      · exact absurd hnil List.not_mem_nil
      · obtain ⟨hlt, hpass⟩ := (hreach j).mp hj
        refine ⟨buff, by rw [hload], Nat.le_add_right _ _, (hfits j).mpr ?_⟩
        rcases hwhole with hall | ⟨i, hi, hstop⟩
        · omega
        · by_contra hge
          exact hpass i (by omega) hstop
    · intro p hp
      rw [hload] at hp
      rcases (hmapped p).mp hp with hnil | ⟨j, hj, hchosen, hok, rfl⟩
      · exact absurd hnil List.not_mem_nil
      · obtain ⟨hlt, hpass⟩ := (hreach j).mp hj
        obtain ⟨hpos, hend⟩ := huser j hlt hpass hchosen hok
        refine ⟨?_, by omega, hend⟩
        by_contra hlow
        exact hchosen.1.2 ⟨hchosen.1.1, .inl (not_le.mp hlow)⟩

/-- A load is safe exactly for the fitting files. -/
theorem elf_load_safe (env : Env) (eh : Ehdr) : LoadSafe env eh ↔ Fitting env eh := by
  by_cases hsize : entriesSize eh = 0
  · have hread : elfProgramEntriesRead env eh = (einval, 0, none) := by
      rw [elfProgramEntriesRead, if_pos hsize]
    exact iff_of_true (loadSafe_fails (by decide) hread) fun h => absurd hsize h
  have hnum : eh.ePhnum ≠ 0 := fun hzero => hsize (by rw [entriesSize, hzero, Nat.mul_zero, Nat.zero_mod])
  cases hbuffer : env.buffer with
  | none =>
    have hread : elfProgramEntriesRead env eh = (enomem, 0, none) := by
      rw [elfProgramEntriesRead, if_neg hsize, hbuffer]
    refine iff_of_true (loadSafe_fails (by decide) hread) fun _ buff h => ?_
    rw [hbuffer] at h
    cases h
  | some buff =>
    by_cases hphoff : env.phoffErr = 0
    · have hread : elfProgramEntriesRead env eh =
          if env.readCount % 2 ^ 32 ≠ entriesSize eh then (env.readCount, 0, none)
          else (0, buff, some buff) := by
        rw [elfProgramEntriesRead, if_neg hsize, hbuffer]
        dsimp only
        rw [if_neg (not_not_intro hphoff)]
      have hfitting : Fitting env eh ↔
          (env.readCount % 2 ^ 32 ≠ entriesSize eh → env.readCount ≠ 0) ∧
          (env.readCount % 2 ^ 32 = entriesSize eh →
            (eh.ePhnum ≤ entriesSize eh / phdrSize ∨
              ∃ i < entriesSize eh / phdrSize, Stops env eh buff i) ∧
            ∀ i < eh.ePhnum, (∀ j < i, ¬ Stops env eh buff j) → Chosen env eh buff i →
              env.mapOk i = true → 0 < (header env eh buff i).pMemsz ∧
                (header env eh buff i).pVaddr + (header env eh buff i).pMemsz ≤ usrLimit) := by
        constructor
        · exact fun h => h hsize buff hbuffer hphoff
        · intro h _ buff' hbuffer' _
          obtain rfl := Option.some.inj (hbuffer.symm.trans hbuffer')
          exact h
      rw [hfitting]
      by_cases hcount : env.readCount % 2 ^ 32 = entriesSize eh
      · rw [if_neg (not_not_intro hcount)] at hread
        rw [loadSafe_filled hread, and_iff_right fun hne => absurd hcount hne, forall_prop_of_true hcount]
      · rw [if_pos hcount] at hread
        rw [and_iff_left fun heq => absurd heq hcount, forall_prop_of_true hcount]
        rcases eq_or_ne env.readCount 0 with hzero | hne
        · rw [hzero] at hread
          exact iff_of_false (loadSafe_null hnum hread) (not_not_intro hzero)
        · exact iff_of_true (loadSafe_fails hne hread) hne
    · have hread : elfProgramEntriesRead env eh = (env.phoffErr, 0, none) := by
        rw [elfProgramEntriesRead, if_neg hsize, hbuffer]
        dsimp only
        rw [if_pos hphoff]
      exact iff_of_true (loadSafe_fails hphoff hread) fun _ _ _ h => absurd h hphoff

def shortHeader : Ehdr := ⟨[0x7f, 0x45, 0x4c, 0x46, 1, 1, 1, 0], 2, 8, 16, 1⟩

def shortFile : List (BitVec 8) :=
  [0x7f, 0x45, 0x4c, 0x46, 1, 1, 1, 0, 0, 0, 0, 0, 0, 0, 0, 0, 2, 0, 8, 0, 1, 0, 0, 0, 0, 0, 0, 0,
    16, 0, 0, 0, 0, 0, 0, 0, 0, 0, 0, 0, 52, 0, 32, 0, 1, 0]

def shortEnv : Env :=
  ⟨fun a => shortFile.getD a 0, some 4096, 0, 16, fun _ _ => 0, fun _ => 0, fun _ => true, fun _ => 0⟩

/-- The buffer for the entry has 16 bytes. -/
theorem entry_outside_buffer : ¬ ∀ (env : Env) (eh : Ehdr), elfIsElfHeader eh = true →
    elfIsValidHeader eh = true → LoadSafe env eh := by
  intro h
  have hsafe := h shortEnv shortHeader (by decide) (by decide)
  obtain ⟨buff, hbuff, -, hend⟩ := hsafe.inside 4096 (by decide)
  have hbuffer : (elfLoadTask shortEnv shortHeader).2 = some 4096 := by decide
  obtain rfl := Option.some.inj (hbuffer.symm.trans hbuff)
  exact absurd hend (by decide)

end Almos.Elf
