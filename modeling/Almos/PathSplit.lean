import Mathlib

/-!
# Splitting a path

`vfs_open` makes a table of `vfs_dir_count` and one more pointers, and `vfs_split_path` fills it. The
path is in a page; pointers are places in it.
-/
namespace Almos.PathSplit

def slash : UInt8 := 47

/-- `strchr`, from the place `s` on, where the bytes are `rest`; `0` does not ask for the terminator. -/
def strchrFrom (c : UInt8) : List UInt8 → ℕ → Option ℕ
  | [], _ => none
  | b :: rest, s => if b ≠ 0 ∧ b ≠ c then strchrFrom c rest (s + 1) else if b = c then some s else none

/-- `strchr` -/
def strchr (page : List UInt8) (s : ℕ) (c : UInt8) : Option ℕ := strchrFrom c (page.drop s) s

/-- The loop of `vfs_dir_count`; `none` if the rounds do not suffice. -/
def countDirs (page : List UInt8) : ℕ → ℕ → ℕ → Option ℕ
  | 0, _, _ => none
  | rounds + 1, pathPtr, count =>
    match strchr page pathPtr slash with
    | some p => countDirs page rounds (p + 1) (count + 1)
    | none => some count

/-- `vfs_dir_count` -/
def vfsDirCount (page : List UInt8) : Option ℕ :=
  (countDirs page page.length 0 0).map fun count => if count = 0 then 1 else count

/-- The page and the table, whose entries are pointers or `NULL` once they are written. -/
structure Split where
  page : List UInt8
  dirs : ℕ → Option (Option ℕ)

/-- The loop of `vfs_split_path`; `none` if the rounds do not suffice. -/
def splitDirs : ℕ → ℕ → ℕ → Split → Option Split
  | 0, _, _, _ => none
  | rounds + 1, i, pathPtr, split =>
    match strchr split.page pathPtr slash with
    | some p =>
      splitDirs rounds (i + 1) (p + 1)
        ⟨split.page.set p 0, Function.update split.dirs i (some (some (p + 1)))⟩
    | none => some { split with dirs := Function.update split.dirs i (some none) }

/-- `vfs_split_path` -/
def vfsSplitPath (page : List UInt8) : Option Split :=
  let dirs : ℕ → Option (Option ℕ) :=
    Function.update (Function.update (fun _ => none) 0 (some (some 0))) 1 (some none)
  if page.getD 0 0 = slash ∧ page.getD 1 0 = 0 then some ⟨page, dirs⟩
  else
    let pathPtr := if page.getD 0 0 = slash then 1 else 0
    splitDirs page.length 1 pathPtr ⟨page, Function.update dirs 0 (some (some pathPtr))⟩

namespace Split

def str (split : Split) (p : ℕ) : List UInt8 := (split.page.drop p).takeWhile (· ≠ 0)

/-- The entries are pointers to the strings, and `NULL` behind them. -/
def Yields (split : Split) (strs : List (List UInt8)) : Prop :=
  ∃ ptrs : List ℕ, (∀ k, split.dirs k = (ptrs.map some ++ [none])[k]?) ∧ ptrs.map split.str = strs

end Split

def Clean (path : List UInt8) (comps : List (List UInt8)) : Prop :=
  comps ≠ [] ∧ (∀ comp ∈ comps, comp ≠ [] ∧ slash ∉ comp) ∧
    (path = [slash].intercalate comps ∨ path = slash :: [slash].intercalate comps)

/-- What `vfs_split_path` is to do for the path: its entries fit in the table, the last of them is
`NULL`, and the others are the components. -/
def SplitExact (path behind : List UInt8) : Prop :=
  ∃ count split, vfsDirCount (path ++ 0 :: behind) = some count ∧
    vfsSplitPath (path ++ 0 :: behind) = some split ∧
    (∃ last < count + 1, split.dirs last = some none ∧ ∀ k, split.dirs k ≠ none → k ≤ last) ∧
    ∀ comps, Clean path comps → split.Yields comps

variable {path behind : List UInt8}

lemma strchrFrom_absent {rest : List UInt8} (hnul : 0 ∉ rest) (hslash : slash ∉ rest) (s : ℕ) :
    strchrFrom slash (rest ++ 0 :: behind) s = none := by
  induction rest generalizing s with
  | nil => rfl
  | cons b rest ih =>
    rw [List.mem_cons, not_or] at hnul hslash
    rw [List.cons_append, strchrFrom, if_pos ⟨Ne.symm hnul.1, Ne.symm hslash.1⟩]
    exact ih hnul.2 hslash.2 (s + 1)

lemma strchrFrom_found {comp : List UInt8} (hnul : 0 ∉ comp) (hslash : slash ∉ comp)
    (rest : List UInt8) (s : ℕ) :
    strchrFrom slash (comp ++ slash :: rest) s = some (s + comp.length) := by
  induction comp generalizing s with
  | nil => rfl
  | cons b comp ih =>
    rw [List.mem_cons, not_or] at hnul hslash
    rw [List.cons_append, strchrFrom, if_pos ⟨Ne.symm hnul.1, Ne.symm hslash.1⟩,
      ih hnul.2 hslash.2, List.length_cons]
    congr 1
    omega

lemma strchr_append (pre rest : List UInt8) (c : UInt8) :
    strchr (pre ++ rest) pre.length c = strchrFrom c rest pre.length := by
  rw [strchr, List.drop_left]

def Piece (piece : List UInt8) : Prop := 0 ∉ piece ∧ slash ∉ piece

lemma pieces_exist {rest : List UInt8} (hnul : 0 ∉ rest) :
    ∃ pieces, pieces ≠ [] ∧ (∀ piece ∈ pieces, Piece piece) ∧ rest = [slash].intercalate pieces := by
  induction rest with
  | nil => exact ⟨[[]], by simp, by simp [Piece], by simp⟩
  | cons b rest ih =>
    rw [List.mem_cons, not_or] at hnul
    obtain ⟨pieces, hne, hpieces, rfl⟩ := ih hnul.2
    rcases eq_or_ne b slash with rfl | hb
    · refine ⟨[] :: pieces, by simp, List.forall_mem_cons.mpr ⟨by simp [Piece], hpieces⟩, ?_⟩
      rw [List.intercalate_cons_of_ne_nil hne]
      rfl
    · obtain ⟨piece, more, rfl⟩ := List.exists_cons_of_ne_nil hne
      obtain ⟨⟨hzero, hslash⟩, hmore⟩ := List.forall_mem_cons.mp hpieces
      refine ⟨(b :: piece) :: more, by simp, List.forall_mem_cons.mpr ⟨⟨?_, ?_⟩, hmore⟩, ?_⟩
      · exact fun h => (List.mem_cons.mp h).elim hnul.1 hzero
      · exact fun h => (List.mem_cons.mp h).elim (fun heq => hb heq.symm) hslash
      · cases more with
        | nil => simp
        | cons next more => simp

lemma pieces_unique {pieces comps : List (List UInt8)} (hne : pieces ≠ []) (hcomps : comps ≠ [])
    (hpieces : ∀ piece ∈ pieces, slash ∉ piece) (hfree : ∀ comp ∈ comps, slash ∉ comp)
    (heq : [slash].intercalate pieces = [slash].intercalate comps) : pieces = comps := by
  rw [← List.splitOn_intercalate slash hpieces hne, heq, List.splitOn_intercalate slash hfree hcomps]

lemma clean_head {comps : List (List UInt8)} (hne : comps ≠ [])
    (hcomps : ∀ comp ∈ comps, comp ≠ [] ∧ slash ∉ comp) :
    ∃ b, ([slash].intercalate comps).head? = some b ∧ b ≠ slash := by
  obtain ⟨comp, more, rfl⟩ := List.exists_cons_of_ne_nil hne
  obtain ⟨⟨hcomp, hslash⟩, -⟩ := List.forall_mem_cons.mp hcomps
  obtain ⟨b, comp, rfl⟩ := List.exists_cons_of_ne_nil hcomp
  refine ⟨b, ?_, fun heq => hslash (heq ▸ List.mem_cons_self)⟩
  cases more with
  | nil => simp
  | cons next more => simp

def tailOf (sep : UInt8) (pieces : List (List UInt8)) (behind : List UInt8) : List UInt8 :=
  [sep].intercalate pieces ++ 0 :: behind

lemma tailOf_singleton (sep : UInt8) (piece : List UInt8) :
    tailOf sep [piece] behind = piece ++ 0 :: behind := by
  simp [tailOf]

lemma tailOf_cons (sep : UInt8) (piece : List UInt8) {more : List (List UInt8)} (hne : more ≠ []) :
    tailOf sep (piece :: more) behind = piece ++ sep :: tailOf sep more behind := by
  rw [tailOf, List.intercalate_cons_of_ne_nil hne, tailOf]
  simp

lemma countDirs_spec (behind : List UInt8) {pieces : List (List UInt8)} (hne : pieces ≠ [])
    (hpieces : ∀ piece ∈ pieces, Piece piece) (pre : List UInt8) (count : ℕ) {rounds : ℕ}
    (hrounds : pieces.length ≤ rounds) :
    countDirs (pre ++ tailOf slash pieces behind) rounds pre.length count =
      some (count + (pieces.length - 1)) := by
  induction pieces generalizing pre count rounds with
  | nil => exact absurd rfl hne
  | cons piece more ih =>
    obtain ⟨⟨hnul, hslash⟩, hmore⟩ := List.forall_mem_cons.mp hpieces
    obtain ⟨rounds, rfl⟩ : ∃ r, rounds = r + 1 :=
      Nat.exists_eq_succ_of_ne_zero (by rw [List.length_cons] at hrounds; omega)
    rw [List.length_cons, Nat.add_le_add_iff_right] at hrounds
    rw [countDirs, strchr_append]
    rcases eq_or_ne more [] with rfl | hmoreNe
    · rw [tailOf_singleton, strchrFrom_absent hnul hslash]
      rfl
    · have hpage : pre ++ (piece ++ slash :: tailOf slash more behind) =
          (pre ++ piece ++ [slash]) ++ tailOf slash more behind := by simp
      have hptr : pre.length + piece.length + 1 = (pre ++ piece ++ [slash]).length := by
        simp [Nat.add_assoc]
      have hlen := List.length_pos_iff.mpr hmoreNe
      rw [tailOf_cons slash piece hmoreNe, strchrFrom_found hnul hslash]
      dsimp only
      rw [hpage, hptr, ih hmoreNe hmore _ _ hrounds, List.length_cons]
      congr 1
      omega

def starts : ℕ → List (List UInt8) → List ℕ
  | _, [] => []
  | p, piece :: more => p :: starts (p + piece.length + 1) more

lemma splitDirs_spec (behind : List UInt8) {pieces : List (List UInt8)} (hne : pieces ≠ [])
    (hpieces : ∀ piece ∈ pieces, Piece piece) (pre : List UInt8) {rounds : ℕ}
    (hrounds : pieces.length ≤ rounds) {dirs : ℕ → Option (Option ℕ)} {ptrs : List ℕ}
    (hdone : ∀ k < ptrs.length, dirs k = some ptrs[k]?) (hnone : ∀ k > ptrs.length, dirs k = none) :
    ∃ split, splitDirs rounds ptrs.length pre.length ⟨pre ++ tailOf slash pieces behind, dirs⟩ =
        some split ∧ split.page = pre ++ tailOf 0 pieces behind ∧
      ∀ k, split.dirs k = ((ptrs ++ (starts pre.length pieces).tail).map some ++ [none])[k]? := by
  induction pieces generalizing pre rounds dirs ptrs with
  | nil => exact absurd rfl hne
  | cons piece more ih =>
    obtain ⟨⟨hnul, hslash⟩, hmore⟩ := List.forall_mem_cons.mp hpieces
    obtain ⟨rounds, rfl⟩ : ∃ r, rounds = r + 1 :=
      Nat.exists_eq_succ_of_ne_zero (by rw [List.length_cons] at hrounds; omega)
    rw [List.length_cons, Nat.add_le_add_iff_right] at hrounds
    rw [splitDirs, strchr_append]
    rcases eq_or_ne more [] with rfl | hmoreNe
    · rw [tailOf_singleton, tailOf_singleton, strchrFrom_absent hnul hslash]
      refine ⟨_, rfl, rfl, fun k => ?_⟩
      simp only [starts, List.tail_cons, List.append_nil]
      rcases Nat.lt_trichotomy k ptrs.length with hlt | rfl | hgt
      · rw [Function.update_of_ne hlt.ne, hdone k hlt, List.getElem?_append_left (by simpa using hlt)]
        simp [List.getElem?_eq_getElem hlt]
      · rw [Function.update_self]
        simp
      · rw [Function.update_of_ne hgt.ne', hnone k hgt, List.getElem?_eq_none (by simp; omega)]
    · have hpage : (pre ++ (piece ++ slash :: tailOf slash more behind)).set
          (pre.length + piece.length) 0 = (pre ++ piece ++ [0]) ++ tailOf slash more behind := by
        rw [← List.append_assoc, ← List.length_append, List.set_append_right _ _ le_rfl]
        simp
      have hptr : pre.length + piece.length + 1 = (pre ++ piece ++ [0]).length := by
        simp [Nat.add_assoc]
      rw [tailOf_cons slash piece hmoreNe, tailOf_cons 0 piece hmoreNe, strchrFrom_found hnul hslash]
      dsimp only
      rw [hpage, hptr]
      set dirs' := Function.update dirs ptrs.length (some (some (pre ++ piece ++ [0]).length))
      have hdone' : ∀ k < (ptrs ++ [(pre ++ piece ++ [0]).length]).length,
          dirs' k = some (ptrs ++ [(pre ++ piece ++ [0]).length])[k]? := by
        intro k hk
        rw [List.length_append, List.length_singleton, Nat.lt_succ_iff_lt_or_eq] at hk
        rcases hk with hlt | rfl
        · simp only [dirs', Function.update_of_ne hlt.ne]
          rw [hdone k hlt, List.getElem?_append_left hlt]
        · simp [dirs']
      have hnone' : ∀ k > (ptrs ++ [(pre ++ piece ++ [0]).length]).length, dirs' k = none := by
        intro k hk
        rw [List.length_append, List.length_singleton] at hk
        have hne : k ≠ ptrs.length := by omega
        simp only [dirs', Function.update_of_ne hne]
        exact hnone k (by omega)
      obtain ⟨split, hsplit, hpageEq, hdirs⟩ :=
        ih hmoreNe hmore (pre ++ piece ++ [0]) hrounds hdone' hnone'
      refine ⟨split, ?_, ?_, fun k => ?_⟩
      · have hlen : (ptrs ++ [(pre ++ piece ++ [0]).length]).length = ptrs.length + 1 := by simp
        rw [hlen] at hsplit
        exact hsplit
      · rw [hpageEq]
        simp
      · obtain ⟨next, rest, rfl⟩ := List.exists_cons_of_ne_nil hmoreNe
        rw [hdirs k]
        simp [starts, Nat.add_assoc]

lemma takeWhile_string {piece : List UInt8} (hnul : 0 ∉ piece) (rest : List UInt8) :
    (piece ++ 0 :: rest).takeWhile (· ≠ 0) = piece := by
  rw [List.takeWhile_append_of_pos, List.takeWhile_cons, if_neg (by simp), List.append_nil]
  exact fun b hb => decide_eq_true fun hzero => hnul (hzero ▸ hb)

lemma starts_str (behind : List UInt8) {pieces : List (List UInt8)} (hpieces : ∀ piece ∈ pieces, Piece piece)
    (pre : List UInt8) (dirs : ℕ → Option (Option ℕ)) :
    (starts pre.length pieces).map (Split.str ⟨pre ++ tailOf 0 pieces behind, dirs⟩) = pieces := by
  induction pieces generalizing pre with
  | nil => rfl
  | cons piece more ih =>
    obtain ⟨⟨hnul, -⟩, hmore⟩ := List.forall_mem_cons.mp hpieces
    rw [starts, List.map_cons, List.cons.injEq]
    rcases eq_or_ne more [] with rfl | hmoreNe
    · rw [tailOf_singleton, Split.str, List.drop_left]
      exact ⟨takeWhile_string hnul behind, rfl⟩
    · have hpage : pre ++ (piece ++ 0 :: tailOf 0 more behind) =
          (pre ++ piece ++ [0]) ++ tailOf 0 more behind := by simp
      have hptr : pre.length + piece.length + 1 = (pre ++ piece ++ [0]).length := by
        simp [Nat.add_assoc]
      rw [tailOf_cons 0 piece hmoreNe]
      constructor
      · rw [Split.str, List.drop_left]
        exact takeWhile_string hnul _
      · rw [hpage, hptr]
        exact ih hmore _

lemma Split.Yields.fits_iff {split : Split} {strs : List (List UInt8)} (h : split.Yields strs)
    (count : ℕ) :
    (∃ last < count + 1, split.dirs last = some none ∧ ∀ k, split.dirs k ≠ none → k ≤ last) ↔
      strs.length ≤ count := by
  obtain ⟨ptrs, hdirs, rfl⟩ := h
  have hend : split.dirs ptrs.length = some none := by
    rw [hdirs]
    simp
  have hpast : ∀ k, split.dirs k ≠ none → k ≤ ptrs.length := by
    intro k hk
    by_contra hgt
    refine hk ?_
    rw [hdirs, List.getElem?_eq_none]
    simp
    omega
  rw [List.length_map]
  constructor
  · rintro ⟨last, hlast, -, hmax⟩
    have hle := hmax ptrs.length (by rw [hend]; simp)
    omega
  · intro hle
    exact ⟨ptrs.length, by omega, hend, hpast⟩

lemma intercalate_length {pieces : List (List UInt8)} (hne : pieces ≠ []) (sep : UInt8) :
    pieces.length ≤ ([sep].intercalate pieces).length + 1 := by
  induction pieces with
  | nil => exact absurd rfl hne
  | cons piece more ih =>
    rcases eq_or_ne more [] with rfl | hmoreNe
    · simp
    · have hle := ih hmoreNe
      rw [List.intercalate_cons_of_ne_nil hmoreNe]
      simp
      omega

lemma splitDirs_yields (behind : List UInt8) {pieces : List (List UInt8)} (hne : pieces ≠ [])
    (hpieces : ∀ piece ∈ pieces, Piece piece) (pre : List UInt8) {rounds : ℕ}
    (hrounds : pieces.length ≤ rounds) {dirs : ℕ → Option (Option ℕ)}
    (hfirst : dirs 0 = some (some pre.length)) (hnone : ∀ k > 1, dirs k = none) :
    ∃ split, splitDirs rounds 1 pre.length ⟨pre ++ tailOf slash pieces behind, dirs⟩ = some split ∧
      split.Yields pieces := by
  have hdone : ∀ k < [pre.length].length, dirs k = some [pre.length][k]? := by
    intro k hk
    obtain rfl : k = 0 := Nat.lt_one_iff.mp hk
    exact hfirst
  obtain ⟨split, hsplit, hpage, hdirs⟩ := splitDirs_spec behind hne hpieces pre hrounds hdone hnone
  have hstarts : [pre.length] ++ (starts pre.length pieces).tail = starts pre.length pieces := by
    obtain ⟨piece, more, rfl⟩ := List.exists_cons_of_ne_nil hne
    rfl
  refine ⟨split, hsplit, starts pre.length pieces, fun k => ?_, ?_⟩
  · rw [hdirs k, hstarts]
  · have hstr := starts_str behind hpieces pre split.dirs
    rw [← hpage] at hstr
    exact hstr

lemma vfsSplitPath_relative (behind : List UInt8) {pieces : List (List UInt8)} (hne : pieces ≠ [])
    (hpieces : ∀ piece ∈ pieces, Piece piece)
    (hhead : ([slash].intercalate pieces).head? ≠ some slash) :
    ∃ split, vfsSplitPath (tailOf slash pieces behind) = some split ∧ split.Yields pieces := by
  have hbyte : (tailOf slash pieces behind).getD 0 0 ≠ slash := by
    rw [tailOf]
    cases hpath : [slash].intercalate pieces with
    | nil => exact (by decide : (0 : UInt8) ≠ slash)
    | cons b rest =>
      rw [hpath] at hhead
      simpa using hhead
  have hlen : pieces.length ≤ (tailOf slash pieces behind).length := by
    have hle := intercalate_length hne slash
    rw [tailOf, List.length_append, List.length_cons]
    omega
  rw [vfsSplitPath]
  dsimp only
  rw [if_neg fun h => hbyte h.1, if_neg hbyte]
  exact splitDirs_yields behind hne hpieces [] hlen rfl
    fun k hk => by simp [show k ≠ 0 by omega, show k ≠ 1 by omega]

lemma vfsSplitPath_absolute (behind : List UInt8) {pieces : List (List UInt8)} (hne : pieces ≠ [])
    (hpieces : ∀ piece ∈ pieces, Piece piece) (hroot : pieces ≠ [[]]) :
    ∃ split, vfsSplitPath (slash :: tailOf slash pieces behind) = some split ∧
      split.Yields pieces := by
  have hbyte : (slash :: tailOf slash pieces behind).getD 1 0 ≠ 0 := by
    obtain ⟨piece, more, rfl⟩ := List.exists_cons_of_ne_nil hne
    obtain ⟨⟨hnul, -⟩, -⟩ := List.forall_mem_cons.mp hpieces
    cases piece with
    | nil =>
      have hmore : more ≠ [] := fun heq => hroot (by rw [heq])
      rw [tailOf_cons slash [] hmore]
      exact (by decide : slash ≠ 0)
    | cons b piece =>
      have hb : b ≠ 0 := fun heq => hnul (heq ▸ List.mem_cons_self)
      rcases eq_or_ne more [] with rfl | hmore
      · rw [tailOf_singleton]
        exact hb
      · rw [tailOf_cons slash _ hmore]
        exact hb
  have hlen : pieces.length ≤ (slash :: tailOf slash pieces behind).length := by
    have hle := intercalate_length hne slash
    rw [tailOf, List.length_cons, List.length_append]
    omega
  rw [vfsSplitPath]
  dsimp only
  rw [if_neg fun h => hbyte h.2, List.getD_cons_zero, if_pos rfl]
  exact splitDirs_yields behind hne hpieces [slash] hlen rfl
    fun k hk => by simp [show k ≠ 0 by omega, show k ≠ 1 by omega]

lemma vfsSplitPath_root (behind : List UInt8) :
    ∃ split, vfsSplitPath (slash :: 0 :: behind) = some split ∧ split.Yields [[slash]] := by
  rw [vfsSplitPath, if_pos ⟨rfl, rfl⟩]
  refine ⟨_, rfl, [0], fun k => ?_, ?_⟩
  · match k with
    | 0 => rfl
    | 1 => rfl
    | k + 2 => simp
  · simp [Split.str, slash]

lemma vfsDirCount_spec (behind : List UInt8) {pieces : List (List UInt8)} (hne : pieces ≠ [])
    (hpieces : ∀ piece ∈ pieces, Piece piece) :
    vfsDirCount (tailOf slash pieces behind) =
      some (if pieces.length = 1 then 1 else pieces.length - 1) := by
  have hlen : pieces.length ≤ (tailOf slash pieces behind).length := by
    have hle := intercalate_length hne slash
    rw [tailOf, List.length_append, List.length_cons]
    omega
  have hpos := List.length_pos_iff.mpr hne
  have hcount := countDirs_spec behind hne hpieces [] 0 hlen
  rw [List.nil_append, List.length_nil] at hcount
  rw [vfsDirCount, hcount, Option.map_some, Nat.zero_add]
  have hone : pieces.length - 1 = 0 ↔ pieces.length = 1 := by omega
  simp only [hone]

lemma slash_cons_tailOf {pieces : List (List UInt8)} (hne : pieces ≠ []) :
    slash :: tailOf slash pieces behind = tailOf slash ([] :: pieces) behind := by
  rw [tailOf_cons slash [] hne]
  rfl

lemma vfsSplitPath_pieces (behind : List UInt8) (hnul : 0 ∉ path) :
    ∃ count split strs, vfsDirCount (path ++ 0 :: behind) = some count ∧
      vfsSplitPath (path ++ 0 :: behind) = some split ∧ split.Yields strs ∧
      (strs.length ≤ count ↔ path.head? = some slash ∨ slash ∉ path) ∧
      ∀ comps, Clean path comps → strs = comps := by
  by_cases hhead : path.head? = some slash
  · obtain ⟨rest, rfl⟩ : ∃ rest, path = slash :: rest := by
      cases path with
      | nil => cases hhead
      | cons b rest => exact ⟨rest, by rw [Option.some.inj hhead]⟩
    obtain ⟨pieces, hne, hpieces, hrest⟩ := pieces_exist fun h => hnul (List.mem_cons_of_mem _ h)
    have hclean : ∀ comps, Clean (slash :: rest) comps → pieces = comps := by
      rintro comps ⟨hcompsNe, hcomps, hpath | hpath⟩
      · obtain ⟨b, hb, hbne⟩ := clean_head hcompsNe hcomps
        rw [← hpath] at hb
        exact absurd (Option.some.inj hb).symm hbne
      · refine pieces_unique hne hcompsNe (fun piece h => (hpieces piece h).2)
          (fun comp h => (hcomps comp h).2) ?_
        rw [← hrest]
        exact (List.cons.inj hpath).2
    have hempty : ∀ piece ∈ [] :: pieces, Piece piece :=
      List.forall_mem_cons.mpr ⟨by simp [Piece], hpieces⟩
    have hcount : vfsDirCount (slash :: tailOf slash pieces behind) = some pieces.length := by
      have hpos := List.length_pos_iff.mpr hne
      rw [slash_cons_tailOf hne, vfsDirCount_spec behind (List.cons_ne_nil _ _) hempty, List.length_cons,
        if_neg (by omega), Nat.add_sub_cancel]
    have hpage : slash :: rest ++ 0 :: behind = slash :: tailOf slash pieces behind := by
      rw [hrest, tailOf, List.cons_append]
    rw [hpage]
    by_cases hroot : pieces = [[]]
    · obtain ⟨split, hsplit, hyields⟩ := vfsSplitPath_root behind
      refine ⟨_, split, _, hcount, ?_, hyields, iff_of_true ?_ (.inl rfl), fun comps h => ?_⟩
      · rw [hroot, tailOf_singleton]
        exact hsplit
      · rw [hroot]
        exact le_rfl
      · -- the root has no components
        have hcomps := hclean comps h
        rw [hroot] at hcomps
        obtain ⟨-, hfull, -⟩ := h
        rw [← hcomps] at hfull
        exact absurd rfl (hfull [] List.mem_cons_self).1
    · obtain ⟨split, hsplit, hyields⟩ := vfsSplitPath_absolute behind hne hpieces hroot
      exact ⟨_, split, _, hcount, hsplit, hyields, iff_of_true le_rfl (.inl rfl), hclean⟩
  · obtain ⟨pieces, hne, hpieces, hpath⟩ := pieces_exist hnul
    have hpage : path ++ 0 :: behind = tailOf slash pieces behind := by
      rw [hpath, tailOf]
    rw [hpath] at hhead
    obtain ⟨split, hsplit, hyields⟩ := vfsSplitPath_relative behind hne hpieces hhead
    rw [hpage]
    refine ⟨_, split, _, vfsDirCount_spec behind hne hpieces, hsplit, hyields, ?_, fun comps h => ?_⟩
    · rw [hpath, or_iff_right hhead]
      obtain ⟨piece, more, rfl⟩ := List.exists_cons_of_ne_nil hne
      have hslash := (hpieces piece List.mem_cons_self).2
      rcases eq_or_ne more [] with rfl | hmore
      · rw [List.intercalate_singleton]
        exact iff_of_true le_rfl hslash
      · have hpos := List.length_pos_iff.mpr hmore
        rw [List.length_cons, if_neg (by omega), List.intercalate_cons_of_ne_nil hmore]
        exact iff_of_false (by omega) fun h => h (by simp)
    · obtain ⟨hcompsNe, hcomps, heq | heq⟩ := h
      · exact pieces_unique hne hcompsNe (fun piece h => (hpieces piece h).2)
          (fun comp h => (hcomps comp h).2) (hpath ▸ heq)
      · rw [← hpath, heq] at hhead
        exact absurd rfl hhead

/-- The path is split as it is to be exactly if it starts with a slash or has none. -/
theorem vfs_split_path_exact (path behind : List UInt8) (hnul : 0 ∉ path) :
    SplitExact path behind ↔ path.head? = some slash ∨ slash ∉ path := by
  obtain ⟨count, split, strs, hcount, hsplit, hyields, hfits, hcomps⟩ :=
    vfsSplitPath_pieces behind hnul
  rw [← hfits, ← hyields.fits_iff count]
  constructor
  · rintro ⟨count', split', hcount', hsplit', hlast, -⟩
    obtain rfl := Option.some.inj (hcount.symm.trans hcount')
    obtain rfl := Option.some.inj (hsplit.symm.trans hsplit')
    exact hlast
  · intro hlast
    exact ⟨count, split, hcount, hsplit, hlast, fun comps hclean => hcomps comps hclean ▸ hyields⟩

/-- The path `/ab/c` is split into its components. -/
theorem vfs_split_path_exact_two : ∃ split,
    vfsSplitPath ([slash, 97, 98, slash, 99] ++ [0, 1]) = some split ∧
      split.Yields [[97, 98], [99]] := by
  obtain ⟨count, split, -, hsplit, -, hyields⟩ :=
    (vfs_split_path_exact [slash, 97, 98, slash, 99] [1] (by decide)).mpr (.inl rfl)
  exact ⟨split, hsplit, hyields [[97, 98], [99]] ⟨by decide, by decide, .inr rfl⟩⟩

/-- The path `a/b` takes three entries of a table of two. -/
theorem relative_overflows : ¬ ∀ path behind : List UInt8, 0 ∉ path → SplitExact path behind := by
  intro h
  obtain ⟨count, split, hcount, hsplit, ⟨last, hlast, -, hmax⟩, -⟩ :=
    h [97, slash, 98] [] (by decide)
  obtain rfl := Option.some.inj hcount
  obtain rfl := Option.some.inj hsplit
  have hle : 2 ≤ last := hmax 2 (by decide)
  exact absurd hlast (not_lt_of_ge hle)

end Almos.PathSplit
