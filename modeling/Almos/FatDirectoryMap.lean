import Almos.FatShortName

/-!
# A directory as a map from names to entries
-/
namespace Almos.Vfat
open Word

namespace ShortName
variable (n : ShortName) (junk : UInt8 × UInt8)

lemma first_newEntry (attr : NodeAttr) (cluster : ℕ) :
    (newEntry n.bytes attr junk cluster).first = n.bytes.headD 0 := by
  cases hcons : n.base with
  | nil => exact absurd hcons n.base_ne
  | cons c rest =>
    change (vfatConvertName n.bytes junk).headD 0 = n.bytes.headD 0
    rw [vfatConvertName_bytes]
    simp [bytes, hcons]

lemma head_char : n.bytes.headD 0 ≠ 0 ∧ n.bytes.headD 0 ≠ dot := by
  cases hcons : n.base with
  | nil => exact absurd hcons n.base_ne
  | cons c rest =>
    have hc := n.base_char (c := c) (by simp [hcons])
    simpa [bytes, hcons] using ⟨hc.1, hc.2.1⟩

end ShortName

lemma dirAttr_ne (a : NodeAttr) : dirAttr a ≠ 0x0F := by
  obtain ⟨sys, fifo, dev, archive, rdOnly, dir⟩ := a
  revert sys fifo dev archive rdOnly dir
  decide

structure DirRun where
  dir : Directory
  map : List UInt8 → Option (ℕ × DirEntry)

inductive DirEvent
  | create (name : ShortName) (attr : NodeAttr) (env : CreateEnv)
  | unlink (name : ShortName) (env : UnlinkEnv)

/-- A name that is not present is created, or one that is present is unlinked through the index
kept in its node. -/
def dirStep (s : DirRun) : DirEvent → Option DirRun
  | .create name attr env =>
      if (s.map name.bytes).isSome then none
      else
        match vfatCreateNode s.dir name.bytes attr env with
        | (dir, .ok found) => some ⟨dir, Function.update s.map name.bytes (some found)⟩
        | (dir, .error _) => some ⟨dir, s.map⟩
  | .unlink name env =>
      match s.map name.bytes with
      | none => none
      | some (index, _) =>
          match vfatUnlinkNode s.dir name.bytes index env with
          | (dir, .ok _) => some ⟨dir, Function.update s.map name.bytes none⟩
          | (dir, .error _) => some ⟨dir, s.map⟩

/-- The entry `e` ends the directory. -/
structure EndsAt (d : Directory) (e : ℕ) : Prop where
  inside : e < d.pageCount * entriesNr
  last : (d.entries e).first = 0
  before : ∀ i < e, (d.entries i).first ≠ 0

/-- The names before the end are those of the map. -/
structure DirOk (d : Directory) (map : List UInt8 → Option (ℕ × DirEntry)) (e : ℕ) : Prop where
  ends : EndsAt d e
  pages : d.pageCount ≤ 2 ^ 20
  named : ∀ n i x, map n = some (i, x) ↔
    i < e ∧ d.entries i = x ∧ x.isNamed = true ∧ vfatGetshortname x.name = n

/-- An empty directory, which may have the entries `.` and `..`. -/
def dirMachine : Machine DirRun DirEvent where
  init s := (∀ n, s.map n = none) ∧ ∃ e, EndsAt s.dir e ∧ s.dir.pageCount ≤ 2 ^ 20 ∧
    ∀ i < e, (s.dir.entries i).isNamed = false
  step := dirStep

section Searches
variable {d : Directory} {loads : ℕ → Bool} {stop : DirEntry → Bool} {todo page index : ℕ}

lemma scanPages_ok (h : scanPages d loads stop todo page = .ok index) :
    index < (page + todo) * entriesNr ∧ stop (d.entries index) = true ∧
      ∀ i, page * entriesNr ≤ i → i < index → stop (d.entries i) = false := by
  induction todo generalizing page with
  | zero => simp [scanPages] at h
  | succ todo ih =>
    simp only [scanPages] at h
    split_ifs at h
    cases hfind : (List.range entriesNr).find?
        fun entry => stop (d.entries (page * entriesNr + entry)) with
    | some entry =>
      rw [hfind] at h
      cases h
      obtain ⟨hstop, hlt, hbefore⟩ := List.find?_range_eq_some.1 hfind
      have hentry := List.mem_range.1 hlt
      refine ⟨?_, hstop, ?_⟩
      · rw [Nat.add_mul, Nat.add_mul]
        omega
      · intro i hi hlow
        have hstop := hbefore (i - page * entriesNr) (by omega)
        rw [Nat.add_sub_cancel' hi] at hstop
        simpa using hstop
    | none =>
      rw [hfind] at h
      obtain ⟨hlt, hstop, hbefore⟩ := ih h
      refine ⟨by rw [← add_assoc, add_right_comm]; exact hlt, hstop, ?_⟩
      intro i hi hlow
      by_cases hpage : (page + 1) * entriesNr ≤ i
      · exact hbefore i hpage hlow
      · have hnone := List.find?_range_eq_none.1 hfind (i - page * entriesNr)
          (by rw [Nat.add_mul] at hpage; omega)
        rw [Nat.add_sub_cancel' hi] at hnone
        simpa using hnone

lemma scanPages_finds (hindex : index < (page + todo) * entriesNr)
    (hpage : page * entriesNr ≤ index) (hstop : stop (d.entries index) = true) :
    ∃ found, scanPages d (fun _ => true) stop todo page = .ok found := by
  induction todo generalizing page with
  | zero =>
    rw [Nat.add_zero] at hindex
    omega
  | succ todo ih =>
    simp only [scanPages, if_true]
    cases hfind : (List.range entriesNr).find?
        fun entry => stop (d.entries (page * entriesNr + entry)) with
    | some entry => exact ⟨_, rfl⟩
    | none =>
      refine ih (by rw [← add_assoc, add_right_comm] at hindex; exact hindex) ?_
      by_contra hlow
      have hnone := List.find?_range_eq_none.1 hfind (index - page * entriesNr)
        (by rw [Nat.add_mul] at hlow; omega)
      rw [Nat.add_sub_cancel' hpage, hstop] at hnone
      simp at hnone

lemma scanPages_eq (hindex : index < d.pageCount * entriesNr) (hstop : stop (d.entries index) = true)
    (hbefore : ∀ i < index, stop (d.entries i) = false) :
    scanPages d (fun _ => true) stop d.pageCount 0 = .ok index := by
  have hpages : index < (0 + d.pageCount) * entriesNr := by simpa using hindex
  obtain ⟨found, hfound⟩ := scanPages_finds hpages (by simp) hstop
  obtain ⟨-, hstopped, hfirst⟩ := scanPages_ok hfound
  rcases lt_trichotomy index found with hlt | rfl | hgt
  · have := hfirst index (by simp) hlt
    simp [hstop] at this
  · exact hfound
  · have := hbefore found hgt
    simp [hstopped] at this

end Searches

lemma isNamed_iff (x : DirEntry) :
    x.isNamed = true ↔ x.first ≠ 0xE5 ∧ x.first ≠ dot ∧ x.attr ≠ 0x0F := by
  simp [DirEntry.isNamed, dot, and_assoc]

lemma locateStop_iff (name : List UInt8) (x : DirEntry) : locateStop (some name) x = true ↔
    x.first = 0 ∨ x.isNamed = true ∧ vfatGetshortname x.name = name := by
  simp [locateStop, isNamed_iff, dot, and_assoc]

section Lookup
variable {d : Directory} {map : List UInt8 → Option (ℕ × DirEntry)} {e : ℕ}

lemma DirOk.index_eq (h : DirOk d map e) {n : List UInt8} {i j : ℕ} {x : DirEntry}
    (hi : map n = some (i, x)) (hj : j < e) (hnamed : (d.entries j).isNamed = true)
    (hname : vfatGetshortname (d.entries j).name = n) : j = i := by
  have hother := (h.named n j (d.entries j)).2 ⟨hj, rfl, hnamed, hname⟩
  rw [hi] at hother
  cases hother
  rfl

theorem vfatLocateEntry_eq (h : DirOk d map e) (name : List UInt8) :
    vfatLocateEntry d (fun _ => true) (some name) =
      match map name with
      | some found => .ok found
      | none => .error .notFound := by
  have hinside := h.ends.inside
  cases hmap : map name with
  | some found =>
    obtain ⟨i, x⟩ := found
    obtain ⟨hi, rfl, hnamed, hname⟩ := (h.named name i x).1 hmap
    have hscan : scanPages d (fun _ => true) (locateStop (some name)) d.pageCount 0 = .ok i := by
      apply scanPages_eq (by omega)
      · exact (locateStop_iff _ _).2 (.inr ⟨hnamed, hname⟩)
      · intro j hj
        by_contra hstop
        rw [Bool.not_eq_false, locateStop_iff] at hstop
        rcases hstop with hzero | ⟨hnamed', hname'⟩
        · exact h.ends.before j (by omega) hzero
        · have := h.index_eq hmap (by omega) hnamed' hname'
          omega
    simp only [vfatLocateEntry, hscan, if_neg (h.ends.before i hi)]
    rfl
  | none =>
    have hscan : scanPages d (fun _ => true) (locateStop (some name)) d.pageCount 0 = .ok e := by
      apply scanPages_eq hinside
      · exact (locateStop_iff _ _).2 (.inl h.ends.last)
      · intro j hj
        by_contra hstop
        rw [Bool.not_eq_false, locateStop_iff] at hstop
        rcases hstop with hzero | ⟨hnamed', hname'⟩
        · exact h.ends.before j hj hzero
        · have hsome := (h.named name j _).2 ⟨hj, rfl, hnamed', hname'⟩
          simp [hmap] at hsome
    simp only [vfatLocateEntry, hscan, if_pos h.ends.last]

end Lookup

/-- The results of successive calls of `vfat_readdir` with all pages loading. -/
def readdirs (d : Directory) : ℕ → ℕ → List (Except VfsError (List UInt8))
  | 0, _ => []
  | n + 1, fOffset =>
      let (result, fOffset) := vfatReaddir d (fun _ => true) (d.pageCount * entriesNr) fOffset
      result.map Prod.fst :: readdirs d n fOffset

/-- The names of `todo` entries from index `i` on. -/
def namesFrom (d : Directory) (i todo : ℕ) : List (List UInt8) :=
  ((List.range' i todo).filter fun j => (d.entries j).isNamed).map fun j =>
    vfatGetshortname (d.entries j).name

section Listing
variable {d : Directory} {e i todo fuel : ℕ}

lemma vfatReaddir_turn (h : EndsAt d e) (hpages : d.pageCount ≤ 2 ^ 20) (hi : i < e) :
    vfatReaddir d (fun _ => true) (fuel + 1) (i * 32) =
      if (d.entries i).isNamed then
        (.ok (vfatGetshortname (d.entries i).name, direntType (d.entries i)), (i + 1) * 32)
      else vfatReaddir d (fun _ => true) fuel ((i + 1) * 32) := by
  have hinside := h.inside
  simp only [entriesNr] at hinside
  have hpage : ¬d.pageCount ≤ i * 32 / pageSize := by
    simp only [pageSize]
    omega
  have hindex : i * 32 / pageSize * entriesNr + i * 32 % pageSize / 32 = i := by
    simp only [pageSize, entriesNr]
    omega
  have hnext : wadd (i * 32) 32 = (i + 1) * 32 := by
    rw [wadd_of_lt (by omega)]
    ring
  simp only [vfatReaddir, Bool.true_eq_false, hpage, or_self, if_false, hindex,
    if_neg (h.before i hi), hnext]

lemma vfatReaddir_end (h : EndsAt d e) :
    vfatReaddir d (fun _ => true) (fuel + 1) (e * 32) = (.error .eodir, e * 32) := by
  have hinside := h.inside
  simp only [entriesNr] at hinside
  have hpage : ¬d.pageCount ≤ e * 32 / pageSize := by
    simp only [pageSize]
    omega
  have hindex : e * 32 / pageSize * entriesNr + e * 32 % pageSize / 32 = e := by
    simp only [pageSize, entriesNr]
    omega
  simp only [vfatReaddir, Bool.true_eq_false, hpage, or_self, if_false, hindex, h.last, if_true]

lemma vfatReaddir_fuel (h : EndsAt d e) (hpages : d.pageCount ≤ 2 ^ 20) (htodo : i + todo = e)
    {fuel' : ℕ} (hfuel : todo < fuel) (hfuel' : todo < fuel') :
    vfatReaddir d (fun _ => true) fuel (i * 32) = vfatReaddir d (fun _ => true) fuel' (i * 32) := by
  induction todo generalizing i fuel fuel' with
  | zero =>
    obtain rfl : i = e := htodo
    obtain ⟨fuel, rfl⟩ : ∃ k, fuel = k + 1 := ⟨fuel - 1, by omega⟩
    obtain ⟨fuel', rfl⟩ : ∃ k, fuel' = k + 1 := ⟨fuel' - 1, by omega⟩
    rw [vfatReaddir_end h, vfatReaddir_end h]
  | succ todo ih =>
    obtain ⟨fuel, rfl⟩ : ∃ k, fuel = k + 1 := ⟨fuel - 1, by omega⟩
    obtain ⟨fuel', rfl⟩ : ∃ k, fuel' = k + 1 := ⟨fuel' - 1, by omega⟩
    rw [vfatReaddir_turn h hpages (by omega), vfatReaddir_turn h hpages (by omega)]
    split_ifs
    · rfl
    · exact ih (by omega) (by omega) (by omega)

lemma readdirs_eq (h : EndsAt d e) (hpages : d.pageCount ≤ 2 ^ 20) (htodo : i + todo = e) (k : ℕ) :
    readdirs d ((namesFrom d i todo).length + k) (i * 32) =
      (namesFrom d i todo).map .ok ++ List.replicate k (.error .eodir) := by
  have hinside := h.inside
  obtain ⟨fuel, hfuel⟩ : ∃ fuel, d.pageCount * entriesNr = fuel + 1 :=
    ⟨d.pageCount * entriesNr - 1, by omega⟩
  induction todo generalizing i with
  | zero =>
    obtain rfl : i = e := htodo
    induction k with
    | zero => rfl
    | succ k ih =>
      simp only [namesFrom, List.range'_zero, List.filter_nil, List.map_nil, List.length_nil,
        Nat.zero_add, List.nil_append] at ih ⊢
      rw [readdirs, hfuel, vfatReaddir_end h]
      simp only [ih, List.replicate_succ]
      rfl
  | succ todo ih =>
    have hrest := ih (i := i + 1) (by omega)
    cases hnamed : (d.entries i).isNamed with
    | true =>
      have hnames : namesFrom d i (todo + 1) =
          vfatGetshortname (d.entries i).name :: namesFrom d (i + 1) todo := by
        simp [namesFrom, List.range'_succ, hnamed]
      rw [hnames, List.length_cons, Nat.add_right_comm, readdirs, hfuel,
        vfatReaddir_turn h hpages (by omega), if_pos hnamed]
      simp only [hrest, List.map_cons, List.cons_append]
      rfl
    | false =>
      have hnames : namesFrom d i (todo + 1) = namesFrom d (i + 1) todo := by
        simp [namesFrom, List.range'_succ, hnamed]
      have hnext : i + 1 + todo = e := by omega
      have hless : todo < fuel := by omega
      have hskip : ∀ n, readdirs d n (i * 32) = readdirs d n ((i + 1) * 32) := by
        intro n
        cases n with
        | zero => rfl
        | succ n =>
          rw [readdirs, readdirs, hfuel, vfatReaddir_turn h hpages (by omega), hnamed,
            if_neg (by simp), vfatReaddir_fuel h hpages hnext hless (Nat.lt_succ_of_lt hless)]
      rw [hnames, hskip]
      exact hrest

lemma namesFrom_map {map : List UInt8 → Option (ℕ × DirEntry)} (h : DirOk d map e) :
    (namesFrom d 0 e).Nodup ∧ ∀ n, n ∈ namesFrom d 0 e ↔ (map n).isSome := by
  constructor
  · rw [namesFrom, List.nodup_map_iff_inj_on ((List.nodup_range' 1).filter _)]
    intro i hi j hj heq
    obtain ⟨hi, hni⟩ := List.mem_filter.1 hi
    obtain ⟨hj, hnj⟩ := List.mem_filter.1 hj
    have hmap := (h.named _ i _).2 ⟨by simpa using hi, rfl, hni, heq⟩
    exact (h.index_eq hmap (by simpa using hj) hnj rfl).symm
  · intro n
    constructor
    · intro hn
      obtain ⟨i, hi, rfl⟩ := List.mem_map.1 hn
      obtain ⟨hi, hni⟩ := List.mem_filter.1 hi
      rw [(h.named _ i _).2 ⟨by simpa using hi, rfl, hni, rfl⟩]
      rfl
    · intro hn
      obtain ⟨⟨i, x⟩, hx⟩ := Option.isSome_iff_exists.1 hn
      obtain ⟨hi, rfl, hnamed, rfl⟩ := (h.named _ i x).1 hx
      exact List.mem_map.2 ⟨i, List.mem_filter.2 ⟨by simpa using hi, hnamed⟩, rfl⟩

end Listing

section Steps
variable {d d' : Directory} {map : List UInt8 → Option (ℕ × DirEntry)} {e e' i : ℕ}
  {name : List UInt8} {x : DirEntry}

lemma first_setFirst (x : DirEntry) (val : UInt8) : (x.setFirst val).first = val := by
  have hlen := x.name_length
  cases hname : x.name with
  | nil => simp [hname] at hlen
  | cons c rest => simp [DirEntry.setFirst, DirEntry.first, hname]

theorem DirOk.add (h : DirOk d map e) (hnone : map name = none) (hends : EndsAt d' e')
    (hpages : d'.pageCount ≤ 2 ^ 20) (hi : i < e') (hle : e ≤ e')
    (hfree : i < e → (d.entries i).isNamed = false) (hentry : d'.entries i = x)
    (hsame : ∀ j, j < e' → j ≠ i → j < e ∧ d'.entries j = d.entries j)
    (hnamed : x.isNamed = true) (hname : vfatGetshortname x.name = name) :
    DirOk d' (Function.update map name (some (i, x))) e' := by
  refine ⟨hends, hpages, ?_⟩
  intro n j y
  rcases eq_or_ne n name with rfl | hn
  · rw [Function.update_self]
    constructor
    · rintro heq
      cases heq
      exact ⟨hi, hentry, hnamed, hname⟩
    · rintro ⟨hj, rfl, hnamed', hname'⟩
      rcases eq_or_ne j i with rfl | hji
      · rw [hentry]
      · obtain ⟨hje, heq⟩ := hsame j hj hji
        rw [heq] at hnamed' hname'
        have hsome := (h.named n j _).2 ⟨hje, rfl, hnamed', hname'⟩
        simp [hnone] at hsome
  · rw [Function.update_of_ne hn, h.named]
    constructor
    · rintro ⟨hj, rfl, hnamed', hname'⟩
      have hji : j ≠ i := by
        rintro rfl
        simp [hfree hj] at hnamed'
      exact ⟨by omega, (hsame j (by omega) hji).2, hnamed', hname'⟩
    · rintro ⟨hj, rfl, hnamed', hname'⟩
      have hji : j ≠ i := by
        rintro rfl
        rw [hentry] at hname'
        exact hn (hname'.symm.trans hname)
      obtain ⟨hje, heq⟩ := hsame j hj hji
      rw [heq] at hnamed' hname' ⊢
      exact ⟨hje, rfl, hnamed', hname'⟩

theorem DirOk.remove (h : DirOk d map e) (hsome : map name = some (i, x)) (hends : EndsAt d' e')
    (hpages : d'.pageCount ≤ 2 ^ 20) (hle : e' ≤ e)
    (hfree : i < e' → (d'.entries i).isNamed = false)
    (hsame : ∀ j, j ≠ i → d'.entries j = d.entries j)
    (hothers : ∀ n j y, map n = some (j, y) → j ≠ i → j < e') :
    DirOk d' (Function.update map name none) e' := by
  refine ⟨hends, hpages, ?_⟩
  intro n j y
  rcases eq_or_ne n name with rfl | hn
  · rw [Function.update_self]
    constructor
    · intro heq
      cases heq
    · rintro ⟨hj, rfl, hnamed', hname'⟩
      have hji : j ≠ i := by
        rintro rfl
        simp [hfree hj] at hnamed'
      rw [hsame j hji] at hnamed' hname'
      exact absurd (h.index_eq hsome (by omega) hnamed' hname') hji
  · rw [Function.update_of_ne hn]
    constructor
    · intro hmap
      obtain ⟨hj, rfl, hnamed', hname'⟩ := (h.named n j y).1 hmap
      have hji : j ≠ i := by
        rintro rfl
        obtain ⟨-, rfl, -, hname⟩ := (h.named name j x).1 hsome
        exact hn (hname'.symm.trans hname)
      exact ⟨hothers n j _ hmap hji, hsame j hji, hnamed', hname'⟩
    · rintro ⟨hj, rfl, hnamed', hname'⟩
      have hji : j ≠ i := by
        rintro rfl
        simp [hfree hj] at hnamed'
      rw [hsame j hji] at hnamed' hname' ⊢
      exact (h.named n j _).2 ⟨by omega, rfl, hnamed', hname'⟩

/-- The condition of `create`: the new name does not look like a free entry, and the end of the
directory stays below 4 GiB. -/
structure Creatable (d : Directory) (loads : ℕ → Bool) (name : ShortName) : Prop where
  marker : name.bytes.headD 0 ≠ 0xE5
  offset : ∀ index, scanPages d loads DirEntry.isFree d.pageCount 0 = .ok index →
    (d.entries index).first = 0 → index + 1 < 2 ^ 27

/-- The condition of `unlink`: the last entry of a page after the first one is not taken for the
last of the directory by the byte after its page. -/
structure Unlinkable (map : List UInt8 → Option (ℕ × DirEntry)) (name : List UInt8)
    (env : UnlinkEnv) : Prop where
  located : env.fifo = false
  after : ∀ i x, map name = some (i, x) → i % entriesNr = entriesNr - 1 → i ≠ entriesNr - 1 →
    env.after = 0 → ∀ n j y, map n = some (j, y) → j ≤ i

lemma vfatCreateNode_ok {attr : NodeAttr} {env : CreateEnv} {found : ℕ × DirEntry}
    (hcall : vfatCreateNode d name attr env = (d', .ok found)) :
    ∃ cluster index, scanPages d env.loads DirEntry.isFree d.pageCount 0 = .ok index ∧
      found = (index, newEntry name attr env.junk cluster) ∧
      ((d.entries index).first ≠ 0 ∧ d' = ⟨Function.update d.entries index found.2, d.pageCount⟩ ∨
        (d.entries index).first = 0 ∧ index % entriesNr ≠ entriesNr - 1 ∧
          d' = ⟨fun i => if i = index then found.2
            else if i = index + 1 then (d.entries i).setFirst 0x00 else d.entries i, d.pageCount⟩ ∨
        (d.entries index).first = 0 ∧ index % entriesNr = entriesNr - 1 ∧
          d.pageCount ≤ index / entriesNr + 1 ∧
          d' = ⟨fun i => if i = index then found.2
            else if i / entriesNr = index / entriesNr + 1 then .zero else d.entries i,
            d.pageCount + 1⟩) := by
  unfold vfatCreateNode at hcall
  split at hcall
  · cases hcall
  · rename_i cluster hcluster
    by_cases hspace : cluster = 0 ∧ ¬(attr.fifo || attr.dev) = true
    · rw [if_pos hspace] at hcall
      cases hcall
    · rw [if_neg hspace] at hcall
      cases hscan : scanPages d env.loads DirEntry.isFree d.pageCount 0 with
      | error err =>
        rw [hscan] at hcall
        cases hcall
      | ok index =>
        simp only [hscan] at hcall
        refine ⟨cluster, index, rfl, ?_⟩
        by_cases hzero : (d.entries index).first = 0
        · rw [if_pos hzero] at hcall
          by_cases hedge : index % entriesNr = entriesNr - 1
          · rw [if_pos hedge] at hcall
            split_ifs at hcall with hpage hexists hinsert
            all_goals cases hcall
            exact ⟨rfl, .inr (.inr ⟨hzero, hedge, not_lt.1 hexists, rfl⟩)⟩
          · rw [if_neg hedge] at hcall
            cases hcall
            exact ⟨rfl, .inr (.inl ⟨hzero, hedge, rfl⟩)⟩
        · rw [if_neg hzero] at hcall
          cases hcall
          exact ⟨rfl, .inl ⟨hzero, rfl⟩⟩

theorem DirOk.addLast (h : DirOk d map e) (hnone : map name = none) (hentry : d'.entries e = x)
    (hlow : ∀ j < e, d'.entries j = d.entries j) (hnext : (d'.entries (e + 1)).first = 0)
    (hinside : e + 1 < d'.pageCount * entriesNr) (hpages : d'.pageCount ≤ 2 ^ 20)
    (hnonzero : x.first ≠ 0) (hnamed : x.isNamed = true)
    (hname : vfatGetshortname x.name = name) :
    DirOk d' (Function.update map name (some (e, x))) (e + 1) := by
  refine h.add hnone ⟨hinside, hnext, ?_⟩ hpages (by omega) (by omega) (by omega) hentry ?_ hnamed hname
  · intro j hj
    rcases eq_or_ne j e with rfl | hne
    · rw [hentry]
      exact hnonzero
    · rw [hlow j (by omega)]
      exact h.ends.before j (by omega)
  · intro j hj hne
    exact ⟨by omega, hlow j (by omega)⟩

theorem DirOk.create {n : ShortName} {attr : NodeAttr} {env : CreateEnv} {found : ℕ × DirEntry}
    (h : DirOk d map e) (hnone : map n.bytes = none) (hok : Creatable d env.loads n)
    (hcall : vfatCreateNode d n.bytes attr env = (d', .ok found)) :
    ∃ e', DirOk d' (Function.update map n.bytes (some found)) e' := by
  obtain ⟨cluster, index, hscan, rfl, hcases⟩ := vfatCreateNode_ok hcall
  obtain ⟨-, hfree, hbefore⟩ := scanPages_ok hscan
  have hinside := h.ends.inside
  have hpages := h.pages
  -- the first free entry is not after the end
  have hle : index ≤ e := by
    by_contra hgt
    have hend := hbefore e (by simp) (by omega)
    simp [DirEntry.isFree, h.ends.last] at hend
  have hend : (d.entries index).first = 0 → index = e := by
    intro hzero
    by_contra hne
    exact h.ends.before index (by omega) hzero
  have hfirst := n.first_newEntry env.junk attr cluster
  have hnamed : (newEntry n.bytes attr env.junk cluster).isNamed = true :=
    (isNamed_iff _).2 ⟨by rw [hfirst]; exact hok.marker, by rw [hfirst]; exact n.head_char.2,
      dirAttr_ne attr⟩
  have hname : vfatGetshortname (newEntry n.bytes attr env.junk cluster).name = n.bytes :=
    n.vfatGetshortname_convertName env.junk
  have hnonzero : (newEntry n.bytes attr env.junk cluster).first ≠ 0 := by
    rw [hfirst]
    exact n.head_char.1
  rcases hcases with ⟨hdeleted, rfl⟩ | ⟨hzero, hedge, rfl⟩ | ⟨hzero, hedge, hpage, rfl⟩
  · have hlow : index < e := by
      rcases Nat.lt_or_eq_of_le hle with hlow | rfl
      · exact hlow
      · exact absurd h.ends.last hdeleted
    refine ⟨e, h.add hnone ⟨hinside, ?_, ?_⟩ hpages hlow le_rfl ?_ (Function.update_self ..) ?_
      hnamed hname⟩
    · simp only [Function.update_of_ne hlow.ne']
      exact h.ends.last
    · intro j hj
      rcases eq_or_ne j index with rfl | hne
      · simp only [Function.update_self]
        exact hnonzero
      · simp only [Function.update_of_ne hne]
        exact h.ends.before j hj
    · intro _
      have hmark : (d.entries index).first = 0xE5 := by
        simpa [DirEntry.isFree, hdeleted] using hfree
      simp [DirEntry.isNamed, hmark]
    · intro j hj hne
      exact ⟨hj, Function.update_of_ne hne _ _⟩
  · obtain rfl := hend hzero
    refine ⟨index + 1, h.addLast hnone (if_pos rfl) ?_ ?_ ?_ hpages hnonzero hnamed hname⟩
    · intro j hj
      simp only [if_neg hj.ne, if_neg (show j ≠ index + 1 by omega)]
    · simp only [if_neg (show index + 1 ≠ index by omega), if_true]
      exact first_setFirst _ _
    · simp only [entriesNr] at hinside hedge ⊢
      omega
  · obtain rfl := hend hzero
    have hoffset := hok.offset index hscan hzero
    have hnext : (index + 1) / entriesNr = index / entriesNr + 1 := by
      simp only [entriesNr] at hedge ⊢
      omega
    refine ⟨index + 1, h.addLast hnone (if_pos rfl) ?_ ?_ ?_ ?_ hnonzero hnamed hname⟩
    · intro j hj
      have hsame : j / entriesNr ≠ index / entriesNr + 1 := by
        have := Nat.div_le_div_right (c := entriesNr) hj.le
        omega
      simp only [if_neg hj.ne, if_neg hsame]
    · simp only [if_neg (show index + 1 ≠ index by omega), if_pos hnext]
      rfl
    · simp only [entriesNr] at hinside hedge hpage ⊢
      omega
    · simp only [entriesNr] at hinside hedge hpage ⊢
      omega

theorem DirOk.unlink {env : UnlinkEnv} (h : DirOk d map e) (hsome : map name = some (i, x))
    (hok : Unlinkable map name env) {u : Unit}
    (hcall : vfatUnlinkNode d name i env = (d', .ok u)) :
    ∃ e', DirOk d' (Function.update map name none) e' := by
  obtain ⟨hi, rfl, hnamed, hname⟩ := (h.named name i x).1 hsome
  have hinside := h.ends.inside
  have hpages := h.pages
  have hpage : i * 32 % 2 ^ 32 / pageSize = i / entriesNr := by
    simp only [entriesNr, pageSize] at hinside ⊢
    omega
  have hslot : i / entriesNr * entriesNr + i % entriesNr = i := Nat.div_add_mod' i entriesNr
  -- the entry marked as the end
  have hlast : (∀ m j y, map m = some (j, y) → j ≤ i) →
      ∃ e', DirOk ⟨Function.update d.entries i ((d.entries i).setFirst 0x00), d.pageCount⟩
        (Function.update map name none) e' := by
    intro hothers
    refine ⟨i, h.remove hsome ⟨by simp only; omega, ?_, ?_⟩ hpages hi.le (fun hlt => absurd hlt (lt_irrefl i)) ?_ ?_⟩
    · simp [first_setFirst]
    · intro j hj
      simp only [Function.update_of_ne hj.ne]
      exact h.ends.before j (by omega)
    · intro j hj
      exact Function.update_of_ne hj _ _
    · intro m j y hm hj
      have := hothers m j y hm
      omega
  -- the entry marked as deleted
  have hdeleted : ∃ e', DirOk ⟨Function.update d.entries i ((d.entries i).setFirst 0xE5), d.pageCount⟩
      (Function.update map name none) e' := by
    refine ⟨e, h.remove hsome ⟨hinside, ?_, ?_⟩ hpages le_rfl ?_ ?_ ?_⟩
    · simp only [Function.update_of_ne hi.ne']
      exact h.ends.last
    · intro j hj
      rcases eq_or_ne j i with rfl | hne
      · simp [first_setFirst]
      · simp only [Function.update_of_ne hne]
        exact h.ends.before j hj
    · intro _
      simp [DirEntry.isNamed, first_setFirst]
    · intro j hj
      exact Function.update_of_ne hj _ _
    · intro m j y hm _
      exact ((h.named m j y).1 hm).1
  -- the end follows the entry when the next one is the end
  have hnext : (d.entries (i + 1)).first = 0 → ∀ m j y, map m = some (j, y) → j ≤ i := by
    intro hzero m j y hm
    have hj := ((h.named m j y).1 hm).1
    by_contra hgt
    exact h.ends.before (i + 1) (by omega) hzero
  simp only [vfatUnlinkNode, hok.located, Bool.false_eq_true, if_false, hpage, hslot] at hcall
  split_ifs at hcall with hload hfirst hload' hzero hedge hafter hzero'
  all_goals cases hcall
  · subst hfirst
    exact hlast (hnext hzero)
  · exact hdeleted
  · exact hlast (hok.after i _ hsome hedge hfirst hafter)
  · exact hdeleted
  · exact hlast (hnext hzero')
  · exact hdeleted

end Steps

lemma vfatCreateNode_error {d : Directory} {name : List UInt8} {attr : NodeAttr} {env : CreateEnv}
    {err : VfsError} (h : (vfatCreateNode d name attr env).2 = .error err) :
    (vfatCreateNode d name attr env).1 = d := by
  unfold vfatCreateNode at h ⊢
  split
  · rfl
  · rename_i cluster hcluster
    simp only [hcluster] at h
    by_cases hspace : cluster = 0 ∧ ¬(attr.fifo || attr.dev) = true
    · rw [if_pos hspace]
    · rw [if_neg hspace] at h ⊢
      cases hscan : scanPages d env.loads DirEntry.isFree d.pageCount 0 with
      | error err => rfl
      | ok index =>
        simp only [hscan] at h ⊢
        split_ifs at h ⊢
        all_goals rfl

lemma vfatUnlinkNode_error {d : Directory} {name : List UInt8} {index : ℕ} {env : UnlinkEnv}
    {err : VfsError} (h : (vfatUnlinkNode d name index env).2 = .error err) :
    (vfatUnlinkNode d name index env).1 = d := by
  unfold vfatUnlinkNode at h ⊢
  split
  · rfl
  · rename_i found hfound
    simp only [hfound] at h ⊢
    split_ifs at h ⊢
    all_goals rfl

def Kept (s : DirRun) : DirEvent → Prop
  | .create name _ env => Creatable s.dir env.loads name
  | .unlink name env => Unlinkable s.map name.bytes env

theorem DirOk.keep {s t : DirRun} {ev : DirEvent} {e : ℕ} (h : DirOk s.dir s.map e)
    (hok : Kept s ev) (hstep : dirStep s ev = some t) : ∃ e', DirOk t.dir t.map e' := by
  cases ev with
  | create name attr env =>
    simp only [dirStep] at hstep
    split_ifs at hstep with hnone
    rcases hcall : vfatCreateNode s.dir name.bytes attr env with ⟨dir, result⟩
    rw [hcall] at hstep
    cases result with
    | ok found =>
      cases hstep
      exact h.create (by simpa using hnone) hok hcall
    | error err =>
      have hsame := vfatCreateNode_error (congrArg Prod.snd hcall)
      rw [hcall] at hsame
      obtain rfl : dir = s.dir := hsame
      cases hstep
      exact ⟨e, h⟩
  | unlink name env =>
    cases hsome : s.map name.bytes with
    | none => simp [dirStep, hsome] at hstep
    | some found =>
      obtain ⟨index, x⟩ := found
      simp only [dirStep, hsome] at hstep
      rcases hcall : vfatUnlinkNode s.dir name.bytes index env with ⟨dir, result⟩
      rw [hcall] at hstep
      cases result with
      | ok u =>
        cases hstep
        exact h.unlink hsome hok hcall
      | error err =>
        have hsame := vfatUnlinkNode_error (congrArg Prod.snd hcall)
        rw [hcall] at hsame
        obtain rfl : dir = s.dir := hsame
        cases hstep
        exact ⟨e, h⟩

/-- A directory is a map: `vfat_locate_entry` looks names up in it, `vfat_readdir` lists each name
once and then reports the end, and a call that fails leaves the directory. -/
theorem directory_is_map {s : DirRun} (h : dirMachine.Reach Kept s) :
    (∀ name, vfatLocateEntry s.dir (fun _ => true) (some name) =
      match s.map name with
      | some found => .ok found
      | none => .error .notFound) ∧
    (∃ names : List (List UInt8), names.Nodup ∧ (∀ n, n ∈ names ↔ (s.map n).isSome) ∧
      ∀ k, readdirs s.dir (names.length + k) 0 =
        names.map .ok ++ List.replicate k (.error .eodir)) ∧
    (∀ name attr env err, (vfatCreateNode s.dir name attr env).2 = .error err →
      (vfatCreateNode s.dir name attr env).1 = s.dir) ∧
    ∀ name index env err, (vfatUnlinkNode s.dir name index env).2 = .error err →
      (vfatUnlinkNode s.dir name index env).1 = s.dir := by
  obtain ⟨e, hok⟩ : ∃ e, DirOk s.dir s.map e := by
    refine h.invariant (I := fun s => ∃ e, DirOk s.dir s.map e) ?_ ?_
    · rintro s ⟨hmap, e, hends, hpages, hnames⟩
      refine ⟨e, hends, hpages, ?_⟩
      intro n i x
      rw [hmap]
      constructor
      · intro heq
        cases heq
      · rintro ⟨hi, rfl, hnamed, -⟩
        simp [hnames i hi] at hnamed
    · rintro s ev t ⟨e, hs⟩ hguard hstep
      exact hs.keep hguard hstep
  obtain ⟨hnodup, hmem⟩ := namesFrom_map hok
  refine ⟨vfatLocateEntry_eq hok, ⟨namesFrom s.dir 0 e, hnodup, hmem, ?_⟩, ?_, ?_⟩
  · intro k
    simpa using readdirs_eq hok.ends hok.pages (Nat.zero_add e) k
  · intro name attr env err
    exact vfatCreateNode_error
  · intro name index env err
    exact vfatUnlinkNode_error

/-! ### Directories with one name after another -/

/-- The file name number `k`. -/
def fileName (k : ℕ) : ShortName where
  base := [UInt8.ofNat (65 + k / 64 % 16), UInt8.ofNat (48 + k % 64)]
  ext := []
  base_ne := by simp
  base_length := by simp
  ext_length := by simp
  chars := by
    intro c hc
    obtain ⟨n, hlow, hhigh, rfl⟩ : ∃ n, 48 ≤ n ∧ n < 112 ∧ c = UInt8.ofNat n := by
      simp only [List.append_nil, List.mem_cons, List.not_mem_nil, or_false] at hc
      rcases hc with rfl | rfl
      · exact ⟨_, by omega, by omega, rfl⟩
      · exact ⟨_, by omega, by omega, rfl⟩
    have hne : ∀ m < 48, UInt8.ofNat n ≠ UInt8.ofNat m := by
      intro m hm heq
      have := congrArg UInt8.toNat heq
      simp only [UInt8.toNat_ofNat'] at this
      omega
    exact ⟨hne 0 (by decide), hne 46 (by decide), hne 32 (by decide)⟩

lemma fileName_bytes_ne {j k : ℕ} (hjk : j < k) (hk : k < 1024) :
    (fileName j).bytes ≠ (fileName k).bytes := by
  intro heq
  simp only [ShortName.bytes, fileName, if_true, List.append_nil, List.cons.injEq, and_true] at heq
  have hhigh := congrArg UInt8.toNat heq.1
  have hlow := congrArg UInt8.toNat heq.2
  simp only [UInt8.toNat_ofNat'] at hhigh hlow
  omega

def plainFile : NodeAttr := ⟨false, false, false, false, false, false⟩

def createOk : CreateEnv := ⟨.ok 5, fun _ => true, true, true, (0, 0)⟩

def fileEntry (k : ℕ) : DirEntry := newEntry (fileName k).bytes plainFile (0, 0) 5

/-- The names from 0 to `k` excluded, one after another. -/
def filledMap : ℕ → List UInt8 → Option (ℕ × DirEntry)
  | 0 => fun _ => none
  | k + 1 => Function.update (filledMap k) (fileName k).bytes (some (k, fileEntry k))

def filled (k : ℕ) : DirRun :=
  ⟨⟨fun i => if i < k then fileEntry i else .zero, k / entriesNr + 1⟩, filledMap k⟩

lemma filledMap_none {k : ℕ} {n : List UInt8} (h : ∀ j < k, (fileName j).bytes ≠ n) :
    filledMap k n = none := by
  induction k with
  | zero => rfl
  | succ k ih =>
    rw [filledMap, Function.update_of_ne (h k (by omega)).symm]
    exact ih fun j hj => h j (by omega)

lemma fileEntry_first (k : ℕ) : 65 ≤ (fileEntry k).first.toNat ∧ (fileEntry k).first.toNat < 81 := by
  rw [fileEntry, ShortName.first_newEntry]
  simp only [ShortName.bytes, fileName, if_true, List.append_nil, List.headD_cons, UInt8.toNat_ofNat']
  omega

lemma fileEntry_first_ne (k : ℕ) {val : UInt8} (h : val.toNat < 65 ∨ 81 ≤ val.toNat) :
    (fileEntry k).first ≠ val := by
  rintro rfl
  have := fileEntry_first k
  omega

lemma filled_scan (k : ℕ) :
    scanPages (filled k).dir (fun _ => true) DirEntry.isFree (filled k).dir.pageCount 0 = .ok k := by
  apply scanPages_eq
  · simp only [filled, entriesNr]
    omega
  · simp only [filled, lt_irrefl, if_false]
    rfl
  · intro i hi
    simp only [filled, if_pos hi, DirEntry.isFree, Bool.or_eq_false_iff, beq_eq_false_iff_ne]
    exact ⟨fileEntry_first_ne i (by decide), fileEntry_first_ne i (by decide)⟩

lemma filled_step {k : ℕ} (hk : k < 1024) :
    dirStep (filled k) (.create (fileName k) plainFile createOk) = some (filled (k + 1)) := by
  have hnone : (filled k).map (fileName k).bytes = none :=
    filledMap_none fun j hj => fileName_bytes_ne hj hk
  have hzero : ((filled k).dir.entries k).first = 0 := by
    simp only [filled, lt_irrefl, if_false]
    rfl
  have hcreate : vfatCreateNode (filled k).dir (fileName k).bytes plainFile createOk =
      ((filled (k + 1)).dir, .ok (k, fileEntry k)) := by
    have hscan := filled_scan k
    have hentry : newEntry (fileName k).bytes plainFile (0, 0) 5 = fileEntry k := rfl
    by_cases hedge : k % entriesNr = entriesNr - 1
    · have hpages : ¬k / entriesNr + 1 < (filled k).dir.pageCount := lt_irrefl _
      have hdir : (⟨fun i => if i = k then fileEntry k
          else if i / entriesNr = k / entriesNr + 1 then .zero else (filled k).dir.entries i,
          (filled k).dir.pageCount + 1⟩ : Directory) = (filled (k + 1)).dir := by
        simp only [filled, Directory.mk.injEq]
        refine ⟨?_, by simp only [entriesNr] at hedge ⊢; omega⟩
        funext i
        rcases lt_trichotomy i k with hlt | rfl | hgt
        · have hpage : i / entriesNr ≠ k / entriesNr + 1 := by
            have := Nat.div_le_div_right (c := entriesNr) hlt.le
            omega
          simp only [if_neg hlt.ne, if_neg hpage, if_pos hlt, if_pos (Nat.lt_succ_of_lt hlt)]
        · simp
        · simp only [if_neg hgt.ne', if_neg hgt.not_gt, if_neg (show ¬i < k + 1 by omega), ite_self]
      simp only [vfatCreateNode, createOk, plainFile, Bool.or_self, Bool.false_eq_true, if_false, hscan,
        hzero, if_true, hedge, hpages, Bool.true_eq_false]
      rw [← hdir]
      rfl
    · have hdir : (⟨fun i => if i = k then fileEntry k
          else if i = k + 1 then ((filled k).dir.entries i).setFirst 0x00
          else (filled k).dir.entries i, (filled k).dir.pageCount⟩ : Directory) =
          (filled (k + 1)).dir := by
        simp only [filled, Directory.mk.injEq]
        refine ⟨?_, by simp only [entriesNr] at hedge ⊢; omega⟩
        funext i
        rcases lt_trichotomy i k with hlt | rfl | hgt
        · simp only [if_neg hlt.ne, if_neg (show i ≠ k + 1 by omega), if_pos hlt,
            if_pos (Nat.lt_succ_of_lt hlt)]
        · simp
        · simp only [if_neg hgt.ne', if_neg hgt.not_gt, if_neg (show ¬i < k + 1 by omega)]
          split_ifs <;> rfl
      simp only [vfatCreateNode, createOk, plainFile, Bool.or_self, Bool.false_eq_true, if_false, hscan,
        hzero, if_true, hedge]
      rw [← hdir]
      rfl
  simp only [dirStep, hnone, hcreate, Option.isSome_none, Bool.false_eq_true, if_false]
  rfl

lemma filled_creatable {k : ℕ} (hk : k < 1024) :
    Creatable (filled k).dir createOk.loads (fileName k) := by
  refine ⟨?_, fun index hscan _ => ?_⟩
  · have hfirst : (fileEntry k).first ≠ 0xE5 := fileEntry_first_ne k (by decide)
    rwa [fileEntry, ShortName.first_newEntry] at hfirst
  · obtain rfl : k = index := Except.ok.inj ((filled_scan k).symm.trans hscan)
    omega

lemma filled_reach {k : ℕ} (hk : k ≤ 1024) : dirMachine.Reach Kept (filled k) := by
  induction k with
  | zero =>
    refine .init ⟨fun _ => rfl, 0, ⟨by decide, rfl, by omega⟩, by decide, by omega⟩
  | succ k ih =>
    exact .step (e := .create (fileName k) plainFile createOk) (ih (by omega))
      (filled_creatable (by omega)) (filled_step (by omega))

/-- Of three names the second is unlinked. -/
theorem directory_is_map_three_names : ∃ s, dirMachine.Reach Kept s ∧
    dirStep (filled 3) (.unlink (fileName 1) ⟨fun _ => true, 0, false⟩) = some s ∧
    vfatLocateEntry s.dir (fun _ => true) (some (fileName 0).bytes) = .ok (0, fileEntry 0) ∧
    vfatLocateEntry s.dir (fun _ => true) (some (fileName 1).bytes) = .error .notFound ∧
    vfatLocateEntry s.dir (fun _ => true) (some (fileName 2).bytes) = .ok (2, fileEntry 2) := by
  have hmap : ∀ j < 3, (filled 3).map (fileName j).bytes = some (j, fileEntry j) := by
    intro j hj
    change Function.update (Function.update (Function.update (fun _ => none) _ _) _ _) _ _
      (fileName j).bytes = _
    interval_cases j
    · rw [Function.update_of_ne (fileName_bytes_ne (by decide) (by decide)),
        Function.update_of_ne (fileName_bytes_ne (by decide) (by decide)), Function.update_self]
    · rw [Function.update_of_ne (fileName_bytes_ne (by decide) (by decide)), Function.update_self]
    · rw [Function.update_self]
  have hunlink : vfatUnlinkNode (filled 3).dir (fileName 1).bytes 1 ⟨fun _ => true, 0, false⟩ =
      (⟨Function.update (filled 3).dir.entries 1 ((fileEntry 1).setFirst 0xE5), 1⟩, .ok ()) := rfl
  have hstep : dirStep (filled 3) (.unlink (fileName 1) ⟨fun _ => true, 0, false⟩) =
      some ⟨⟨Function.update (filled 3).dir.entries 1 ((fileEntry 1).setFirst 0xE5), 1⟩,
        Function.update (filled 3).map (fileName 1).bytes none⟩ := by
    simp only [dirStep, hmap 1 (by decide), hunlink]
  have hunlinkable : Unlinkable (filled 3).map (fileName 1).bytes ⟨fun _ => true, 0, false⟩ := by
    refine ⟨rfl, fun i x hi hlast => ?_⟩
    obtain ⟨rfl, -⟩ := Prod.mk.inj (Option.some.inj (hi.symm.trans (hmap 1 (by decide))))
    exact absurd hlast (by decide)
  have hreach := Machine.Reach.step (M := dirMachine) (s := filled 3) (filled_reach (by decide))
    (e := .unlink (fileName 1) ⟨fun _ => true, 0, false⟩) hunlinkable hstep
  have hlocate := (directory_is_map hreach).1
  have hfirst : (fileName 0).bytes ≠ (fileName 1).bytes := fileName_bytes_ne (by decide) (by decide)
  have hlast : (fileName 2).bytes ≠ (fileName 1).bytes :=
    (fileName_bytes_ne (by decide) (by decide)).symm
  refine ⟨_, hreach, hstep, ?_, ?_, ?_⟩
  · simp only [hlocate, Function.update_of_ne hfirst, hmap 0 (by decide)]
  · simp only [hlocate, Function.update_self]
  · simp only [hlocate, Function.update_of_ne hlast, hmap 2 (by decide)]

/-- After the entry 255 is unlinked with a zero byte behind its page, the name in the entry 256 is
not found any more. -/
theorem unlink_hides_next_page :
    ∃ s, dirMachine.Reachable s ∧ (s.map (fileName 256).bytes).isSome ∧
      vfatLocateEntry s.dir (fun _ => true) (some (fileName 256).bytes) = .error .notFound := by
  have hmap : (filled 257).map (fileName 255).bytes = some (255, fileEntry 255) := by
    change Function.update (filledMap 256) (fileName 256).bytes (some (256, fileEntry 256))
      (fileName 255).bytes = _
    rw [Function.update_of_ne (fileName_bytes_ne (by decide) (by decide))]
    exact Function.update_self ..
  have hunlink : vfatUnlinkNode (filled 257).dir (fileName 255).bytes 255 ⟨fun _ => true, 0, false⟩ =
      (⟨Function.update (filled 257).dir.entries 255 ((fileEntry 255).setFirst 0x00), 3⟩, .ok ()) := rfl
  have hstep : dirStep (filled 257) (.unlink (fileName 255) ⟨fun _ => true, 0, false⟩) =
      some ⟨⟨Function.update (filled 257).dir.entries 255 ((fileEntry 255).setFirst 0x00), 3⟩,
        Function.update (filled 257).map (fileName 255).bytes none⟩ := by
    simp only [dirStep, hmap, hunlink]
  refine ⟨_, .step (s := filled 257) (e := .unlink (fileName 255) ⟨fun _ => true, 0, false⟩)
    ((filled_reach (by decide)).mono fun _ _ _ => trivial) trivial hstep, ?_, ?_⟩
  · have hne : (fileName 255).bytes ≠ (fileName 256).bytes :=
      fileName_bytes_ne (by decide) (by decide)
    simp only [Function.update_of_ne hne.symm]
    change (Function.update (filledMap 256) (fileName 256).bytes (some (256, fileEntry 256))
      (fileName 256).bytes).isSome = true
    rw [Function.update_self]
    rfl
  · have hzero : (Function.update (filled 257).dir.entries 255
        ((fileEntry 255).setFirst 0x00) 255).first = 0 := by
      rw [Function.update_self]
      exact first_setFirst _ _
    have hscan : scanPages ⟨Function.update (filled 257).dir.entries 255
        ((fileEntry 255).setFirst 0x00), 3⟩ (fun _ => true) (locateStop (some (fileName 256).bytes))
        3 0 = .ok 255 := by
      apply scanPages_eq (by decide)
      · exact (locateStop_iff _ _).2 (.inl hzero)
      · intro i hi
        rw [← Bool.not_eq_true, locateStop_iff]
        simp only [Function.update_of_ne hi.ne, filled, if_pos (show i < 257 by omega)]
        rintro (hfirst | ⟨-, hname⟩)
        · exact fileEntry_first_ne i (by decide) hfirst
        · have hown : vfatGetshortname (fileEntry i).name = (fileName i).bytes :=
            (fileName i).vfatGetshortname_convertName (0, 0)
          exact fileName_bytes_ne (by omega) (by decide) (hown.symm.trans hname)
    simp only [vfatLocateEntry, hscan, hzero, if_true]

end Almos.Vfat
