import Almos.Ext2Directory
import Almos.ExecArgs

/-!
# The names of an ext2 directory

The records of each block tile it, and the used ones are the names of the directory. A name that
goes into the slack of a used record cuts that record in two and changes no other one.
-/
namespace Almos.Ext2.Dir
open Bits ByteMemory BlockChain

inductive Start (mem : ByteMemory) : ℕ → Prop
  | zero : Start mem 0
  | next {a : ℕ} (h : Start mem a) : Start mem (a + dRecLen mem a)

structure RecordOk (mem : ByteMemory) (a : ℕ) : Prop where
  aligned : 4 ∣ dRecLen mem a
  name_inside : dInode mem a ≠ 0 → entrySize + dNameLen mem a ≤ dRecLen mem a
  nonzero : dInode mem a ≠ 0 → 0#8 ∉ dName mem a (dNameLen mem a)

/-- Records from `start` on that end exactly at `stop`. -/
structure Tiles (mem : ByteMemory) (start : ℕ) (l : List ℕ) (stop : ℕ) : Prop where
  chain : Chain (dRecLen mem) entrySize start l stop
  ok : ∀ a ∈ l, RecordOk mem a

structure Entry where
  name : List (BitVec 8)
  ino : ℕ
  fileType : BitVec 8
  deriving DecidableEq

def entryAt (mem : ByteMemory) (a : ℕ) : Entry :=
  ⟨dName mem a (dNameLen mem a), dInode mem a, dFileType mem a⟩

def Node.entry (node : Node) : Entry := ⟨node.name.bytes, node.ino, node.fileType⟩

structure Used (dir : Directory) (i a : ℕ) : Prop where
  start : Start (dir.pages i) a
  inPage : a < pmmPageSize
  used : dInode (dir.pages i) a ≠ 0

structure DirState where
  dir : Directory
  names : List Entry

/-- A directory of well-formed blocks; what lies behind them in a page is filled with zeros. -/
structure Formed (ctx : BlkSize) (dir : Directory) : Prop where
  whole : ctx.blkSize ∣ dir.nSize
  small : dir.nSize < 2 ^ 32
  tiled : ∀ i j, (j + 1) * ctx.blkSize ≤ pmmPageSize →
    i * pmmPageSize + j * ctx.blkSize < dir.nSize →
    ∃ l, Tiles (dir.pages i) (j * ctx.blkSize) l ((j + 1) * ctx.blkSize)
  blank : ∀ i x, x < pmmPageSize → dir.nSize ≤ i * pmmPageSize + x → dir.pages i x = 0

structure Named (s : DirState) : Prop where
  mem_iff : ∀ e, e ∈ s.names ↔ ∃ i a, Used s.dir i a ∧ entryAt (s.dir.pages i) a = e
  distinct : ∀ {i a i' a'}, Used s.dir i a → Used s.dir i' a' →
    (entryAt (s.dir.pages i) a).name = (entryAt (s.dir.pages i') a').name → i = i' ∧ a = a'

section Pages
variable {ctx : BlkSize} {dir : Directory} {mem mem' : ByteMemory} {l : List ℕ} {a b e i j m n s t : ℕ}

lemma ctx_dvd (ctx : BlkSize) : ctx.blkSize ∣ pmmPageSize :=
  pow_dvd_pow 2 ctx.log_le

lemma blkSize_ge (ctx : BlkSize) : 1024 ≤ ctx.blkSize :=
  Nat.pow_le_pow_right (by decide : 0 < 2) ctx.log_ge

lemma Start.of_chain (h : Chain (dRecLen mem) m s l t) (hs : Start mem s) :
    Start mem t ∧ ∀ a ∈ l, Start mem a := by
  induction l generalizing s with
  | nil =>
    obtain rfl : s = t := h
    exact ⟨hs, by simp⟩
  | cons x xs ih =>
    obtain ⟨rfl, -, hrest⟩ := h
    obtain ⟨ht, hxs⟩ := ih hrest hs.next
    exact ⟨ht, List.forall_mem_cons.mpr ⟨hs, hxs⟩⟩

/-- The records of a page, up to `e`, and nothing behind them. -/
structure PageRecords (mem : ByteMemory) (l : List ℕ) (e : ℕ) : Prop where
  tiles : Tiles mem 0 l e
  le : e ≤ pmmPageSize
  blank : e < pmmPageSize → dInode mem e = 0 ∧ dRecLen mem e = 0

namespace PageRecords

lemma start_iff (h : PageRecords mem l e) (ha : a < pmmPageSize) :
    Start mem a ↔ a ∈ l ∨ a = e := by
  obtain ⟨he, hl⟩ := Start.of_chain h.tiles.chain .zero
  constructor
  · intro hs
    induction hs with
    | zero =>
      by_cases hpos : 0 < e
      · exact .inl (h.tiles.chain.start_mem hpos)
      · exact .inr (by omega)
    | @next a hs ih =>
      obtain hmem | rfl := ih (by omega)
      · exact (h.tiles.chain.next_mem hmem).symm
      · rw [(h.blank (by omega)).2]
        exact .inr rfl
  · rintro (hmem | rfl)
    · exact hl a hmem
    · exact he

lemma bounds (h : PageRecords mem l e) (ha : a ∈ l) :
    entrySize ≤ dRecLen mem a ∧ a + dRecLen mem a ≤ e ∧ a < pmmPageSize := by
  obtain ⟨-, hlong, hend⟩ := h.tiles.chain.bounds ha
  have hle := h.le
  have hsize : entrySize = 8 := rfl
  exact ⟨hlong, hend, by omega⟩

lemma used_iff (h : PageRecords (dir.pages i) l e) :
    Used dir i a ↔ a ∈ l ∧ dInode (dir.pages i) a ≠ 0 := by
  constructor
  · rintro ⟨hstart, hpage, hused⟩
    obtain hmem | rfl := (h.start_iff hpage).mp hstart
    · exact ⟨hmem, hused⟩
    · exact absurd (h.blank hpage).1 hused
  · rintro ⟨hmem, hused⟩
    have hpage := (h.bounds hmem).2.2
    exact ⟨(h.start_iff hpage).mpr (.inl hmem), hpage, hused⟩

lemma length_le (h : PageRecords mem l e) : l.length ≤ 512 := by
  have hlength := h.tiles.chain.length_mul_le
  have hle := h.le
  simp only [entrySize, pmmPageSize] at hlength hle
  omega

end PageRecords

namespace Formed

lemma tiles (h : Formed ctx dir) (hnm : n ≤ m) (hm : m * ctx.blkSize ≤ pmmPageSize)
    (hend : i * pmmPageSize + m * ctx.blkSize ≤ dir.nSize) :
    ∃ l, Tiles (dir.pages i) (n * ctx.blkSize) l (m * ctx.blkSize) := by
  induction m, hnm using Nat.le_induction with
  | base => exact ⟨[], rfl, by simp⟩
  | succ m _ ih =>
    have hblk := blkSize_ge ctx
    rw [Nat.succ_mul] at hm hend
    obtain ⟨l, hl⟩ := ih (by omega) (by omega)
    obtain ⟨l', hl'⟩ := h.tiled i m (by rw [Nat.succ_mul]; omega) (by omega)
    refine ⟨l ++ l', hl.chain.append hl'.chain, fun a ha => ?_⟩
    obtain ha | ha := List.mem_append.mp ha
    · exact hl.ok a ha
    · exact hl'.ok a ha

end Formed

def inBlocks (dir : Directory) (i : ℕ) : ℕ := min pmmPageSize (dir.nSize - i * pmmPageSize)

lemma inBlocks_le (dir : Directory) (i : ℕ) :
    inBlocks dir i ≤ pmmPageSize ∧ inBlocks dir i ≤ dir.nSize - i * pmmPageSize :=
  ⟨min_le_left _ _, min_le_right _ _⟩

namespace Formed

lemma inBlocks_eq (h : Formed ctx dir) (i : ℕ) :
    inBlocks dir i / ctx.blkSize * ctx.blkSize = inBlocks dir i := by
  have hpages : ctx.blkSize ∣ i * pmmPageSize := (ctx_dvd ctx).mul_left i
  refine Nat.div_mul_cancel ?_
  unfold inBlocks
  rcases min_choice pmmPageSize (dir.nSize - i * pmmPageSize) with hmin | hmin
  · rw [hmin]
    exact ctx_dvd ctx
  · rw [hmin]
    exact Nat.dvd_sub h.whole hpages

lemma around (h : Formed ctx dir) (hj : (j + 1) * ctx.blkSize ≤ inBlocks dir i) :
    ∃ l₁ l₂, Tiles (dir.pages i) 0 l₁ (j * ctx.blkSize) ∧
      Tiles (dir.pages i) ((j + 1) * ctx.blkSize) l₂ (inBlocks dir i) := by
  have hblk := blkSize_ge ctx
  have hcount := h.inBlocks_eq i
  obtain ⟨hle, hsize⟩ := inBlocks_le dir i
  obtain ⟨l₁, hl₁⟩ := h.tiles (i := i) (Nat.zero_le j)
    (by rw [Nat.succ_mul] at hj; omega) (by rw [Nat.succ_mul] at hj; omega)
  have hjn : j + 1 ≤ inBlocks dir i / ctx.blkSize :=
    (Nat.le_div_iff_mul_le (by omega)).mpr hj
  obtain ⟨l₂, hl₂⟩ := h.tiles (i := i) hjn (by omega) (by rw [Nat.succ_mul] at hj; omega)
  rw [Nat.zero_mul] at hl₁
  rw [hcount] at hl₂
  exact ⟨l₁, l₂, hl₁, hl₂⟩

end Formed

lemma Tiles.append {l₁ l₂ : List ℕ} (h₁ : Tiles mem s l₁ m) (h₂ : Tiles mem m l₂ t) :
    Tiles mem s (l₁ ++ l₂) t := by
  refine ⟨h₁.chain.append h₂.chain, fun a ha => ?_⟩
  obtain ha | ha := List.mem_append.mp ha
  · exact h₁.ok a ha
  · exact h₂.ok a ha

namespace Formed

lemma pageRecords (h : Formed ctx dir) (hl : Tiles (dir.pages i) 0 l (inBlocks dir i)) :
    PageRecords (dir.pages i) l (inBlocks dir i) := by
  refine ⟨hl, min_le_left _ _, fun hlt => ?_⟩
  have hblk := blkSize_ge ctx
  have hcount := h.inBlocks_eq i
  have hpage : pmmPageSize / ctx.blkSize * ctx.blkSize = pmmPageSize :=
    Nat.div_mul_cancel (ctx_dvd ctx)
  have hnext : inBlocks dir i + ctx.blkSize ≤ pmmPageSize := by
    rw [← hcount, ← hpage, ← Nat.succ_mul]
    rw [← hcount, ← hpage] at hlt
    exact Nat.mul_le_mul_right _ (Nat.lt_of_mul_lt_mul_right hlt)
  have hsize : dir.nSize ≤ i * pmmPageSize + inBlocks dir i := by
    unfold inBlocks at hlt ⊢
    omega
  have hzero : ∀ x < 8, dir.pages i (inBlocks dir i + x) = 0 := by
    intro x hx
    exact h.blank i _ (by omega) (by omega)
  have hfirst := hzero 0 (by omega)
  rw [Nat.add_zero] at hfirst
  constructor
  · simp [dInode, load32, hfirst, hzero]
  · simp [dRecLen, load16, add_assoc, hzero]

lemma exists_records (h : Formed ctx dir) (i : ℕ) :
    ∃ l, PageRecords (dir.pages i) l (inBlocks dir i) := by
  have hcount := h.inBlocks_eq i
  obtain ⟨hle, hsize⟩ := inBlocks_le dir i
  by_cases hzero : inBlocks dir i = 0
  · refine ⟨[], h.pageRecords ⟨?_, by simp⟩⟩
    exact hzero.symm
  · obtain ⟨l, hl⟩ := h.tiles (i := i) (Nat.zero_le (inBlocks dir i / ctx.blkSize)) (by omega)
      (by omega)
    rw [Nat.zero_mul, hcount] at hl
    exact ⟨l, h.pageRecords hl⟩

lemma block (h : Formed ctx dir) (hl : PageRecords (dir.pages i) l (inBlocks dir i)) (ha : a ∈ l) :
    ∃ j l', (j + 1) * ctx.blkSize ≤ inBlocks dir i ∧
      Tiles (dir.pages i) (j * ctx.blkSize) l' ((j + 1) * ctx.blkSize) ∧ a ∈ l' := by
  have hblk := blkSize_ge ctx
  have hcount := h.inBlocks_eq i
  obtain ⟨hlong, hend, hpage⟩ := hl.bounds ha
  have hentry : entrySize = 8 := rfl
  have hj : a / ctx.blkSize < inBlocks dir i / ctx.blkSize := by
    rw [Nat.div_lt_iff_lt_mul (by omega), hcount]
    omega
  have hstop : (a / ctx.blkSize + 1) * ctx.blkSize ≤ inBlocks dir i := by
    rw [← hcount]
    exact Nat.mul_le_mul_right _ hj
  obtain ⟨hle, hsize⟩ := inBlocks_le dir i
  obtain ⟨l', hl'⟩ := h.tiled i (a / ctx.blkSize) (by omega)
    (by rw [Nat.succ_mul] at hstop; omega)
  refine ⟨a / ctx.blkSize, l', hstop, hl', ?_⟩
  obtain ⟨l₁, l₂, hl₁, hl₂⟩ := h.around hstop
  have hwhole := h.pageRecords ((hl₁.append hl').append hl₂)
  have hstart : Start (dir.pages i) a := (hl.start_iff hpage).mpr (.inl ha)
  have hlow := Nat.div_mul_le_self a ctx.blkSize
  have hhigh : a < (a / ctx.blkSize + 1) * ctx.blkSize := by
    rw [Nat.mul_comm]
    exact Nat.lt_mul_div_succ a (by omega)
  obtain hmem | hmem := (hwhole.start_iff hpage).mp hstart
  · simp only [List.mem_append] at hmem
    obtain (hmem | hmem) | hmem := hmem
    · have := hl₁.chain.bounds hmem
      omega
    · exact hmem
    · have := hl₂.chain.bounds hmem
      omega
  · omega

end Formed
end Pages

section Loops
variable {dir : Directory} {mem : ByteMemory} {visit : ℕ → Option (Option ℕ)} {l : List ℕ}
  {a b e i s t : ℕ}

lemma scanRecords_chain (h : Chain (dRecLen mem) entrySize s l t) (ht : t ≤ pmmPageSize) (fuel : ℕ) :
    scanRecords mem visit (l.length + fuel) s =
      match l.findSome? visit with
      | some out => some out
      | none => scanRecords mem visit fuel t := by
  induction l generalizing s with
  | nil =>
    obtain rfl : s = t := h
    simp
  | cons x xs ih =>
    obtain ⟨rfl, hlong, hrest⟩ := h
    have hle := hrest.le
    have hentry : entrySize = 8 := rfl
    have hpage : x < pmmPageSize := by omega
    rw [List.length_cons, Nat.add_right_comm, scanRecords, if_pos hpage, List.findSome?_cons]
    cases hvisit : visit x with
    | some out => rfl
    | none => exact ih hrest

structure Finds (mem : ByteMemory) (visit : ℕ → Option (Option ℕ)) (out : Option ℕ) : Prop where
  first : ∀ a, out = some a → Start mem a ∧ a < pmmPageSize ∧ visit a = some (some a) ∧
    ∀ b, Start mem b → b < a → visit b ≠ some (some b)
  absent : out = none → ∀ b, Start mem b → b < pmmPageSize → visit b ≠ some (some b)

/-- Records are passed over or found; the loop ends behind them at the latest. -/
lemma PageRecords.scan (h : PageRecords mem l e)
    (hrecord : ∀ a ∈ l, visit a = none ∨ visit a = some (some a))
    (hend : e < pmmPageSize → visit e = some none ∨ visit e = some (some e)) {fuel : ℕ}
    (hfuel : 513 ≤ fuel) :
    ∃ out, scanRecords mem visit fuel 0 = some out ∧ Finds mem visit out := by
  have hlength := h.length_le
  obtain ⟨rest, rfl⟩ : ∃ rest, fuel = l.length + (rest + 1) := ⟨fuel - l.length - 1, by omega⟩
  have hentry : entrySize = 8 := rfl
  rw [scanRecords_chain h.tiles.chain h.le]
  cases hfound : l.findSome? visit with
  | some out =>
    obtain ⟨l₁, a, l₂, rfl, hvisit, hbefore⟩ := List.findSome?_eq_some_iff.mp hfound
    have hmem : a ∈ l₁ ++ a :: l₂ := by simp
    obtain hnone | hsome := hrecord a hmem
    · rw [hvisit] at hnone
      cases hnone
    · obtain rfl : out = some a := Option.some.inj (hvisit.symm.trans hsome)
      have hpage := (h.bounds hmem).2.2
      refine ⟨some a, rfl, fun b hb => ?_, fun h => (Option.some_ne_none _ h).elim⟩
      obtain rfl := Option.some.inj hb
      refine ⟨(h.start_iff hpage).mpr (.inl hmem), hpage, hsome, fun c hc hca hvisit' => ?_⟩
      obtain hc | rfl := (h.start_iff (by omega)).mp hc
      · simp only [List.mem_append, List.mem_cons] at hc
        obtain hc | rfl | hc := hc
        · rw [hbefore c hc] at hvisit'
          cases hvisit'
        · omega
        · have hchain : Chain (dRecLen mem) entrySize 0 ((l₁ ++ [a]) ++ l₂) e := by
            simpa using h.tiles.chain
          have := Chain.lt_of_append (by decide) hchain (x := a) (by simp) hc
          omega
      · have := h.bounds hmem
        omega
  | none =>
    have hpast : ∀ b ∈ l, visit b ≠ some (some b) := fun b hb => by
      rw [List.findSome?_eq_none_iff.mp hfound b hb]
      exact (Option.some_ne_none _).symm
    rw [scanRecords]
    by_cases hpage : e < pmmPageSize
    · rw [if_pos hpage]
      obtain hvisit | hvisit := hend hpage
      · rw [hvisit]
        refine ⟨none, rfl, fun _ h => (Option.some_ne_none _ h.symm).elim, fun _ b hb hbpage => ?_⟩
        obtain hb | rfl := (h.start_iff hbpage).mp hb
        · exact hpast b hb
        · rw [hvisit]
          simp
      · rw [hvisit]
        refine ⟨some e, rfl, fun a ha => ?_, fun h => (Option.some_ne_none _ h).elim⟩
        obtain rfl := Option.some.inj ha
        refine ⟨(h.start_iff hpage).mpr (.inr rfl), hpage, hvisit, fun b hb hlt => ?_⟩
        obtain hb | rfl := (h.start_iff (by omega)).mp hb
        · exact hpast b hb
        · omega
    · rw [if_neg hpage]
      refine ⟨none, rfl, fun _ h => (Option.some_ne_none _ h.symm).elim, fun _ b hb hbpage => ?_⟩
      obtain hb | rfl := (h.start_iff hbpage).mp hb
      · exact hpast b hb
      · exact absurd hbpage hpage

/-- What the loop over the pages from `lo` to `hi` has to find. -/
def ScanOk (dir : Directory) (fails : ℕ → Option Ext2Error)
    (visit : ByteMemory → ℕ → Option (Option ℕ)) (lo hi : ℕ) : Scan → Prop
  | .found k a => lo ≤ k ∧ k < hi ∧ Start (dir.pages k) a ∧ a < pmmPageSize ∧
      visit (dir.pages k) a = some (some a) ∧ (∀ k', lo ≤ k' → k' ≤ k → fails k' = none) ∧
      ∀ k' b, lo ≤ k' → k' < k ∨ k' = k ∧ b < a → Start (dir.pages k') b → b < pmmPageSize →
        visit (dir.pages k') b ≠ some (some b)
  | .failed err => ∃ k, fails k = some err
  | .ended => ∀ k b, lo ≤ k → k < hi → Start (dir.pages k) b → b < pmmPageSize →
      visit (dir.pages k) b ≠ some (some b)

lemma scanPages_spec (fails : ℕ → Option Ext2Error) {visit : ByteMemory → ℕ → Option (Option ℕ)}
    {fuel : ℕ} (hpages : ∀ i, ∃ out, scanRecords (dir.pages i) (visit (dir.pages i)) fuel 0 = some out ∧
      Finds (dir.pages i) (visit (dir.pages i)) out) (todo i : ℕ) :
    ∃ r, scanPages dir fails visit fuel todo i = some r ∧ ScanOk dir fails visit i (i + todo) r := by
  induction todo generalizing i with
  | zero => exact ⟨.ended, rfl, fun k b hlo hhi => by omega⟩
  | succ todo ih =>
    rw [scanPages]
    cases hfails : fails i with
    | some err => exact ⟨.failed err, rfl, i, hfails⟩
    | none =>
      obtain ⟨out, hscan, hfinds⟩ := hpages i
      simp only [hscan]
      cases out with
      | some a =>
        obtain ⟨hstart, hpage, hvisit, hbefore⟩ := hfinds.first a rfl
        refine ⟨.found i a, rfl, le_rfl, by omega, hstart, hpage, hvisit, fun k hlo hhi => ?_,
          fun k b hlo hlt hb _ => ?_⟩
        · obtain rfl : k = i := by omega
          exact hfails
        · obtain ⟨rfl, hba⟩ : k = i ∧ b < a := by omega
          exact hbefore b hb hba
      | none =>
        have habsent := hfinds.absent rfl
        obtain ⟨r, hr, hok⟩ := ih (i + 1)
        refine ⟨r, hr, ?_⟩
        cases r with
        | found k a =>
          obtain ⟨hlo, hhi, hstart, hpage, hvisit, hload, hbefore⟩ := hok
          refine ⟨by omega, by omega, hstart, hpage, hvisit, fun k' hlo' hhi' => ?_,
            fun k' b hlo' hlt hb hbpage => ?_⟩
          · by_cases hk : k' = i
            · rw [hk, hfails]
            · exact hload k' (by omega) hhi'
          · by_cases hk : k' = i
            · subst hk
              exact habsent b hb hbpage
            · exact hbefore k' b (by omega) hlt hb hbpage
        | failed err => exact hok
        | ended =>
          intro k b hlo hhi hb hbpage
          by_cases hk : k = i
          · subst hk
            exact habsent b hb hbpage
          · exact hok k b (by omega) (by omega) hb hbpage

end Loops

/-! ### A name in the slack of a record -/

section Link
variable {mem mem' : ByteMemory} {node : Node} {l : List ℕ} {a b e s t : ℕ}

lemma fitLen_spec (mem : ByteMemory) (a : ℕ) :
    entrySize + dNameLen mem a ≤ fitLen mem a ∧ fitLen mem a ≤ 264 ∧ 4 ∣ fitLen mem a := by
  have hlt := (mem (a + 6)).isLt
  obtain ⟨hle, hup, hmod⟩ := ExecArgs.arroundUp_spec (dNameLen mem a) (by decide : 0 < 4)
  simp only [fitLen, entrySize]
  simp only [dNameLen] at hle hup hmod ⊢
  omega

lemma entryAt_congr (h : SameOn mem mem' b (b + 4)) (hlen : mem' (b + 6) = mem (b + 6))
    (htype : mem' (b + 7) = mem (b + 7))
    (hname : SameOn mem mem' (b + entrySize) (b + entrySize + dNameLen mem b)) :
    entryAt mem' b = entryAt mem b := by
  have hcount : dNameLen mem' b = dNameLen mem b := by rw [dNameLen, hlen, dNameLen]
  have hbytes : dName mem' b (dNameLen mem b) = dName mem b (dNameLen mem b) := by
    refine List.map_congr_left fun k hk => ?_
    have hlt := List.mem_range.mp hk
    exact hname _ (by omega) (by omega)
  simp only [entryAt, hcount, hbytes, dInode, h.load32, dFileType, htype]

lemma RecordOk.congr (h : RecordOk mem b) (hlong : entrySize ≤ dRecLen mem b)
    (hsame : SameOn mem mem' b (b + dRecLen mem b)) :
    RecordOk mem' b ∧ dRecLen mem' b = dRecLen mem b ∧ dInode mem' b = dInode mem b ∧
      (dInode mem b ≠ 0 → entryAt mem' b = entryAt mem b) := by
  have hentry : entrySize = 8 := rfl
  have hrec : dRecLen mem' b = dRecLen mem b :=
    (hsame.mono (by omega : b ≤ b + 4) (by omega)).load16
  have hino : dInode mem' b = dInode mem b := (hsame.mono le_rfl (by omega)).load32
  have hkeeps : dInode mem b ≠ 0 → entryAt mem' b = entryAt mem b := by
    intro hused
    have hinside := h.name_inside hused
    exact entryAt_congr (hsame.mono le_rfl (by omega)) (hsame _ (by omega) (by omega))
      (hsame _ (by omega) (by omega)) (hsame.mono (by omega) (by omega))
  have hcount : dNameLen mem' b = dNameLen mem b := by
    rw [dNameLen, hsame _ (by omega) (by omega), dNameLen]
  refine ⟨⟨hrec ▸ h.aligned, fun hused => ?_, fun hused => ?_⟩, hrec, hino, hkeeps⟩
  · rw [hino] at hused
    rw [hcount, hrec]
    exact h.name_inside hused
  · rw [hino] at hused
    have hname := congrArg Entry.name (hkeeps hused)
    simp only [entryAt] at hname
    rw [hname]
    exact h.nonzero hused

lemma RecordOk.of_entry {e : Entry} (he : entryAt mem b = e) (hdvd : 4 ∣ dRecLen mem b)
    (hlen : entrySize + e.name.length ≤ dRecLen mem b) (hnonzero : 0#8 ∉ e.name) :
    RecordOk mem b := by
  have hname : dName mem b (dNameLen mem b) = e.name := congrArg Entry.name he
  have hcount : e.name.length = dNameLen mem b := by rw [← hname, dName]; simp
  refine ⟨hdvd, fun _ => ?_, fun _ => ?_⟩
  · rwa [← hcount]
  · rwa [hname]

lemma writeEntry_spec (mem : ByteMemory) (a : ℕ) {ino : ℕ} (fileType : BitVec 8)
    {name : List (BitVec 8)} (hino : ino < 2 ^ 32) (hname : name.length ≤ 255) :
    entryAt (writeEntry mem a ino fileType name) a = ⟨name, ino, fileType⟩ ∧
      ∀ x, x < a ∨ a + 4 ≤ x ∧ x < a + 6 ∨ a + entrySize + name.length < x →
        writeEntry mem a ino fileType name x = mem x := by
  have hentry : entrySize = 8 := rfl
  have hlow : ∀ x, x < a + 8 → writeEntry mem a ino fileType name x =
      Function.update (Function.update (store32 mem a ino) (a + 6) (BitVec.ofNat 8 name.length))
        (a + 7) fileType x := fun x hx => strcpy_of_outside (by omega)
  have hword : SameOn (store32 mem a ino) (writeEntry mem a ino fileType name) a (a + 4) := by
    intro x hax hx
    rw [hlow x (by omega), Function.update_of_ne (by omega), Function.update_of_ne (by omega)]
  have hlen : dNameLen (writeEntry mem a ino fileType name) a = name.length := by
    rw [dNameLen, hlow _ (by omega), Function.update_of_ne (by omega), Function.update_self,
      BitVec.toNat_ofNat, Nat.mod_eq_of_lt (by omega)]
  have hbytes : dName (writeEntry mem a ino fileType name) a name.length = name := by
    refine List.ext_getElem (by simp [dName]) fun k hk hk' => ?_
    simp only [dName, List.getElem_map, List.getElem_range]
    exact strcpy_inside hk'
  refine ⟨?_, fun x hx => ?_⟩
  · simp only [entryAt, hlen, hbytes, dInode, hword.load32, load32_store32 hino, dFileType]
    rw [hlow _ (by omega), Function.update_self]
  · have hout : writeEntry mem a ino fileType name x =
        Function.update (Function.update (store32 mem a ino) (a + 6) (BitVec.ofNat 8 name.length))
          (a + 7) fileType x := strcpy_of_outside (by omega)
    rw [hout, Function.update_of_ne (by omega), Function.update_of_ne (by omega)]
    exact store32_of_outside (by omega)

/-- The record of a node cut from the slack of the record at `a`. -/
structure Linked (mem mem' : ByteMemory) (a : ℕ) (node : Node) : Prop where
  outside : ∀ x, x < a + 4 ∨ a + 6 ≤ x ∧ x < a + fitLen mem a ∨ a + dRecLen mem a ≤ x →
    mem' x = mem x
  firstLen : dRecLen mem' a = fitLen mem a
  newLen : dRecLen mem' (a + fitLen mem a) = dRecLen mem a - fitLen mem a
  newEntry : entryAt mem' (a + fitLen mem a) = node.entry

/-- The page that `ext2_node_link` leaves when it finds a used record. -/
def linkedPage (mem : ByteMemory) (a : ℕ) (node : Node) : ByteMemory :=
  writeEntry (store16 (store16 mem (a + 4) (fitLen mem a)) (a + fitLen mem a + 4)
    (dRecLen mem a - fitLen mem a)) (a + fitLen mem a) node.ino node.fileType node.name.bytes

def Fits (mem : ByteMemory) (a : ℕ) (node : Node) : Prop :=
  entrySize + node.name.bytes.length < dRecLen mem a - fitLen mem a

lemma linked_linkedPage (h : Fits mem a node) : Linked mem (linkedPage mem a node) a node := by
  have hentry : entrySize = 8 := rfl
  obtain ⟨hfit, hsmall, -⟩ := fitLen_spec mem a
  have hlt : dRecLen mem a < 2 ^ 16 := by
    have h₀ := (mem (a + 4)).isLt
    have h₁ := (mem (a + 4 + 1)).isLt
    simp only [dRecLen, load16]
    omega
  unfold Fits at h
  obtain ⟨hnew, hkeeps⟩ := writeEntry_spec
    (store16 (store16 mem (a + 4) (fitLen mem a)) (a + fitLen mem a + 4)
      (dRecLen mem a - fitLen mem a)) (a + fitLen mem a) node.fileType node.ino_lt node.name_le
  refine ⟨fun x hx => ?_, ?_, ?_, hnew⟩
  · rw [linkedPage, hkeeps x (by omega), store16_of_outside (by omega),
      store16_of_outside (by omega)]
  · have hsame : SameOn (store16 mem (a + 4) (fitLen mem a)) (linkedPage mem a node) (a + 4)
        (a + 4 + 2) := fun x hax hx => by
      rw [linkedPage, hkeeps x (by omega), store16_of_outside (by omega)]
    rw [dRecLen, hsame.load16, load16_store16 (by omega)]
  · have hsame : SameOn (store16 (store16 mem (a + 4) (fitLen mem a)) (a + fitLen mem a + 4)
        (dRecLen mem a - fitLen mem a)) (linkedPage mem a node) (a + fitLen mem a + 4)
        (a + fitLen mem a + 4 + 2) := fun x hax hx => hkeeps x (by omega)
    rw [dRecLen, hsame.load16, load16_store16 (by omega)]

namespace Linked

lemma entry_self (h : Linked mem mem' a node) : entryAt mem' a = entryAt mem a := by
  have hentry : entrySize = 8 := rfl
  obtain ⟨hfit, -, -⟩ := fitLen_spec mem a
  exact entryAt_congr (fun x hax hx => h.outside x (by omega)) (h.outside _ (by omega))
    (h.outside _ (by omega)) fun x hax hx => h.outside x (by omega)

lemma sameOn (h : Linked mem mem' a node) (hst : t ≤ a ∨ a + dRecLen mem a ≤ s) :
    SameOn mem mem' s t := fun x hsx hxt => h.outside x (by omega)

lemma ok_self (h : Linked mem mem' a node) (hok : RecordOk mem a) (hused : dInode mem a ≠ 0) :
    RecordOk mem' a := by
  obtain ⟨hfit, -, hdvd⟩ := fitLen_spec mem a
  refine .of_entry h.entry_self ?_ ?_ (hok.nonzero hused)
  · rw [h.firstLen]
    exact hdvd
  · rw [h.firstLen]
    simpa [entryAt, dName] using hfit

lemma ok_new (h : Linked mem mem' a node) (hok : RecordOk mem a) (hfits : Fits mem a node) :
    RecordOk mem' (a + fitLen mem a) ∧ dInode mem' (a + fitLen mem a) ≠ 0 := by
  obtain ⟨-, -, hdvd⟩ := fitLen_spec mem a
  have hino : dInode mem' (a + fitLen mem a) = node.ino := congrArg Entry.ino h.newEntry
  refine ⟨.of_entry h.newEntry ?_ ?_ node.name.nonzero, ?_⟩
  · rw [h.newLen]
    exact Nat.dvd_sub hok.aligned hdvd
  · rw [h.newLen]
    exact hfits.le
  · rw [hino]
    exact node.ino_pos.ne'

end Linked

lemma Tiles.keeps (h : Tiles mem s l t) (ha : a ∈ l) (hlink : Linked mem mem' a node) (hb : b ∈ l)
    (hne : b ≠ a) : RecordOk mem' b ∧ dRecLen mem' b = dRecLen mem b ∧
      dInode mem' b = dInode mem b ∧ (dInode mem b ≠ 0 → entryAt mem' b = entryAt mem b) := by
  have hapart := h.chain.disjoint hb ha hne
  exact (h.ok b hb).congr (h.chain.bounds hb).2.1 (hlink.sameOn hapart)

lemma Tiles.linked (h : Tiles mem s l t) (ha : a ∈ l) (hused : dInode mem a ≠ 0)
    (hlink : Linked mem mem' a node) (hfits : Fits mem a node) :
    ∃ l', Tiles mem' s l' t ∧ ∀ b, b ∈ l' ↔ b ∈ l ∨ b = a + fitLen mem a := by
  have hentry : entrySize = 8 := rfl
  obtain ⟨hfit, -, -⟩ := fitLen_spec mem a
  have hok := h.ok a ha
  obtain ⟨l', hchain, hmem⟩ := h.chain.cut (dRecLen mem') ha (by omega) (n := fitLen mem a)
    (by omega) (by unfold Fits at hfits; omega) hlink.firstLen hlink.newLen
    fun b hb hne => (h.keeps ha hlink hb hne).2.1
  refine ⟨l', ⟨hchain, fun b hb => ?_⟩, hmem⟩
  obtain hb | rfl := (hmem b).mp hb
  · by_cases hba : b = a
    · rw [hba]
      exact hlink.ok_self hok hused
    · exact (h.keeps ha hlink hb hba).1
  · exact (hlink.ok_new hok hfits).1

lemma PageRecords.linked (h : PageRecords mem l e) (ha : a ∈ l) (hused : dInode mem a ≠ 0)
    (hlink : Linked mem mem' a node) (hfits : Fits mem a node) :
    ∃ l', PageRecords mem' l' e ∧ ∀ b, b ∈ l' ↔ b ∈ l ∨ b = a + fitLen mem a := by
  obtain ⟨l', htiles, hmem⟩ := h.tiles.linked ha hused hlink hfits
  refine ⟨l', ⟨htiles, h.le, fun he => ?_⟩, hmem⟩
  have hsame : SameOn mem mem' e (e + 6) := hlink.sameOn (.inr (h.bounds ha).2.1)
  obtain ⟨hino, hrec⟩ := h.blank he
  exact ⟨(hsame.mono le_rfl (by omega)).load32.trans hino,
    (hsame.mono (by omega : e ≤ e + 4) (by omega)).load16.trans hrec⟩

end Link

section Runs
variable {ctx : BlkSize} {dir : Directory} {node : Node} {i a : ℕ} {l : List ℕ}
  {mem mem' : ByteMemory}

lemma Tiles.congr {s t : ℕ} (h : Tiles mem s l t) (hsame : SameOn mem mem' s t) :
    Tiles mem' s l t := by
  have hkeeps : ∀ b ∈ l, RecordOk mem' b ∧ dRecLen mem' b = dRecLen mem b := by
    intro b hb
    obtain ⟨hlow, hlong, hhigh⟩ := h.chain.bounds hb
    obtain ⟨hok, hrec, -⟩ := (h.ok b hb).congr hlong (hsame.mono hlow hhigh)
    exact ⟨hok, hrec⟩
  exact ⟨h.chain.congr fun b hb => (hkeeps b hb).2, fun b hb => (hkeeps b hb).1⟩

/-- The directory with another page `i`. -/
def Directory.setPage (dir : Directory) (i : ℕ) (mem : ByteMemory) : Directory :=
  { dir with pages := Function.update dir.pages i mem }

lemma Formed.linked (h : Formed ctx dir) (ha : Used dir i a)
    (hlink : Linked (dir.pages i) mem' a node) (hfits : Fits (dir.pages i) a node) :
    Formed ctx (dir.setPage i mem') := by
  obtain ⟨l, hl⟩ := h.exists_records i
  have hmem := (hl.used_iff.mp ha).1
  obtain ⟨j, l', hj, hl', ha'⟩ := h.block hl hmem
  obtain ⟨hlow, -, hhigh⟩ := hl'.chain.bounds ha'
  refine ⟨h.whole, h.small, fun i' j' hpage hsize => ?_, fun i' x hx hsize => ?_⟩
  · by_cases hi : i' = i
    · subst hi
      simp only [Directory.setPage, Function.update_self]
      by_cases hjj : j' = j
      · subst hjj
        obtain ⟨l'', hl'', -⟩ := hl'.linked ha' ha.used hlink hfits
        exact ⟨l'', hl''⟩
      · obtain ⟨l'', hl''⟩ := h.tiled i' j' hpage hsize
        refine ⟨l'', hl''.congr (hlink.sameOn ?_)⟩
        rcases Nat.lt_or_gt_of_ne hjj with hlt | hlt
        · have := Nat.mul_le_mul_right ctx.blkSize (Nat.succ_le_of_lt hlt)
          exact .inl (this.trans hlow)
        · have := Nat.mul_le_mul_right ctx.blkSize (Nat.succ_le_of_lt hlt)
          exact .inr (hhigh.trans this)
    · simp only [Directory.setPage, Function.update_of_ne hi]
      exact h.tiled i' j' hpage hsize
  · by_cases hi : i' = i
    · subst hi
      have hend := (hl.bounds hmem).2.1
      have hle := (inBlocks_le dir i').2
      simp only [Directory.setPage, Function.update_self] at hsize ⊢
      rw [hlink.outside x (by omega)]
      exact h.blank i' x hx hsize
    · simp only [Directory.setPage, Function.update_of_ne hi]
      exact h.blank i' x hx hsize

lemma Formed.used_linked (h : Formed ctx dir) (ha : Used dir i a)
    (hlink : Linked (dir.pages i) mem' a node) (hfits : Fits (dir.pages i) a node) (i' b : ℕ) :
    (Used (dir.setPage i mem') i' b ↔ Used dir i' b ∨ i' = i ∧ b = a + fitLen (dir.pages i) a) ∧
      (Used dir i' b →
        entryAt ((dir.setPage i mem').pages i') b = entryAt (dir.pages i') b) := by
  by_cases hi : i' = i
  · subst hi
    obtain ⟨l, hl⟩ := h.exists_records i'
    have hmem := (hl.used_iff.mp ha).1
    obtain ⟨l', hl', hiff⟩ := hl.linked hmem ha.used hlink hfits
    have hpage : (dir.setPage i' mem').pages i' = mem' := Function.update_self _ _ _
    have hself : dInode mem' a = dInode (dir.pages i') a := congrArg Entry.ino hlink.entry_self
    have hnew := (hlink.ok_new (hl.tiles.ok a hmem) hfits).2
    rw [← hpage] at hl' hself hnew
    have hino : ∀ c ∈ l, dInode ((dir.setPage i' mem').pages i') c = dInode (dir.pages i') c := by
      intro c hc
      by_cases hca : c = a
      · rw [hca, hself]
      · rw [hpage]
        exact (hl.tiles.keeps hmem hlink hc hca).2.2.1
    refine ⟨?_, fun hb => ?_⟩
    · rw [hl'.used_iff, hl.used_iff, hiff]
      constructor
      · rintro ⟨hb | rfl, hused⟩
        · rw [hino b hb] at hused
          exact .inl ⟨hb, hused⟩
        · exact .inr ⟨rfl, rfl⟩
      · rintro (⟨hb, hused⟩ | ⟨-, rfl⟩)
        · exact ⟨.inl hb, (hino b hb).symm ▸ hused⟩
        · exact ⟨.inr rfl, hnew⟩
    · obtain ⟨hb, hused⟩ := hl.used_iff.mp hb
      rw [hpage]
      by_cases hba : b = a
      · rw [hba, hlink.entry_self]
      · exact (hl.tiles.keeps hmem hlink hb hba).2.2.2 hused
  · have hpage : (dir.setPage i mem').pages i' = dir.pages i' := Function.update_of_ne hi _ _
    refine ⟨⟨fun ⟨hstart, hin, hused⟩ => ?_, ?_⟩, fun _ => by rw [hpage]⟩
    · rw [hpage] at hstart hused
      exact .inl ⟨hstart, hin, hused⟩
    · rintro (⟨hstart, hin, hused⟩ | ⟨rfl, -⟩)
      · exact ⟨by rwa [hpage], hin, by rwa [hpage]⟩
      · exact absurd rfl hi

lemma Named.linked {s : DirState} (h : Named s) (hformed : Formed ctx s.dir) (ha : Used s.dir i a)
    (hlink : Linked (s.dir.pages i) mem' a node) (hfits : Fits (s.dir.pages i) a node)
    (hnew : ∀ e ∈ s.names, e.name ≠ node.name.bytes) :
    Named ⟨s.dir.setPage i mem', node.entry :: s.names⟩ := by
  have hused := fun {j b} => hformed.used_linked ha hlink hfits j b
  have hentry : entryAt ((s.dir.setPage i mem').pages i) (a + fitLen (s.dir.pages i) a) =
      node.entry := by
    rw [← hlink.newEntry]
    simp [Directory.setPage]
  refine ⟨fun e => ?_, fun {i₁ a₁ i₂ a₂} h₁ h₂ hname => ?_⟩
  · rw [List.mem_cons, h.mem_iff]
    constructor
    · rintro (rfl | ⟨i', b, hb, rfl⟩)
      · exact ⟨i, _, hused.1.mpr (.inr ⟨rfl, rfl⟩), hentry⟩
      · exact ⟨i', b, hused.1.mpr (.inl hb), hused.2 hb⟩
    · rintro ⟨i', b, hb, rfl⟩
      obtain hb | ⟨rfl, rfl⟩ := hused.1.mp hb
      · exact .inr ⟨i', b, hb, (hused.2 hb).symm⟩
      · exact .inl hentry
  · have hold : ∀ {i' b}, Used s.dir i' b →
        (entryAt (s.dir.pages i') b).name ≠ node.name.bytes := fun hb =>
      hnew _ ((h.mem_iff _).mpr ⟨_, _, hb, rfl⟩)
    have hnode : node.entry.name = node.name.bytes := rfl
    obtain hb₁ | ⟨rfl, rfl⟩ := hused.1.mp h₁
    · rw [hused.2 hb₁] at hname
      obtain hb₂ | ⟨rfl, rfl⟩ := hused.1.mp h₂
      · rw [hused.2 hb₂] at hname
        exact h.distinct hb₁ hb₂ hname
      · rw [hentry, hnode] at hname
        exact absurd hname (hold hb₁)
    · rw [hentry, hnode] at hname
      obtain hb₂ | ⟨rfl, rfl⟩ := hused.1.mp h₂
      · rw [hused.2 hb₂] at hname
        exact absurd hname.symm (hold hb₂)
      · exact ⟨rfl, rfl⟩

structure LinkCall where
  fails : ℕ → Option Ext2Error
  node : Node

/-- Where `ext2_node_link` puts its record. -/
structure FirstRoom (dir : Directory) (call : LinkCall) (i a : ℕ) : Prop where
  start : Start (dir.pages i) a
  inPage : a < pmmPageSize
  room : HasRoom (dir.pages i) call.node.size a
  loads : ∀ k ≤ i, call.fails k = none
  first : ∀ k b, k < i ∨ k = i ∧ b < a → Start (dir.pages k) b → b < pmmPageSize →
    ¬HasRoom (dir.pages k) call.node.size b

/-- The name is not there yet, the first record with room is a used one, and the name fits with its
NUL. -/
structure LinkOk (s : DirState) (call : LinkCall) : Prop where
  fresh : ∀ e ∈ s.names, e.name ≠ call.node.name.bytes
  room : ∀ i a, FirstRoom s.dir call i a →
    dInode (s.dir.pages i) a ≠ 0 ∧ Fits (s.dir.pages i) a call.node

lemma visitRoom_eq (size : ℕ) (mem : ByteMemory) (a : ℕ) :
    visitRoom size mem a = some (some a) ↔ HasRoom mem size a := by
  unfold visitRoom
  split_ifs with h <;> simp [h]

lemma Formed.scanRoom (h : Formed ctx dir) (size : ℕ) {fuel : ℕ} (hfuel : 513 ≤ fuel) (i : ℕ) :
    ∃ out, scanRecords (dir.pages i) (visitRoom size (dir.pages i)) fuel 0 = some out ∧
      Finds (dir.pages i) (visitRoom size (dir.pages i)) out := by
  obtain ⟨l, hl⟩ := h.exists_records i
  have hcases : ∀ a, visitRoom size (dir.pages i) a = none ∨
      visitRoom size (dir.pages i) a = some (some a) := by
    intro a
    unfold visitRoom
    split_ifs
    · exact .inr rfl
    · exact .inl rfl
  refine hl.scan (fun a _ => hcases a) (fun he => .inr ?_) hfuel
  obtain ⟨hino, hrec⟩ := hl.blank he
  exact (visitRoom_eq ..).mpr (.inl ⟨hino, .inl hrec⟩)

lemma Formed.scanName (h : Formed ctx dir) (name : CString) {fuel : ℕ} (hfuel : 513 ≤ fuel)
    (i : ℕ) : ∃ out, scanRecords (dir.pages i) (visitName name (dir.pages i)) fuel 0 = some out ∧
      Finds (dir.pages i) (visitName name (dir.pages i)) out := by
  obtain ⟨l, hl⟩ := h.exists_records i
  refine hl.scan (fun a ha => ?_) (fun he => .inl (if_pos (hl.blank he))) hfuel
  have hlong := (hl.bounds ha).1
  have hentry : entrySize = 8 := rfl
  unfold visitName
  rw [if_neg (by omega)]
  split_ifs
  · exact .inr rfl
  · exact .inl rfl

lemma Formed.nSize_gt (h : Formed ctx dir) (ha : Used dir i a) :
    i * pmmPageSize + a < dir.nSize := by
  obtain ⟨l, hl⟩ := h.exists_records i
  have hmem := (hl.used_iff.mp ha).1
  obtain ⟨hlong, hend, -⟩ := hl.bounds hmem
  have hle := (inBlocks_le dir i).2
  have hentry : entrySize = 8 := rfl
  omega

lemma Formed.link_spec (h : Formed ctx dir) {call : LinkCall}
    (hcall : ∀ i a, FirstRoom dir call i a → dInode (dir.pages i) a ≠ 0) {fuel : ℕ}
    (hfuel : 513 ≤ fuel) :
    (∃ err, ext2NodeLink ctx dir call.fails call.node fuel = some (dir, some err)) ∨
      ∃ i a, FirstRoom dir call i a ∧ Used dir i a ∧
        ext2NodeLink ctx dir call.fails call.node fuel =
          some (dir.setPage i (linkedPage (dir.pages i) a call.node), none) := by
  obtain ⟨r, hscan, hr⟩ := scanPages_spec call.fails
    (h.scanRoom call.node.size hfuel) (dir.nSize / pmmPageSize + 2) 0
  unfold ext2NodeLink
  rw [hscan]
  cases r with
  | failed err => exact .inl ⟨err, rfl⟩
  | ended => exact .inl ⟨.enospc, rfl⟩
  | found i a =>
    obtain ⟨-, -, hstart, hpage, hvisit, hloads, hbefore⟩ := hr
    have hfirst : FirstRoom dir call i a :=
      ⟨hstart, hpage, (visitRoom_eq ..).mp hvisit, fun k hk => hloads k (Nat.zero_le k) hk,
        fun k b hlt hb hbpage hroom =>
          hbefore k b (Nat.zero_le k) hlt hb hbpage ((visitRoom_eq ..).mpr hroom)⟩
    have hino := hcall i a hfirst
    have hused : Used dir i a := ⟨hstart, hpage, hino⟩
    have hsmall := h.small
    have hgt := h.nSize_gt hused
    refine .inr ⟨i, a, hfirst, hused, ?_⟩
    simp only [takeRoom, if_pos hino]
    rw [Nat.mod_eq_of_lt (by omega), if_neg (by omega)]
    rfl

section Machine
variable (ctx)

/-- A directory that `ext2_dir_init` has just started in pages of zeros. -/
def Started (s : DirState) : Prop :=
  ∃ pages ino pIno, (∀ i x, x < pmmPageSize → pages i x = 0) ∧ 0 < ino ∧ ino < 2 ^ 32 ∧ 0 < pIno ∧
    pIno < 2 ^ 32 ∧
    s = ⟨ext2DirInit ctx pages ino pIno, [⟨[0x2E], ino, ftDir⟩, ⟨[0x2E, 0x2E], pIno, ftDir⟩]⟩

/-- Calls of `ext2_node_link`. One that makes more rounds than a page has bytes does not end. -/
def dirMachine : Machine DirState LinkCall where
  init s := Started ctx s ∨ Formed ctx s.dir ∧ Named s
  step s call :=
    match ext2NodeLink ctx s.dir call.fails call.node pmmPageSize with
    | none => none
    | some (dir, some _) => some { s with dir := dir }
    | some (dir, none) => some ⟨dir, call.node.entry :: s.names⟩

end Machine

lemma step_ok {s t : DirState} {call : LinkCall} (hformed : Formed ctx s.dir) (hnamed : Named s)
    (hok : LinkOk s call) (hstep : (dirMachine ctx).step s call = some t) :
    Formed ctx t.dir ∧ Named t := by
  simp only [dirMachine] at hstep
  obtain ⟨err, hlink⟩ | ⟨i, a, hfirst, hused, hlink⟩ :=
    hformed.link_spec (fun i a h => (hok.room i a h).1) (by decide : 513 ≤ pmmPageSize)
  · rw [hlink] at hstep
    obtain rfl := Option.some.inj hstep
    exact ⟨hformed, hnamed⟩
  · rw [hlink] at hstep
    obtain rfl := Option.some.inj hstep
    have hfits := (hok.room i a hfirst).2
    have hlinked := linked_linkedPage hfits
    exact ⟨hformed.linked hused hlinked hfits, hnamed.linked hformed hused hlinked hfits hok.fresh⟩

/-! ### A directory that was just started -/

lemma writeRecord_spec (mem : ByteMemory) (a : ℕ) {ino recLen : ℕ} (fileType : BitVec 8)
    (name : List (BitVec 8)) (hino : ino < 2 ^ 32) (hname : name.length ≤ 255)
    (hrec : recLen < 2 ^ 16) :
    entryAt (store16 (writeEntry mem a ino fileType name) (a + 4) recLen) a =
        ⟨name, ino, fileType⟩ ∧
      dRecLen (store16 (writeEntry mem a ino fileType name) (a + 4) recLen) a = recLen ∧
      ∀ x, x < a ∨ a + entrySize + name.length < x →
        store16 (writeEntry mem a ino fileType name) (a + 4) recLen x = mem x := by
  have hentry : entrySize = 8 := rfl
  obtain ⟨hfields, hkeeps⟩ := writeEntry_spec mem a fileType hino hname
  have hsame : entryAt (store16 (writeEntry mem a ino fileType name) (a + 4) recLen) a =
      entryAt (writeEntry mem a ino fileType name) a :=
    entryAt_congr (fun x hax hx => store16_of_outside (by omega)) (store16_of_outside (by omega))
      (store16_of_outside (by omega)) fun x hax hx => store16_of_outside (by omega)
  refine ⟨hsame.trans hfields, load16_store16 hrec, fun x hx => ?_⟩
  rw [store16_of_outside (by omega), hkeeps x (by omega)]

structure FirstPage (ctx : BlkSize) (old mem : ByteMemory) (ino pIno : ℕ) : Prop where
  self : entryAt mem 0 = ⟨[0x2E], ino, ftDir⟩
  selfLen : dRecLen mem 0 = 12
  parent : entryAt mem 12 = ⟨[0x2E, 0x2E], pIno, ftDir⟩
  parentLen : dRecLen mem 12 = ctx.blkSize - 12
  behind : ∀ x, ctx.blkSize ≤ x → mem x = old x

lemma blkSize_le (ctx : BlkSize) : ctx.blkSize ≤ pmmPageSize :=
  Nat.pow_le_pow_right (by decide : 0 < 2) ctx.log_le

lemma ext2DirInit_spec (ctx : BlkSize) (pages : ℕ → ByteMemory) {ino pIno : ℕ} (hino : ino < 2 ^ 32)
    (hpIno : pIno < 2 ^ 32) :
    ∃ mem, ext2DirInit ctx pages ino pIno = ⟨ctx.blkSize, Function.update pages 0 mem⟩ ∧
      FirstPage ctx (pages 0) mem ino pIno := by
  have hblk := blkSize_ge ctx
  have hle := blkSize_le ctx
  have hpage : pmmPageSize = 4096 := rfl
  have hentry : entrySize = 8 := rfl
  obtain ⟨hself, hselfLen, hkeeps⟩ := writeRecord_spec (pages 0) 0 ftDir [0x2E] hino
    (by decide) (show 12 < 2 ^ 16 by decide)
  obtain ⟨hparent, hparentLen, hkeeps'⟩ := writeRecord_spec
    (store16 (writeEntry (pages 0) 0 ino ftDir [0x2E]) (0 + 4) 12) 12 ftDir
    [0x2E, 0x2E] hpIno (by decide) (show ctx.blkSize - 12 < 2 ^ 16 by omega)
  refine ⟨_, rfl, ⟨?_, ?_, hparent, hparentLen, fun x hx => ?_⟩⟩
  · refine Eq.trans (entryAt_congr (fun x _ hx => hkeeps' x (by omega)) (hkeeps' _ (by omega))
      (hkeeps' _ (by omega)) fun x _ hx => hkeeps' x ?_) hself
    have hlen : dNameLen (store16 (writeEntry (pages 0) 0 ino ftDir [0x2E]) (0 + 4) 12) 0 = 1 := by
      have := congrArg (fun e => e.name.length) hself
      simpa [entryAt, dName] using this
    omega
  · refine Eq.trans (SameOn.load16 fun x _ hx => hkeeps' x (by omega)) hselfLen
  · have hlen : ([0x2E, 0x2E] : List (BitVec 8)).length = 2 := rfl
    have hlen' : ([0x2E] : List (BitVec 8)).length = 1 := rfl
    refine (hkeeps' x (by omega)).trans (hkeeps x (by omega))

lemma FirstPage.tiles {old mem : ByteMemory} {ino pIno : ℕ} (h : FirstPage ctx old mem ino pIno) :
    Tiles mem 0 [0, 12] ctx.blkSize := by
  have hblk := blkSize_ge ctx
  have hentry : entrySize = 8 := rfl
  have hdvd : 4 ∣ ctx.blkSize :=
    (by decide : 4 ∣ 2 ^ 10).trans (pow_dvd_pow 2 ctx.log_ge)
  constructor
  · refine ⟨rfl, ?_, ?_, ?_, ?_⟩
    · rw [h.selfLen]
      omega
    · rw [h.selfLen]
    · rw [h.selfLen]
      change entrySize ≤ dRecLen mem 12
      rw [h.parentLen]
      omega
    · rw [h.selfLen]
      change 12 + dRecLen mem 12 = _
      rw [h.parentLen]
      omega
  · intro a ha
    simp only [List.mem_cons, List.not_mem_nil, or_false] at ha
    obtain rfl | rfl := ha
    · refine .of_entry h.self ?_ ?_ (by simp)
      · rw [h.selfLen]
        decide
      · simp [h.selfLen, entrySize]
    · refine .of_entry h.parent ?_ ?_ (by simp)
      · rw [h.parentLen]
        exact Nat.dvd_sub hdvd (by decide)
      · rw [h.parentLen]
        change 8 + 2 ≤ _
        omega

def startedDir (ctx : BlkSize) (pages : ℕ → ByteMemory) (mem : ByteMemory) : Directory :=
  ⟨ctx.blkSize, Function.update pages 0 mem⟩

lemma startedDir_page (ctx : BlkSize) (pages : ℕ → ByteMemory) (mem : ByteMemory) :
    (startedDir ctx pages mem).pages 0 = mem := by
  simp [startedDir]

lemma eq_zero_of_lt_blkSize {n : ℕ} {s : ℕ} (hs : ctx.blkSize ≤ s) (h : n * s < ctx.blkSize) :
    n = 0 := by
  by_contra hne
  have := Nat.mul_le_mul_right s (Nat.one_le_iff_ne_zero.mpr hne)
  omega

section Started
variable {pages : ℕ → ByteMemory} {ino pIno : ℕ}

lemma FirstPage.formed (h : FirstPage ctx (pages 0) mem ino pIno)
    (hzero : ∀ i x, x < pmmPageSize → pages i x = 0) : Formed ctx (startedDir ctx pages mem) := by
  have hle := blkSize_le ctx
  have hsize : pmmPageSize = 4096 := rfl
  refine ⟨dvd_rfl, by simp only [startedDir]; omega, fun i j hj hlt => ?_, fun i x hx hbehind => ?_⟩
  · simp only [startedDir] at hlt
    obtain rfl : i = 0 := eq_zero_of_lt_blkSize hle (by omega)
    obtain rfl : j = 0 := eq_zero_of_lt_blkSize (le_refl ctx.blkSize) (by omega)
    refine ⟨[0, 12], ?_⟩
    simpa [startedDir] using h.tiles
  · simp only [startedDir] at hbehind ⊢
    by_cases hi : i = 0
    · subst hi
      rw [Function.update_self, h.behind x (by omega)]
      exact hzero 0 x hx
    · rw [Function.update_of_ne hi]
      exact hzero i x hx

lemma FirstPage.records (h : FirstPage ctx (pages 0) mem ino pIno)
    (hzero : ∀ i x, x < pmmPageSize → pages i x = 0) :
    PageRecords mem [0, 12] (inBlocks (startedDir ctx pages mem) 0) := by
  have hin : inBlocks (startedDir ctx pages mem) 0 = ctx.blkSize := by
    simp [inBlocks, startedDir, blkSize_le ctx]
  have hpage := startedDir_page ctx pages mem
  have hrecords := (h.formed hzero).pageRecords (i := 0) (l := [0, 12]) (by
    rw [hin, hpage]
    exact h.tiles)
  rwa [hpage] at hrecords

lemma FirstPage.used_iff (h : FirstPage ctx (pages 0) mem ino pIno)
    (hzero : ∀ i x, x < pmmPageSize → pages i x = 0) (hino : 0 < ino) (hpIno : 0 < pIno) {i a : ℕ} :
    Used (startedDir ctx pages mem) i a ↔ i = 0 ∧ (a = 0 ∨ a = 12) := by
  have hformed := h.formed hzero
  have hrecords := h.records hzero
  have hpage := startedDir_page ctx pages mem
  have hself : dInode mem 0 = ino := congrArg Entry.ino h.self
  have hparent : dInode mem 12 = pIno := congrArg Entry.ino h.parent
  rw [← hpage] at hrecords hself hparent
  constructor
  · intro ha
    have hgt := hformed.nSize_gt ha
    simp only [startedDir] at hgt
    obtain rfl : i = 0 := eq_zero_of_lt_blkSize (blkSize_le ctx) (by omega)
    have hmem := (hrecords.used_iff.mp ha).1
    exact ⟨rfl, by simpa using hmem⟩
  · rintro ⟨rfl, rfl | rfl⟩
    · exact hrecords.used_iff.mpr ⟨by simp, by omega⟩
    · exact hrecords.used_iff.mpr ⟨by simp, by omega⟩

lemma FirstPage.named (h : FirstPage ctx (pages 0) mem ino pIno)
    (hzero : ∀ i x, x < pmmPageSize → pages i x = 0) (hino : 0 < ino) (hpIno : 0 < pIno) :
    Named ⟨startedDir ctx pages mem, [⟨[0x2E], ino, ftDir⟩, ⟨[0x2E, 0x2E], pIno, ftDir⟩]⟩ := by
  have hused : ∀ {i a}, _ := fun {i a} => h.used_iff hzero hino hpIno (i := i) (a := a)
  have hpage := startedDir_page ctx pages mem
  refine ⟨fun e => ?_, fun {i a i' a'} ha ha' hname => ?_⟩
  · simp only [List.mem_cons, List.not_mem_nil, or_false]
    constructor
    · rintro (rfl | rfl)
      · exact ⟨0, 0, hused.mpr ⟨rfl, .inl rfl⟩, by rw [hpage, h.self]⟩
      · exact ⟨0, 12, hused.mpr ⟨rfl, .inr rfl⟩, by rw [hpage, h.parent]⟩
    · rintro ⟨i, a, ha, rfl⟩
      obtain ⟨rfl, rfl | rfl⟩ := hused.mp ha
      · exact .inl (by rw [hpage, h.self])
      · exact .inr (by rw [hpage, h.parent])
  · obtain ⟨rfl, hat⟩ := hused.mp ha
    obtain ⟨rfl, hat'⟩ := hused.mp ha'
    simp only [hpage] at hname
    obtain rfl | rfl := hat <;> obtain rfl | rfl := hat'
    · exact ⟨rfl, rfl⟩
    · rw [h.self, h.parent] at hname
      cases hname
    · rw [h.self, h.parent] at hname
      cases hname
    · exact ⟨rfl, rfl⟩

end Started

lemma Started.ok {s : DirState} (h : Started ctx s) : Formed ctx s.dir ∧ Named s := by
  obtain ⟨pages, ino, pIno, hzero, hino, hlt, hpIno, hplt, rfl⟩ := h
  obtain ⟨mem, hdir, hpage⟩ := ext2DirInit_spec ctx pages hlt hplt
  simp only [hdir]
  exact ⟨hpage.formed hzero, hpage.named hzero hino hpIno⟩

lemma reach_ok {s : DirState} (h : (dirMachine ctx).Reach LinkOk s) :
    Formed ctx s.dir ∧ Named s := by
  refine h.invariant (I := fun s => Formed ctx s.dir ∧ Named s) (fun s hs => ?_)
    fun s call t hs hok hstep => step_ok hs.1 hs.2 hok hstep
  obtain hstarted | hboth := hs
  · exact hstarted.ok
  · exact hboth

lemma fitLen_of_entry {a ino : ℕ} {name : List (BitVec 8)} {fileType : BitVec 8}
    (h : entryAt mem a = ⟨name, ino, fileType⟩) :
    fitLen mem a = entrySize + arroundUp name.length 4 := by
  have hname := congrArg (fun e => e.name.length) h
  simp only [entryAt, dName, List.length_map, List.length_range] at hname
  rw [fitLen, hname]

lemma Node.size_bounds (node : Node) : entrySize < node.size ∧ node.size ≤ 264 := by
  have hpos := node.name_pos
  have hle := node.name_le
  have hentry : entrySize = 8 := rfl
  obtain ⟨hlow, hhigh, hdvd⟩ := ExecArgs.arroundUp_spec (entrySize + node.name.bytes.length)
    (by omega : 0 < 4)
  unfold size
  omega

lemma Started.room {s : DirState} (h : Started ctx s) {call : LinkCall}
    (hroom : FirstRoom s.dir call i a) :
    dInode (s.dir.pages i) a ≠ 0 ∧ Fits (s.dir.pages i) a call.node := by
  obtain ⟨pages, ino, pIno, hzero, hino, hlt, hpIno, hplt, rfl⟩ := h
  obtain ⟨mem, hdir, hfirst⟩ := ext2DirInit_spec ctx pages hlt hplt
  simp only [hdir] at hroom ⊢
  have hentry : entrySize = 8 := rfl
  have hblk := blkSize_ge ctx
  obtain ⟨hpos, hsize⟩ := call.node.size_bounds
  have hname := call.node.name_le
  have hself : fitLen mem 0 = 12 := fitLen_of_entry hfirst.self
  have hparent : fitLen mem 12 = 12 := fitLen_of_entry hfirst.parent
  have hlen := hfirst.selfLen
  have hrest := hfirst.parentLen
  have hused : ∀ {i a}, _ := fun {i a} => hfirst.used_iff hzero hino hpIno (i := i) (a := a)
  have hpage : (startedDir ctx pages mem).pages 0 = mem := startedDir_page ctx pages mem
  change FirstRoom (startedDir ctx pages mem) call i a at hroom
  change dInode ((startedDir ctx pages mem).pages i) a ≠ 0 ∧
    Fits ((startedDir ctx pages mem).pages i) a call.node
  have h₁₂ : Used (startedDir ctx pages mem) 0 12 := hused.mpr ⟨rfl, .inr rfl⟩
  have hroom₁₂ : HasRoom ((startedDir ctx pages mem).pages 0) call.node.size 12 := by
    rw [hpage]
    exact .inr (by omega)
  -- nothing before the record of `..` has room
  have hle : ¬(0 < i ∨ 0 = i ∧ 12 < a) := fun hbefore =>
    hroom.first 0 12 hbefore h₁₂.start h₁₂.inPage hroom₁₂
  obtain rfl : i = 0 := by omega
  rw [hpage]
  have hrecords := hfirst.records hzero
  obtain ha | rfl := (hrecords.start_iff hroom.inPage).mp (hpage ▸ hroom.start)
  · simp only [List.mem_cons, List.not_mem_nil, or_false] at ha
    obtain rfl | rfl := ha
    · have hself_used := (hused.mpr ⟨rfl, .inl rfl⟩ : Used (startedDir ctx pages mem) 0 0).used
      have hno := hroom.room
      rw [hpage] at hself_used hno
      obtain ⟨hzero', -⟩ | hslack := hno
      · exact absurd hzero' hself_used
      · omega
    · have hparent_used := h₁₂.used
      rw [hpage] at hparent_used
      refine ⟨hparent_used, ?_⟩
      unfold Fits
      omega
  · have hin : inBlocks (startedDir ctx pages mem) 0 = ctx.blkSize := by
      simp [inBlocks, startedDir, blkSize_le ctx]
    omega

lemma visitName_eq {name : CString} {dir : Directory} (hstart : Start (dir.pages i) a)
    (hpage : a < pmmPageSize) :
    visitName name (dir.pages i) a = some (some a) ↔
      Used dir i a ∧ (entryAt (dir.pages i) a).name = name.bytes := by
  unfold visitName
  split_ifs with hblank hfound
  · simp only [Option.some.injEq, reduceCtorEq, false_iff]
    rintro ⟨hused, -⟩
    exact hused.used hblank.1
  · obtain ⟨hino, hlen, hname⟩ := hfound
    simp only [true_iff]
    refine ⟨⟨hstart, hpage, hino⟩, ?_⟩
    rw [← hname, entryAt, hlen]
  · simp only [false_iff]
    rintro ⟨hused, hname⟩
    have hlen : name.bytes.length = dNameLen (dir.pages i) a := by
      rw [← hname]
      simp [entryAt, dName]
    refine hfound ⟨hused.used, hlen, ?_⟩
    rw [hlen]
    exact hname

def Entry.answer (e : Entry) (wantsDir : Bool) : Lookup :=
  if wantsDir ∧ e.fileType ≠ ftDir then .notDir else .found e.ino

def answer (names : List Entry) (name : CString) (wantsDir : Bool) : Lookup :=
  match names.find? fun e => e.name = name.bytes with
  | none => .notFound
  | some e => e.answer wantsDir

/-- A lookup stops at the record of the name, in one of the pages that it examines. -/
lemma lookup_spec {s : DirState} (hformed : Formed ctx s.dir) (hnamed : Named s) (name : CString)
    (wantsDir : Bool) {fuel : ℕ} (hfuel : 513 ≤ fuel) :
    (∀ i a, Used s.dir i a → (entryAt (s.dir.pages i) a).name = name.bytes → i < pagesNr s.dir →
        ext2LookupNode s.dir (fun _ => none) name wantsDir fuel =
          some ((entryAt (s.dir.pages i) a).answer wantsDir)) ∧
      ((∀ i a, Used s.dir i a → (entryAt (s.dir.pages i) a).name = name.bytes →
          pagesNr s.dir ≤ i) →
        ext2LookupNode s.dir (fun _ => none) name wantsDir fuel = some .notFound) := by
  obtain ⟨r, hscan, hr⟩ := scanPages_spec (fun _ => none)
    (hformed.scanName name hfuel) (pagesNr s.dir) 0
  rw [Nat.zero_add] at hr
  unfold ext2LookupNode
  rw [hscan]
  constructor
  · intro i a hused hname hi
    cases r with
    | failed err =>
      obtain ⟨k, hk⟩ := hr
      cases hk
    | ended =>
      exact absurd ((visitName_eq hused.start hused.inPage).mpr ⟨hused, hname⟩)
        (hr i a (Nat.zero_le i) hi hused.start hused.inPage)
    | found k b =>
      obtain ⟨-, -, hstart, hpage, hvisit, -, -⟩ := hr
      obtain ⟨hused', hname'⟩ := (visitName_eq hstart hpage).mp hvisit
      obtain ⟨rfl, rfl⟩ := hnamed.distinct hused hused' (hname.trans hname'.symm)
      exact (apply_ite some _ _ _).symm
  · intro habsent
    cases r with
    | failed err =>
      obtain ⟨k, hk⟩ := hr
      cases hk
    | ended => rfl
    | found k b =>
      obtain ⟨-, hk, hstart, hpage, hvisit, -, -⟩ := hr
      obtain ⟨hused, hname⟩ := (visitName_eq hstart hpage).mp hvisit
      have := habsent k b hused hname
      omega

def LookupExact (s : DirState) : Prop :=
  ∀ name wantsDir, ∃ n, ∀ fuel, n ≤ fuel →
    ext2LookupNode s.dir (fun _ => none) name wantsDir fuel = some (answer s.names name wantsDir)

/-- Every used record is in a page that `ext2_lookup_node` examines. -/
def Examined (dir : Directory) : Prop := ∀ i a, Used dir i a → i < pagesNr dir

lemma lookupExact_iff {s : DirState} (hformed : Formed ctx s.dir) (hnamed : Named s) :
    LookupExact s ↔ Examined s.dir := by
  constructor
  · intro hexact i a hused
    by_contra hi
    obtain ⟨l, hl⟩ := hformed.exists_records i
    have hok := hl.tiles.ok a (hl.used_iff.mp hused).1
    obtain ⟨n, hn⟩ := hexact ⟨(entryAt (s.dir.pages i) a).name, hok.nonzero hused.used⟩ false
    have hlookup := hn (max n 513) (le_max_left _ _)
    rw [(lookup_spec hformed hnamed _ false (le_max_right n 513)).2 fun k b hb hname => ?_] at hlookup
    · obtain ⟨e, he⟩ : ∃ e, s.names.find? (fun e =>
          e.name = (entryAt (s.dir.pages i) a).name) = some e := by
        rw [← Option.isSome_iff_exists, List.find?_isSome]
        exact ⟨_, (hnamed.mem_iff _).mpr ⟨i, a, hused, rfl⟩, by simp⟩
      simp [answer, he, Entry.answer] at hlookup
    · obtain ⟨rfl, -⟩ := hnamed.distinct hb hused hname
      omega
  · intro hexamined name wantsDir
    refine ⟨513, fun fuel hfuel => ?_⟩
    obtain ⟨hfound, habsent⟩ := lookup_spec hformed hnamed name wantsDir hfuel
    unfold answer
    cases hfind : s.names.find? fun e => e.name = name.bytes with
    | none =>
      refine habsent fun i a hused hname => ?_
      have hnone := List.find?_eq_none.mp hfind _ ((hnamed.mem_iff _).mpr ⟨i, a, hused, rfl⟩)
      simp [hname] at hnone
    | some e =>
      obtain ⟨i, a, hused, rfl⟩ := (hnamed.mem_iff e).mp (List.mem_of_find?_eq_some hfind)
      have hname := List.find?_some hfind
      exact hfound i a hused (by simpa using hname) (hexamined i a hused)

/-- The records tile their blocks, no name reaches into another record, and the calls return. -/
structure DirSound (ctx : BlkSize) (s : DirState) : Prop where
  tiled : ∀ i j, (j + 1) * ctx.blkSize ≤ pmmPageSize →
    i * pmmPageSize + j * ctx.blkSize < s.dir.nSize →
    ∃ l, Tiles (s.dir.pages i) (j * ctx.blkSize) l ((j + 1) * ctx.blkSize)
  apart : ∀ i a b, Used s.dir i a → Start (s.dir.pages i) b → b < pmmPageSize → a ≠ b →
    a + entrySize + dNameLen (s.dir.pages i) a ≤ b ∨ b + dRecLen (s.dir.pages i) b ≤ a
  link_returns : ∀ fails node, ∃ n, ∀ fuel, n ≤ fuel →
    (ext2NodeLink ctx s.dir fails node fuel).isSome
  lookup_returns : ∀ fails name wantsDir, ∃ n, ∀ fuel, n ≤ fuel →
    (ext2LookupNode s.dir fails name wantsDir fuel).isSome

lemma Formed.sound {s : DirState} (h : Formed ctx s.dir) : DirSound ctx s := by
  refine ⟨h.tiled, fun i a b ha hb hpage hne => ?_, fun fails node => ⟨513, fun fuel hfuel => ?_⟩,
    fun fails name wantsDir => ⟨513, fun fuel hfuel => ?_⟩⟩
  · obtain ⟨l, hl⟩ := h.exists_records i
    obtain ⟨hmem, hused⟩ := hl.used_iff.mp ha
    have hinside := (hl.tiles.ok a hmem).name_inside hused
    obtain hb | rfl := (hl.start_iff hpage).mp hb
    · have hapart := hl.tiles.chain.disjoint hmem hb hne
      omega
    · have hend := (hl.bounds hmem).2.1
      omega
  · obtain ⟨r, hscan, -⟩ := scanPages_spec fails (h.scanRoom node.size hfuel)
      (s.dir.nSize / pmmPageSize + 2) 0
    unfold ext2NodeLink
    rw [hscan]
    cases r with
    | failed err => rfl
    | ended => rfl
    | found i a =>
      simp only
      split <;> rfl
  · obtain ⟨r, hscan, -⟩ := scanPages_spec fails (h.scanName name hfuel)
      (pagesNr s.dir) 0
    unfold ext2LookupNode
    rw [hscan]
    cases r with
    | failed err => rfl
    | ended => rfl
    | found i a =>
      simp only
      split_ifs <;> rfl

/-- As long as new names go into the slack of used records, with room for the NUL, the directory is
the set of the names linked, each in one record; lookups find them all if and only if they come to
their pages. -/
theorem directory_names {s : DirState} (h : (dirMachine ctx).Reach LinkOk s) :
    DirSound ctx s ∧ Named s ∧ (LookupExact s ↔ Examined s.dir) := by
  obtain ⟨hformed, hnamed⟩ := reach_ok h
  exact ⟨hformed.sound, hnamed, lookupExact_iff hformed hnamed⟩

end Runs

/-- A file `a` with inode 12. -/
def fileNode : Node where
  name := ⟨[0x61], by decide⟩
  ino := 12
  iMode := 0x81A4
  name_pos := by decide
  name_le := by decide
  ino_pos := by decide
  ino_lt := by decide

def rootDir : DirState :=
  ⟨ext2DirInit kiloBlks (fun _ _ => 0) 2 2, [⟨[0x2E], 2, ftDir⟩, ⟨[0x2E, 0x2E], 2, ftDir⟩]⟩

lemma rootDir_started : Started kiloBlks rootDir :=
  ⟨fun _ _ => 0, 2, 2, fun _ _ _ => rfl, by decide, by decide, by decide, by decide, rfl⟩

def fileLink : LinkCall := ⟨fun _ => none, fileNode⟩

theorem directory_names_file : ∃ s, (dirMachine kiloBlks).Reach LinkOk s ∧
    s.names = fileNode.entry :: rootDir.names ∧
    (DirSound kiloBlks s ∧ Named s ∧ (LookupExact s ↔ Examined s.dir)) := by
  have hstep : ((dirMachine kiloBlks).step rootDir fileLink).map DirState.names =
      some (fileNode.entry :: rootDir.names) := by decide +kernel
  obtain ⟨s, hs, hnames⟩ := Option.map_eq_some_iff.mp hstep
  have hreach : (dirMachine kiloBlks).Reach LinkOk s :=
    .step (.init (.inl rootDir_started)) ⟨by decide, fun _ _ => rootDir_started.room⟩ hs
  exact ⟨s, hreach, hnames, directory_names hreach⟩

end Almos.Ext2.Dir
