import Mathlib
import Almos.Bits
import Almos.ByteMemory
import Almos.Word
import Almos.VmRegion

/-!
# The arguments of a new program

`compute_args` builds the pointers and the strings of a vector in pages of the kernel, and `map_args`
maps the pages below the stack. Every loop has a number of rounds; `none` is a run that they do not
suffice for. A slot of the page table is the address of its page.
-/
namespace Almos.ExecArgs
open Bits Word Vm

def pmmPageSize : ℕ := 4096

def e2big : ℤ := 7

def enomem : ℤ := 12

def efault : ℤ := 14

def Outcome (α : Type) : Type := Option (Except ℤ α)

namespace Outcome

def ok {α : Type} (a : α) : Outcome α := some (.ok a)

def error {α : Type} (err : ℤ) : Outcome α := some (.error err)

def andThen {α β : Type} (x : Outcome α) (f : α → Outcome β) : Outcome β :=
  match x with
  | none => none
  | some (.error err) => error err
  | some (.ok a) => f a

lemma ok_inj {α : Type} {a b : α} (h : ok a = ok b) : a = b := by
  cases h
  rfl

lemma andThen_ok {α β : Type} (a : α) (f : α → Outcome β) : (ok a).andThen f = f a := rfl

lemma of_andThen {α β : Type} {x : Outcome α} {f : α → Outcome β} {b : β}
    (h : x.andThen f = ok b) : ∃ a, x = ok a ∧ f a = ok b := by
  match x, h with
  | some (.ok a), h => exact ⟨a, rfl, h⟩

end Outcome

structure UserSpace where
  mem : ByteMemory
  readable : ℕ → Bool

namespace UserSpace

def faults (u : UserSpace) (a n : ℕ) : Bool := (List.range n).any fun k => !u.readable (a + k)

/-- `cpu_uspace_strlen` -/
def uspaceStrlen (u : UserSpace) : ℕ → ℕ → Outcome ℕ
  | 0, _ => none
  | rounds + 1, p =>
    if u.readable p = false then .error efault
    else if u.mem p = 0 then .ok 0
    else (u.uspaceStrlen rounds (p + 1)).andThen fun len => .ok (len + 1)

end UserSpace

/-- `strlen` -/
def strlen (mem : ByteMemory) : ℕ → ℕ → Option ℕ
  | 0, _ => none
  | rounds + 1, p => if mem p = 0 then some 0 else (strlen mem rounds (p + 1)).map (· + 1)

/-- `cpu_uspace_copy` to memory of the kernel -/
def copyFrom (mem user : ByteMemory) (dst src n : ℕ) : ByteMemory := fun x =>
  if dst ≤ x ∧ x < dst + n then user (src + (x - dst)) else mem x

/-- The loop of `args_len` -/
def countArgs (u : UserSpace) (vect pagesMax rounds : ℕ) : ℕ → ℕ → ℕ → Outcome ℕ
  | 0, _, _ => none
  | left + 1, cntr, count =>
    if u.faults (vect + 4 * cntr) 4 = true then .error efault
    else if u.mem.load32 (vect + 4 * cntr) = 0 then .ok cntr
    else
      (u.uspaceStrlen rounds (u.mem.load32 (vect + 4 * cntr))).andThen fun len =>
        let count := wadd count (arroundUp (wadd len 1) 8)
        if pagesMax ≤ arroundUp count pmmPageSize % 2 ^ 32 / pmmPageSize then .error e2big
        else countArgs u vect pagesMax rounds left (cntr + 1) count

/-- `args_len`: the pages of the pointers, and the entries -/
def argsLen (u : UserSpace) (vect pagesMax rounds : ℕ) : Outcome (ℕ × ℕ) :=
  (countArgs u vect pagesMax rounds rounds 0 0).andThen fun cntr =>
    .ok (arroundUp (4 * (cntr + 1) % 2 ^ 32) pmmPageSize % 2 ^ 32 / pmmPageSize, cntr)

def allocPages (alloc : ℕ → Option ℕ) : ℕ → ℕ → ByteMemory → (ℕ → ℕ) →
    Outcome (ByteMemory × (ℕ → ℕ))
  | 0, _, mem, pgtbl => .ok (mem, pgtbl)
  | left + 1, i, mem, pgtbl =>
    match alloc i with
    | none => .error enomem
    | some page =>
      allocPages alloc left (i + 1) (mem.fill page pmmPageSize 0) (Function.update pgtbl i page)

/-- The variables of `compute_args`, and the slots of the page table whose pages it has used -/
structure Build where
  mem : ByteMemory
  index : ℕ
  paddr : ℕ
  count : ℕ
  pagesNr : ℕ
  used : List ℕ

def Build.nextPage (st : Build) (pgtbl : ℕ → ℕ) (mem : ByteMemory) (count : ℕ) : Build :=
  ⟨mem, st.index + 1, pgtbl (st.index + 1), count, st.pagesNr + 1, st.used ++ [st.index + 1]⟩

/-- The copies of the pointers; the place in the vector counts pointers, not bytes. -/
def copyVect (u : UserSpace) (vect : ℕ) (pgtbl : ℕ → ℕ) : ℕ → Build → Outcome Build
  | 0, _ => none
  | rounds + 1, st =>
    let src := vect + 4 * (st.pagesNr * pmmPageSize)
    if pmmPageSize < st.count then
      if u.faults src pmmPageSize = true then .error efault
      else
        copyVect u vect pgtbl rounds (st.nextPage pgtbl
          (copyFrom st.mem u.mem st.paddr src pmmPageSize) (st.count - pmmPageSize))
    else if u.faults src st.count = true then .error efault
    else
      .ok { st with mem := copyFrom st.mem u.mem st.paddr src st.count, paddr := st.paddr + st.count }

def copyString (u : UserSpace) (pgtbl : ℕ → ℕ) : ℕ → ℕ → ℕ → Build → Outcome Build
  | 0, _, _, _ => none
  | rounds + 1, ptr, len, st =>
    if len = 0 then .ok st
    else
      let room := pmmPageSize - st.count
      let size := arroundUp len 8 % 2 ^ 32
      if size < room then
        if u.faults ptr len = true then .error efault
        else
          copyString u pgtbl rounds ptr 0
            { st with
              mem := copyFrom st.mem u.mem st.paddr ptr len
              paddr := st.paddr + size
              count := st.count + size }
      else if u.faults ptr room = true then .error efault
      else
        copyString u pgtbl rounds (ptr + room) (wsub len room)
          (st.nextPage pgtbl (copyFrom st.mem u.mem st.paddr ptr room) 0)

def copyStrings (u : UserSpace) (vect : ℕ) (pgtbl : ℕ → ℕ) (rounds current args : ℕ) :
    ℕ → ℕ → Build → Outcome Build
  | 0, _, st => .ok st
  | left + 1, i, st =>
    match strlen u.mem rounds (u.mem.load32 (vect + 4 * i)) with
    | none => none
    | some len =>
      (copyString u pgtbl rounds (u.mem.load32 (vect + 4 * i)) (wadd len 1)
        { st with
          mem := st.mem.store32 (args + 4 * i)
            (wadd (wadd current (st.pagesNr * pmmPageSize)) st.count) }).andThen
        (copyStrings u vect pgtbl rounds current args left (i + 1))

/-- What `compute_args` leaves -/
structure Args where
  mem : ByteMemory
  pgtbl : ℕ → ℕ
  current : ℕ
  pgnr : ℕ
  pgindex : ℕ
  used : List ℕ

/-- `compute_args` -/
def computeArgs (u : UserSpace) (vect : ℕ) (alloc : ℕ → Option ℕ) (mem : ByteMemory) (pgtbl : ℕ → ℕ)
    (pagesMax start pgnr pgindex rounds : ℕ) : Outcome Args :=
  (argsLen u vect pagesMax rounds).andThen fun r =>
    (allocPages alloc r.1 pgindex mem pgtbl).andThen fun pages =>
      let current := wsub start (r.1 * pmmPageSize)
      (copyVect u vect pages.2 rounds ⟨pages.1, pgindex, pages.2 pgindex, 4 * (r.2 + 1) % 2 ^ 32, 0,
          [pgindex]⟩).andThen fun st =>
        (copyStrings u vect pages.2 rounds current (pages.2 pgindex) r.2 0 st).andThen fun st =>
          .ok ⟨st.mem, pages.2, current, pgnr + r.1, st.index + 1, st.used⟩

/-- `map_args`: the pages of slots in a page table -/
def mapArgs (pgtbl : ℕ → ℕ) : ℕ → ℕ → ℕ → (ℕ → Option ℕ) → ℕ → Option ℕ
  | 0, _, _, table => table
  | left + 1, i, vma, table =>
    mapArgs pgtbl left (i + 1) (wadd vma pmmPageSize)
      (Function.update table (vma / pmmPageSize) (some (pgtbl i)))

def image (mem : ByteMemory) (table : ℕ → Option ℕ) : ByteMemory := fun a =>
  match table (a / pmmPageSize) with
  | some page => mem (page + a % pmmPageSize)
  | none => 0

def StringAt (mem : ByteMemory) (p : ℕ) (s : List (BitVec 8)) : Prop :=
  ∀ k ≤ s.length, (s ++ [0])[k]? = some (mem (p + k))

/-- A vector of strings in the memory of the caller, all of it readable and as large as user space at
most -/
structure VectorAt (u : UserSpace) (vect : ℕ) (strs : List (List (BitVec 8))) : Prop where
  ptr : ∀ i < strs.length, u.mem.load32 (vect + 4 * i) ≠ 0
  null : u.mem.load32 (vect + 4 * strs.length) = 0
  string : ∀ i s, strs[i]? = some s → StringAt u.mem (u.mem.load32 (vect + 4 * i)) s ∧ 0 ∉ s ∧
    s.length < usrLimit ∧ ∀ k ≤ s.length, u.readable (u.mem.load32 (vect + 4 * i) + k) = true
  readable : ∀ k < 4 * (strs.length + 1), u.readable (vect + k) = true
  room : 4 * (strs.length + 1) ≤ usrLimit

def stringSize (s : List (BitVec 8)) : ℕ := arroundUp (s.length + 1) 8

def OnePage (strs : List (List (BitVec 8))) : Prop :=
  4 * (strs.length + 1) + (strs.map stringSize).sum < pmmPageSize

variable {u : UserSpace} {vect pagesMax rounds current args : ℕ} {pgtbl : ℕ → ℕ}
  {strs : List (List (BitVec 8))} {st st' : Build}

lemma arroundUp_spec (val : ℕ) {size : ℕ} (hsize : 0 < size) :
    val ≤ arroundUp val size ∧ arroundUp val size < val + size ∧ arroundUp val size % size = 0 := by
  have hmod := Nat.mod_lt val hsize
  have hdiv := Nat.div_add_mod val size
  rw [Nat.mul_comm] at hdiv
  rw [arroundUp]
  split_ifs with hzero
  · exact ⟨le_rfl, by omega, hzero⟩
  · exact ⟨by omega, by omega, by simp⟩

lemma StringAt.nil {mem : ByteMemory} {p : ℕ} (h : StringAt mem p []) : mem p = 0 := by
  have hbyte := h 0 le_rfl
  exact (Option.some.inj hbyte).symm

lemma StringAt.cons {mem : ByteMemory} {p : ℕ} {b : BitVec 8} {s : List (BitVec 8)}
    (h : StringAt mem p (b :: s)) : mem p = b ∧ StringAt mem (p + 1) s := by
  constructor
  · have hbyte := h 0 (Nat.zero_le _)
    exact (Option.some.inj hbyte).symm
  · intro k hk
    have hnext := h (k + 1) (by rw [List.length_cons]; omega)
    rwa [List.cons_append, List.getElem?_cons_succ, Nat.add_comm k 1, ← Nat.add_assoc] at hnext

lemma strlen_spec {mem : ByteMemory} {p : ℕ} {s : List (BitVec 8)} (h : StringAt mem p s)
    (hnul : 0 ∉ s) : strlen mem rounds p = if s.length < rounds then some s.length else none := by
  induction rounds generalizing p s with
  | zero => rfl
  | succ rounds ih =>
    rw [strlen]
    cases s with
    | nil =>
      rw [if_pos h.nil]
      rfl
    | cons b s =>
      rw [List.mem_cons, not_or] at hnul
      obtain ⟨hbyte, hrest⟩ := h.cons
      rw [if_neg (hbyte ▸ Ne.symm hnul.1), ih hrest hnul.2, List.length_cons]
      simp only [Nat.add_lt_add_iff_right]
      split_ifs
      · rfl
      · rfl

lemma uspaceStrlen_ok {p : ℕ} {s : List (BitVec 8)} (h : StringAt u.mem p s) (hnul : 0 ∉ s)
    (hread : ∀ k ≤ s.length, u.readable (p + k) = true) (hrounds : s.length < rounds) :
    u.uspaceStrlen rounds p = .ok s.length := by
  induction rounds generalizing p s with
  | zero => exact absurd hrounds (Nat.not_lt_zero _)
  | succ rounds ih =>
    have hfirst : u.readable p = true := hread 0 (Nat.zero_le _)
    rw [UserSpace.uspaceStrlen, if_neg (by rw [hfirst]; simp)]
    cases s with
    | nil =>
      rw [if_pos h.nil]
      rfl
    | cons b s =>
      rw [List.mem_cons, not_or] at hnul
      rw [List.length_cons] at hread hrounds
      obtain ⟨hbyte, hrest⟩ := h.cons
      have hplace : ∀ k, p + 1 + k = p + (k + 1) := fun k => by omega
      rw [if_neg (hbyte ▸ Ne.symm hnul.1),
        ih hrest hnul.2 (fun k hk => by rw [hplace]; exact hread (k + 1) (by omega)) (by omega)]
      rfl

lemma countArgs_ok (h : VectorAt u vect strs) {left i count cntr : ℕ} (hi : i ≤ strs.length)
    (hrun : countArgs u vect pagesMax rounds left i count = .ok cntr) : cntr = strs.length := by
  induction left generalizing i count with
  | zero => cases hrun
  | succ left ih =>
    rw [countArgs] at hrun
    split_ifs at hrun with hfault hnull
    · cases hrun
    · rcases hi.lt_or_eq with hlt | rfl
      · exact absurd hnull (h.ptr i hlt)
      · exact (Outcome.ok_inj hrun).symm
    · have hlt : i < strs.length := by
        refine lt_of_le_of_ne hi ?_
        rintro rfl
        exact hnull h.null
      obtain ⟨len, -, hrest⟩ := Outcome.of_andThen hrun
      dsimp only at hrest
      split_ifs at hrest
      · cases hrest
      · exact ih hlt hrest

lemma argsLen_ok (h : VectorAt u vect strs) {r : ℕ × ℕ} (hrun : argsLen u vect pagesMax rounds = .ok r) :
    r.2 = strs.length ∧ 4 * (strs.length + 1) ≤ r.1 * pmmPageSize ∧
      r.1 * pmmPageSize < 4 * (strs.length + 1) + pmmPageSize := by
  obtain ⟨cntr, hcount, hr⟩ := Outcome.of_andThen hrun
  obtain rfl := countArgs_ok h (Nat.zero_le _) hcount
  obtain rfl := Outcome.ok_inj hr
  have hroom := h.room
  have hlimit : usrLimit = 0x70000000 := rfl
  have hpage : pmmPageSize = 4096 := rfl
  obtain ⟨hle, hlt, hmod⟩ := arroundUp_spec (4 * (strs.length + 1)) (by decide : 0 < pmmPageSize)
  rw [Nat.mod_eq_of_lt (by omega : 4 * (strs.length + 1) < 2 ^ 32), Nat.mod_eq_of_lt (by omega),
    Nat.div_mul_cancel (Nat.dvd_of_mod_eq_zero hmod)]
  exact ⟨rfl, hle, hlt⟩

lemma copyVect_ok (hpos : 0 < st.count) (h : copyVect u vect pgtbl rounds st = .ok st') :
    st'.index * pmmPageSize + st'.count = st.index * pmmPageSize + st.count ∧
      0 < st'.count ∧ st'.count ≤ pmmPageSize ∧ st.used ⊆ st'.used := by
  induction rounds generalizing st with
  | zero => cases h
  | succ rounds ih =>
    rw [copyVect] at h
    split_ifs at h with hmore hfault hlast
    · cases h
    · obtain ⟨hplace, hpos', hle, hused⟩ := ih (by simp only [Build.nextPage]; omega) h
      simp only [Build.nextPage] at hplace hused
      refine ⟨?_, hpos', hle, fun slot hslot => hused (List.mem_append_left _ hslot)⟩
      rw [hplace, Nat.add_mul]
      omega
    · cases h
    · obtain rfl := Outcome.ok_inj h
      exact ⟨rfl, hpos, not_lt.mp hmore, List.Subset.refl _⟩

lemma copyString_used {ptr len : ℕ} (h : copyString u pgtbl rounds ptr len st = .ok st') :
    st.used ⊆ st'.used := by
  induction rounds generalizing ptr len st with
  | zero => cases h
  | succ rounds ih =>
    rw [copyString] at h
    dsimp only at h
    split_ifs at h with hend hfits hfault hfault
    · obtain rfl := Outcome.ok_inj h
      exact List.Subset.refl _
    · cases h
    · have hused := ih h
      exact hused
    · cases h
    · exact fun slot hslot => ih h (List.mem_append_left _ hslot)

lemma copyString_ok {ptr len : ℕ} (hlen : len ≠ 0) (h : copyString u pgtbl rounds ptr len st = .ok st') :
    st.index + 1 ∈ st'.used ∨ st'.index = st.index ∧
      st'.count = st.count + arroundUp len 8 % 2 ^ 32 ∧ st'.count < pmmPageSize := by
  cases rounds with
  | zero => cases h
  | succ rounds =>
    rw [copyString] at h
    dsimp only at h
    rw [if_neg hlen] at h
    split_ifs at h with hfits hfault hfault
    · cases h
    · right
      cases rounds with
      | zero => cases h
      | succ rounds =>
        rw [copyString] at h
        dsimp only at h
        rw [if_pos rfl] at h
        obtain rfl := Outcome.ok_inj h
        exact ⟨rfl, rfl, by simp only; omega⟩
    · cases h
    · exact .inl (copyString_used h (List.mem_append_right _ (List.mem_singleton.mpr rfl)))

lemma copyStrings_used {left i : ℕ}
    (h : copyStrings u vect pgtbl rounds current args left i st = .ok st') : st.used ⊆ st'.used := by
  induction left generalizing i st with
  | zero =>
    obtain rfl := Outcome.ok_inj h
    exact List.Subset.refl _
  | succ left ih =>
    rw [copyStrings] at h
    split at h
    · cases h
    · obtain ⟨st₁, hstring, hrest⟩ := Outcome.of_andThen h
      have hused := copyString_used hstring
      exact List.Subset.trans hused (ih hrest)

lemma copyStrings_ok (hv : VectorAt u vect strs) {left i : ℕ} (hleft : i + left = strs.length)
    (hpos : 0 < left) (h : copyStrings u vect pgtbl rounds current args left i st = .ok st') :
    st.index + 1 ∈ st'.used ∨
      st.count + ((strs.drop i).map stringSize).sum < pmmPageSize := by
  induction left generalizing i st with
  | zero => exact absurd hpos (lt_irrefl 0)
  | succ left ih =>
    have hi : i < strs.length := by omega
    obtain ⟨hstr, hnul, hlen, -⟩ := hv.string i _ (List.getElem?_eq_getElem hi)
    have hlimit : usrLimit = 0x70000000 := rfl
    have hsize : arroundUp (wadd strs[i].length 1) 8 % 2 ^ 32 = stringSize strs[i] := by
      have hround := arroundUp_spec (strs[i].length + 1) (by decide : 0 < 8)
      rw [wadd_of_lt (by omega), Nat.mod_eq_of_lt (by omega), stringSize]
    rw [copyStrings, strlen_spec hstr hnul] at h
    split_ifs at h with hrounds
    · obtain ⟨st₁, hstring, hrest⟩ := Outcome.of_andThen h
      have hne : wadd strs[i].length 1 ≠ 0 := by
        rw [wadd_of_lt (by omega)]
        omega
      rcases copyString_ok hne hstring with hnext | ⟨hindex, hcount, hroom⟩
      · exact .inl (copyStrings_used hrest hnext)
      · rw [hsize] at hcount
        simp only at hindex hcount
        have hdrop : ((strs.drop i).map stringSize).sum =
            stringSize strs[i] + ((strs.drop (i + 1)).map stringSize).sum := by
          rw [List.drop_eq_getElem_cons hi, List.map_cons, List.sum_cons]
        rw [hdrop]
        rcases Nat.eq_zero_or_pos left with rfl | hleftPos
        · right
          have hnil : strs.drop (i + 1) = [] := List.drop_eq_nil_of_le (by omega)
          rw [hnil, List.map_nil, List.sum_nil]
          omega
        · rcases ih (by omega) hleftPos hrest with hnext | hfits
          · exact .inl (by rwa [hindex] at hnext)
          · right
            omega
    · cases h

lemma copyFrom_of_outside {mem user : ByteMemory} {dst src n x : ℕ} (h : x < dst ∨ dst + n ≤ x) :
    copyFrom mem user dst src n x = mem x :=
  if_neg (by omega)

lemma copyFrom_inside {mem user : ByteMemory} {dst src n i : ℕ} (hi : i < n) :
    copyFrom mem user dst src n (dst + i) = user (src + i) := by
  rw [copyFrom, if_pos ⟨Nat.le_add_right _ _, by omega⟩, Nat.add_sub_cancel_left]

lemma load32_congr {mem mem' : ByteMemory} {a b : ℕ} (h : ∀ k < 4, mem' (b + k) = mem (a + k)) :
    mem'.load32 b = mem.load32 a := by
  have h₀ := h 0 (by decide)
  rw [Nat.add_zero, Nat.add_zero] at h₀
  unfold ByteMemory.load32
  rw [h₀, h 1 (by decide), h 2 (by decide), h 3 (by decide)]

lemma StringAt.congr {mem mem' : ByteMemory} {a b : ℕ} {s : List (BitVec 8)} (hs : StringAt mem a s)
    (h : ∀ k ≤ s.length, mem' (b + k) = mem (a + k)) : StringAt mem' b s := by
  intro k hk
  rw [h k hk]
  exact hs k hk

def place (strs : List (List (BitVec 8))) (i : ℕ) : ℕ :=
  4 * (strs.length + 1) + ((strs.take i).map stringSize).sum

lemma place_succ {i : ℕ} (hi : i < strs.length) :
    place strs (i + 1) = place strs i + stringSize strs[i] := by
  rw [place, List.take_add_one, List.getElem?_eq_getElem hi, List.map_append, List.sum_append, place]
  simp [Nat.add_assoc]

lemma place_mono {i j : ℕ} (hij : i ≤ j) : place strs i ≤ place strs j := by
  rw [place, place, ← Nat.add_sub_cancel' hij, List.take_add, List.map_append, List.sum_append]
  omega

lemma place_lt (h : OnePage strs) (i : ℕ) : place strs i < pmmPageSize := by
  refine lt_of_le_of_lt ?_ h
  have hsum : ((strs.take i).map stringSize).sum + ((strs.drop i).map stringSize).sum =
      (strs.map stringSize).sum := by
    rw [← List.sum_append, ← List.map_append, List.take_append_drop]
  rw [place]
  omega

lemma place_end {i : ℕ} (hi : i < strs.length) :
    place strs i + strs[i].length + 1 ≤ place strs (i + 1) := by
  have hround := (arroundUp_spec (strs[i].length + 1) (by decide : 0 < 8)).1
  rw [place_succ hi, stringSize]
  omega

/-- The page after the first `i` strings -/
structure Ready (strs : List (List (BitVec 8))) (page current pgindex i : ℕ) (st : Build) : Prop where
  index : st.index = pgindex
  count : st.count = place strs i
  paddr : st.paddr = page + place strs i
  pagesNr : st.pagesNr = 0
  used : st.used = [pgindex]
  null : st.mem.load32 (page + 4 * strs.length) = 0
  entry : ∀ j < i, ∀ s, strs[j]? = some s →
    st.mem.load32 (page + 4 * j) = wadd current (place strs j) ∧
      StringAt st.mem (page + place strs j) s

lemma not_faults {a n : ℕ} (h : ∀ k < n, u.readable (a + k) = true) : ¬ u.faults a n = true := by
  intro hfault
  obtain ⟨k, hk, hnot⟩ := List.any_eq_true.mp hfault
  rw [h k (List.mem_range.mp hk)] at hnot
  cases hnot

lemma copyString_fits {ptr len : ℕ} (hrounds : 2 ≤ rounds) (hlen : len ≠ 0)
    (hfits : st.count + arroundUp len 8 % 2 ^ 32 < pmmPageSize)
    (hread : ∀ k < len, u.readable (ptr + k) = true) :
    copyString u pgtbl rounds ptr len st =
      .ok { st with
        mem := copyFrom st.mem u.mem st.paddr ptr len
        paddr := st.paddr + arroundUp len 8 % 2 ^ 32
        count := st.count + arroundUp len 8 % 2 ^ 32 } := by
  obtain ⟨rounds, rfl⟩ : ∃ r, rounds = r + 2 := ⟨rounds - 2, by omega⟩
  rw [copyString, if_neg hlen]
  dsimp only
  rw [if_pos (by omega), if_neg (not_faults hread), copyString, if_pos rfl]

lemma entries_step (hv : VectorAt u vect strs) {page i : ℕ} (hi : i < strs.length)
    {mem mem' : ByteMemory}
    (hmem : mem' = copyFrom (mem.store32 (page + 4 * i) (wadd current (place strs i))) u.mem
      (page + place strs i) (u.mem.load32 (vect + 4 * i)) (strs[i].length + 1))
    (hnull : mem.load32 (page + 4 * strs.length) = 0)
    (hentry : ∀ j < i, ∀ s, strs[j]? = some s →
      mem.load32 (page + 4 * j) = wadd current (place strs j) ∧ StringAt mem (page + place strs j) s) :
    mem'.load32 (page + 4 * strs.length) = 0 ∧
      ∀ j < i + 1, ∀ s, strs[j]? = some s →
        mem'.load32 (page + 4 * j) = wadd current (place strs j) ∧
          StringAt mem' (page + place strs j) s := by
  obtain ⟨hstr, -⟩ := hv.string i _ (List.getElem?_eq_getElem hi)
  have hlow : 4 * (strs.length + 1) ≤ place strs i := Nat.le_add_right _ _
  -- the pointers are below the strings, and the earlier strings below the new one
  have hptrs : ∀ j ≤ strs.length, j ≠ i →
      mem'.load32 (page + 4 * j) = mem.load32 (page + 4 * j) := by
    intro j hj hne
    refine load32_congr fun k hk => ?_
    rw [hmem, copyFrom_of_outside (by omega), ByteMemory.store32_of_outside (by omega)]
  refine ⟨(hptrs _ le_rfl hi.ne').trans hnull, fun j hj s hs => ?_⟩
  rcases Nat.lt_succ_iff_lt_or_eq.mp hj with hlt | rfl
  · obtain ⟨hptr, hold⟩ := hentry j hlt s hs
    refine ⟨(hptrs j (by omega) hlt.ne).trans hptr, hold.congr fun k hk => ?_⟩
    obtain ⟨hjlt, rfl⟩ := List.getElem?_eq_some_iff.mp hs
    have hend := place_end hjlt
    have hmono : place strs (j + 1) ≤ place strs i := place_mono (show j + 1 ≤ i from hlt)
    have hfirst : 4 * (strs.length + 1) ≤ place strs j := Nat.le_add_right _ _
    rw [hmem, copyFrom_of_outside (by omega), ByteMemory.store32_of_outside (by omega)]
  · obtain rfl := Option.some.inj ((List.getElem?_eq_getElem hi).symm.trans hs)
    constructor
    · have hstore : (mem.store32 (page + 4 * j) (wadd current (place strs j))).load32 (page + 4 * j) =
          wadd current (place strs j) := ByteMemory.load32_store32 (wadd_lt current (place strs j))
      rw [← hstore]
      refine load32_congr fun k hk => ?_
      rw [hmem, copyFrom_of_outside (by omega)]
    · refine hstr.congr fun k hk => ?_
      rw [hmem, copyFrom_inside (by omega)]

lemma Ready.step (hv : VectorAt u vect strs) (hpage : OnePage strs) (pgtbl : ℕ → ℕ)
    {page pgindex i : ℕ} (hi : i < strs.length) (hrounds : 2 ≤ rounds) (h : Ready strs page current pgindex i st) :
    ∃ st₁, copyString u pgtbl rounds (u.mem.load32 (vect + 4 * i)) (wadd strs[i].length 1)
        { st with
          mem := st.mem.store32 (page + 4 * i)
            (wadd (wadd current (st.pagesNr * pmmPageSize)) st.count) } = .ok st₁ ∧
      Ready strs page current pgindex (i + 1) st₁ := by
  obtain ⟨mem, index, paddr, count, pagesNr, used⟩ := st
  obtain ⟨rfl, rfl, rfl, rfl, hused, hnull, hentry⟩ := h
  simp only at hused hnull hentry ⊢
  subst hused
  obtain ⟨hstr, hnul, hlen, hread⟩ := hv.string i _ (List.getElem?_eq_getElem hi)
  have hlimit : usrLimit = 0x70000000 := rfl
  have hround := arroundUp_spec (strs[i].length + 1) (by decide : 0 < 8)
  have hword : wadd strs[i].length 1 = strs[i].length + 1 := wadd_of_lt (by omega)
  have hsize : arroundUp (strs[i].length + 1) 8 % 2 ^ 32 = stringSize strs[i] := by
    rw [Nat.mod_eq_of_lt (by omega), stringSize]
  have hptr : wadd (wadd current (0 * pmmPageSize)) (place strs i) = wadd current (place strs i) := by
    simp only [wadd]
    omega
  have hnext := place_lt hpage (i + 1)
  rw [hword, hptr, copyString_fits hrounds (Nat.succ_ne_zero _)
    (by rw [hsize, ← place_succ hi]; exact hnext) fun k hk => hread k (by omega), hsize]
  obtain ⟨hnull', hentry'⟩ := entries_step hv hi rfl hnull hentry
  refine ⟨_, rfl, rfl, (place_succ hi).symm, ?_, rfl, rfl, hnull', hentry'⟩
  rw [place_succ hi, Nat.add_assoc]

lemma Ready.run (hv : VectorAt u vect strs) (hpage : OnePage strs) (pgtbl : ℕ → ℕ)
    {page pgindex : ℕ} (hrounds : ∀ s ∈ strs, s.length + 2 ≤ rounds) {left i : ℕ} (hleft : i + left = strs.length)
    (h : Ready strs page current pgindex i st) :
    ∃ st₁, copyStrings u vect pgtbl rounds current page left i st = .ok st₁ ∧
      Ready strs page current pgindex strs.length st₁ := by
  induction left generalizing i st with
  | zero =>
    obtain rfl : i = strs.length := hleft
    exact ⟨st, rfl, h⟩
  | succ left ih =>
    have hi : i < strs.length := by omega
    obtain ⟨hstr, hnul, -⟩ := hv.string i _ (List.getElem?_eq_getElem hi)
    have hround := hrounds strs[i] (List.getElem_mem hi)
    obtain ⟨st₁, hstring, hready⟩ := h.step hv hpage pgtbl hi (show 2 ≤ rounds by omega)
    obtain ⟨st₂, hrest, hdone⟩ := ih (by omega) hready
    refine ⟨st₂, ?_, hdone⟩
    rw [copyStrings, strlen_spec hstr hnul, if_pos (by omega)]
    dsimp only
    rw [hstring, Outcome.andThen_ok]
    exact hrest

/-- The pages that `map_args` maps -/
def Args.table (out : Args) (pgindex : ℕ) (table : ℕ → Option ℕ) : ℕ → Option ℕ :=
  mapArgs out.pgtbl (out.pgindex - pgindex) pgindex out.current table

def Args.image (out : Args) (pgindex : ℕ) (table : ℕ → Option ℕ) : ByteMemory :=
  ExecArgs.image out.mem (out.table pgindex table)

/-- What is to be built: only slots that were asked for are used, and the pages that are mapped from
`current` on have the pointers, `NULL` behind them, and a copy of each string at its pointer. -/
structure Built (strs : List (List (BitVec 8))) (out : Args) (pgnr pgindex : ℕ)
    (table : ℕ → Option ℕ) : Prop where
  slots : ∀ slot ∈ out.used, pgindex ≤ slot ∧ slot < pgindex + (out.pgnr - pgnr)
  mapped : ∀ a, out.current ≤ a → a < out.current + (out.pgnr - pgnr) * pmmPageSize →
    out.table pgindex table (a / pmmPageSize) ≠ none
  array : 4 * (strs.length + 1) ≤ (out.pgnr - pgnr) * pmmPageSize
  null : (out.image pgindex table).load32 (out.current + 4 * strs.length) = 0
  entry : ∀ i s, strs[i]? = some s →
    out.current ≤ (out.image pgindex table).load32 (out.current + 4 * i) ∧
      (out.image pgindex table).load32 (out.current + 4 * i) + s.length + 1 ≤
        out.current + (out.pgnr - pgnr) * pmmPageSize ∧
      StringAt (out.image pgindex table)
        ((out.image pgindex table).load32 (out.current + 4 * i)) s

lemma eight_le_sum (strs : List (List (BitVec 8))) : 8 * strs.length ≤ (strs.map stringSize).sum := by
  induction strs with
  | nil => exact le_rfl
  | cons s strs ih =>
    obtain ⟨hle, -, hmod⟩ := arroundUp_spec (s.length + 1) (by decide : 0 < 8)
    have hsize : 8 ≤ stringSize s := by
      rw [stringSize]
      omega
    rw [List.length_cons, List.map_cons, List.sum_cons]
    omega

variable {alloc : ℕ → Option ℕ} {mem : ByteMemory} {start pgnr pgindex : ℕ} {out : Args}

lemma onePage_of_slots (hv : VectorAt u vect strs)
    (hrun : computeArgs u vect alloc mem pgtbl pagesMax start pgnr pgindex rounds = .ok out)
    (hslots : ∀ slot ∈ out.used, pgindex ≤ slot ∧ slot < pgindex + (out.pgnr - pgnr)) :
    OnePage strs := by
  obtain ⟨⟨pages, entries⟩, hargs, hrun⟩ := Outcome.of_andThen hrun
  obtain ⟨⟨mem₁, pgtbl₁⟩, -, hrun⟩ := Outcome.of_andThen hrun
  obtain ⟨st, hvect, hrun⟩ := Outcome.of_andThen hrun
  obtain ⟨st₁, hstrs, hrun⟩ := Outcome.of_andThen hrun
  obtain rfl := Outcome.ok_inj hrun
  obtain ⟨hentries, hlow, hhigh⟩ := argsLen_ok hv hargs
  simp only at hentries hlow hhigh hvect hstrs hslots
  rw [Nat.add_sub_cancel_left] at hslots
  subst hentries
  have hroom := hv.room
  have hlimit : usrLimit = 0x70000000 := rfl
  have hpage : pmmPageSize = 4096 := rfl
  have hword : 4 * (strs.length + 1) % 2 ^ 32 = 4 * (strs.length + 1) := Nat.mod_eq_of_lt (by omega)
  rw [hword] at hvect
  obtain ⟨hplace, hpos, hle, -⟩ := copyVect_ok (Nat.mul_pos (by decide) (Nat.succ_pos _)) hvect
  simp only at hplace
  have hsum := eight_le_sum strs
  rw [OnePage]
  rcases Nat.eq_zero_or_pos strs.length with hnil | hcons
  · obtain rfl := List.length_eq_zero_iff.mp hnil
    decide
  · rcases copyStrings_ok hv (Nat.zero_add _) hcons hstrs with hnext | hfits
    · have hlast := (hslots _ hnext).2
      rw [hpage] at hplace hlow hhigh hle
      omega
    · rw [List.drop_zero] at hfits
      rw [hpage] at hplace hlow hhigh hle hfits ⊢
      omega

lemma computeArgs_onePage (mem : ByteMemory) (pgtbl : ℕ → ℕ) (start pgnr : ℕ)
    (hv : VectorAt u vect strs) (hpage : OnePage strs) (hrounds : ∀ s ∈ strs, s.length + 2 ≤ rounds) {r : ℕ × ℕ}
    (hargs : argsLen u vect pagesMax rounds = .ok r) {page : ℕ} (halloc : alloc pgindex = some page) :
    ∃ st, computeArgs u vect alloc mem pgtbl pagesMax start pgnr pgindex rounds =
        .ok ⟨st.mem, Function.update pgtbl pgindex page, wsub start pmmPageSize, pgnr + 1, pgindex + 1,
          [pgindex]⟩ ∧
      Ready strs page (wsub start pmmPageSize) pgindex strs.length st := by
  obtain ⟨pages, entries⟩ := r
  obtain ⟨hentries, hlow, hhigh⟩ := argsLen_ok hv hargs
  simp only at hentries hlow hhigh
  subst hentries
  have hroom := hv.room
  have hlimit : usrLimit = 0x70000000 := rfl
  have hsize : pmmPageSize = 4096 := rfl
  have hfits := hpage
  rw [OnePage, hsize] at hfits
  obtain rfl : pages = 1 := by
    rw [hsize] at hlow hhigh
    omega
  have hword : 4 * (strs.length + 1) % 2 ^ 32 = 4 * (strs.length + 1) := Nat.mod_eq_of_lt (by omega)
  obtain ⟨rounds, rfl⟩ : ∃ k, rounds = k + 1 := by
    cases rounds with
    | zero => cases hargs
    | succ k => exact ⟨k, rfl⟩
  -- the pointers
  have hvect : copyVect u vect (Function.update pgtbl pgindex page) (rounds + 1)
      ⟨mem.fill page pmmPageSize 0, pgindex, page, 4 * (strs.length + 1), 0, [pgindex]⟩ =
      .ok ⟨copyFrom (mem.fill page pmmPageSize 0) u.mem page vect (4 * (strs.length + 1)), pgindex,
        page + 4 * (strs.length + 1), 4 * (strs.length + 1), 0, [pgindex]⟩ := by
    rw [copyVect]
    dsimp only
    rw [if_neg (by omega), Nat.zero_mul, Nat.mul_zero, Nat.add_zero,
      if_neg (not_faults hv.readable)]
  have hready : Ready strs page (wsub start pmmPageSize) pgindex 0
      ⟨copyFrom (mem.fill page pmmPageSize 0) u.mem page vect (4 * (strs.length + 1)), pgindex,
        page + 4 * (strs.length + 1), 4 * (strs.length + 1), 0, [pgindex]⟩ := by
    refine ⟨rfl, ?_, ?_, rfl, rfl, ?_, fun j hj => absurd hj (Nat.not_lt_zero j)⟩
    · simp [place]
    · simp [place]
    · refine (load32_congr fun k hk => ?_).trans hv.null
      dsimp only
      rw [Nat.add_assoc, copyFrom_inside (by omega), Nat.add_assoc]
  obtain ⟨st, hstrs, hdone⟩ :=
    hready.run hv hpage (Function.update pgtbl pgindex page) hrounds (Nat.zero_add _)
  refine ⟨st, ?_, hdone⟩
  rw [computeArgs, hargs, Outcome.andThen_ok]
  simp only [allocPages, halloc, Outcome.andThen_ok, Function.update_self, hword, hvect, Nat.one_mul,
    hstrs, hdone.index, hdone.used]

lemma Ready.built (hpage : OnePage strs) {page : ℕ}
    (h : Ready strs page current pgindex strs.length st) (haligned : current % pmmPageSize = 0)
    (hcurrent : current + pmmPageSize ≤ 2 ^ 32) (pgtbl : ℕ → ℕ) (pgnr : ℕ) (table : ℕ → Option ℕ) :
    Built strs ⟨st.mem, Function.update pgtbl pgindex page, current, pgnr + 1, pgindex + 1, [pgindex]⟩
      pgnr pgindex table := by
  set out : Args :=
    ⟨st.mem, Function.update pgtbl pgindex page, current, pgnr + 1, pgindex + 1, [pgindex]⟩ with hout
  have hsize : pmmPageSize = 4096 := rfl
  have htable : out.table pgindex table = Function.update table (current / pmmPageSize) (some page) := by
    simp only [Args.table, hout, Nat.add_sub_cancel_left, mapArgs, Function.update_self]
  have hpages : out.pgnr - pgnr = 1 := Nat.add_sub_cancel_left pgnr 1
  have hdiv : ∀ x < pmmPageSize, (current + x) / pmmPageSize = current / pmmPageSize ∧
      (current + x) % pmmPageSize = x := by
    intro x hx
    rw [hsize] at haligned hx ⊢
    omega
  have hshow : ∀ x < pmmPageSize, out.image pgindex table (current + x) = st.mem (page + x) := by
    intro x hx
    rw [Args.image, image, htable, (hdiv x hx).1, (hdiv x hx).2, Function.update_self]
  have hword : ∀ i ≤ strs.length, (out.image pgindex table).load32 (current + 4 * i) =
      st.mem.load32 (page + 4 * i) := by
    intro i hi
    have hroom := place_lt hpage 0
    simp only [place, List.take_zero, List.map_nil, List.sum_nil, Nat.add_zero] at hroom
    refine load32_congr fun k hk => ?_
    rw [Nat.add_assoc, hshow _ (by omega), Nat.add_assoc]
  refine ⟨fun slot hslot => ?_, fun a hlow hhigh => ?_, ?_, ?_, fun i s hs => ?_⟩
  · obtain rfl := List.mem_singleton.mp hslot
    rw [hpages]
    exact ⟨le_rfl, Nat.lt_succ_self _⟩
  · rw [hpages, Nat.one_mul] at hhigh
    obtain ⟨x, rfl⟩ := Nat.exists_eq_add_of_le hlow
    have hx : x < pmmPageSize := Nat.lt_of_add_lt_add_left hhigh
    change out.table pgindex table ((current + x) / pmmPageSize) ≠ none
    rw [htable, (hdiv x hx).1, Function.update_self]
    simp
  · rw [hpages, Nat.one_mul]
    have hroom := place_lt hpage 0
    simp only [place, List.take_zero, List.map_nil, List.sum_nil, Nat.add_zero] at hroom
    exact hroom.le
  · exact (hword _ le_rfl).trans h.null
  · obtain ⟨hi, rfl⟩ := List.getElem?_eq_some_iff.mp hs
    obtain ⟨hptr, hstr⟩ := h.entry i hi _ hs
    have hlt := place_lt hpage (i + 1)
    have hend := place_end hi
    have hplace : wadd current (place strs i) = current + place strs i := wadd_of_lt (by omega)
    have hload : (out.image pgindex table).load32 (out.current + 4 * i) = current + place strs i := by
      rw [← hplace, ← hptr]
      exact hword i hi.le
    rw [hload, hpages, Nat.one_mul]
    refine ⟨Nat.le_add_right _ _, ?_, hstr.congr fun k hk => ?_⟩
    · change current + place strs i + strs[i].length + 1 ≤ current + pmmPageSize
      omega
    · rw [Nat.add_assoc, hshow _ (by omega), Nat.add_assoc]

/-- The arguments are built exactly if the pointers and the strings are in less than a page. -/
theorem compute_args_exact (hv : VectorAt u vect strs) (hrounds : ∀ s ∈ strs, s.length + 2 ≤ rounds)
    {r : ℕ × ℕ} (hargs : argsLen u vect pagesMax rounds = .ok r) (halloc : ∀ slot, alloc slot ≠ none)
    (haligned : start % pmmPageSize = 0) (hpos : 0 < start) (hstart : start ≤ usrLimit)
    (table : ℕ → Option ℕ) :
    (∃ out, computeArgs u vect alloc mem pgtbl pagesMax start pgnr pgindex rounds = .ok out ∧
      Built strs out pgnr pgindex table) ↔ OnePage strs := by
  constructor
  · rintro ⟨out, hrun, hbuilt⟩
    exact onePage_of_slots hv hrun hbuilt.slots
  · intro hpage
    obtain ⟨page, hsome⟩ := Option.ne_none_iff_exists'.mp (halloc pgindex)
    obtain ⟨st, hrun, hready⟩ := computeArgs_onePage mem pgtbl start pgnr hv hpage hrounds hargs hsome
    have hsize : pmmPageSize = 4096 := rfl
    have hlimit : usrLimit = 0x70000000 := rfl
    rw [hsize] at haligned
    have hcurrent : wsub start pmmPageSize = start - pmmPageSize :=
      wsub_of_le (by omega) (by omega)
    refine ⟨_, hrun, hready.built hpage ?_ ?_ pgtbl pgnr table⟩
    · rw [hcurrent, hsize]
      omega
    · rw [hcurrent]
      omega

/-- A vector at `0x1000` whose only string is some letters at `0x2000` -/
def letters (n : ℕ) : UserSpace :=
  ⟨fun a => if a = 0x1001 then 0x20 else if 0x2000 ≤ a ∧ a < 0x2000 + n then 97 else 0, fun _ => true⟩

lemma letters_vector {n : ℕ} (hn : n < usrLimit) :
    VectorAt (letters n) 0x1000 [List.replicate n 97] := by
  have hptr : (letters n).mem.load32 0x1000 = 0x2000 := by
    simp [ByteMemory.load32, letters]
  refine ⟨fun i hi => ?_, ?_, fun i s hs => ?_, fun _ _ => rfl, (by decide : 4 * 2 ≤ usrLimit)⟩
  · obtain rfl : i = 0 := Nat.lt_one_iff.mp hi
    rw [Nat.mul_zero, Nat.add_zero, hptr]
    decide
  · simp [ByteMemory.load32, letters]
  · obtain ⟨hi, rfl⟩ := List.getElem?_eq_some_iff.mp hs
    obtain rfl : i = 0 := Nat.lt_one_iff.mp hi
    rw [Nat.mul_zero, Nat.add_zero, hptr]
    refine ⟨fun k hk => ?_, ?_, by simpa using hn, fun _ _ => rfl⟩
    · have hk' : k ≤ n := by simpa using hk
      have hne : 0x2000 + k ≠ 0x1001 := by omega
      rcases hk'.lt_or_eq with hlt | rfl
      · simp [letters, hne, hlt, List.getElem?_append_left]
      · simp [letters, hne]
    · simp [List.mem_replicate]

/-- A file name of two letters -/
theorem compute_args_exact_two :
    ∃ out, computeArgs (letters 2) 0x1000 (fun slot => some (0x100000 + pmmPageSize * slot)) (fun _ => 0)
        (fun _ => 0) 32 usrLimit 0 0 4 = .ok out ∧
      Built [List.replicate 2 97] out 0 0 fun _ => none :=
  (compute_args_exact (letters_vector (by decide)) (by decide) (r := (1, 1)) rfl (by simp) (by decide)
    (by decide) le_rfl _).mpr (by unfold OnePage; decide)

/-- A string of 4080 letters ends in the last bytes of the page, and another slot is used. -/
theorem exact_fit_overflows : ¬ ∀ (u : UserSpace) (vect : ℕ) (strs : List (List (BitVec 8))),
    VectorAt u vect strs → ∀ rounds r, argsLen u vect 32 rounds = .ok r →
      ∃ turns out, computeArgs u vect (fun slot => some (0x100000 + pmmPageSize * slot)) (fun _ => 0)
          (fun _ => 0) 32 usrLimit 0 0 turns = .ok out ∧
        Built strs out 0 0 fun _ => none := by
  intro h
  have hv := letters_vector (show 4080 < usrLimit by decide)
  obtain ⟨hstr, hnul, -, hread⟩ := hv.string 0 _ rfl
  have hlen := uspaceStrlen_ok hstr hnul hread
    (show (List.replicate 4080 (97 : BitVec 8)).length < 5000 by rw [List.length_replicate]; decide)
  have hargs : argsLen (letters 4080) 0x1000 32 5000 = .ok (1, 1) := by
    have hnull := hv.null
    have hptr := hv.ptr 0 (by decide)
    have hfault : ∀ a n, ¬ (letters 4080).faults a n = true := fun a n => not_faults fun _ _ => rfl
    rw [argsLen, countArgs, if_neg (hfault _ _), if_neg hptr, hlen, Outcome.andThen_ok,
      List.length_replicate]
    simp only [List.length_cons, List.length_nil] at hnull
    dsimp only
    rw [if_neg (by decide), countArgs, if_neg (hfault _ _), if_pos hnull]
    rfl
  obtain ⟨turns, out, hrun, hbuilt⟩ := h _ _ _ hv _ _ hargs
  have hpage := onePage_of_slots hv hrun hbuilt.slots
  rw [OnePage, List.map_cons, List.map_nil, List.sum_cons, List.sum_nil, stringSize,
    List.length_replicate, List.length_singleton] at hpage
  exact absurd hpage (by decide)

end Almos.ExecArgs
