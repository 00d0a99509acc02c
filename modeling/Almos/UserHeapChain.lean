import Almos.BlockChain
import Almos.UserHeap

/-!
# The block chain of the C library heap

The chain survives every call except a `free` that merges the block `heap_mgr.last`
points to into the one before it.
-/
namespace Almos.UserHeap
open Word Bits BlockChain

def sizeAt (heap : HeapManager) (a : ℕ) : ℕ := (heap.mem a).size

/-- The shape of the heap between calls; `l` are the starts of its blocks. -/
structure Shape (heap : HeapManager) (l : List ℕ) : Prop where
  chain : Chain (sizeAt heap) cachelineSize heap.start l heap.limit
  start_pos : 0 < heap.start
  start_lt : heap.start < heap.limit
  room : heap.limit ≤ usrLimit
  last : heap.last = heap.limit ∨ heap.last ∈ l ∧ heap.last + sizeAt heap heap.last = heap.limit
  next : heap.next = heap.limit ∨ heap.next ∈ l
  nextLast : heap.next = heap.limit → heap.last = heap.limit
  fresh : ∀ a, heap.limit ≤ a → heap.mem a = zeroInfo
  sbrk_pos : 0 < heap.sbrkSize

structure LiveOk (heap : HeapManager) (l : List ℕ) (x : Allocation) : Prop where
  header : sizeofInfo ≤ x.ptr
  block : x.ptr - sizeofInfo ∈ l
  busy : (heap.mem (x.ptr - sizeofInfo)).busy = true
  ptr : (heap.mem (x.ptr - sizeofInfo)).ptr = 0
  size : x.size + sizeofInfo ≤ sizeAt heap (x.ptr - sizeofInfo)

/-- Busy blocks other than `b` are as before. -/
def KeepsBusy (heap : HeapManager) (l : List ℕ) (heap' : HeapManager) (l' : List ℕ)
    (b : Option ℕ) : Prop :=
  ∀ c ∈ l, (heap.mem c).busy = true → b ≠ some c → c ∈ l' ∧ heap'.mem c = heap.mem c

variable {heap heap' : HeapManager} {l l' l₁ l₂ : List ℕ} {x : Allocation}

theorem LiveOk.keep (h : LiveOk heap l x) {b : Option ℕ} (hkeep : KeepsBusy heap l heap' l' b)
    (hb : b ≠ some (x.ptr - sizeofInfo)) : LiveOk heap' l' x := by
  obtain ⟨hmem, hsame⟩ := hkeep _ h.block h.busy hb
  refine ⟨h.header, hmem, ?_, ?_, ?_⟩
  · rw [hsame]
    exact h.busy
  · rw [hsame]
    exact h.ptr
  · unfold sizeAt
    rw [hsame]
    exact h.size

theorem KeepsBusy.trans {heap'' : HeapManager} {l'' : List ℕ}
    (h₁ : KeepsBusy heap l heap' l' none) (h₂ : KeepsBusy heap' l' heap'' l'' none) :
    KeepsBusy heap l heap'' l'' none := by
  intro c hc hbusy hne
  obtain ⟨hc', hsame⟩ := h₁ c hc hbusy hne
  obtain ⟨hc'', hsame'⟩ := h₂ c hc' (by rw [hsame]; exact hbusy) hne
  exact ⟨hc'', hsame'.trans hsame⟩

theorem Shape.lt_limit (h : Shape heap l) {c : ℕ} (hc : c ∈ l) :
    heap.start ≤ c ∧ cachelineSize ≤ sizeAt heap c ∧ c + sizeAt heap c ≤ heap.limit ∧
      heap.limit < 2 ^ 31 := by
  obtain ⟨hle, hsize, hend⟩ := h.chain.bounds hc
  have hroom := h.room
  unfold usrLimit at hroom
  exact ⟨hle, hsize, hend, by omega⟩

/-- The shape depends on the headers of the blocks and on memory past the limit only. -/
theorem Shape.congr (h : Shape heap l) {mem : ℕ → BlockInfo}
    (hmem : ∀ a, a ∈ l ∨ heap.limit ≤ a → mem a = heap.mem a) :
    Shape { heap with mem := mem } l := by
  have hsize : ∀ a ∈ l, (mem a).size = sizeAt heap a := by
    intro a ha
    rw [hmem a (.inl ha)]
    rfl
  refine ⟨h.chain.congr hsize, h.start_pos, h.start_lt, h.room, ?_, h.next, h.nextLast, ?_,
    h.sbrk_pos⟩
  · obtain heq | ⟨hin, hend⟩ := h.last
    · exact .inl heq
    · refine .inr ⟨hin, ?_⟩
      change heap.last + (mem heap.last).size = heap.limit
      rw [hsize _ hin]
      exact hend
  · intro a ha
    change heap.limit ≤ a at ha
    rw [← h.fresh a ha]
    exact hmem a (.inr ha)

theorem search_spec (hfresh : heap.mem heap.limit = zeroInfo) (hlimit : heap.limit < 2 ^ 32)
    {esz : ℕ} (hesz : 0 < esz) :
    ∀ l c fuel, Chain (sizeAt heap) cachelineSize c l heap.limit → l.length < fuel →
      search heap esz fuel c = some none ∨
        ∃ b ∈ l, search heap esz fuel c = some (some b) ∧ (heap.mem b).busy = false ∧
          esz ≤ sizeAt heap b := by
  intro l
  induction l with
  | nil =>
    intro c fuel h hfuel
    obtain rfl : c = heap.limit := h
    cases fuel with
    | zero => simp at hfuel
    | succ fuel =>
      left
      have hadd : wadd heap.limit 0 = heap.limit := wadd_of_lt (by omega)
      simp [search, hfresh, zeroInfo, hesz, hadd]
  | cons y ys ih =>
    intro c fuel h hfuel
    obtain ⟨rfl, hm, hrest⟩ := h
    cases fuel with
    | zero => simp at hfuel
    | succ fuel =>
      have hle := hrest.le
      have hadd : wadd y (heap.mem y).size = y + sizeAt heap y :=
        wadd_of_lt (by unfold sizeAt at hle; omega)
      by_cases hskip : (heap.mem y).busy = true ∨ (heap.mem y).size < esz
      · by_cases hend : heap.limit ≤ y + sizeAt heap y
        · left
          simp [search, hskip, hadd, hend]
        · have hlen : ys.length < fuel := by simpa using hfuel
          have hstep : search heap esz (fuel + 1) y = search heap esz fuel (y + sizeAt heap y) := by
            simp [search, hskip, hadd, hend]
          rw [hstep]
          obtain hnone | ⟨b, hb, hfound⟩ := ih _ fuel hrest hlen
          · exact .inl hnone
          · exact .inr ⟨b, List.mem_cons_of_mem _ hb, hfound⟩
      · right
        refine ⟨y, by simp, by simp [search, hskip], ?_, ?_⟩
        · simpa using fun hb => hskip (.inl hb)
        · exact Nat.le_of_not_lt fun hlt => hskip (.inr hlt)

theorem effectiveSize_spec {size : ℕ} (hsize : size + 72 ≤ 2 ^ 32) :
    size + sizeofInfo ≤ effectiveSize size ∧ cachelineSize ≤ effectiveSize size ∧
      effectiveSize size < 2 ^ 32 ∧ cachelineSize ∣ effectiveSize size := by
  have hadd : wadd size sizeofInfo = size + 8 := wadd_of_lt (by unfold sizeofInfo; omega)
  unfold effectiveSize arroundUp
  rw [hadd]
  unfold cachelineSize sizeofInfo
  split_ifs <;> omega

theorem takeBlock_split {b esz : ℕ} (hesz : 0 < esz) (hfit : esz + cachelineSize ≤ sizeAt heap b)
    (hsize : b + sizeAt heap b < 2 ^ 31) :
    takeBlock heap b esz = { heap with
      next := b + esz
      last := if heap.limit ≤ b + sizeAt heap b then b + esz else heap.last
      mem := Function.update (Function.update heap.mem (b + esz)
        ⟨false, sizeAt heap b - esz, (heap.mem (b + esz)).ptr⟩) b ⟨true, esz, 0⟩ } := by
  unfold sizeAt at *
  have hsub : wsub (heap.mem b).size esz = (heap.mem b).size - esz :=
    wsub_of_le (by omega) (by omega)
  have hadd : wadd b esz = b + esz := wadd_of_lt (by omega)
  have hrem : cachelineSize ≤ (heap.mem b).size - esz := by omega
  have hne : b + esz ≠ b := by omega
  have h31 : size31 ((heap.mem b).size - esz) = (heap.mem b).size - esz :=
    Nat.mod_eq_of_lt (by omega)
  have h31' : size31 esz = esz := Nat.mod_eq_of_lt (by omega)
  have hend : wadd (b + esz) ((heap.mem b).size - esz) = b + (heap.mem b).size := by
    rw [wadd_of_lt (by omega)]
    omega
  simp only [takeBlock, setInfo, hsub, hrem, if_true, hadd, h31, h31', Function.update_self,
    Function.update_idem, Function.update_of_ne hne, Function.update_of_ne (Ne.symm hne), hend]
  split_ifs <;> rfl

theorem takeBlock_whole {b esz : ℕ} (hfit : esz ≤ sizeAt heap b)
    (hsmall : sizeAt heap b < esz + cachelineSize) (hpos : 0 < sizeAt heap b)
    (hsize : b + sizeAt heap b < 2 ^ 31) :
    takeBlock heap b esz = { heap with
      next := b + sizeAt heap b
      last := if heap.limit ≤ wadd (b + sizeAt heap b) (sizeAt heap (b + sizeAt heap b))
        then b + sizeAt heap b else heap.last
      mem := Function.update heap.mem b ⟨true, sizeAt heap b, 0⟩ } := by
  unfold sizeAt at *
  have hsub : wsub (heap.mem b).size esz = (heap.mem b).size - esz :=
    wsub_of_le (by omega) (by omega)
  have hadd : wadd b (heap.mem b).size = b + (heap.mem b).size := wadd_of_lt (by omega)
  have hrem : ¬cachelineSize ≤ (heap.mem b).size - esz := by omega
  have hne : b + (heap.mem b).size ≠ b := by omega
  simp only [takeBlock, setInfo, hsub, hrem, if_false, hadd, Function.update_self,
    Function.update_idem, Function.update_of_ne hne]
  split_ifs <;> rfl

theorem Shape.take_split (h : Shape heap l) {b esz : ℕ} (hb : b ∈ l)
    (hfree : (heap.mem b).busy = false) (hesz : cachelineSize ≤ esz)
    (hfit : esz + cachelineSize ≤ sizeAt heap b) :
    ∃ l', Shape (takeBlock heap b esz) l' ∧ b ∈ l' ∧
      (takeBlock heap b esz).mem b = ⟨true, esz, 0⟩ ∧
      KeepsBusy heap l (takeBlock heap b esz) l' none ∧ (∀ a ∈ l', a ∈ l ∨ a = b + esz) ∧
      ∀ a ∈ l, a ∈ l' := by
  obtain ⟨hstart, hsize, hend, hlimit⟩ := h.lt_limit hb
  obtain ⟨l₁, l₂, rfl, hl, hr⟩ := h.chain.split hb
  have hunit : 0 < cachelineSize := by decide
  have hbelow : ∀ c ∈ l₁, c < b := by
    intro c hc
    have := hl.bounds hc
    omega
  have habove : ∀ c ∈ l₂, b + esz < c := by
    intro c hc
    have := hr.bounds hc
    omega
  rw [takeBlock_split (by omega) hfit (by omega)]
  generalize hmem : Function.update (Function.update heap.mem (b + esz)
    ⟨false, sizeAt heap b - esz, (heap.mem (b + esz)).ptr⟩) b ⟨true, esz, 0⟩ = mem
  have hmemB : mem b = ⟨true, esz, 0⟩ := by simp [← hmem]
  have hmemN : (mem (b + esz)).size = sizeAt heap b - esz := by
    have hne : b + esz ≠ b := by omega
    rw [← hmem, Function.update_of_ne hne, Function.update_self]
  have hother : ∀ c, c ≠ b → c ≠ b + esz → mem c = heap.mem c := by
    intro c hcb hcn
    simp [← hmem, hcb, hcn]
  have hsame₁ : ∀ c ∈ l₁, mem c = heap.mem c := by
    intro c hc
    have := hbelow c hc
    exact hother c (by omega) (by omega)
  have hsame₂ : ∀ c ∈ l₂, mem c = heap.mem c := by
    intro c hc
    have := habove c hc
    exact hother c (by omega) (by omega)
  refine ⟨l₁ ++ b :: (b + esz) :: l₂, ⟨?_, h.start_pos, h.start_lt, h.room, ?_, ?_, ?_, ?_, h.sbrk_pos⟩,
    by simp, hmemB, ?_, ?_, ?_⟩
  · have hleft : Chain (fun a => (mem a).size) cachelineSize heap.start l₁ b :=
      hl.congr fun c hc => by rw [hsame₁ c hc]; rfl
    have hright : Chain (fun a => (mem a).size) cachelineSize (b + sizeAt heap b) l₂ heap.limit :=
      hr.congr fun c hc => by rw [hsame₂ c hc]; rfl
    have hsum : b + esz + (sizeAt heap b - esz) = b + sizeAt heap b := by omega
    refine hleft.glue (by rw [hmemB]; exact hesz) ?_
    change Chain _ _ (b + (mem b).size) _ heap.limit
    rw [hmemB]
    refine ⟨rfl, ?_, ?_⟩
    · change cachelineSize ≤ (mem (b + esz)).size
      omega
    · change Chain _ _ (b + esz + (mem (b + esz)).size) _ heap.limit
      rw [hmemN, hsum]
      exact hright
  · by_cases hlast : heap.limit ≤ b + sizeAt heap b
    · right
      simp only [if_pos hlast]
      change _ ∧ b + esz + (mem (b + esz)).size = heap.limit
      exact ⟨by simp, by omega⟩
    · simp only [if_neg hlast]
      obtain heq | ⟨hin, hlend⟩ := h.last
      · exact .inl heq
      · right
        have hmem₂ : heap.last ∈ l₂ := by
          have hcases : heap.last ∈ l₁ ∨ heap.last = b ∨ heap.last ∈ l₂ := by simpa using hin
          obtain h₁ | h₁ | h₁ := hcases
          · have := hl.bounds h₁
            omega
          · rw [h₁] at hlend
            omega
          · exact h₁
        refine ⟨by simp [hmem₂], ?_⟩
        simp only [sizeAt, hsame₂ _ hmem₂]
        exact hlend
  · right
    simp
  · intro hnext
    change b + esz = heap.limit at hnext
    omega
  · intro a ha
    change heap.limit ≤ a at ha
    rw [← h.fresh a ha]
    exact hother a (by omega) (by omega)
  · intro c hc hbusy _
    have hcases : c ∈ l₁ ∨ c = b ∨ c ∈ l₂ := by simpa using hc
    obtain h₁ | rfl | h₁ := hcases
    · exact ⟨by simp [h₁], hsame₁ c h₁⟩
    · simp [hfree] at hbusy
    · exact ⟨by simp [h₁], hsame₂ c h₁⟩
  · intro a ha
    have hcases : a ∈ l₁ ∨ a = b ∨ a = b + esz ∨ a ∈ l₂ := by simpa using ha
    obtain h₁ | h₁ | h₁ | h₁ := hcases
    · simp [h₁]
    · simp [h₁]
    · exact .inr h₁
    · simp [h₁]
  · intro a ha
    have hcases : a ∈ l₁ ∨ a = b ∨ a ∈ l₂ := by simpa using ha
    obtain h₁ | h₁ | h₁ := hcases
    · simp [h₁]
    · simp [h₁]
    · simp [h₁]

theorem Shape.take_whole (h : Shape heap l) {b esz : ℕ} (hb : b ∈ l)
    (hfree : (heap.mem b).busy = false) (hfit : esz ≤ sizeAt heap b)
    (hsmall : sizeAt heap b < esz + cachelineSize) :
    Shape (takeBlock heap b esz) l ∧ (takeBlock heap b esz).mem b = ⟨true, sizeAt heap b, 0⟩ ∧
      KeepsBusy heap l (takeBlock heap b esz) l none := by
  obtain ⟨hstart, hsize, hend, hlimit⟩ := h.lt_limit hb
  have hunit : 0 < cachelineSize := by decide
  rw [takeBlock_whole hfit hsmall (by omega) (by omega)]
  generalize hmem : Function.update heap.mem b ⟨true, sizeAt heap b, 0⟩ = mem
  have hmemB : mem b = ⟨true, sizeAt heap b, 0⟩ := by simp [← hmem]
  have hother : ∀ c, c ≠ b → mem c = heap.mem c := by
    intro c hcb
    simp [← hmem, hcb]
  have hsizes : ∀ c, (mem c).size = sizeAt heap c := by
    intro c
    by_cases hcb : c = b
    · rw [hcb, hmemB]
    · rw [hother c hcb]
      rfl
  have hnext := h.chain.next_mem hb
  refine ⟨⟨?_, h.start_pos, h.start_lt, h.room, ?_, ?_, ?_, ?_, h.sbrk_pos⟩, hmemB, ?_⟩
  · exact h.chain.congr fun c _ => hsizes c
  · by_cases hlast : heap.limit ≤ wadd (b + sizeAt heap b) (sizeAt heap (b + sizeAt heap b))
    · simp only [if_pos hlast]
      obtain heq | hin := hnext
      · exact .inl heq
      · right
        obtain ⟨-, -, hle, -⟩ := h.lt_limit hin
        rw [wadd_of_lt (by omega)] at hlast
        refine ⟨hin, ?_⟩
        simp only [sizeAt, hsizes]
        unfold sizeAt at hle hlast
        omega
    · simp only [if_neg hlast]
      obtain heq | ⟨hin, hlend⟩ := h.last
      · exact .inl heq
      · refine .inr ⟨hin, ?_⟩
        simp only [sizeAt, hsizes]
        exact hlend
  · exact hnext
  · intro heq
    change b + sizeAt heap b = heap.limit at heq
    have hzero : sizeAt heap heap.limit = 0 := by
      rw [sizeAt, h.fresh _ le_rfl]
      rfl
    have hadd : wadd heap.limit 0 = heap.limit := wadd_of_lt (by omega)
    simp [heq, hzero, hadd]
  · intro a ha
    change heap.limit ≤ a at ha
    rw [← h.fresh a ha]
    exact hother a (by omega)
  · intro c hc hbusy _
    refine ⟨hc, hother c ?_⟩
    rintro rfl
    simp [hfree] at hbusy

theorem Shape.take (h : Shape heap l) {b esz : ℕ} (hb : b ∈ l) (hfree : (heap.mem b).busy = false)
    (hesz : cachelineSize ≤ esz) (hfit : esz ≤ sizeAt heap b) :
    ∃ l', Shape (takeBlock heap b esz) l' ∧ b ∈ l' ∧
      (∃ size, esz ≤ size ∧ (takeBlock heap b esz).mem b = ⟨true, size, 0⟩) ∧
      KeepsBusy heap l (takeBlock heap b esz) l' none ∧ (∀ a ∈ l', a ∈ l ∨ a = b + esz) ∧
      ∀ a ∈ l, a ∈ l' := by
  by_cases hsplit : esz + cachelineSize ≤ sizeAt heap b
  · obtain ⟨l', hshape, hb', hmem, hrest⟩ := h.take_split hb hfree hesz hsplit
    exact ⟨l', hshape, hb', ⟨esz, le_rfl, hmem⟩, hrest⟩
  · obtain ⟨hshape, hmem, hkeep⟩ := h.take_whole hb hfree hfit (by omega)
    exact ⟨l, hshape, hb, ⟨_, hfit, hmem⟩, hkeep, fun a ha => .inl ha, fun a ha => ha⟩

theorem Shape.add_block (h : Shape heap l) {bytes : ℕ} (hbytes : cachelineSize ≤ bytes)
    (hroom : heap.limit + bytes ≤ usrLimit) :
    Shape { heap with
      limit := heap.limit + bytes
      last := heap.limit
      mem := Function.update heap.mem heap.limit ⟨false, bytes, 0⟩ } (l ++ [heap.limit]) := by
  have hunit : 0 < cachelineSize := by decide
  have hbelow : ∀ c ∈ l, c ≠ heap.limit := by
    intro c hc
    have := h.lt_limit hc
    omega
  have hchain : Chain (fun a => (Function.update heap.mem heap.limit ⟨false, bytes, 0⟩ a).size)
      cachelineSize heap.start l heap.limit := by
    refine h.chain.congr ?_
    intro c hc
    rw [Function.update_of_ne (hbelow c hc)]
    rfl
  have hstart := h.start_lt
  refine ⟨?_, h.start_pos, by simp only; omega, hroom, ?_, ?_, ?_, ?_, h.sbrk_pos⟩
  · refine hchain.append ⟨rfl, ?_, ?_⟩
    · simpa using hbytes
    · simp [Chain]
  · right
    refine ⟨by simp, ?_⟩
    simp [sizeAt]
  · right
    obtain heq | hin := h.next
    · simp [heq]
    · simp [hin]
  · intro hnext
    change heap.next = heap.limit + bytes at hnext
    obtain heq | hin := h.next
    · omega
    · have := h.lt_limit hin
      omega
  · intro a ha
    change heap.limit + bytes ≤ a at ha
    rw [← h.fresh a (by omega)]
    exact Function.update_of_ne (by omega) _ _

theorem Shape.extend_last (h : Shape heap l) {bytes : ℕ} (hbytes : 0 < bytes)
    (hroom : heap.limit + bytes ≤ usrLimit) (hin : heap.last ∈ l)
    (hend : heap.last + sizeAt heap heap.last = heap.limit) :
    Shape { heap with
      limit := heap.limit + bytes
      mem := Function.update heap.mem heap.last
        { heap.mem heap.last with size := sizeAt heap heap.last + bytes } } l := by
  obtain ⟨hstart, hsize, -, hlimit⟩ := h.lt_limit hin
  obtain ⟨l₁, l₂, rfl, hl, hr⟩ := h.chain.split hin
  have hunit : 0 < cachelineSize := by decide
  have hnil : l₂ = [] := by
    cases l₂ with
    | nil => rfl
    | cons y ys =>
      have := hr.bounds (List.mem_cons_self ..)
      omega
  subst hnil
  generalize hmem : Function.update heap.mem heap.last
    { heap.mem heap.last with size := sizeAt heap heap.last + bytes } = mem
  have hself : (mem heap.last).size = sizeAt heap heap.last + bytes := by simp [← hmem]
  have hother : ∀ c, c ≠ heap.last → mem c = heap.mem c := by
    intro c hc
    simp [← hmem, hc]
  have hslt := h.start_lt
  refine ⟨?_, h.start_pos, by simp only; omega, hroom, ?_, ?_, ?_, ?_, h.sbrk_pos⟩
  · have hleft : Chain (fun a => (mem a).size) cachelineSize heap.start l₁ heap.last := by
      refine hl.congr ?_
      intro c hc
      have := hl.bounds hc
      rw [hother c (by omega)]
      rfl
    refine hleft.glue ?_ ?_
    · omega
    · change heap.last + (mem heap.last).size = heap.limit + bytes
      omega
  · refine .inr ⟨hin, ?_⟩
    change heap.last + (mem heap.last).size = heap.limit + bytes
    omega
  · right
    obtain heq | hnext := h.next
    · have := h.nextLast heq
      omega
    · exact hnext
  · intro hnext
    change heap.next = heap.limit + bytes at hnext
    obtain heq | hin' := h.next
    · omega
    · have := h.lt_limit hin'
      omega
  · intro a ha
    change heap.limit + bytes ≤ a at ha
    rw [← h.fresh a (by omega)]
    exact hother a (by omega)

theorem Shape.grow (h : Shape heap l) {pages : ℕ} (hpages : 0 < pages)
    (hroom : heap.limit + pages * pageSize ≤ usrLimit) :
    ∃ l', Shape (UserHeap.grow heap pages) l' ∧
      KeepsBusy heap l (UserHeap.grow heap pages) l' none ∧
      (∀ a ∈ l', a ∈ l ∨ a = heap.limit) ∧ ∀ a ∈ l, a ∈ l' := by
  have hbytes : cachelineSize ≤ pages * pageSize := by
    unfold cachelineSize pageSize
    omega
  have hlt : heap.limit + pages * pageSize < 2 ^ 31 := by
    unfold usrLimit at hroom
    omega
  have hlimit : wadd heap.limit (pages * pageSize) = heap.limit + pages * pageSize :=
    wadd_of_lt (by omega)
  have h31 : size31 (pages * pageSize) = pages * pageSize := Nat.mod_eq_of_lt (by omega)
  have hadd : KeepsBusy heap l { heap with
      limit := heap.limit + pages * pageSize
      last := heap.limit
      mem := Function.update heap.mem heap.limit ⟨false, pages * pageSize, 0⟩ }
      (l ++ [heap.limit]) none := by
    intro c hc _ _
    have := h.lt_limit hc
    have hunit : 0 < cachelineSize := by decide
    exact ⟨by simp [hc], Function.update_of_ne (by omega) _ _⟩
  obtain heq | ⟨hin, hend⟩ := h.last
  · have hgrow : UserHeap.grow heap pages = { heap with
        limit := heap.limit + pages * pageSize
        last := heap.limit
        mem := Function.update heap.mem heap.limit ⟨false, pages * pageSize, 0⟩ } := by
      simp [UserHeap.grow, setInfo, hlimit, heq, h.fresh _ le_rfl, zeroInfo, h31]
    rw [hgrow]
    exact ⟨_, h.add_block hbytes hroom, hadd, by simp, fun a ha => List.mem_append_left _ ha⟩
  · cases hbusy : (heap.mem heap.last).busy with
    | true =>
      have hnext : wadd heap.last (heap.mem heap.last).size = heap.limit := by
        unfold sizeAt at hend
        rw [wadd_of_lt (by omega), hend]
      have hgrow : UserHeap.grow heap pages = { heap with
          limit := heap.limit + pages * pageSize
          last := heap.limit
          mem := Function.update heap.mem heap.limit ⟨false, pages * pageSize, 0⟩ } := by
        simp [UserHeap.grow, setInfo, hlimit, hbusy, hnext, h31]
      rw [hgrow]
      exact ⟨_, h.add_block hbytes hroom, hadd, by simp, fun a ha => List.mem_append_left _ ha⟩
    | false =>
      have h31' : size31 ((heap.mem heap.last).size + pages * pageSize) =
          sizeAt heap heap.last + pages * pageSize := by
        unfold sizeAt at hend ⊢
        exact Nat.mod_eq_of_lt (by omega)
      have hgrow : UserHeap.grow heap pages = { heap with
          limit := heap.limit + pages * pageSize
          mem := Function.update heap.mem heap.last
            { heap.mem heap.last with size := sizeAt heap heap.last + pages * pageSize } } := by
        simp [UserHeap.grow, setInfo, hlimit, hbusy, h31']
      rw [hgrow]
      refine ⟨l, h.extend_last (Nat.lt_of_lt_of_le (by decide) hbytes) hroom hin hend, ?_,
        fun a ha => .inl ha, fun a ha => ha⟩
      intro c hc hcbusy _
      have hne : c ≠ heap.last := by
        rintro rfl
        simp [hbusy] at hcbusy
      exact ⟨hc, Function.update_of_ne hne _ _⟩

structure NewBlock (heap : HeapManager) (l : List ℕ) (heap' : HeapManager) (l' : List ℕ)
    (size ptr : ℕ) : Prop where
  live : LiveOk heap' l' ⟨ptr, size⟩
  unused : ∀ c ∈ l, (heap.mem c).busy = true → ptr ≠ c + sizeofInfo

/-- The search of `do_malloc` begins at a block or, when the request exceeds the heap, at the
limit. -/
theorem Shape.search (h : Shape heap l) {esz : ℕ} (hesz : 0 < esz) :
    UserHeap.search heap esz (heap.limit + 1)
        (if wsub heap.limit esz < heap.next then heap.start else heap.next) = some none ∨
      ∃ b ∈ l, UserHeap.search heap esz (heap.limit + 1)
        (if wsub heap.limit esz < heap.next then heap.start else heap.next) = some (some b) ∧
          (heap.mem b).busy = false ∧ esz ≤ sizeAt heap b := by
  have hroom := h.room
  obtain ⟨cur, hcur, l₀, hsub, hchain⟩ : ∃ cur, (if wsub heap.limit esz < heap.next then
      heap.start else heap.next) = cur ∧ ∃ l₀, l₀ ⊆ l ∧
        Chain (sizeAt heap) cachelineSize cur l₀ heap.limit := by
    by_cases hwrap : wsub heap.limit esz < heap.next
    · exact ⟨_, if_pos hwrap, l, List.Subset.refl l, h.chain⟩
    · refine ⟨_, if_neg hwrap, ?_⟩
      obtain heq | hin := h.next
      · exact ⟨[], List.nil_subset l, heq⟩
      · obtain ⟨l₁, l₂, rfl, -, hr⟩ := h.chain.split hin
        exact ⟨heap.next :: l₂, List.subset_append_right _ _, rfl, (h.lt_limit hin).2.1, hr⟩
  have hlen : l₀.length < heap.limit + 1 := by
    have := hchain.length_mul_le
    unfold cachelineSize at this
    omega
  have hlimit : heap.limit < 2 ^ 32 := by
    unfold usrLimit at hroom
    omega
  rw [hcur]
  obtain hnone | ⟨b, hb, hsearch, hfree, hfit⟩ :=
    search_spec (h.fresh _ le_rfl) hlimit hesz l₀ cur (heap.limit + 1) hchain hlen
  · exact .inl hnone
  · exact .inr ⟨b, hsub hb, hsearch, hfree, hfit⟩

theorem doMalloc_spec (h : Shape heap l) {size : ℕ} (hsize : size < 2 ^ 30) (round : ℕ) :
    doMalloc heap size round = some (heap, none) ∨
      ∃ heap' l' ptr, doMalloc heap size round = some (heap', some ptr) ∧ Shape heap' l' ∧
        KeepsBusy heap l heap' l' none ∧ NewBlock heap l heap' l' size ptr := by
  obtain ⟨hesz, hunit, -⟩ := effectiveSize_spec (show size + 72 ≤ 2 ^ 32 by omega)
  by_cases hround : round = 0 ∧ wsub heap.limit (effectiveSize size) < heap.next
  · left
    simp [doMalloc, hround]
  · obtain hnone | ⟨b, hb, hsearch, hfree, hfit⟩ :=
      h.search (Nat.lt_of_lt_of_le (by decide) hunit)
    · left
      simp [doMalloc, hround, hnone]
    · right
      obtain ⟨l', hshape, hb', ⟨bsize, hbsize, hmem⟩, hkeep, -⟩ := h.take hb hfree hunit hfit
      have hbl := h.lt_limit hb
      have hptr : wadd b sizeofInfo = b + sizeofInfo :=
        wadd_of_lt (by unfold sizeofInfo; omega)
      have hblock : b + sizeofInfo - sizeofInfo = b := by omega
      refine ⟨takeBlock heap b (effectiveSize size), l', b + sizeofInfo, ?_, hshape, hkeep, ?_, ?_⟩
      · simp [doMalloc, hround, hsearch, hptr]
      · refine ⟨Nat.le_add_left _ _, ?_, ?_, ?_, ?_⟩
        · simpa [hblock] using hb'
        · simp [hblock, hmem]
        · simp [hblock, hmem]
        · simp only [hblock, sizeAt, hmem]
          omega
      · intro c _ hbusy heq
        have hcb : c = b := by omega
        rw [hcb, hfree] at hbusy
        simp at hbusy

theorem growPages_pos (h : Shape heap l) (size : ℕ) : 0 < growPages heap size := by
  have := h.sbrk_pos
  unfold growPages
  simp only
  split_ifs <;> omega

theorem mallocLoop_spec {size : ℕ} (hsize : size < 2 ^ 30) :
    ∀ fuel tries (heap : HeapManager) l grants, Shape heap l →
      ∃ heap' l' r, mallocLoop size fuel tries heap grants = some (heap', r) ∧ Shape heap' l' ∧
        KeepsBusy heap l heap' l' none ∧ ∀ ptr, r = some ptr → NewBlock heap l heap' l' size ptr := by
  intro fuel
  induction fuel with
  | zero =>
    intro tries heap l grants h
    exact ⟨heap, l, none, rfl, h, fun c hc _ _ => ⟨hc, rfl⟩, by simp⟩
  | succ fuel ih =>
    intro tries heap l grants h
    obtain hnone | ⟨heap', l', ptr, hfound, hshape, hkeep, hnew⟩ := doMalloc_spec h hsize tries
    · by_cases hstop : grants = 0 ∨ usrLimit < heap.limit + growPages heap size * pageSize
      · refine ⟨heap, l, none, ?_, h, fun c hc _ _ => ⟨hc, rfl⟩, by simp⟩
        simp [mallocLoop, hnone, hstop]
      · obtain ⟨l₁, hshape₁, hkeep₁, -⟩ :=
          h.grow (growPages_pos h size) (Nat.le_of_not_lt fun hlt => hstop (.inr hlt))
        obtain ⟨heap', l', r, hloop, hshape, hkeep, hnew⟩ :=
          ih (tries + 1) (UserHeap.grow heap (growPages heap size)) l₁ (grants - 1) hshape₁
        refine ⟨heap', l', r, ?_, hshape, hkeep₁.trans hkeep, ?_⟩
        · simp [mallocLoop, hnone, hstop, hloop]
        · intro ptr hptr
          refine ⟨(hnew ptr hptr).live, ?_⟩
          intro c hc hbusy
          obtain ⟨hc₁, hsame⟩ := hkeep₁ c hc hbusy (by simp)
          exact (hnew ptr hptr).unused c hc₁ (by rw [hsame]; exact hbusy)
    · refine ⟨heap', l', some ptr, by simp [mallocLoop, hfound], hshape, hkeep, ?_⟩
      intro ptr' hptr'
      obtain rfl : ptr = ptr' := by simpa using hptr'
      exact hnew

/-- Following sizes from the start of the heap leads to this block. -/
inductive IsBlock (heap : HeapManager) : ℕ → Prop
  | start (h : heap.start < heap.limit) : IsBlock heap heap.start
  | next {c : ℕ} (prior : IsBlock heap c) (h : c + sizeAt heap c < heap.limit) :
      IsBlock heap (c + sizeAt heap c)

/-- All blocks after `b` up to the one `heap_mgr.last` points to are free: freeing `b` merges
that block too. -/
def SwallowsLast (heap : HeapManager) (b : ℕ) : Prop :=
  heap.last ≠ heap.limit ∧ b < heap.last ∧
    ∀ c, IsBlock heap c → b < c → c ≤ heap.last → (heap.mem c).busy = false

theorem Shape.mem_of_isBlock (h : Shape heap l) {c : ℕ} (hc : IsBlock heap c) : c ∈ l := by
  induction hc with
  | start hlt => exact h.chain.start_mem hlt
  | next _ hlt ih =>
    obtain heq | hmem := h.chain.next_mem ih
    · omega
    · exact hmem

theorem isBlock_of_mem {a : ℕ} {l : List ℕ} (h : Chain (sizeAt heap) cachelineSize a l heap.limit)
    (ha : a < heap.limit → IsBlock heap a) : ∀ c ∈ l, IsBlock heap c := by
  induction l generalizing a with
  | nil => simp
  | cons y ys ih =>
    obtain ⟨rfl, hunit, hrest⟩ := h
    have hle := hrest.le
    have hpos : 0 < cachelineSize := by decide
    have hy : IsBlock heap y := ha (by omega)
    intro c hc
    obtain rfl | hmem := List.mem_cons.mp hc
    · exact hy
    · exact ih hrest (fun hlt => .next hy hlt) c hmem

theorem mergeLoop_spec {b limit : ℕ} (hlimit : limit < 2 ^ 31) :
    ∀ l₂ fuel (heap : HeapManager), cachelineSize ≤ sizeAt heap b →
      Chain (sizeAt heap) cachelineSize (b + sizeAt heap b) l₂ limit → l₂.length < fuel →
      ∃ s gone rest, l₂ = gone ++ rest ∧ (∀ c ∈ gone, (heap.mem c).busy = false) ∧
        mergeLoop limit b fuel heap = some (setInfo heap b { heap.mem b with size := s }) ∧
        cachelineSize ≤ s ∧ Chain (sizeAt heap) cachelineSize (b + s) rest limit := by
  intro l₂
  induction l₂ with
  | nil =>
    intro fuel heap hunit hr hfuel
    have hend : b + sizeAt heap b = limit := hr
    cases fuel with
    | zero => simp at hfuel
    | succ fuel =>
      refine ⟨sizeAt heap b, [], [], rfl, by simp, ?_, hunit, hr⟩
      have hadd : wadd b (heap.mem b).size = limit := by
        unfold sizeAt at hend
        rw [wadd_of_lt (by omega), hend]
      simp [mergeLoop, hadd, setInfo, sizeAt, Function.update_eq_self]
  | cons y ys ih =>
    intro fuel heap hunit hr hfuel
    have hr' := hr
    obtain ⟨rfl, hy, hrest⟩ := hr
    have hle := hrest.le
    have hpos : 0 < cachelineSize := by decide
    cases fuel with
    | zero => simp at hfuel
    | succ fuel =>
      have hadd : wadd b (heap.mem b).size = b + sizeAt heap b :=
        wadd_of_lt (by unfold sizeAt at hle; omega)
      have hlt : ¬limit ≤ b + sizeAt heap b := by omega
      cases hbusy : (heap.mem (b + sizeAt heap b)).busy with
      | true =>
        refine ⟨sizeAt heap b, [], _, rfl, by simp, ?_, hunit, hr'⟩
        have hstop : mergeLoop limit b (fuel + 1) heap = some heap := by
          simp [mergeLoop, hadd, hbusy]
        have hsame : setInfo heap b { heap.mem b with size := sizeAt heap b } = heap := by
          simp [setInfo, sizeAt, Function.update_eq_self]
        rw [hstop, hsame]
      | false =>
        have h31 : size31 ((heap.mem b).size + (heap.mem (b + sizeAt heap b)).size) =
            sizeAt heap b + sizeAt heap (b + sizeAt heap b) :=
          Nat.mod_eq_of_lt (by unfold sizeAt at hle ⊢; omega)
        generalize hs : sizeAt heap b + sizeAt heap (b + sizeAt heap b) = s at *
        let heap₁ := setInfo heap b { heap.mem b with size := s }
        have hself : sizeAt heap₁ b = s := by simp [heap₁, setInfo, sizeAt]
        have hother : ∀ c, c ≠ b → heap₁.mem c = heap.mem c := by
          intro c hc
          simp [heap₁, setInfo, hc]
        have hrest₁ : Chain (sizeAt heap₁) cachelineSize (b + sizeAt heap₁ b) ys limit := by
          have hsum : b + sizeAt heap b + sizeAt heap (b + sizeAt heap b) = b + s := by omega
          rw [hsum] at hrest
          rw [hself]
          refine hrest.congr ?_
          intro c hc
          have := hrest.bounds hc
          rw [sizeAt, hother c (by omega)]
          rfl
        obtain ⟨s', gone, rest, rfl, hgone, hmerge, hs', hchain⟩ :=
          ih fuel heap₁ (by rw [hself]; omega) hrest₁ (by simpa using hfuel)
        have hstep : mergeLoop limit b (fuel + 1) heap = mergeLoop limit b fuel heap₁ := by
          simp [mergeLoop, hadd, hlt, hbusy, h31, heap₁]
        have hafter : ∀ c ∈ gone ++ rest, c ≠ b := by
          intro c hc
          have := hrest.bounds hc
          omega
        refine ⟨s', _ :: gone, rest, rfl, ?_, ?_, hs', ?_⟩
        · intro c hc
          obtain rfl | hmem := List.mem_cons.mp hc
          · exact hbusy
          · rw [← hother c (hafter c (by simp [hmem]))]
            exact hgone c hmem
        · rw [hstep, hmerge]
          simp [heap₁, setInfo]
        · refine hchain.congr ?_
          intro c hc
          rw [sizeAt, sizeAt, hother c (hafter c (by simp [hc]))]

/-- The call on the payload of `b`, for a header that is not a forwarding one. -/
theorem free_of_merge {b : ℕ} (hb : b + sizeofInfo < 2 ^ 32) (hptr : (heap.mem b).ptr = 0)
    (hmerge : mergeLoop heap.limit b (heap.limit + 1)
      (setInfo heap b { heap.mem b with busy := false }) = some heap') :
    free heap (b + sizeofInfo) =
      some (if b < heap'.next then { heap' with next := b } else heap') := by
  have hpos : b + sizeofInfo ≠ 0 := by simp [sizeofInfo]
  have hsub : wsub (b + sizeofInfo) sizeofInfo = b := by
    rw [wsub_of_le (by omega) hb]
    omega
  have hlimit : (setInfo heap b { heap.mem b with busy := false }).limit = heap.limit := rfl
  simp only [hptr] at hmerge hlimit
  simp only [free, if_neg hpos, hsub, hptr, ne_eq, not_true_eq_false, if_false, hlimit, hmerge]

/-- The heap after the block at `b` was freed and grew to `s` bytes. -/
def freed (heap : HeapManager) (b s : ℕ) : HeapManager :=
  { heap with
    next := if b < heap.next then b else heap.next
    mem := Function.update heap.mem b ⟨false, s, 0⟩ }

/-- Where a freed block ends: `gone` are the free blocks merged into it. -/
structure Merged (heap : HeapManager) (l₁ : List ℕ) (b s : ℕ) (gone rest : List ℕ) : Prop where
  free : ∀ c ∈ gone, (heap.mem c).busy = false
  size : cachelineSize ≤ s
  before : Chain (sizeAt heap) cachelineSize heap.start l₁ b
  after : Chain (sizeAt heap) cachelineSize (b + sizeAt heap b) (gone ++ rest) heap.limit
  rest : Chain (sizeAt heap) cachelineSize (b + s) rest heap.limit

namespace Merged
variable {b s : ℕ} {gone rest : List ℕ}

theorem before_lt (h : Merged heap l₁ b s gone rest) : ∀ c ∈ l₁, c < b := by
  intro c hc
  have hunit : 0 < cachelineSize := by decide
  have := h.before.bounds hc
  omega

theorem lt_after (h : Merged heap l₁ b s gone rest) (hb : cachelineSize ≤ sizeAt heap b) :
    ∀ c ∈ gone ++ rest, b < c := by
  intro c hc
  have hunit : 0 < cachelineSize := by decide
  have := h.after.bounds hc
  omega

theorem chain (h : Merged heap l₁ b s gone rest) (hb : cachelineSize ≤ sizeAt heap b) :
    Chain (sizeAt (freed heap b s)) cachelineSize heap.start (l₁ ++ b :: rest) heap.limit := by
  have hself : sizeAt (freed heap b s) b = s := by simp [sizeAt, freed]
  have hother : ∀ c, c ≠ b → sizeAt (freed heap b s) c = sizeAt heap c := by
    intro c hc
    simp [sizeAt, freed, hc]
  have hleft : Chain (sizeAt (freed heap b s)) cachelineSize heap.start l₁ b := by
    refine h.before.congr ?_
    intro c hc
    have := h.before_lt c hc
    exact hother c (by omega)
  have hright : Chain (sizeAt (freed heap b s)) cachelineSize (b + s) rest heap.limit := by
    refine h.rest.congr ?_
    intro c hc
    have := h.lt_after hb c (by simp [hc])
    exact hother c (by omega)
  refine hleft.glue (by rw [hself]; exact h.size) ?_
  rw [hself]
  exact hright

theorem keepsBusy (h : Merged heap l₁ b s gone rest) :
    KeepsBusy heap (l₁ ++ b :: (gone ++ rest)) (freed heap b s) (l₁ ++ b :: rest) (some b) := by
  intro c hc hbusy hne
  have hcb : c ≠ b := fun heq => hne (by rw [heq])
  have hcases : c ∈ l₁ ∨ c = b ∨ c ∈ gone ∨ c ∈ rest := by simpa using hc
  refine ⟨?_, by simp [freed, hcb]⟩
  obtain h₁ | h₁ | h₁ | h₁ := hcases
  · simp [h₁]
  · exact absurd h₁ hcb
  · have := h.free c h₁
    rw [hbusy] at this
    simp at this
  · simp [h₁]

theorem last (h : Merged heap l₁ b s gone rest) (hs : Shape heap (l₁ ++ b :: (gone ++ rest)))
    (hlast : ¬SwallowsLast heap b) :
    heap.last = heap.limit ∨ (heap.last = b ∧ rest = []) ∨ heap.last ∈ rest := by
  have hunit : 0 < cachelineSize := by decide
  have hb := hs.lt_limit (c := b) (by simp)
  have hafter := h.lt_after hb.2.1
  by_cases hnot : heap.last = heap.limit
  · exact .inl hnot
  · right
    obtain heq | ⟨hin, hlend⟩ := hs.last
    · exact absurd heq hnot
    · have hcases : heap.last ∈ l₁ ∨ heap.last = b ∨ heap.last ∈ gone ++ rest := by
        simpa using hin
      obtain h₁ | h₁ | h₁ := hcases
      · have := h.before.bounds h₁
        omega
      · left
        have hlen₀ := h.after.length_mul_le
        rw [h₁] at hlend
        rw [hlend] at hlen₀
        have hzero : (gone ++ rest).length = 0 := by
          unfold cachelineSize at hlen₀
          omega
        exact ⟨h₁, (List.append_eq_nil_iff.mp (List.length_eq_zero_iff.mp hzero)).2⟩
      · -- the blocks from `b` on up to a merged block are free
        right
        by_contra hrest
        have hingone : heap.last ∈ gone := by simpa [hrest] using h₁
        refine hlast ⟨hnot, hafter _ h₁, ?_⟩
        intro c hc hbc hcl
        have hcases : c ∈ l₁ ∨ c = b ∨ c ∈ gone ∨ c ∈ rest := by
          simpa using hs.mem_of_isBlock hc
        obtain h₂ | h₂ | h₂ | h₂ := hcases
        · have := h.before_lt c h₂
          omega
        · omega
        · exact h.free c h₂
        · have := h.after.lt_of_append hunit hingone h₂
          omega

theorem shape (h : Merged heap l₁ b s gone rest) (hs : Shape heap (l₁ ++ b :: (gone ++ rest)))
    (hlast : ¬SwallowsLast heap b) : Shape (freed heap b s) (l₁ ++ b :: rest) := by
  have hb := hs.lt_limit (c := b) (by simp)
  have hafter := h.lt_after hb.2.1
  have hunit : 0 < cachelineSize := by decide
  refine ⟨h.chain hb.2.1, hs.start_pos, hs.start_lt, hs.room, ?_, ?_, ?_, ?_, hs.sbrk_pos⟩
  · obtain heq | ⟨heq, hnil⟩ | hin := h.last hs hlast
    · exact .inl heq
    · right
      have hrest := h.rest
      rw [hnil] at hrest
      refine ⟨by simp [freed, heq], ?_⟩
      change heap.last + (Function.update heap.mem b ⟨false, s, 0⟩ heap.last).size = heap.limit
      rw [heq, Function.update_self]
      exact hrest
    · right
      have hgt := hafter _ (List.mem_append_right gone hin)
      refine ⟨by simp [freed, hin], ?_⟩
      change heap.last + (Function.update heap.mem b ⟨false, s, 0⟩ heap.last).size = heap.limit
      rw [Function.update_of_ne (by omega)]
      obtain heq | ⟨-, hlend⟩ := hs.last
      · have := h.rest.bounds hin
        omega
      · exact hlend
  · right
    simp only [freed]
    by_cases hnext : b < heap.next
    · simp [hnext]
    · simp only [if_neg hnext]
      obtain heq | hin := hs.next
      · omega
      · have hcases : heap.next ∈ l₁ ∨ heap.next = b ∨ heap.next ∈ gone ++ rest := by
          simpa using hin
        obtain h₁ | h₁ | h₁ := hcases
        · simp [h₁]
        · simp [h₁]
        · have := hafter _ h₁
          omega
  · intro heq
    change (if b < heap.next then b else heap.next) = heap.limit at heq
    split_ifs at heq <;> omega
  · intro a ha
    change heap.limit ≤ a at ha
    rw [← hs.fresh a ha]
    exact Function.update_of_ne (by omega) _ _

end Merged

/-- The heap after a live block was freed and merged with the free blocks after it. -/
theorem Shape.release (h : Shape heap l) {b : ℕ} (hb : b ∈ l) (hptr : (heap.mem b).ptr = 0)
    (hlast : ¬SwallowsLast heap b) :
    ∃ heap' l', free heap (b + sizeofInfo) = some heap' ∧ Shape heap' l' ∧
      KeepsBusy heap l heap' l' (some b) := by
  obtain ⟨hstart, hsize, hend, hlimit⟩ := h.lt_limit hb
  obtain ⟨l₁, l₂, rfl, hl, hr⟩ := h.chain.split hb
  have hunit : 0 < cachelineSize := by decide
  let heap₀ := setInfo heap b { heap.mem b with busy := false }
  have hself₀ : sizeAt heap₀ b = sizeAt heap b := by simp [heap₀, setInfo, sizeAt]
  have hother₀ : ∀ c, c ≠ b → heap₀.mem c = heap.mem c := by
    intro c hc
    simp [heap₀, setInfo, hc]
  have hafter : ∀ c ∈ l₂, b < c := by
    intro c hc
    have := hr.bounds hc
    omega
  have hr₀ : Chain (sizeAt heap₀) cachelineSize (b + sizeAt heap₀ b) l₂ heap.limit := by
    rw [hself₀]
    refine hr.congr ?_
    intro c hc
    have := hafter c hc
    rw [sizeAt, hother₀ c (by omega)]
    rfl
  have hlen : l₂.length < heap.limit + 1 := by
    have := hr.length_mul_le
    unfold cachelineSize at this
    omega
  obtain ⟨s, gone, rest, rfl, hgone, hmerge, hs, hchain⟩ :=
    mergeLoop_spec hlimit l₂ (heap.limit + 1) heap₀ (by rw [hself₀]; exact hsize) hr₀ hlen
  have hmerged : setInfo heap₀ b { heap₀.mem b with size := s } =
      { heap with mem := Function.update heap.mem b ⟨false, s, 0⟩ } := by
    simp [heap₀, setInfo, hptr]
  rw [hmerged] at hmerge
  have hm : Merged heap l₁ b s gone rest := by
    refine ⟨?_, hs, hl, hr, ?_⟩
    · intro c hc
      have := hafter c (by simp [hc])
      rw [← hother₀ c (by omega)]
      exact hgone c hc
    · refine hchain.congr ?_
      intro c hc
      have := hafter c (by simp [hc])
      rw [sizeAt, sizeAt, hother₀ c (by omega)]
  refine ⟨freed heap b s, l₁ ++ b :: rest, ?_, hm.shape h hlast, hm.keepsBusy⟩
  rw [free_of_merge (by unfold sizeofInfo; omega) hptr hmerge]
  by_cases hnext : b < heap.next
  · simp [freed, hnext]
  · simp [freed, hnext]

structure Inv (s : State) (l : List ℕ) : Prop where
  shape : Shape s.heap l
  live : ∀ x ∈ s.live, LiveOk s.heap l x
  nodup : (s.live.map Allocation.ptr).Nodup

variable {s t : State}

theorem shape_init {bssEnd reported : ℕ} (hpos : 0 < bssEnd)
    (hroom : bssEnd + firstSize reported ≤ usrLimit) :
    Shape (heapManagerInit bssEnd reported) [bssEnd] := by
  have hfirst : 4096 ≤ firstSize reported := by
    unfold firstSize
    split_ifs <;> omega
  generalize hsize : firstSize reported = size at *
  have husr := hroom
  unfold usrLimit at husr
  have hlimit : wadd bssEnd size = bssEnd + size := wadd_of_lt (by omega)
  have h31 : size31 size = size := Nat.mod_eq_of_lt (by omega)
  have hheap : heapManagerInit bssEnd reported =
      { limit := bssEnd + size, next := bssEnd, last := bssEnd, start := bssEnd
        sbrkSize := 2 * (size / pageSize)
        mem := Function.update (fun _ => zeroInfo) bssEnd ⟨false, size, 0⟩ } := by
    simp [heapManagerInit, hsize, hlimit, h31]
  rw [hheap]
  refine ⟨?_, hpos, ?_, hroom, ?_, ?_, ?_, ?_, ?_⟩
  · refine ⟨rfl, ?_, ?_⟩
    · simp only [sizeAt, Function.update_self, cachelineSize]
      omega
    · simp [Chain, sizeAt]
  · simp only
    omega
  · simp [sizeAt]
  · simp
  · intro heq
    simp only at heq
    omega
  · intro a ha
    have hne : a ≠ bssEnd := by
      change bssEnd + size ≤ a at ha
      omega
    simp [hne]
  · simp only [pageSize]
    omega

theorem inv_init (h : machine.init s) : ∃ l, Inv s l := by
  obtain ⟨bssEnd, reported, hpos, hroom, rfl⟩ := h
  exact ⟨[bssEnd], shape_init hpos hroom, by simp, by simp⟩

theorem Inv.malloc (h : Inv s l) {size : ℕ} (hsize : size < 2 ^ 30) (grants : ℕ) :
    ∃ t, step s (.malloc size grants) = some t ∧ ∃ l', Inv t l' := by
  obtain ⟨heap', l', r, hloop, hshape, hkeep, hnew⟩ :=
    mallocLoop_spec hsize mallocLimit 0 s.heap l grants h.shape
  have hcall : UserHeap.malloc s.heap size grants = some (heap', r) := hloop
  have hold : ∀ x ∈ s.live, LiveOk heap' l' x := fun x hx => (h.live x hx).keep hkeep (by simp)
  cases r with
  | none =>
    refine ⟨⟨heap', s.live⟩, ?_, l', hshape, hold, h.nodup⟩
    simp only [step, if_pos hsize, hcall]
  | some ptr =>
    obtain ⟨hlive, hunused⟩ := hnew ptr rfl
    refine ⟨⟨heap', ⟨ptr, size⟩ :: s.live⟩, ?_, l', hshape, ?_, ?_⟩
    · simp only [step, if_pos hsize, hcall]
    · intro x hx
      cases List.mem_cons.mp hx with
      | inl heq =>
        subst heq
        exact hlive
      | inr hmem => exact hold x hmem
    · refine List.nodup_cons.mpr ⟨?_, h.nodup⟩
      intro hin
      obtain ⟨x, hx, hxp⟩ := List.mem_map.mp hin
      have hxl := h.live x hx
      have hheader := hxl.header
      refine hunused _ hxl.block hxl.busy ?_
      change x.ptr = ptr at hxp
      omega

theorem Inv.free (h : Inv s l) {a : Allocation} (ha : a ∈ s.live)
    (hlast : ¬SwallowsLast s.heap (a.ptr - sizeofInfo)) :
    ∃ t, step s (.free a) = some t ∧ ∃ l', Inv t l' := by
  have hal := h.live a ha
  obtain ⟨heap', l', hcall, hshape, hkeep⟩ := h.shape.release hal.block hal.ptr hlast
  have hptr : a.ptr - sizeofInfo + sizeofInfo = a.ptr := Nat.sub_add_cancel hal.header
  rw [hptr] at hcall
  have hnodup := List.Nodup.of_map _ h.nodup
  refine ⟨⟨heap', s.live.erase a⟩, ?_, l', hshape, ?_, ?_⟩
  · simp [step, ha, hcall]
  · intro x hx
    obtain ⟨hne, hmem⟩ := (hnodup.mem_erase_iff).mp hx
    have hxl := h.live x hmem
    refine hxl.keep hkeep ?_
    -- two live allocations with one pointer would be one
    intro heq
    have heq' : a.ptr - sizeofInfo = x.ptr - sizeofInfo := by simpa using heq
    have hxh := hxl.header
    have hah := hal.header
    have hsame : x.ptr = a.ptr := by omega
    exact hne (List.inj_on_of_nodup_map h.nodup hmem ha hsame)
  · exact h.nodup.sublist (List.Sublist.map _ List.erase_sublist)

theorem Inv.not_inPayload (h : Inv s l) {a : ℕ} (ha : a ∈ l ∨ s.heap.limit ≤ a) :
    inPayload s a = false := by
  refine List.any_eq_false.mpr ?_
  intro x hx
  have hxl := h.live x hx
  have hheader := hxl.header
  have hsize := hxl.size
  have hblock := h.shape.lt_limit hxl.block
  simp only [decide_eq_true_eq]
  rintro ⟨hlow, hhigh⟩
  have hinfo : sizeofInfo = 8 := rfl
  cases ha with
  | inl hmem =>
    have hunit := (h.shape.lt_limit hmem).2.1
    unfold cachelineSize at hunit
    by_cases heq : a = x.ptr - sizeofInfo
    · omega
    · have := h.shape.chain.disjoint hmem hxl.block heq
      omega
  | inr hge => omega

theorem Inv.write (h : Inv s l) (f : ℕ → BlockInfo) :
    ∃ t, step s (.write f) = some t ∧ ∃ l', Inv t l' := by
  refine ⟨_, rfl, l, ?_⟩
  generalize hmem : (fun a => if inPayload s a = true then f a else s.heap.mem a) = mem
  have hsame : ∀ a, a ∈ l ∨ s.heap.limit ≤ a → mem a = s.heap.mem a := by
    intro a ha
    simp [← hmem, h.not_inPayload ha]
  refine ⟨h.shape.congr hsame, ?_, h.nodup⟩
  intro x hx
  refine (h.live x hx).keep (b := none) ?_ (by simp)
  intro c hc _ _
  exact ⟨hc, hsame c (.inl hc)⟩

/-- The condition on a call: it does not merge the block `heap_mgr.last` points to. -/
def EventOk (s : State) : Event → Prop
  | .free a => ¬SwallowsLast s.heap (a.ptr - sizeofInfo)
  | _ => True

def Legal (s : State) : Event → Prop
  | .malloc size _ => size < 2 ^ 30
  | .free a => a ∈ s.live
  | .write _ => True

theorem Inv.step (h : Inv s l) {e : Event} (hlegal : Legal s e) (hok : EventOk s e) :
    ∃ t, UserHeap.step s e = some t ∧ ∃ l', Inv t l' := by
  cases e with
  | malloc size grants => exact h.malloc hlegal grants
  | free a => exact h.free hlegal hok
  | write f => exact h.write f

theorem legal_of_step {e : Event} (hstep : UserHeap.step s e = some t) : Legal s e := by
  cases e with
  | malloc size grants =>
    by_contra hn
    change ¬size < 2 ^ 30 at hn
    simp only [UserHeap.step, if_neg hn, reduceCtorEq] at hstep
  | free a =>
    by_contra hn
    change a ∉ s.live at hn
    simp only [UserHeap.step, if_neg hn, reduceCtorEq] at hstep
  | write f => trivial

theorem inv_reach (h : machine.Reach EventOk s) : ∃ l, Inv s l := by
  refine Machine.Reach.invariant (I := fun s => ∃ l, Inv s l) (fun s hs => inv_init hs) ?_ h
  rintro s e t ⟨l, hinv⟩ hok hstep
  obtain ⟨t', ht', hinv'⟩ := hinv.step (legal_of_step hstep) hok
  obtain rfl : t' = t := by simpa [ht'] using (show UserHeap.step s e = some t from hstep)
  exact hinv'

def HeapOk (s : State) : Prop :=
  ∃ l, Chain (sizeAt s.heap) 1 s.heap.start l s.heap.limit ∧
    (s.heap.last = s.heap.limit ∨ l.getLast? = some s.heap.last) ∧
    (s.heap.next = s.heap.limit ∨ s.heap.next ∈ l) ∧
    s.live.Pairwise fun x y => x.ptr + x.size ≤ y.ptr ∨ y.ptr + y.size ≤ x.ptr

theorem Inv.heapOk (h : Inv s l) : HeapOk s := by
  have hunit : 0 < cachelineSize := by decide
  refine ⟨l, h.shape.chain.mono hunit, ?_, h.shape.next, ?_⟩
  · obtain heq | ⟨hin, hend⟩ := h.shape.last
    · exact .inl heq
    · exact .inr (h.shape.chain.getLast_of_end hunit hin hend)
  · refine (List.pairwise_map.mp h.nodup).imp_of_mem ?_
    intro x y hx hy hne
    have hxl := h.live x hx
    have hyl := h.live y hy
    have hxh := hxl.header
    have hyh := hyl.header
    have hxs := hxl.size
    have hys := hyl.size
    have hdis := h.shape.chain.disjoint hxl.block hyl.block (by omega)
    omega

/-- As long as no `free` merges the block `heap_mgr.last` points to, every legal call returns
and the heap is well formed between calls. -/
theorem heap_chain_survives (s : State) (hs : machine.Reach EventOk s) :
    HeapOk s ∧ ∀ e, Legal s e → EventOk s e → ∃ t, machine.step s e = some t := by
  obtain ⟨l, hinv⟩ := inv_reach hs
  refine ⟨hinv.heapOk, ?_⟩
  intro e hlegal hok
  obtain ⟨t, ht, -⟩ := hinv.step hlegal hok
  exact ⟨t, ht⟩

def freshHeap : State := ⟨heapManagerInit 0x1000 0, []⟩

theorem freshHeap_init : machine.init freshHeap := ⟨0x1000, 0, by decide, by decide, rfl⟩

theorem heap_chain_survives_one_block : ∃ s, machine.run freshHeap [.malloc 1 0] = some s ∧
    s.live = [⟨0x1008, 1⟩] ∧ HeapOk s := by
  obtain ⟨s, hs, hlive⟩ : ∃ s, machine.run freshHeap [.malloc 1 0] = some s ∧
      s.live = [⟨0x1008, 1⟩] := ⟨_, rfl, rfl⟩
  have hstep : machine.step freshHeap (.malloc 1 0) = some s := by
    simpa [Machine.run] using hs
  have hok : EventOk freshHeap (.malloc 1 0) := trivial
  exact ⟨s, hs, hlive, (heap_chain_survives s (.step (.init freshHeap_init) hok hstep)).1⟩

/-- The first block is freed and merged with the rest of the heap: `heap_mgr.last` still points
inside it. -/
theorem heap_last_stale : ¬∀ s, machine.Reachable s → HeapOk s := by
  intro h
  obtain ⟨s, hs, hstart, hlimit, hlast, hsize⟩ : ∃ s, machine.run freshHeap
      [.malloc 1 0, .free ⟨0x1008, 1⟩] = some s ∧ s.heap.start = 0x1000 ∧
        s.heap.limit = 0x101000 ∧ s.heap.last = 0x1040 ∧ sizeAt s.heap 0x1000 = 0x100000 :=
    ⟨_, rfl, rfl, rfl, rfl, rfl⟩
  obtain ⟨l, hchain, hlast', -, -⟩ := h s (Machine.Reachable.run (.init freshHeap_init) _ hs)
  rw [hstart, hlimit] at hchain
  rw [hlast, hlimit] at hlast'
  cases l with
  | nil => simp [Chain] at hchain
  | cons y ys =>
    obtain ⟨rfl, -, hrest⟩ := hchain
    rw [hsize] at hrest
    have hlen := hrest.length_mul_le
    have hnil : ys = [] := List.length_eq_zero_iff.mp (by omega)
    simp [hnil] at hlast'

end Almos.UserHeap
