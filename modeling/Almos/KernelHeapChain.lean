import Almos.BlockChain
import Almos.KernelHeap

/-!
# The block chain of the kernel heap

Splitting, merging and the cursor keep every header reachable from the start of the heap.
-/
namespace Almos.KernelHeap
open Word Bits BlockChain

def sizeAt (heap : HeapManager) (a : ℕ) : ℕ := (heap.mem a).size

/-- The shape of the heap between calls; `l` are the starts of its blocks. -/
structure Shape (heap : HeapManager) (l : List ℕ) : Prop where
  chain : Chain (sizeAt heap) cacheLineSize heap.start l heap.limit
  limit : heap.limit < 2 ^ 32
  room : heap.limit < heap.start + 2 ^ 31
  next : heap.next ∈ l

structure LiveOk (heap : HeapManager) (l : List ℕ) (x : Allocation) : Prop where
  header : sizeofInfo ≤ x.ptr
  block : x.ptr - sizeofInfo ∈ l
  busy : (heap.mem (x.ptr - sizeofInfo)).busy = true
  mgr : (heap.mem (x.ptr - sizeofInfo)).heapMgr = heap.addr
  size : x.size + sizeofInfo ≤ sizeAt heap (x.ptr - sizeofInfo)

/-- Busy blocks other than `b` are as before. -/
structure KeepsBusy (heap : HeapManager) (l : List ℕ) (heap' : HeapManager) (l' : List ℕ)
    (b : Option ℕ) : Prop where
  addr : heap'.addr = heap.addr
  blocks : ∀ c ∈ l, (heap.mem c).busy = true → b ≠ some c → c ∈ l' ∧ heap'.mem c = heap.mem c

variable {heap heap' : HeapManager} {l l' : List ℕ} {x : Allocation} {b esz : ℕ}

lemma LiveOk.keep (h : LiveOk heap l x) {o : Option ℕ} (hkeep : KeepsBusy heap l heap' l' o)
    (hne : o ≠ some (x.ptr - sizeofInfo)) : LiveOk heap' l' x := by
  obtain ⟨hmem, hsame⟩ := hkeep.blocks _ h.block h.busy hne
  refine ⟨h.header, hmem, ?_, ?_, ?_⟩
  · rw [hsame]
    exact h.busy
  · rw [hsame, hkeep.addr]
    exact h.mgr
  · rw [sizeAt, hsame]
    exact h.size

lemma Shape.bounds (h : Shape heap l) (hb : b ∈ l) : heap.start ≤ b ∧ 64 ≤ sizeAt heap b ∧
    b + sizeAt heap b ≤ heap.limit ∧ sizeAt heap b < 2 ^ 31 ∧ heap.limit < 2 ^ 32 := by
  obtain ⟨hstart, hsize, hend⟩ := h.chain.bounds hb
  have hroom := h.room
  exact ⟨hstart, hsize, hend, by omega, h.limit⟩

lemma Shape.apart (h : Shape heap l) {c : ℕ} (hb : b ∈ l) (hc : c ∈ l) (hne : c ≠ b) :
    c < b ∨ b + sizeAt heap b ≤ c := by
  have hsize := (h.bounds hc).2.1
  have := h.chain.disjoint hb hc hne.symm
  omega

lemma search_spec (hlimit : heap.limit < 2 ^ 32) (esz : ℕ) {l : List ℕ} {c fuel : ℕ}
    (h : Chain (sizeAt heap) cacheLineSize c l heap.limit) (hne : c < heap.limit)
    (hfuel : l.length < fuel) :
    search heap esz fuel c = some none ∨ ∃ b ∈ l, search heap esz fuel c = some (some b) ∧
      (heap.mem b).busy = false ∧ esz ≤ sizeAt heap b := by
  induction l generalizing c fuel with
  | nil => exact absurd (show c = heap.limit from h) hne.ne
  | cons y ys ih =>
    obtain ⟨rfl, hunit, hrest⟩ := h
    obtain ⟨fuel, rfl⟩ := Nat.exists_eq_add_one.2 (Nat.zero_lt_of_lt hfuel)
    have hle := hrest.le
    have hadd : wadd y (heap.mem y).size = y + sizeAt heap y := wadd_of_lt (hle.trans_lt hlimit)
    have hpos : (heap.mem y).size ≠ 0 := (Nat.lt_of_lt_of_le (by decide) hunit).ne'
    rw [search]
    simp only [hadd, if_neg hpos]
    split_ifs with hskip hend
    · exact .inl rfl
    · obtain hnone | ⟨b, hb, hfound⟩ := ih hrest (not_le.1 hend) (Nat.lt_of_succ_lt_succ hfuel)
      · exact .inl hnone
      · exact .inr ⟨b, List.mem_cons_of_mem _ hb, hfound⟩
    · rw [not_or, Bool.not_eq_true, not_lt] at hskip
      exact .inr ⟨y, List.mem_cons_self, rfl, hskip⟩

lemma Shape.search (h : Shape heap l) (esz : ℕ) :
    KernelHeap.search heap esz (heap.limit + 1) (searchFrom heap esz) = some none ∨
      ∃ b ∈ l, KernelHeap.search heap esz (heap.limit + 1) (searchFrom heap esz) = some (some b) ∧
        (heap.mem b).busy = false ∧ esz ≤ sizeAt heap b := by
  have hstart : heap.start ∈ l := by
    have := h.bounds h.next
    exact h.chain.start_mem (by omega)
  have hfrom : searchFrom heap esz ∈ l := by
    rw [searchFrom]
    split_ifs
    · exact hstart
    · exact h.next
  obtain ⟨l₀, hchain, hsub⟩ := h.chain.drop hfrom (by decide)
  have hlen := hchain.length_mul_le
  have hbounds := h.bounds hfrom
  rw [cacheLineSize] at hlen
  obtain hnone | ⟨b, hb, hfound⟩ := search_spec h.limit esz hchain (by omega)
    (show l₀.length < heap.limit + 1 by omega)
  · exact .inl hnone
  · exact .inr ⟨b, ((hsub b).1 hb).1, hfound⟩

lemma takeBlock_split (hesz : 0 < esz) (hfit : esz + cacheLineSize ≤ sizeAt heap b)
    (hsize : sizeAt heap b < 2 ^ 31) (hend : b + sizeAt heap b < 2 ^ 32) :
    takeBlock heap b esz = { heap with
      next := b + esz
      mem := Function.update (Function.update heap.mem (b + esz)
        ⟨false, sizeAt heap b - esz, (heap.mem (b + esz)).heapMgr⟩) b ⟨true, esz, heap.addr⟩ } := by
  unfold sizeAt at *
  have hsub : wsub (heap.mem b).size esz = (heap.mem b).size - esz :=
    wsub_of_le (by omega) (by omega)
  have hadd : wadd b esz = b + esz := wadd_of_lt (by omega)
  have hrem : cacheLineSize ≤ (heap.mem b).size - esz := by omega
  have hne : b + esz ≠ b := by omega
  have h31 : size31 ((heap.mem b).size - esz) = (heap.mem b).size - esz :=
    Nat.mod_eq_of_lt (by omega)
  have h31' : size31 esz = esz := Nat.mod_eq_of_lt (by omega)
  simp only [takeBlock, setInfo, hsub, hrem, if_true, hadd, h31, h31', Function.update_self,
    Function.update_idem]

lemma takeBlock_whole (hfit : esz ≤ sizeAt heap b) (hsmall : sizeAt heap b < esz + cacheLineSize)
    (hsize : sizeAt heap b < 2 ^ 31) :
    takeBlock heap b esz = { heap with
      mem := Function.update heap.mem b ⟨true, sizeAt heap b, heap.addr⟩ } := by
  unfold sizeAt at *
  have hsub : wsub (heap.mem b).size esz = (heap.mem b).size - esz :=
    wsub_of_le (by omega) (by omega)
  have hrem : ¬cacheLineSize ≤ (heap.mem b).size - esz := by omega
  simp only [takeBlock, setInfo, hsub, hrem, if_false, Function.update_self, Function.update_idem]

/-- What taking the free block `b` leaves behind. -/
structure Taken (heap : HeapManager) (l : List ℕ) (heap' : HeapManager) (l' : List ℕ) (b esz : ℕ) :
    Prop where
  shape : Shape heap' l'
  keeps : KeepsBusy heap l heap' l' none
  sub : ∀ c ∈ l, c ∈ l'
  room : esz ≤ sizeAt heap' b
  busy : (heap'.mem b).busy = true
  mgr : (heap'.mem b).heapMgr = heap'.addr

lemma Shape.take_split (h : Shape heap l) (hb : b ∈ l) (hfree : (heap.mem b).busy = false)
    (hesz : cacheLineSize ≤ esz) (hfit : esz + cacheLineSize ≤ sizeAt heap b) :
    ∃ l', Taken heap l (takeBlock heap b esz) l' b esz := by
  obtain ⟨hstart, hunit, hend, hsize, hlimit⟩ := h.bounds hb
  have hpos : 0 < esz := Nat.lt_of_lt_of_le (by decide) hesz
  rw [takeBlock_split hpos hfit hsize (hend.trans_lt hlimit)]
  generalize hmem : Function.update (Function.update heap.mem (b + esz)
    ⟨false, sizeAt heap b - esz, (heap.mem (b + esz)).heapMgr⟩) b ⟨true, esz, heap.addr⟩ = mem
  have hself : mem b = ⟨true, esz, heap.addr⟩ := by simp [← hmem]
  have hnext : (mem (b + esz)).size = sizeAt heap b - esz := by
    rw [← hmem, Function.update_of_ne (by omega), Function.update_self]
  have hother : ∀ c ∈ l, c ≠ b → mem c = heap.mem c := by
    intro c hc hne
    have := h.apart hb hc hne
    have hline : 0 < cacheLineSize := by decide
    rw [← hmem, Function.update_of_ne hne, Function.update_of_ne (by omega)]
  obtain ⟨l', hchain, hl'⟩ := h.chain.cut (fun a => (mem a).size) hb (by decide) hesz hfit
    (by rw [hself]) hnext fun c hc hne => by rw [hother c hc hne]; rfl
  refine ⟨l', ⟨hchain, hlimit, h.room, (hl' _).2 (.inr rfl)⟩, ⟨rfl, fun c hc hbusy _ => ?_⟩,
    fun c hc => (hl' c).2 (.inl hc), ?_, ?_, ?_⟩
  · have hne : c ≠ b := by
      rintro rfl
      rw [hfree] at hbusy
      exact absurd hbusy (by decide)
    exact ⟨(hl' c).2 (.inl hc), hother c hc hne⟩
  · simp only [sizeAt, hself, le_refl]
  · simp only [hself]
  · simp only [hself]

lemma Shape.take_whole (h : Shape heap l) (hb : b ∈ l) (hfree : (heap.mem b).busy = false)
    (hfit : esz ≤ sizeAt heap b) (hsmall : sizeAt heap b < esz + cacheLineSize) :
    Taken heap l (takeBlock heap b esz) l b esz := by
  rw [takeBlock_whole hfit hsmall (h.bounds hb).2.2.2.1]
  generalize hmem : Function.update heap.mem b ⟨true, sizeAt heap b, heap.addr⟩ = mem
  have hself : mem b = ⟨true, sizeAt heap b, heap.addr⟩ := by simp [← hmem]
  have hother : ∀ c, c ≠ b → mem c = heap.mem c := by
    intro c hne
    rw [← hmem, Function.update_of_ne hne]
  have hsizes : ∀ c, (mem c).size = sizeAt heap c := by
    intro c
    by_cases hcb : c = b
    · rw [hcb, hself]
    · rw [hother c hcb]
      rfl
  refine ⟨⟨h.chain.congr fun c _ => hsizes c, h.limit, h.room, h.next⟩,
    ⟨rfl, fun c hc hbusy _ => ⟨hc, hother c ?_⟩⟩, fun c hc => hc, ?_, ?_, ?_⟩
  · rintro rfl
    rw [hfree] at hbusy
    exact absurd hbusy (by decide)
  · simp only [sizeAt, hself]
    exact hfit
  · simp only [hself]
  · simp only [hself]

lemma Shape.take (h : Shape heap l) (hb : b ∈ l) (hfree : (heap.mem b).busy = false)
    (hesz : cacheLineSize ≤ esz) (hfit : esz ≤ sizeAt heap b) :
    ∃ l', Taken heap l (takeBlock heap b esz) l' b esz := by
  by_cases hsplit : esz + cacheLineSize ≤ sizeAt heap b
  · exact h.take_split hb hfree hesz hsplit
  · exact ⟨l, h.take_whole hb hfree hfit (not_le.1 hsplit)⟩

lemma effectiveSize_spec {size : ℕ} (hsize : size + 72 ≤ 2 ^ 32) :
    size + sizeofInfo ≤ effectiveSize size ∧ cacheLineSize ≤ effectiveSize size := by
  have hadd : wadd size sizeofInfo = size + 8 := wadd_of_lt (by unfold sizeofInfo; omega)
  unfold effectiveSize arroundUp
  rw [hadd]
  unfold cacheLineSize sizeofInfo
  split_ifs <;> omega

/-- An allocation returns; when it returns a block, this one was free and is large enough. -/
lemma Shape.malloc (h : Shape heap l) {size : ℕ} (hsize : size + 72 ≤ 2 ^ 32) :
    heapManagerMalloc heap size = some (heap, none) ∨
      ∃ heap' l' b, heapManagerMalloc heap size = some (heap', some (b + sizeofInfo)) ∧
        Taken heap l heap' l' b (effectiveSize size) ∧ b ∈ l ∧ (heap.mem b).busy = false := by
  obtain ⟨-, hunit⟩ := effectiveSize_spec hsize
  simp only [heapManagerMalloc]
  obtain hnone | ⟨b, hb, hfound, hfree, hfit⟩ := h.search (effectiveSize size)
  · rw [hnone]
    exact .inl rfl
  · rw [hfound]
    obtain ⟨l', htaken⟩ := h.take hb hfree hunit hfit
    obtain ⟨-, hbunit, hend, -, hlimit⟩ := h.bounds hb
    have hptr : wadd b sizeofInfo = b + sizeofInfo := wadd_of_lt (by unfold sizeofInfo; omega)
    exact .inr ⟨_, l', b, by simp only [hptr], htaken, hb, hfree⟩

/-- What merging the blocks after the free block `b` leaves behind. -/
structure Merged (heap : HeapManager) (l : List ℕ) (heap' : HeapManager) (l' : List ℕ) (b : ℕ) :
    Prop where
  same : heap' = { heap with mem := heap'.mem }
  chain : Chain (sizeAt heap') cacheLineSize heap.start l' heap.limit
  headers : ∀ c ∈ l', c ≠ b → heap'.mem c = heap.mem c
  sub : ∀ c ∈ l', c ∈ l
  gone : ∀ c ∈ l, c ∉ l' → b < c ∧ (heap.mem c).busy = false

/-- The loop stops before a busy block or at the limit. The fuel covers what is left after `b`. -/
lemma mergeLoop_spec (fuel : ℕ) (hlimit : heap.limit < 2 ^ 32)
    (hroom : heap.limit < heap.start + 2 ^ 31)
    (h : Chain (sizeAt heap) cacheLineSize heap.start l heap.limit) (hb : b ∈ l)
    (hfuel : heap.limit < b + sizeAt heap b + fuel) :
    ∃ heap' l', mergeLoop heap.limit b fuel heap = some heap' ∧ Merged heap l heap' l' b := by
  induction fuel generalizing heap l with
  | zero =>
    have := h.bounds hb
    omega
  | succ fuel ih =>
    obtain ⟨hstart, hunit, hend⟩ := h.bounds hb
    have hline : cacheLineSize = 64 := rfl
    have hadd : wadd b (heap.mem b).size = b + sizeAt heap b := wadd_of_lt (hend.trans_lt hlimit)
    rw [mergeLoop]
    simp only [hadd]
    split_ifs with hstop
    · exact ⟨heap, l, rfl, rfl, h, fun _ _ _ => rfl, fun _ hc => hc, fun c hc hnot => absurd hc hnot⟩
    · obtain ⟨-, hlt, hfree⟩ : b + sizeAt heap b ≠ 0 ∧ b + sizeAt heap b < heap.limit ∧
          (heap.mem (b + sizeAt heap b)).busy = false := by simpa using hstop
      have hnext := (h.next_mem hb).resolve_left hlt.ne
      obtain ⟨-, hnunit, hnend⟩ := h.bounds hnext
      have h31 : size31 ((heap.mem b).size + (heap.mem (b + sizeAt heap b)).size) =
          sizeAt heap b + sizeAt heap (b + sizeAt heap b) :=
        Nat.mod_eq_of_lt (by unfold sizeAt at *; omega)
      rw [h31]
      obtain ⟨heap₁, hheap₁⟩ : ∃ heap₁, setInfo heap b { heap.mem b with
        size := sizeAt heap b + sizeAt heap (b + sizeAt heap b) } = heap₁ := ⟨_, rfl⟩
      rw [hheap₁]
      have hself : sizeAt heap₁ b = sizeAt heap b + sizeAt heap (b + sizeAt heap b) := by
        simp [← hheap₁, setInfo, sizeAt]
      have hother : ∀ c, c ≠ b → heap₁.mem c = heap.mem c := by
        intro c hc
        simp [← hheap₁, setInfo, hc]
      have hfields : heap₁.start = heap.start ∧ heap₁.limit = heap.limit := by
        rw [← hheap₁]
        exact ⟨rfl, rfl⟩
      obtain ⟨l₁, hchain, hl₁⟩ := h.join (sizeAt heap₁) hb (by decide) hnext hself fun c _ hc _ => by
        rw [sizeAt, hother c hc]
        rfl
      have hb₁ : b ∈ l₁ := (hl₁ b).2 ⟨hb, by omega⟩
      rw [← hfields.1, ← hfields.2] at hchain
      obtain ⟨heap', l', hmerge, hmerged⟩ := ih (by omega) (by omega) hchain hb₁ (by omega)
      rw [hfields.2] at hmerge
      refine ⟨heap', l', hmerge, ?_, ?_, ?_, ?_, ?_⟩
      · rw [hmerged.same, ← hheap₁]
        rfl
      · have hchain' := hmerged.chain
        rwa [hfields.1, hfields.2] at hchain'
      · intro c hc hne
        rw [hmerged.headers c hc hne, hother c hne]
      · exact fun c hc => ((hl₁ c).1 (hmerged.sub c hc)).1
      · intro c hc hnot
        by_cases hcn : c = b + sizeAt heap b
        · rw [hcn]
          exact ⟨by omega, hfree⟩
        · obtain ⟨hlt', hfree'⟩ := hmerged.gone c ((hl₁ c).2 ⟨hc, hcn⟩) hnot
          rw [hother c hlt'.ne'] at hfree'
          exact ⟨hlt', hfree'⟩

lemma free_of_merge {ptr : ℕ} (hpos : ptr ≠ 0) (hptr : wsub ptr sizeofInfo = b)
    (hmgr : (heap.mem b).heapMgr = heap.addr) (hmerge : mergeLoop heap.limit b (heap.limit + 1)
      (setInfo heap b { heap.mem b with busy := false }) = some heap') :
    heapManagerFree heap ptr =
      some { heap' with next := if b < heap'.next then b else heap'.next } := by
  have hlimit : (setInfo heap b { heap.mem b with busy := false }).limit = heap.limit := rfl
  rw [heapManagerFree, if_neg hpos]
  simp only [hptr, if_pos hmgr, hlimit, hmerge]
  split_ifs
  · rfl
  · rfl

lemma Shape.free (h : Shape heap l) (hx : LiveOk heap l x) :
    ∃ heap' l', heapManagerFree heap x.ptr = some heap' ∧ Shape heap' l' ∧
      KeepsBusy heap l heap' l' (some (x.ptr - sizeofInfo)) := by
  have hheader := hx.header
  have hinfo : sizeofInfo = 8 := rfl
  obtain ⟨b, hbdef⟩ : ∃ b, x.ptr - sizeofInfo = b := ⟨_, rfl⟩
  have hb := hx.block
  have hmgr := hx.mgr
  have hsize := hx.size
  rw [hbdef] at hb hmgr hsize ⊢
  obtain ⟨hstart, hunit, hend, hsmall, hlimit⟩ := h.bounds hb
  have hsub : wsub x.ptr sizeofInfo = b := by
    rw [wsub_of_le hheader (by omega), hbdef]
  obtain ⟨heap₁, hheap₁⟩ : ∃ heap₁, setInfo heap b { heap.mem b with busy := false } = heap₁ :=
    ⟨_, rfl⟩
  have hsizes : ∀ c, sizeAt heap₁ c = sizeAt heap c := by
    intro c
    by_cases hcb : c = b
    · simp [← hheap₁, hcb, setInfo, sizeAt]
    · simp [← hheap₁, hcb, setInfo, sizeAt]
  have hother : ∀ c, c ≠ b → heap₁.mem c = heap.mem c := by
    intro c hc
    simp [← hheap₁, setInfo, hc]
  have hfields : heap₁.addr = heap.addr ∧ heap₁.start = heap.start ∧ heap₁.limit = heap.limit ∧
      heap₁.next = heap.next := by
    rw [← hheap₁]
    exact ⟨rfl, rfl, rfl, rfl⟩
  obtain ⟨haddr, hstart₁, hlimit₁, hnext₁⟩ := hfields
  have hchain₁ : Chain (sizeAt heap₁) cacheLineSize heap₁.start l heap₁.limit := by
    rw [hstart₁, hlimit₁]
    exact h.chain.congr fun c _ => hsizes c
  obtain ⟨heap₂, l', hmerge, hmerged⟩ := mergeLoop_spec (heap.limit + 1) (by omega)
    (by rw [hstart₁, hlimit₁]; exact h.room) hchain₁ hb (by omega)
  rw [hlimit₁] at hmerge
  rw [← hheap₁] at hmerge
  have hresult := free_of_merge (by omega) hsub hmgr hmerge
  have hnext₂ : heap₂.next = heap.next := by
    rw [hmerged.same]
    exact hnext₁
  have hb' : b ∈ l' := by
    by_contra hnot
    exact absurd (hmerged.gone b hb hnot).1 (lt_irrefl b)
  have hnext : (if b < heap.next then b else heap.next) ∈ l' := by
    split_ifs with hlt
    · exact hb'
    · by_contra hnot
      exact hlt (hmerged.gone _ h.next hnot).1
  obtain ⟨mem, hheap₂⟩ : ∃ mem, heap₂ = { heap with mem := mem } := by
    refine ⟨heap₂.mem, ?_⟩
    rw [hmerged.same, ← hheap₁]
    rfl
  have hchain := hmerged.chain
  have hheaders := hmerged.headers
  rw [hstart₁, hlimit₁] at hchain
  subst hheap₂
  refine ⟨_, l', hresult, ⟨hchain, hlimit, h.room, hnext⟩, rfl, fun c hc hbusy hne => ?_⟩
  have hcb : c ≠ b := fun heq => hne (congrArg some heq.symm)
  have hc' : c ∈ l' := by
    by_contra hnot
    obtain ⟨-, hfree⟩ := hmerged.gone c hc hnot
    rw [hother c hcb, hbusy] at hfree
    exact absurd hfree (by decide)
  exact ⟨hc', (hheaders c hc' hcb).trans (hother c hcb)⟩

structure Inv (s : State) (l : List ℕ) : Prop where
  shape : Shape s.heap l
  live : ∀ x ∈ s.live, LiveOk s.heap l x
  nodup : (s.live.map Allocation.ptr).Nodup

variable {s t : State}

lemma inv_init (h : (machine (2 ^ 31)).init s) : ∃ l, Inv s l := by
  obtain ⟨addr, mem, heapStart, heapLimit, hlt, hlimit, hline, hroom, rfl⟩ := h
  have hsub : wsub heapLimit heapStart = heapLimit - heapStart := wsub_of_le hlt.le hlimit
  have h31 : size31 (heapLimit - heapStart) = heapLimit - heapStart := Nat.mod_eq_of_lt hroom
  have hsize : sizeAt (heapManagerInit addr mem heapStart heapLimit) heapStart =
      heapLimit - heapStart := by
    simp [heapManagerInit, sizeAt, hsub, h31]
  refine ⟨[heapStart], ⟨⟨rfl, ?_, ?_⟩, hlimit, ?_, List.mem_singleton.2 rfl⟩,
    fun x hx => absurd hx List.not_mem_nil, List.nodup_nil⟩
  · change cacheLineSize ≤ sizeAt _ heapStart
    rw [hsize]
    exact Nat.le_of_dvd (by omega) hline
  · change heapStart + sizeAt _ heapStart = heapLimit
    rw [hsize]
    omega
  · change heapLimit < heapStart + 2 ^ 31
    omega

lemma Inv.malloc (h : Inv s l) {size : ℕ} (hsize : size ≤ 2 ^ 30) :
    ∃ t l', step s (.malloc size) = some t ∧ Inv t l' := by
  rw [step, if_pos hsize]
  obtain hnone | ⟨heap', l', b, hsome, htaken, hb, hfree⟩ :=
    h.shape.malloc (show size + 72 ≤ 2 ^ 32 by omega)
  · exact ⟨s, l, by rw [hnone], h⟩
  · obtain ⟨hesz, -⟩ := effectiveSize_spec (show size + 72 ≤ 2 ^ 32 by omega)
    have hsub : b + sizeofInfo - sizeofInfo = b := Nat.add_sub_cancel _ _
    refine ⟨⟨heap', ⟨b + sizeofInfo, size⟩ :: s.live⟩, l', by rw [hsome], htaken.shape, ?_, ?_⟩
    · intro x hx
      rcases List.mem_cons.1 hx with rfl | hx
      · refine ⟨Nat.le_add_left _ _, ?_, ?_, ?_, ?_⟩
        · rw [hsub]
          exact htaken.sub b hb
        · rw [hsub]
          exact htaken.busy
        · rw [hsub]
          exact htaken.mgr
        · rw [hsub]
          exact hesz.trans htaken.room
      · exact (h.live x hx).keep htaken.keeps (by simp)
    · refine List.nodup_cons.2 ⟨fun hin => ?_, h.nodup⟩
      obtain ⟨x, hx, hptr⟩ := List.mem_map.1 hin
      have hbusy := (h.live x hx).busy
      change x.ptr = b + sizeofInfo at hptr
      rw [hptr, hsub, hfree] at hbusy
      exact absurd hbusy (by decide)

lemma Inv.free (h : Inv s l) {a : Allocation} (ha : a ∈ s.live) :
    ∃ t l', step s (.free a) = some t ∧ Inv t l' := by
  obtain ⟨heap', l', hcall, hshape, hkeep⟩ := h.shape.free (h.live a ha)
  have hnodup := List.Nodup.of_map _ h.nodup
  refine ⟨⟨heap', s.live.erase a⟩, l', by rw [step, if_pos ha, hcall], hshape, ?_,
    h.nodup.sublist (List.Sublist.map _ List.erase_sublist)⟩
  intro x hx
  obtain ⟨hne, hmem⟩ := hnodup.mem_erase_iff.1 hx
  have hxl := h.live x hmem
  refine hxl.keep hkeep fun heq => ?_
  -- two live allocations with one pointer would be one
  have hxh := hxl.header
  have hah := (h.live a ha).header
  have hsame := Option.some.inj heq
  exact hne (List.inj_on_of_nodup_map h.nodup hmem ha (by omega))

lemma Inv.not_inPayload (h : Inv s l) {a : ℕ} (ha : a ∈ l) : inPayload s a = false := by
  refine List.any_eq_false.2 fun x hx => ?_
  have hxl := h.live x hx
  have hheader := hxl.header
  have hsize := hxl.size
  have hunit := (h.shape.bounds ha).2.1
  have hinfo : sizeofInfo = 8 := rfl
  simp only [decide_eq_true_eq]
  rintro ⟨hlow, hhigh⟩
  by_cases heq : a = x.ptr - sizeofInfo
  · omega
  · have := h.shape.chain.disjoint ha hxl.block heq
    omega

lemma Inv.write (h : Inv s l) (f : ℕ → BlockInfo) :
    ∃ t l', step s (.write f) = some t ∧ Inv t l' := by
  obtain ⟨mem, hmem⟩ : ∃ mem, (fun a => if inPayload s a then f a else s.heap.mem a) = mem :=
    ⟨_, rfl⟩
  have hsame : ∀ a ∈ l, mem a = s.heap.mem a := by
    intro a ha
    simp [← hmem, h.not_inPayload ha]
  have hchain : Chain (sizeAt { s.heap with mem := mem }) cacheLineSize s.heap.start l
      s.heap.limit := h.shape.chain.congr fun a ha => congrArg BlockInfo.size (hsame a ha)
  refine ⟨{ s with heap := { s.heap with mem := mem } }, l, by rw [step, hmem],
    ⟨hchain, h.shape.limit, h.shape.room, h.shape.next⟩, fun x hx => ?_, h.nodup⟩
  exact (h.live x hx).keep (o := none) ⟨rfl, fun c hc _ _ => ⟨hc, hsame c hc⟩⟩ (by simp)

lemma inv_reach (h : (machine (2 ^ 31)).Reachable s) : ∃ l, Inv s l := by
  refine Machine.Reachable.invariant (I := fun s => ∃ l, Inv s l) (fun s hs => inv_init hs) ?_ h
  rintro s e t ⟨l, hinv⟩ hstep
  obtain ⟨t', l', ht', hinv'⟩ : ∃ t' l', step s e = some t' ∧ Inv t' l' := by
    cases e with
    | malloc size =>
      by_cases hsize : size ≤ 2 ^ 30
      · exact hinv.malloc hsize
      · have hnone : step s (.malloc size) = none := by rw [step, if_neg hsize]
        exact absurd (hnone.symm.trans hstep) (by simp)
    | free a =>
      by_cases ha : a ∈ s.live
      · exact hinv.free ha
      · have hnone : step s (.free a) = none := by rw [step, if_neg ha]
        exact absurd (hnone.symm.trans hstep) (by simp)
    | write f => exact hinv.write f
  obtain rfl : t' = t := Option.some.inj (ht'.symm.trans hstep)
  exact ⟨l', hinv'⟩

/-- The block chain between calls, the cursor, and the live payloads. -/
structure HeapOk (s : State) (l : List ℕ) : Prop where
  chain : Chain (sizeAt s.heap) cacheLineSize s.heap.start l s.heap.limit
  next : s.heap.next ∈ l
  live : ∀ x ∈ s.live, ∃ b ∈ l, x.ptr = b + sizeofInfo ∧ (s.heap.mem b).busy = true ∧
    x.ptr + x.size ≤ b + sizeAt s.heap b
  disjoint : s.live.Pairwise fun x y => x.ptr + x.size ≤ y.ptr ∨ y.ptr + y.size ≤ x.ptr

lemma Inv.heapOk (h : Inv s l) : HeapOk s l := by
  have hinfo : sizeofInfo = 8 := rfl
  refine ⟨h.shape.chain, h.shape.next, fun x hx => ?_, ?_⟩
  · have hxl := h.live x hx
    have hheader := hxl.header
    have hsize := hxl.size
    exact ⟨_, hxl.block, by omega, hxl.busy, by omega⟩
  · refine (List.pairwise_map.1 h.nodup).imp_of_mem fun {x y} hx hy hne => ?_
    have hxl := h.live x hx
    have hyl := h.live y hy
    have hxh := hxl.header
    have hyh := hyl.header
    have hxs := hxl.size
    have hys := hyl.size
    have := h.shape.chain.disjoint hxl.block hyl.block (by omega)
    omega

/-- In a heap of less than `2 ^ 31` bytes, after any sequence of calls, the blocks make a chain from
the start to the limit, and every call returns. -/
theorem kernel_heap_chain (s : State) (hs : (machine (2 ^ 31)).Reachable s) :
    (∃ l, HeapOk s l) ∧ (∀ size ≤ 2 ^ 30, (heapManagerMalloc s.heap size).isSome) ∧
      ∀ a ∈ s.live, (heapManagerFree s.heap a.ptr).isSome := by
  obtain ⟨l, hinv⟩ := inv_reach hs
  refine ⟨⟨l, hinv.heapOk⟩, fun size hsize => ?_, fun a ha => ?_⟩
  · obtain hnone | ⟨heap', l', b, hsome, -⟩ :=
      hinv.shape.malloc (show size + 72 ≤ 2 ^ 32 by omega)
    · rw [hnone]
      rfl
    · rw [hsome]
      rfl
  · obtain ⟨heap', l', hcall, -⟩ := hinv.shape.free (hinv.live a ha)
    rw [hcall]
    rfl

def onePage : State := ⟨heapManagerInit 0x80 (fun _ => ⟨false, 0, 0⟩) 0x1000 0x2000, []⟩

lemma onePage_init : (machine (2 ^ 31)).init onePage :=
  ⟨0x80, _, 0x1000, 0x2000, by decide, by decide, by decide, by decide, rfl⟩

theorem kernel_heap_chain_split : ∃ s, (machine (2 ^ 31)).run onePage
      [.malloc 100, .malloc 0, .free ⟨0x1008, 100⟩] = some s ∧ s.live = [⟨0x1088, 0⟩] ∧
    ∃ l, HeapOk s l := by
  obtain ⟨s, hs, hlive⟩ : ∃ s, (machine (2 ^ 31)).run onePage
      [.malloc 100, .malloc 0, .free ⟨0x1008, 100⟩] = some s ∧ s.live = [⟨0x1088, 0⟩] :=
    ⟨_, rfl, rfl⟩
  exact ⟨s, hs, hlive, (kernel_heap_chain s (Machine.Reachable.run (.init onePage_init) _ hs)).1⟩

/-- A heap of `2 ^ 31` bytes: the size of its first block does not fit in its header. -/
def twoGib : State := ⟨heapManagerInit 0x80 (fun _ => ⟨false, 0, 0⟩) 0x1000 0x80001000, []⟩

theorem kernel_heap_too_large : ¬∀ s, (machine (2 ^ 32)).Reachable s → ∃ l, HeapOk s l := by
  intro h
  obtain ⟨l, hok⟩ := h twoGib
    (.init ⟨0x80, _, 0x1000, 0x80001000, by decide, by decide, by decide, by decide, rfl⟩)
  have hstart := hok.chain.start_mem (by decide)
  exact absurd (hok.chain.bounds hstart).2.1 (by decide)

end Almos.KernelHeap
