import Almos.UserReallocBlocks

/-!
# What `realloc` keeps

The allocations of a program sit in blocks of their own. A block that is moved keeps its
contents and leaves the other blocks in use alone. A block from `malloc` that is too small by
at most the size of its header is returned as it is.
-/
namespace Almos.UserRealloc
open Word Bits ByteMemory BlockChain UserHeap

variable {heap heap' heap'' : ByteHeap} {l l' l'' : List ℕ} {x y : Allocation} {b c : ℕ}

/-- The block at `b` is behind the allocation `x`: the pointer follows the header, or a second
header that refers to the block. -/
structure LiveAt (heap : ByteHeap) (l : List ℕ) (x : Allocation) (b : ℕ) : Prop where
  mem : b ∈ l
  busy : (info heap b).busy = true
  ptr : (info heap b).ptr = 0
  place : x.ptr = b + 8 ∧ x.size + 8 ≤ (info heap b).size ∨
    b + 16 ≤ x.ptr ∧ (info heap (x.ptr - 8)).ptr = b ∧ x.size ≤ (info heap (x.ptr - 8)).size ∧
      x.ptr + (info heap (x.ptr - 8)).size ≤ b + (info heap b).size

namespace LiveAt

lemma bounds (h : LiveAt heap l x b) :
    b + 8 ≤ x.ptr ∧ x.ptr + x.size ≤ b + (info heap b).size := by
  obtain ⟨hptr, hsize⟩ | ⟨hptr, -, hsize, hend⟩ := h.place
  · omega
  · omega

lemma wsub_ptr (h : LiveAt heap l x b) (hend : b + (info heap b).size < 2 ^ 32) :
    wsub x.ptr sizeofInfo = x.ptr - 8 := by
  have hbounds := h.bounds
  unfold sizeofInfo
  exact wsub_of_le (by omega) (by omega)

lemma headerOf_eq (h : LiveAt heap l x b) (hpos : 0 < b)
    (hend : b + (info heap b).size < 2 ^ 32) : headerOf heap x.ptr = b := by
  unfold headerOf
  rw [h.wsub_ptr hend]
  obtain ⟨hptr, -⟩ | ⟨-, hinfo, -⟩ := h.place
  · have heq : x.ptr - 8 = b := by omega
    simp [heq, h.ptr]
  · simp only [hinfo]
    exact if_pos (by omega)

lemma keep (h : LiveAt heap l x b) (hg : Good heap l) {o : Option ℕ}
    (hkeep : KeepsBlocks heap l heap' l' o) (hne : o ≠ some b) : LiveAt heap' l' x b := by
  have hinfo := hkeep.info_eq hg.shape h.mem h.busy hne
  obtain ⟨hmem, hsame⟩ := hkeep.blocks b h.mem h.busy hne
  refine ⟨hmem, by rw [hinfo]; exact h.busy, by rw [hinfo]; exact h.ptr, ?_⟩
  rw [hinfo]
  obtain hplain | ⟨hptr, hrest⟩ := h.place
  · exact .inl hplain
  · right
    have hbounds := h.bounds
    have hheader : info heap' (x.ptr - 8) = info heap (x.ptr - 8) :=
      infoAt_congr (hsame.mono (by omega) (by omega))
    rw [hheader]
    exact ⟨hptr, hrest⟩

end LiveAt

lemma Good.pos (h : Good heap l) (hb : b ∈ l) : 0 < b := by
  have hstart := h.shape.start_pos
  have hbounds := h.bounds hb
  rw [view_start] at hstart
  omega

lemma Good.headerOf_eq (h : Good heap l) (hx : LiveAt heap l x b) : headerOf heap x.ptr = b := by
  have hbounds := h.bounds hx.mem
  exact hx.headerOf_eq (h.pos hx.mem) (by omega)

lemma Good.info_write (h : Good heap l) {mem : ByteMemory}
    (hmem : ∀ x, mem x ≠ heap.mem x → ∃ b ∈ l, b + 8 ≤ x ∧ x < b + (info heap b).size) {a : ℕ}
    (ha : a ∈ l ∨ heap.limit ≤ a) : infoAt mem a = info heap a := by
  refine infoAt_congr fun x hax hxa => ?_
  by_contra hne
  obtain ⟨b, hb, hlow, hhigh⟩ := hmem x hne
  have hbounds := h.bounds hb
  cases ha with
  | inl hal =>
    have hsize := h.bounds hal
    by_cases hab : a = b
    · omega
    · have hdis := h.shape.chain.disjoint hal hb hab
      simp only [sizeAt_view] at hdis
      omega
  | inr hge => omega

lemma Good.write (h : Good heap l) {mem : ByteMemory}
    (hmem : ∀ x, mem x ≠ heap.mem x → ∃ b ∈ l, b + 8 ≤ x ∧ x < b + (info heap b).size) :
    Good { heap with mem := mem } l :=
  ⟨h.shape.congr fun _ ha => h.info_write hmem ha, h.limit, h.aligned⟩

lemma Good.keepsBlocks_write (h : Good heap l) {mem : ByteMemory} (hb : b ∈ l)
    (hmem : ∀ x, mem x ≠ heap.mem x → b + 8 ≤ x ∧ x < b + (info heap b).size) :
    KeepsBlocks heap l { heap with mem := mem } l (some b) := by
  have hbounds := h.bounds hb
  refine ⟨rfl, le_rfl, ?_, ?_⟩
  · intro c hc _ hne
    have hcb : c ≠ b := fun heq => hne (by rw [heq])
    have hdis := h.shape.chain.disjoint hc hb hcb
    simp only [sizeAt_view] at hdis
    refine ⟨hc, fun x hcx hxc => ?_⟩
    by_contra hdiff
    have := hmem x hdiff
    omega
  · intro x hx
    by_contra hdiff
    have := hmem x hdiff
    change x < heap.start ∨ heap.limit ≤ x at hx
    omega

lemma KeepsBlocks.trans_new (hs : Shape (view heap) l) (h₁ : KeepsBlocks heap l heap' l' none)
    (h₂ : KeepsBlocks heap' l' heap'' l'' (some b))
    (hnew : ∀ c ∈ l, (info heap c).busy = true → c ≠ b) :
    KeepsBlocks heap l heap'' l'' none := by
  have htrans := h₁.trans hs h₂
  refine ⟨htrans.start, htrans.limit, ?_, htrans.outside⟩
  intro c hc hbusy _
  exact htrans.blocks c hc hbusy fun heq => hnew c hc hbusy (by simpa using heq.symm)

/-- The block at `b` is behind the allocation `x` and was not in use before. -/
structure NewAt (heap : ByteHeap) (l : List ℕ) (heap' : ByteHeap) (l' : List ℕ) (x : Allocation)
    (b : ℕ) : Prop where
  live : LiveAt heap' l' x b
  unused : ∀ c ∈ l, (info heap c).busy = true → c ≠ b

/-- What an allocation of `size` bytes leaves behind. -/
def Allocates (heap : ByteHeap) (l : List ℕ) (size : ℕ)
    (result : Option (ByteHeap × Option ℕ)) : Prop :=
  ∃ heap' l' r, result = some (heap', r) ∧ Good heap' l' ∧ KeepsBlocks heap l heap' l' none ∧
    ∀ ptr, r = some ptr → ∃ b, NewAt heap l heap' l' ⟨ptr, size⟩ b

def AllocatesIn (heap : ByteHeap) (l : List ℕ) (size : ℕ)
    (result : Option (ByteHeap × Option ℕ)) : Prop :=
  ∃ heap' l' r, result = some (heap', r) ∧ Good heap' l' ∧ KeepsBlocks heap l heap' l' none ∧
    (∀ a ∈ l, a ∈ l') ∧ ∀ ptr, r = some ptr → ∃ b, NewAt heap l heap' l' ⟨ptr, size⟩ b

lemma AllocatesIn.allocates {size : ℕ} {result : Option (ByteHeap × Option ℕ)}
    (h : AllocatesIn heap l size result) : Allocates heap l size result := by
  obtain ⟨heap', l', r, hresult, hgood, hkeep, -, hnew⟩ := h
  exact ⟨heap', l', r, hresult, hgood, hkeep, hnew⟩

lemma NewBlock.newAt {size : ℕ} (h : NewBlock heap l heap' l' size b) :
    NewAt heap l heap' l' ⟨b + sizeofInfo, size⟩ b := by
  obtain ⟨room, hroom, hinfo⟩ := h.header
  refine ⟨⟨h.mem, by rw [hinfo], by rw [hinfo], .inl ⟨rfl, ?_⟩⟩, h.unused⟩
  rw [hinfo]
  exact hroom

lemma Good.malloc (h : Good heap l) {size : ℕ} (hsize : size + 72 ≤ 2 ^ 32) (grants : ℕ) :
    AllocatesIn heap l size (UserRealloc.malloc heap size grants) := by
  obtain ⟨heap', l', r, hloop, hgood, hkeep, hsub, hnew⟩ :=
    mallocLoop_spec hsize mallocLimit 0 heap l grants h
  refine ⟨heap', l', r, hloop, hgood, hkeep, hsub, ?_⟩
  intro ptr hptr
  obtain ⟨b, rfl, hblock⟩ := hnew ptr hptr
  exact ⟨b, hblock.newAt⟩

lemma arroundUp_page {size : ℕ} (hsize : size + 8192 ≤ 2 ^ 32) :
    ∃ rounded, arroundUp size pageSize % 2 ^ 32 = rounded ∧ size ≤ rounded ∧
      wadd rounded pageSize = rounded + 4096 ∧ rounded + 4096 + 72 ≤ 2 ^ 32 := by
  refine ⟨_, rfl, ?_⟩
  have hpage : pageSize = 4096 := rfl
  have hround : size ≤ arroundUp size pageSize ∧ arroundUp size pageSize + 8192 ≤ 2 ^ 32 := by
    unfold arroundUp
    rw [hpage]
    split_ifs <;> omega
  obtain ⟨rounded, hrounded⟩ : ∃ rounded, arroundUp size pageSize = rounded := ⟨_, rfl⟩
  rw [hrounded] at hround ⊢
  rw [Nat.mod_eq_of_lt (by omega), wadd_of_lt (by omega), hpage]
  omega

/-- The pointer of `valloc`: a header before it lies in the payload, since blocks are at
multiples of 8. -/
lemma valloc_ptr (h8 : 8 ∣ b) (hend : b + 8 + 4096 < 2 ^ 32) :
    ∃ ptr, wsub (wadd (b + sizeofInfo) pageSize) ((b + sizeofInfo) % pageSize) = ptr ∧
      pageSize ∣ ptr ∧ b + 16 ≤ ptr ∧ ptr ≤ b + 8 + 4096 ∧ wsub ptr sizeofInfo = ptr - 8 ∧
        wsub (b + sizeofInfo) sizeofInfo = b := by
  refine ⟨_, rfl, ?_⟩
  have hhead : sizeofInfo = 8 := rfl
  have hpage : pageSize = 4096 := rfl
  rw [hhead, hpage, wadd_of_lt (by omega), wsub_of_le (by omega) (by omega),
    wsub_of_le (by omega) (by omega), wsub_of_le (by omega) (by omega)]
  omega

lemma Good.forward (h : Good heap l) (hb : b ∈ l) {room ptr size : ℕ}
    (hinfo : info heap b = ⟨true, room, 0⟩) (hlow : b + 16 ≤ ptr) (hhigh : ptr + size ≤ b + room) :
    Good (setInfo heap (ptr - 8) ⟨true, size, b⟩) l ∧
      KeepsBlocks heap l (setInfo heap (ptr - 8) ⟨true, size, b⟩) l (some b) ∧
        LiveAt (setInfo heap (ptr - 8) ⟨true, size, b⟩) l ⟨ptr, size⟩ b := by
  have hbounds := h.bounds hb
  rw [hinfo] at hbounds
  simp only at hbounds
  have hmem : ∀ x, storeInfo heap.mem (ptr - 8) ⟨true, size, b⟩ x ≠ heap.mem x →
      b + 8 ≤ x ∧ x < b + (info heap b).size := by
    intro x hx
    by_contra hout
    refine hx (storeInfo_of_outside ?_)
    rw [hinfo] at hout
    simp only at hout
    omega
  have hsame : info (setInfo heap (ptr - 8) ⟨true, size, b⟩) b = ⟨true, room, 0⟩ :=
    (h.info_write (fun x hx => ⟨b, hb, hmem x hx⟩) (.inl hb)).trans hinfo
  have hheader : info (setInfo heap (ptr - 8) ⟨true, size, b⟩) (ptr - 8) = ⟨true, size, b⟩ :=
    infoAt_storeInfo_self (by simp only; omega) (by simp only; omega)
  refine ⟨h.write fun x hx => ⟨b, hb, hmem x hx⟩, h.keepsBlocks_write hb hmem,
    hb, by rw [hsame], by rw [hsame], .inr ⟨hlow, ?_, ?_, ?_⟩⟩
  · rw [hheader]
  · rw [hheader]
  · rw [hheader, hsame]
    exact hhigh

lemma Good.valloc (h : Good heap l) {size : ℕ} (hsize : size + 8192 ≤ 2 ^ 32) (grants : ℕ) :
    AllocatesIn heap l size (UserRealloc.valloc heap size grants) := by
  obtain ⟨rounded, hround, hle, hadd, hwrap⟩ := arroundUp_page hsize
  obtain ⟨heap', l', r, hloop, hgood, hkeep, hsub', hnew⟩ :=
    mallocLoop_spec hwrap mallocLimit 0 heap l grants h
  have hcall : UserRealloc.malloc heap (rounded + 4096) grants = some (heap', r) := hloop
  cases r with
  | none =>
    refine ⟨heap', l', none, ?_, hgood, hkeep, hsub', by simp⟩
    simp only [UserRealloc.valloc, hround, hadd, hcall]
  | some block =>
    obtain ⟨b, rfl, hb, ⟨room, hroom, hinfo⟩, hunused⟩ := hnew block rfl
    have hbounds := hgood.bounds hb
    have hhead : sizeofInfo = 8 := rfl
    rw [hinfo] at hbounds
    simp only at hbounds
    obtain ⟨ptr, hptr, -, hlow, hhigh, hsub, hblock⟩ :=
      valloc_ptr (hgood.aligned b hb) (by omega)
    have hresult : UserRealloc.valloc heap size grants =
        some (setInfo heap' (ptr - 8) ⟨true, size, b⟩, some ptr) := by
      simp only [UserRealloc.valloc, hround, hadd, hcall, hptr, hsub, hblock]
    obtain ⟨hgood', hwrite, hlive⟩ :=
      hgood.forward hb hinfo hlow (show ptr + size ≤ b + room by omega)
    refine ⟨_, l', _, hresult, hgood', hkeep.trans_new h.shape hwrite hunused, hsub', ?_⟩
    intro q hq
    obtain rfl : ptr = q := by simpa using hq
    exact ⟨b, hlive, hunused⟩

def NoWrap (heap : ByteHeap) (ptr size : ℕ) : Prop :=
  if (info heap (wsub ptr sizeofInfo)).ptr = 0 then size + 72 ≤ 2 ^ 32 else size + 8192 ≤ 2 ^ 32

lemma Good.newZone (h : Good heap l) (hx : LiveAt heap l x b) {size : ℕ}
    (hwrap : NoWrap heap x.ptr size) (hold : (info heap (x.ptr - 8)).size < size) (grants : ℕ) :
    ∃ heap' l' r, UserRealloc.newZone heap x.ptr size grants = some (heap', r) ∧ Good heap' l' ∧
      KeepsBlocks heap l heap' l' none ∧ ∀ q, r = some q →
        ∃ b', NewAt heap l heap' l' ⟨q, size⟩ b' ∧
          ∀ i < (info heap (x.ptr - 8)).size, x.ptr + i < b + (info heap b).size →
            heap'.mem (q + i) = heap.mem (x.ptr + i) := by
  have hxb := h.bounds hx.mem
  have hsub := hx.wsub_ptr (by omega)
  rw [NoWrap, hsub] at hwrap
  obtain ⟨alloc, halloc⟩ : ∃ alloc, (if (info heap (x.ptr - 8)).ptr = 0 then
      UserRealloc.malloc heap size grants else UserRealloc.valloc heap size grants) = alloc :=
    ⟨_, rfl⟩
  have hallocates : Allocates heap l size alloc := by
    rw [← halloc]
    split_ifs at hwrap ⊢
    · exact (h.malloc hwrap grants).allocates
    · exact (h.valloc hwrap grants).allocates
  obtain ⟨heap₁, l₁, r, rfl, hgood, hkeep, hnew⟩ := hallocates
  cases r with
  | none =>
    refine ⟨heap₁, l₁, none, ?_, hgood, hkeep, by simp⟩
    simp only [UserRealloc.newZone, hsub, halloc]
  | some q =>
    obtain ⟨b', hlive, hunused⟩ := hnew q rfl
    have hq := hlive.bounds
    simp only at hq
    obtain ⟨old, hsize⟩ : ∃ old, (info heap (x.ptr - 8)).size = old := ⟨_, rfl⟩
    rw [hsize] at hold ⊢
    have hresult : UserRealloc.newZone heap x.ptr size grants =
        some ({ heap₁ with mem := copy heap₁.mem q x.ptr old }, some q) := by
      simp only [UserRealloc.newZone, hsub, halloc, hsize]
    have hmem : ∀ y, copy heap₁.mem q x.ptr old y ≠ heap₁.mem y →
        b' + 8 ≤ y ∧ y < b' + (info heap₁ b').size := by
      intro y hy
      by_contra hout
      exact hy (copy_of_outside (by omega))
    have hwrite := hgood.keepsBlocks_write hlive.mem hmem
    refine ⟨_, l₁, _, hresult, hgood.write fun y hy => ⟨b', hlive.mem, hmem y hy⟩,
      hkeep.trans_new h.shape hwrite hunused, ?_⟩
    intro q' hq'
    obtain rfl : q = q' := by simpa using hq'
    refine ⟨b', ⟨⟨hlive.mem, ?_, ?_, ?_⟩, hunused⟩, ?_⟩
    · rw [info, hgood.info_write (fun y hy => ⟨b', hlive.mem, hmem y hy⟩) (.inl hlive.mem)]
      exact hlive.busy
    · rw [info, hgood.info_write (fun y hy => ⟨b', hlive.mem, hmem y hy⟩) (.inl hlive.mem)]
      exact hlive.ptr
    · have hheader : infoAt (copy heap₁.mem q x.ptr old) (q - 8) = info heap₁ (q - 8) :=
        infoAt_congr fun y _ hy => copy_of_outside (by omega)
      simp only [info, hheader,
        hgood.info_write (fun y hy => ⟨b', hlive.mem, hmem y hy⟩) (.inl hlive.mem)]
      exact hlive.place
    · intro i hi hend
      change copy heap₁.mem q x.ptr old (q + i) = _
      rw [copy_inside hi]
      have hxp := hx.bounds
      exact (hkeep.blocks b hx.mem hx.busy (by simp)).2 _ (by omega) hend

/-- The allocation `x` in the block at `b` was moved to `q`, in the block at `b'`. -/
structure Moved (heap : ByteHeap) (l : List ℕ) (x : Allocation) (b : ℕ) (heap' : ByteHeap)
    (l' : List ℕ) (q size b' : ℕ) : Prop where
  live : LiveAt heap' l' ⟨q, size⟩ b'
  ne : q ≠ x.ptr
  unused : ∀ c ∈ l, (info heap c).busy = true → c ≠ b'
  chain : Chain (sizeAt (view heap')) cachelineSize heap'.start l' heap'.limit
  limit : heap'.limit < 2 ^ 31
  keeps : KeepsBlocks heap l heap' l' (some b)
  contents : ∀ i < (info heap (x.ptr - 8)).size, x.ptr + i < b + (info heap b).size →
    heap'.mem (q + i) = heap.mem (x.ptr + i)
  released : ∀ y, b + 8 ≤ y → y < b + (info heap b).size → heap'.mem y = heap.mem y

lemma LiveAt.realloc_eq (hx : LiveAt heap l x b) (h : Good heap l) {size : ℕ} (hsize : 0 < size)
    (grants : ℕ) : UserRealloc.realloc heap x.ptr size grants =
      if size ≤ (info heap (x.ptr - 8)).size then some (heap, some x.ptr)
      else freeOld (b + sizeofInfo) (UserRealloc.newZone heap x.ptr size grants) := by
  have hbounds := h.bounds hx.mem
  have hxb := hx.bounds
  have hptr : x.ptr ≠ 0 := by omega
  have hblock : wadd b sizeofInfo = b + sizeofInfo := wadd_of_lt (by unfold sizeofInfo; omega)
  simp only [UserRealloc.realloc, if_neg hptr, if_neg (Nat.ne_of_gt hsize),
    hx.wsub_ptr (by omega), h.headerOf_eq hx, hblock]

lemma Good.realloc_moves (h : Good heap l) (hx : LiveAt heap l x b) {size : ℕ} (hpos : 0 < size)
    (hwrap : NoWrap heap x.ptr size) (hold : (info heap (x.ptr - 8)).size < size) (grants : ℕ) :
    ∃ heap' r, UserRealloc.realloc heap x.ptr size grants = some (heap', r) ∧
      (r = none → ∃ l', Good heap' l' ∧ KeepsBlocks heap l heap' l' none) ∧
      ∀ q, r = some q → ∃ l' b', Moved heap l x b heap' l' q size b' ∧
        ((∀ heap'', UserRealloc.newZone heap x.ptr size grants = some (heap'', some q) →
          ¬SwallowsLast (view heap'') b) → Good heap' l') := by
  obtain ⟨heap₁, l₁, r, hzone, hgood, hkeep, hnew⟩ := h.newZone hx hwrap hold grants
  have hcall := hx.realloc_eq h hpos grants
  rw [if_neg (by omega), hzone] at hcall
  cases r with
  | none => exact ⟨heap₁, none, hcall, fun _ => ⟨l₁, hgood, hkeep⟩, by simp⟩
  | some q =>
    obtain ⟨b', ⟨hlive, hunused⟩, hcontents⟩ := hnew q rfl
    have hinfo := hkeep.info_eq h.shape hx.mem hx.busy (by simp)
    obtain ⟨hb, hsame⟩ := hkeep.blocks b hx.mem hx.busy (by simp)
    have hne : b' ≠ b := Ne.symm (hunused b hx.mem hx.busy)
    have hbounds := hgood.bounds hb
    have hhead : sizeofInfo = 8 := rfl
    have hptr : (info heap₁ b).ptr = 0 := by rw [hinfo]; exact hx.ptr
    have hheader : headerOf heap₁ (b + sizeofInfo) = b := by
      have hsub : wsub (b + sizeofInfo) sizeofInfo = b := by
        rw [wsub_of_le (by omega) (by omega)]
        omega
      simp [headerOf, hsub, hptr]
    obtain ⟨heap', l', hfree, hchain, hkeep', hlimit, houtside, hgood'⟩ :=
      hgood.free hb hptr hheader (by omega)
    simp only [freeOld, hfree, Option.map_some] at hcall
    refine ⟨heap', some q, hcall, by simp, ?_⟩
    intro q' hq'
    obtain rfl : q = q' := by simpa using hq'
    have hlive' := hlive.keep hgood hkeep' (by simpa using Ne.symm hne)
    have hmoved : q ≠ x.ptr := by
      have hq := hlive.bounds
      have hxp := hx.bounds
      have hdis := hgood.shape.chain.disjoint hlive.mem hb hne
      simp only [sizeAt_view, hinfo] at hdis hq
      omega
    refine ⟨l', b', ⟨hlive', hmoved, hunused, hchain, by omega, hkeep.trans h.shape hkeep', ?_, ?_⟩, ?_⟩
    · intro i hi hend
      have hq := hlive.bounds
      simp only at hq
      rw [← hcontents i hi hend]
      exact (hkeep'.blocks b' hlive.mem hlive.busy (by simpa using Ne.symm hne)).2 _ (by omega)
        (by omega)
    · intro y hlow hhigh
      rw [houtside y (.inr hlow), hsame y (by omega) hhigh]
    · intro hlast
      exact hgood' (hlast heap₁ hzone)

def payload (heap : ByteHeap) (ptr : ℕ) : ℕ :=
  headerOf heap ptr + (info heap (headerOf heap ptr)).size - ptr

def InBlock (heap : ByteHeap) (b x : ℕ) : Prop := b ≤ x ∧ x < b + (info heap b).size

def InUse (heap heap' : ByteHeap) (x : ℕ) : Prop :=
  x < heap.start ∨ heap'.limit ≤ x ∨
    ∃ c, IsBlock (view heap) c ∧ (info heap c).busy = true ∧ InBlock heap c x

/-- The allocation at `p` was made `size` bytes long at `q`: it has room in a block in use, the
first `kept` bytes that fit are as before, and what else was written is the header of the block
freed, or memory that no block in use held. -/
structure Reallocated (heap heap' : ByteHeap) (p q size kept : ℕ) : Prop where
  block : IsBlock (view heap') (headerOf heap' q)
  busy : (info heap' (headerOf heap' q)).busy = true
  room : size ≤ payload heap' q
  contents : ∀ i < min size kept, heap'.mem (q + i) = heap.mem (p + i)
  frame : ∀ x, heap'.mem x ≠ heap.mem x → InBlock heap' (headerOf heap' q) x ∨
    q ≠ p ∧ (headerOf heap p ≤ x ∧ x < headerOf heap p + sizeofInfo ∨ ¬InUse heap heap' x)

/-- The in-place test of `realloc` answers as it should: it compares the request with the size
in the header, which for a block from `malloc` counts the header. -/
def InPlaceOk (heap : ByteHeap) (ptr size : ℕ) : Prop :=
  (info heap (wsub ptr sizeofInfo)).ptr = 0 →
    size ≤ payload heap ptr ∨ payload heap ptr + sizeofInfo < size

lemma Good.isBlock (h : Good heap l) (hc : c ∈ l) : IsBlock (view heap) c :=
  isBlock_of_mem h.shape.chain (fun _ => .start h.shape.start_lt) c hc

lemma Moved.reallocated {q size kept : ℕ} {b' : ℕ} (h : Moved heap l x b heap' l' q size b')
    (hg : Good heap l) (hx : LiveAt heap l x b) (hkept : kept ≤ (info heap (x.ptr - 8)).size)
    (hend : x.ptr + kept ≤ b + (info heap b).size) :
    Reallocated heap heap' x.ptr q size kept := by
  have hunit : cachelineSize = 64 := rfl
  have hbounds := h.chain.bounds h.live.mem
  rw [sizeAt_view] at hbounds
  have hstart := hg.shape.start_pos
  rw [view_start, ← h.keeps.start] at hstart
  have hlimit := h.limit
  have hlive := h.live.bounds
  simp only at hlive
  have hheader : headerOf heap' q = b' := h.live.headerOf_eq (by omega) (by omega)
  have hheader₀ := hg.headerOf_eq hx
  refine ⟨?_, ?_, ?_, ?_, ?_⟩
  · rw [hheader]
    exact isBlock_of_mem h.chain (fun hlt => .start hlt) b' h.live.mem
  · rw [hheader]
    exact h.live.busy
  · rw [payload, hheader]
    omega
  · intro i hi
    exact h.contents i (by omega) (by omega)
  · intro y hy
    refine .inr ⟨h.ne, ?_⟩
    rw [hheader₀]
    by_cases hhead : b ≤ y ∧ y < b + sizeofInfo
    · exact .inl hhead
    · right
      rintro (hlow | hhigh | ⟨c, hc, hbusy, hin⟩)
      · exact hy (h.keeps.outside y (.inl hlow))
      · exact hy (h.keeps.outside y (.inr hhigh))
      · have hcl := hg.shape.mem_of_isBlock hc
        unfold sizeofInfo at hhead
        unfold InBlock at hin
        by_cases hcb : c = b
        · subst hcb
          exact hy (h.released y (by omega) hin.2)
        · exact hy ((h.keeps.blocks c hcl hbusy (by simpa using Ne.symm hcb)).2 y hin.1 hin.2)

def owners (heap : ByteHeap) (live : List Allocation) : List ℕ :=
  live.map fun x => headerOf heap x.ptr

lemma owners_congr {live : List Allocation}
    (h : ∀ x ∈ live, headerOf heap' x.ptr = headerOf heap x.ptr) :
    owners heap' live = owners heap live :=
  List.map_congr_left h

structure Inv (s : State) (l : List ℕ) : Prop where
  good : Good s.heap l
  live : ∀ x ∈ s.live, LiveAt s.heap l x (headerOf s.heap x.ptr)
  nodup : (owners s.heap s.live).Nodup

/-- The condition on a call: sizes do not wrap when they are rounded, the in-place test answers
as it should, and no `free` merges the block `heap_mgr.last` points to. -/
def EventOk (s : State) : Event → Prop
  | .malloc size _ => size + 72 ≤ 2 ^ 32
  | .valloc size _ => size + 8192 ≤ 2 ^ 32
  | .realloc a size grants => NoWrap s.heap a.ptr size ∧ InPlaceOk s.heap a.ptr size ∧
      ∀ heap q, newZone s.heap a.ptr size grants = some (heap, some q) →
        (info s.heap (wsub a.ptr sizeofInfo)).size < size →
          ¬SwallowsLast (view heap) (headerOf s.heap a.ptr)
  | .free a => ¬SwallowsLast (view s.heap) (headerOf s.heap a.ptr)
  | .write _ => True

variable {s t : State}

lemma inv_init (h : machine.init s) : ∃ l, Inv s l := by
  obtain ⟨bssEnd, reported, hpos, hroom, halign, hpages, rfl⟩ := h
  have hshape := shape_init hpos hroom
  have husr : usrLimit < 2 ^ 31 := by decide
  have h31 : size31 (firstSize reported) = firstSize reported := Nat.mod_eq_of_lt (by omega)
  have hlimit : wadd bssEnd (firstSize reported) = bssEnd + firstSize reported :=
    wadd_of_lt (by omega)
  have hzero : infoAt (fun _ => 0) = fun _ => zeroInfo := by
    funext a
    simp [infoAt, load32, zeroInfo]
  have htracks : Tracks { heapManagerInit bssEnd reported with mem := fun _ => 0 }
      (heapManagerInit bssEnd reported) (UserHeap.heapManagerInit bssEnd reported) [bssEnd] := by
    refine ⟨rfl, rfl, rfl, rfl, rfl, ?_, ?_⟩
    · intro a ha
      simp only [UserHeap.heapManagerInit, h31, ← hzero]
      exact infoAt_storeInfo (i := ⟨false, firstSize reported, 0⟩) (by simp only; omega) (by simp)
        (ha bssEnd (by simp))
    · intro x hx
      exact storeInfo_of_outside (hx bssEnd (by simp))
  have h8 : 8 ∣ bssEnd := Dvd.dvd.trans (by decide) halign
  refine ⟨[bssEnd], ⟨htracks.shape hshape (by simp), ?_, by simpa using h8⟩, by simp, by simp [owners]⟩
  change 8 ∣ wadd bssEnd (firstSize reported)
  rw [hlimit]
  exact Dvd.dvd.add h8 (Dvd.dvd.trans (by decide) hpages)

lemma Inv.keep (h : Inv s l) (hg : Good heap' l') {o : Option ℕ}
    (hkeep : KeepsBlocks s.heap l heap' l' o) {live : List Allocation}
    (hsub : live.Sublist s.live) (hne : ∀ x ∈ live, o ≠ some (headerOf s.heap x.ptr)) :
    Inv ⟨heap', live⟩ l' ∧ ∀ x ∈ live, headerOf heap' x.ptr = headerOf s.heap x.ptr := by
  have hlive : ∀ x ∈ live, LiveAt heap' l' x (headerOf s.heap x.ptr) := fun x hx =>
    (h.live x (hsub.subset hx)).keep h.good hkeep (hne x hx)
  have hheader : ∀ x ∈ live, headerOf heap' x.ptr = headerOf s.heap x.ptr := fun x hx =>
    hg.headerOf_eq (hlive x hx)
  refine ⟨⟨hg, ?_, ?_⟩, hheader⟩
  · intro x hx
    change LiveAt heap' l' x (headerOf heap' x.ptr)
    rw [hheader x hx]
    exact hlive x hx
  · change (owners heap' live).Nodup
    rw [owners_congr hheader]
    exact h.nodup.sublist (hsub.map _)

lemma Inv.cons {live : List Allocation} (h : Inv ⟨heap, live⟩ l) (hy : LiveAt heap l y b)
    (hnew : ∀ x ∈ live, headerOf heap x.ptr ≠ b) : Inv ⟨heap, y :: live⟩ l := by
  have hheader : headerOf heap y.ptr = b := h.good.headerOf_eq hy
  refine ⟨h.good, ?_, ?_⟩
  · intro x hx
    cases List.mem_cons.mp hx with
    | inl heq =>
      subst heq
      change LiveAt heap l x (headerOf heap x.ptr)
      rw [hheader]
      exact hy
    | inr hmem => exact h.live x hmem
  · change (headerOf heap y.ptr :: owners heap live).Nodup
    refine List.nodup_cons.mpr ⟨?_, h.nodup⟩
    intro hin
    obtain ⟨x, hx, hxy⟩ := List.mem_map.mp hin
    exact hnew x hx (hxy.trans hheader)

lemma Inv.allocated (h : Inv s l) {size : ℕ} {r : Option ℕ} (hgood : Good heap' l')
    (hkeep : KeepsBlocks s.heap l heap' l' none)
    (hnew : ∀ ptr, r = some ptr → ∃ b, NewAt s.heap l heap' l' ⟨ptr, size⟩ b) :
    Inv (UserRealloc.allocated s.live size (heap', r)) l' := by
  obtain ⟨hinv, hheader⟩ := h.keep hgood hkeep (List.Sublist.refl _) (by simp)
  cases r with
  | none => exact hinv
  | some ptr =>
    obtain ⟨b, hlive, hunused⟩ := hnew ptr rfl
    refine hinv.cons hlive ?_
    intro x hx
    have hxl := h.live x hx
    rw [hheader x hx]
    exact hunused _ hxl.mem hxl.busy

lemma Inv.allocates (h : Inv s l) {size : ℕ} {result : Option (ByteHeap × Option ℕ)}
    (hresult : Allocates s.heap l size result) :
    ∃ t l', result.map (UserRealloc.allocated s.live size) = some t ∧ Inv t l' := by
  obtain ⟨heap', l', r, rfl, hgood, hkeep, hnew⟩ := hresult
  exact ⟨_, l', rfl, h.allocated hgood hkeep hnew⟩

lemma Inv.erase_ne (h : Inv s l) {a : Allocation} (ha : a ∈ s.live) (hx : x ∈ s.live.erase a) :
    headerOf s.heap x.ptr ≠ headerOf s.heap a.ptr := by
  have hnodup := List.Nodup.of_map _ h.nodup
  obtain ⟨hne, hmem⟩ := hnodup.mem_erase_iff.mp hx
  exact fun heq => hne (List.inj_on_of_nodup_map h.nodup hmem ha heq)

lemma Inv.free (h : Inv s l) {a : Allocation} (ha : a ∈ s.live)
    (hlast : ¬SwallowsLast (view s.heap) (headerOf s.heap a.ptr)) :
    ∃ t l', step s (.free a) = some t ∧ Inv t l' := by
  have hal := h.live a ha
  have hbounds := hal.bounds
  obtain ⟨heap', l', hcall, -, hkeep, -, -, hgood⟩ :=
    h.good.free hal.mem hal.ptr rfl (by omega)
  have hinv := (h.keep (hgood hlast) hkeep List.erase_sublist
    fun x hx heq => h.erase_ne ha hx (by simpa using heq.symm)).1
  refine ⟨⟨heap', s.live.erase a⟩, l', ?_, hinv⟩
  simp [step, ha, hcall]

lemma LiveAt.resize (h : LiveAt heap l x b) (hend : b + (info heap b).size < 2 ^ 32)
    (hheader : headerOf heap x.ptr = b) {size : ℕ} (hok : InPlaceOk heap x.ptr size)
    (hfits : size ≤ (info heap (x.ptr - 8)).size) : LiveAt heap l ⟨x.ptr, size⟩ b := by
  refine ⟨h.mem, h.busy, h.ptr, ?_⟩
  obtain ⟨hptr, hsize⟩ | ⟨hptr, hinfo, -, hroom⟩ := h.place
  · left
    have heq : x.ptr - 8 = b := by omega
    rw [InPlaceOk, h.wsub_ptr hend, heq] at hok
    have hcases := hok h.ptr
    rw [payload, hheader] at hcases
    rw [heq] at hfits
    refine ⟨hptr, ?_⟩
    change size + 8 ≤ _
    unfold sizeofInfo at hcases
    omega
  · exact .inr ⟨hptr, hinfo, hfits, hroom⟩

lemma Inv.realloc (h : Inv s l) {a : Allocation} (ha : a ∈ s.live) {size : ℕ} (hpos : 0 < size)
    (grants : ℕ) (hok : EventOk s (.realloc a size grants)) :
    ∃ t l', step s (.realloc a size grants) = some t ∧ Inv t l' := by
  obtain ⟨hwrap, hplace, hlast⟩ := hok
  have hal := h.live a ha
  have hbounds := h.good.bounds hal.mem
  rw [hal.wsub_ptr (by omega)] at hlast
  have hguard : a ∈ s.live ∧ 0 < size := ⟨ha, hpos⟩
  by_cases hfits : size ≤ (info s.heap (a.ptr - 8)).size
  · have hcall := hal.realloc_eq h.good hpos grants
    rw [if_pos hfits] at hcall
    have hinv := (h.keep h.good (.refl _ _ none) (List.erase_sublist (a := a)) (by simp)).1
    refine ⟨⟨s.heap, ⟨a.ptr, size⟩ :: s.live.erase a⟩, l, ?_, hinv.cons
      (hal.resize (by omega) rfl hplace hfits) fun x hx => h.erase_ne ha hx⟩
    simp only [step, if_pos hguard, hcall]
  · obtain ⟨heap', r, hcall, hnone, hsome⟩ :=
      h.good.realloc_moves hal hpos hwrap (by omega) grants
    cases r with
    | none =>
      obtain ⟨l', hgood, hkeep⟩ := hnone rfl
      refine ⟨⟨heap', s.live⟩, l', ?_, (h.keep hgood hkeep (List.Sublist.refl _) (by simp)).1⟩
      simp only [step, if_pos hguard, hcall]
    | some q =>
      obtain ⟨l', b', hmoved, hgood⟩ := hsome q rfl
      have hgood' := hgood fun heap'' hzone => hlast heap'' q hzone (by omega)
      obtain ⟨hinv, hheader⟩ := h.keep hgood' hmoved.keeps (List.erase_sublist (a := a))
        fun x hx heq => h.erase_ne ha hx (by simpa using heq.symm)
      refine ⟨⟨heap', ⟨q, size⟩ :: s.live.erase a⟩, l', ?_, hinv.cons hmoved.live ?_⟩
      · simp only [step, if_pos hguard, hcall]
      · intro x hx
        have hxl := h.live x (List.mem_of_mem_erase hx)
        rw [hheader x hx]
        exact hmoved.unused _ hxl.mem hxl.busy

lemma Inv.write (h : Inv s l) (f : ByteMemory) : ∃ t, step s (.write f) = some t ∧ Inv t l := by
  obtain ⟨mem, hmem⟩ : ∃ mem, (fun a => if inPayload s a then f a else s.heap.mem a) = mem :=
    ⟨_, rfl⟩
  have hchanged : ∀ a, mem a ≠ s.heap.mem a →
      ∃ x ∈ s.live, x.ptr ≤ a ∧ a < x.ptr + x.size := by
    intro a ha
    by_contra hno
    refine ha ?_
    have hout : inPayload s a = false := by
      refine List.any_eq_false.mpr fun x hx => ?_
      simpa using fun hle => Nat.le_of_not_lt fun hlt => hno ⟨x, hx, hle, hlt⟩
    simp [← hmem, hout]
  have hinside : ∀ a, mem a ≠ s.heap.mem a →
      ∃ b ∈ l, b + 8 ≤ a ∧ a < b + (info s.heap b).size := by
    intro a ha
    obtain ⟨x, hx, hlow, hhigh⟩ := hchanged a ha
    have hxl := h.live x hx
    have hbounds := hxl.bounds
    exact ⟨_, hxl.mem, by omega, by omega⟩
  have hgood := h.good.write hinside
  have hlive : ∀ x ∈ s.live,
      LiveAt { s.heap with mem := mem } l x (headerOf s.heap x.ptr) := by
    intro x hx
    have hxl := h.live x hx
    have hinfo : infoAt mem (headerOf s.heap x.ptr) = info s.heap (headerOf s.heap x.ptr) :=
      h.good.info_write hinside (.inl hxl.mem)
    refine ⟨hxl.mem, ?_, ?_, ?_⟩
    · simp only [info, hinfo]
      exact hxl.busy
    · simp only [info, hinfo]
      exact hxl.ptr
    · simp only [info, hinfo]
      obtain hplain | ⟨hptr, hrest⟩ := hxl.place
      · exact .inl hplain
      · right
        have hxb := hxl.bounds
        -- a header before the pointer lies in no payload that the program was given
        have hheader : infoAt mem (x.ptr - 8) = info s.heap (x.ptr - 8) := by
          refine infoAt_congr fun a hlow hhigh => ?_
          by_contra hne
          obtain ⟨y, hy, hya, hay⟩ := hchanged a hne
          have hyl := h.live y hy
          have hyb := hyl.bounds
          by_cases hxy : headerOf s.heap y.ptr = headerOf s.heap x.ptr
          · obtain rfl := List.inj_on_of_nodup_map h.nodup hy hx hxy
            omega
          · have hdis := h.good.shape.chain.disjoint hyl.mem hxl.mem hxy
            simp only [sizeAt_view] at hdis
            omega
        rw [hheader]
        exact ⟨hptr, hrest⟩
  have hsame : ∀ x ∈ s.live, headerOf { s.heap with mem := mem } x.ptr = headerOf s.heap x.ptr :=
    fun x hx => hgood.headerOf_eq (hlive x hx)
  refine ⟨⟨{ s.heap with mem := mem }, s.live⟩, by simp [step, hmem], hgood, ?_, ?_⟩
  · intro x hx
    change LiveAt _ l x (headerOf { s.heap with mem := mem } x.ptr)
    rw [hsame x hx]
    exact hlive x hx
  · change (owners { s.heap with mem := mem } s.live).Nodup
    rw [owners_congr hsame]
    exact h.nodup

lemma Inv.step (h : Inv s l) {e : Event} (hok : EventOk s e) (hstep : UserRealloc.step s e = some t) :
    ∃ l', Inv t l' := by
  obtain ⟨t', l', ht', hinv⟩ : ∃ t' l', UserRealloc.step s e = some t' ∧ Inv t' l' := by
    cases e with
    | malloc size grants => exact h.allocates (h.good.malloc hok grants).allocates
    | valloc size grants => exact h.allocates (h.good.valloc hok grants).allocates
    | realloc a size grants =>
      by_cases hguard : a ∈ s.live ∧ 0 < size
      · exact h.realloc hguard.1 hguard.2 grants hok
      · simp only [UserRealloc.step, if_neg hguard, reduceCtorEq] at hstep
    | free a =>
      by_cases hguard : a ∈ s.live
      · exact h.free hguard hok
      · simp only [UserRealloc.step, if_neg hguard, reduceCtorEq] at hstep
    | write f =>
      obtain ⟨t', ht', hinv⟩ := h.write f
      exact ⟨t', l, ht', hinv⟩
  obtain rfl : t' = t := by simpa [ht'] using hstep
  exact ⟨l', hinv⟩

lemma inv_reach (h : machine.Reach EventOk s) : ∃ l, Inv s l := by
  refine Machine.Reach.invariant (I := fun s => ∃ l, Inv s l) (fun s hs => inv_init hs) ?_ h
  rintro s e t ⟨l, hinv⟩ hok hstep
  exact hinv.step hok hstep

/-- The bytes that a move keeps: all of a block from `malloc`, and what was asked for of one
from `valloc`. -/
def keptSize (heap : ByteHeap) (ptr : ℕ) : ℕ :=
  let old := info heap (wsub ptr sizeofInfo)
  if old.ptr = 0 then payload heap ptr else old.size

lemma LiveAt.ptr_add_payload (h : LiveAt heap l x b) (hheader : headerOf heap x.ptr = b) :
    x.ptr + payload heap x.ptr = b + (info heap b).size := by
  have hbounds := h.bounds
  rw [payload, hheader]
  omega

lemma LiveAt.keptSize_le (h : LiveAt heap l x b) (hend : b + (info heap b).size < 2 ^ 32)
    (hheader : headerOf heap x.ptr = b) (hpos : 0 < b) : keptSize heap x.ptr ≤ payload heap x.ptr ∧
      keptSize heap x.ptr ≤ (info heap (x.ptr - 8)).size := by
  have hpayload := h.ptr_add_payload hheader
  simp only [keptSize, h.wsub_ptr hend]
  obtain ⟨hptr, -⟩ | ⟨-, hinfo, -, hroom⟩ := h.place
  · have heq : x.ptr - 8 = b := by omega
    rw [heq, if_pos h.ptr]
    omega
  · rw [if_neg (by omega)]
    omega

/-- In place, the test of `realloc` is right when the request fits the payload. -/
lemma LiveAt.inPlaceOk_iff (h : LiveAt heap l x b) (hend : b + (info heap b).size < 2 ^ 32)
    (hheader : headerOf heap x.ptr = b) (hpos : 0 < b) {size : ℕ}
    (hfits : size ≤ (info heap (x.ptr - 8)).size) :
    InPlaceOk heap x.ptr size ↔ size ≤ payload heap x.ptr := by
  have hpayload := h.ptr_add_payload hheader
  unfold InPlaceOk sizeofInfo
  rw [show wsub x.ptr 8 = x.ptr - 8 from h.wsub_ptr hend]
  obtain ⟨hptr, -⟩ | ⟨-, hinfo, -, hroom⟩ := h.place
  · have heq : x.ptr - 8 = b := by omega
    rw [heq] at hfits ⊢
    simp only [h.ptr, true_imp_iff]
    omega
  · simp only [hinfo, show b ≠ 0 by omega, false_imp_iff, true_iff]
    omega

lemma LiveAt.inPlaceOk_of_moved (h : LiveAt heap l x b) (hend : b + (info heap b).size < 2 ^ 32)
    (hheader : headerOf heap x.ptr = b) (hpos : 0 < b) {size : ℕ}
    (hmove : (info heap (x.ptr - 8)).size < size) : InPlaceOk heap x.ptr size := by
  have hpayload := h.ptr_add_payload hheader
  intro hplain
  rw [h.wsub_ptr hend] at hplain
  right
  obtain ⟨hptr, -⟩ | ⟨-, hinfo, -, -⟩ := h.place
  · have heq : x.ptr - 8 = b := by omega
    rw [heq] at hmove
    unfold sizeofInfo
    omega
  · omega

lemma Good.reallocated_self (h : Good heap l) (hx : LiveAt heap l x b) {size : ℕ} (kept : ℕ)
    (hroom : size ≤ payload heap x.ptr) : Reallocated heap heap x.ptr x.ptr size kept := by
  have hheader := h.headerOf_eq hx
  refine ⟨?_, ?_, hroom, fun _ _ => rfl, fun _ hne => absurd rfl hne⟩
  · rw [hheader]
    exact h.isBlock hx.mem
  · rw [hheader]
    exact hx.busy

/-- After any run that meets the condition, `realloc` of an allocation returns, and what it
returns is right exactly if the in-place test answers as it should. It keeps all that fits unless
it moves a block from `valloc` that is longer than was asked for. -/
theorem realloc_keeps_room (s : State) (hs : machine.Reach EventOk s) (x : Allocation)
    (hx : x ∈ s.live) (size grants : ℕ) (hpos : 0 < size) (hwrap : NoWrap s.heap x.ptr size) :
    ∃ heap' r, realloc s.heap x.ptr size grants = some (heap', r) ∧ ∀ q, r = some q →
      (Reallocated s.heap heap' x.ptr q size (keptSize s.heap x.ptr) ↔
        InPlaceOk s.heap x.ptr size) ∧
      (InPlaceOk s.heap x.ptr size → size ≤ (info s.heap (wsub x.ptr sizeofInfo)).size ∨
        payload s.heap x.ptr ≤ keptSize s.heap x.ptr →
          Reallocated s.heap heap' x.ptr q size (payload s.heap x.ptr)) := by
  obtain ⟨l, hinv⟩ := inv_reach hs
  have hxl := hinv.live x hx
  generalize hb : headerOf s.heap x.ptr = b at hxl
  have hbounds := hinv.good.bounds hxl.mem
  have hbpos := hinv.good.pos hxl.mem
  have hend : b + (info s.heap b).size < 2 ^ 32 := by omega
  obtain ⟨hle, hcopied⟩ := hxl.keptSize_le hend hb hbpos
  rw [hxl.wsub_ptr hend]
  by_cases hfits : size ≤ (info s.heap (x.ptr - 8)).size
  · have hiff := hxl.inPlaceOk_iff hend hb hbpos hfits
    have hcall := hxl.realloc_eq hinv.good hpos grants
    rw [if_pos hfits] at hcall
    refine ⟨s.heap, some x.ptr, hcall, fun q hq => ?_⟩
    obtain rfl : x.ptr = q := by simpa using hq
    refine ⟨⟨fun h => hiff.mpr h.room, fun h => ?_⟩, fun h _ => ?_⟩
    · exact hinv.good.reallocated_self hxl _ (hiff.mp h)
    · exact hinv.good.reallocated_self hxl _ (hiff.mp h)
  · have hok := hxl.inPlaceOk_of_moved hend hb hbpos (Nat.lt_of_not_le hfits)
    have hpayload := hxl.ptr_add_payload hb
    obtain ⟨heap', r, hcall, -, hsome⟩ :=
      hinv.good.realloc_moves hxl hpos hwrap (Nat.lt_of_not_le hfits) grants
    refine ⟨heap', r, hcall, fun q hq => ?_⟩
    obtain ⟨l', b', hmoved, -⟩ := hsome q hq
    refine ⟨⟨fun _ => hok, fun _ => ?_⟩, fun _ hkept => ?_⟩
    · exact hmoved.reallocated hinv.good hxl hcopied (by omega)
    · exact hmoved.reallocated hinv.good hxl (by omega) (by omega)

def freshHeap : State := ⟨heapManagerInit 0x1000 0, []⟩

lemma freshHeap_init : machine.init freshHeap :=
  ⟨0x1000, 0, by decide, by decide, by decide, by decide, rfl⟩

/-- A block of 64 bytes for a request of one, and `realloc` to 100 bytes. -/
theorem realloc_keeps_room_moved : ∃ s, machine.run freshHeap [.malloc 1 0] = some s ∧
    ∃ heap' r, realloc s.heap 0x1008 100 0 = some (heap', r) ∧ ∀ q, r = some q →
      (Reallocated s.heap heap' 0x1008 q 100 (keptSize s.heap 0x1008) ↔
        InPlaceOk s.heap 0x1008 100) ∧
      (InPlaceOk s.heap 0x1008 100 → 100 ≤ (info s.heap (wsub 0x1008 sizeofInfo)).size ∨
        payload s.heap 0x1008 ≤ keptSize s.heap 0x1008 →
          Reallocated s.heap heap' 0x1008 q 100 (payload s.heap 0x1008)) := by
  obtain ⟨s, hs, hlive, hplain⟩ : ∃ s, machine.run freshHeap [.malloc 1 0] = some s ∧
      s.live = [⟨0x1008, 1⟩] ∧ (info s.heap (wsub 0x1008 sizeofInfo)).ptr = 0 :=
    ⟨_, rfl, rfl, rfl⟩
  have hstep : machine.step freshHeap (.malloc 1 0) = some s := by
    simpa [Machine.run] using hs
  have hok : EventOk freshHeap (.malloc 1 0) := by
    change 1 + 72 ≤ 2 ^ 32
    decide
  refine ⟨s, hs, realloc_keeps_room s (.step (.init freshHeap_init) hok hstep) ⟨0x1008, 1⟩
    (by simp [hlive]) 100 0 (by decide) ?_⟩
  simp [NoWrap, hplain]

/-- A request of 60 bytes for a block of 56 is answered in place. -/
theorem realloc_too_small : ¬∀ s, machine.Reachable s → ∀ x ∈ s.live, ∀ size grants heap' q,
    0 < size → realloc s.heap x.ptr size grants = some (heap', some q) →
      Reallocated s.heap heap' x.ptr q size (payload s.heap x.ptr) := by
  intro h
  obtain ⟨s, hs, hlive, hcall, hroom⟩ : ∃ s, machine.run freshHeap [.malloc 1 0] = some s ∧
      s.live = [⟨0x1008, 1⟩] ∧ realloc s.heap 0x1008 60 0 = some (s.heap, some 0x1008) ∧
        payload s.heap 0x1008 = 56 :=
    ⟨_, rfl, rfl, rfl, rfl⟩
  have hreach := Machine.Reachable.run (.init freshHeap_init) _ hs
  have hroom' := (h s hreach ⟨0x1008, 1⟩ (by simp [hlive]) 60 0 s.heap 0x1008 (by decide) hcall).room
  omega

end Almos.UserRealloc
