import Almos.UserReallocKept
import Almos.KernelHeapChain

/-!
# Requests of every size

The sizes that the heaps of the C library and of the kernel are asked for, and what becomes of them
when they are rounded in 32 bits.
-/
namespace Almos.UserRealloc
open Word Bits ByteMemory BlockChain UserHeap

def calloc (heap : ByteHeap) (nmemb size grants : ℕ) : Option (ByteHeap × Option ℕ) :=
  let bytes := nmemb * size % 2 ^ 32
  match malloc heap bytes grants with
  | some (heap, some ptr) => some ({ heap with mem := fill heap.mem ptr bytes 0 }, some ptr)
  | r => r

/-- The block behind a pointer that is returned has the bytes asked for, and no header of a free
block got the size 0. -/
def Serves (heap : ByteHeap) (bytes : ℕ) (result : Option (ByteHeap × Option ℕ)) : Prop :=
  ∀ heap' ptr, result = some (heap', some ptr) → bytes ≤ payload heap' ptr ∧
    ∀ c, IsBlock (view heap) c → (info heap c).busy = false → (info heap' c).size ≠ 0

variable {heap heap' : ByteHeap} {l l' : List ℕ} {x : Allocation} {b size nmemb : ℕ}

lemma AllocatesIn.serves {result : Option (ByteHeap × Option ℕ)} (hg : Good heap l)
    (h : AllocatesIn heap l size result) : Serves heap size result := by
  obtain ⟨heap', l', r, rfl, hgood, -, hsub, hnew⟩ := h
  intro heap₁ ptr heq
  obtain ⟨rfl, hr⟩ := Prod.mk.inj (Option.some.inj heq)
  obtain ⟨b, hlive, -⟩ := hnew ptr hr
  have hpayload := hlive.ptr_add_payload (hgood.headerOf_eq hlive)
  have hbounds := hlive.bounds
  simp only at hpayload hbounds
  refine ⟨by omega, fun c hc _ => ?_⟩
  have hsize := (hgood.bounds (hsub c (hg.shape.mem_of_isBlock hc))).2.1
  omega

lemma LiveAt.fill (h : LiveAt heap l x b) (hg : Good heap l) :
    Good { heap with mem := fill heap.mem x.ptr x.size 0 } l ∧
      KeepsBlocks heap l { heap with mem := fill heap.mem x.ptr x.size 0 } l (some b) ∧
      LiveAt { heap with mem := fill heap.mem x.ptr x.size 0 } l x b := by
  have hbounds := h.bounds
  have hmem : ∀ y, ByteMemory.fill heap.mem x.ptr x.size 0 y ≠ heap.mem y →
      b + 8 ≤ y ∧ y < b + (info heap b).size := by
    intro y hy
    by_contra hout
    exact hy (fill_of_outside (by omega))
  have hinfo : infoAt (ByteMemory.fill heap.mem x.ptr x.size 0) b = info heap b :=
    hg.info_write (fun y hy => ⟨b, h.mem, hmem y hy⟩) (.inl h.mem)
  have hheader : infoAt (ByteMemory.fill heap.mem x.ptr x.size 0) (x.ptr - 8) =
      info heap (x.ptr - 8) :=
    infoAt_congr fun y _ hy => fill_of_outside (by omega)
  refine ⟨hg.write fun y hy => ⟨b, h.mem, hmem y hy⟩, hg.keepsBlocks_write h.mem hmem,
    ⟨h.mem, ?_, ?_, ?_⟩⟩
  · simp only [info, hinfo]
    exact h.busy
  · simp only [info, hinfo]
    exact h.ptr
  · simp only [info, hinfo, hheader]
    exact h.place

lemma Good.calloc (h : Good heap l) (hsize : nmemb * size % 2 ^ 32 + 72 ≤ 2 ^ 32) (grants : ℕ) :
    AllocatesIn heap l (nmemb * size % 2 ^ 32) (UserRealloc.calloc heap nmemb size grants) := by
  obtain ⟨heap', l', r, hmalloc, hgood, hkeep, hsub, hnew⟩ := h.malloc hsize grants
  cases r with
  | none =>
    refine ⟨heap', l', none, ?_, hgood, hkeep, hsub, by simp⟩
    simp only [UserRealloc.calloc, hmalloc]
  | some ptr =>
    obtain ⟨b, hlive, hunused⟩ := hnew ptr rfl
    obtain ⟨hgood', hkeep', hlive'⟩ := hlive.fill hgood
    refine ⟨_, l', some ptr, by simp only [UserRealloc.calloc, hmalloc], hgood',
      hkeep.trans_new h.shape hkeep' hunused, hsub, fun q hq => ?_⟩
    obtain rfl := Option.some.inj hq
    exact ⟨b, hlive', hunused⟩

/-! ### The heap starts after the first page -/

lemma takeBlock_start (heap : ByteHeap) (current esz : ℕ) :
    (takeBlock heap current esz).start = heap.start := by
  unfold takeBlock setInfo
  simp only
  split_ifs <;> rfl

lemma grow_start (heap : ByteHeap) (pages : ℕ) : (grow heap pages).start = heap.start := by
  unfold grow setInfo
  simp only
  split_ifs <;> rfl

def KeepsStart (heap : ByteHeap) (result : Option (ByteHeap × Option ℕ)) : Prop :=
  ∀ heap' r, result = some (heap', r) → heap'.start = heap.start

lemma doMalloc_start (heap : ByteHeap) (size round : ℕ) :
    KeepsStart heap (doMalloc heap size round) := by
  intro heap' r h
  rw [doMalloc] at h
  simp only at h
  split_ifs at h
  · obtain ⟨rfl, -⟩ := Prod.mk.inj (Option.some.inj h)
    rfl
  all_goals
    split at h
    · exact absurd h (by simp)
    · obtain ⟨rfl, -⟩ := Prod.mk.inj (Option.some.inj h)
      rfl
    · obtain ⟨rfl, -⟩ := Prod.mk.inj (Option.some.inj h)
      exact takeBlock_start _ _ _

lemma mallocLoop_start (size fuel tries : ℕ) (heap : ByteHeap) (grants : ℕ) :
    KeepsStart heap (mallocLoop size fuel tries heap grants) := by
  induction fuel generalizing tries heap grants with
  | zero =>
    intro heap' r h
    obtain ⟨rfl, -⟩ := Prod.mk.inj (Option.some.inj h)
    rfl
  | succ fuel ih =>
    intro heap' r h
    rw [mallocLoop] at h
    rcases hresult : doMalloc heap size tries with _ | ⟨heap₁, _ | ptr⟩
    · simp [hresult] at h
    · have hstart := doMalloc_start heap size tries heap₁ none hresult
      simp only [hresult] at h
      split_ifs at h
      · obtain ⟨rfl, -⟩ := Prod.mk.inj (Option.some.inj h)
        exact hstart
      · exact (ih _ _ _ _ _ h).trans ((grow_start _ _).trans hstart)
    · have hstart := doMalloc_start heap size tries heap₁ (some ptr) hresult
      simp only [hresult] at h
      obtain ⟨rfl, -⟩ := Prod.mk.inj (Option.some.inj h)
      exact hstart

lemma valloc_start (heap : ByteHeap) (size grants : ℕ) :
    KeepsStart heap (valloc heap size grants) := by
  intro heap' r h
  rw [valloc] at h
  rcases hresult : malloc heap (wadd (arroundUp size pageSize % 2 ^ 32) pageSize) grants with
    _ | ⟨heap₁, _ | block⟩
  · simp only [hresult, reduceCtorEq] at h
  · have hstart : heap₁.start = heap.start := mallocLoop_start _ _ _ _ _ _ _ hresult
    simp only [hresult] at h
    obtain ⟨rfl, -⟩ := Prod.mk.inj (Option.some.inj h)
    exact hstart
  · have hstart : heap₁.start = heap.start := mallocLoop_start _ _ _ _ _ _ _ hresult
    simp only [hresult] at h
    obtain ⟨rfl, -⟩ := Prod.mk.inj (Option.some.inj h)
    exact hstart

lemma mergeLoop_start (limit current fuel : ℕ) (heap : ByteHeap)
    (h : mergeLoop limit current fuel heap = some heap') : heap'.start = heap.start := by
  induction fuel generalizing heap with
  | zero => simp [mergeLoop] at h
  | succ fuel ih =>
    rw [mergeLoop] at h
    split_ifs at h
    · rw [Option.some.inj h]
    · have hrest := ih _ h
      exact hrest

lemma free_start (heap : ByteHeap) (ptr : ℕ) (h : free heap ptr = some heap') :
    heap'.start = heap.start := by
  rw [free] at h
  split_ifs at h
  · rw [Option.some.inj h]
  · simp only at h
    split at h
    · exact absurd h (by simp)
    · rename_i heap₁ hmerge
      have hstart := mergeLoop_start _ _ _ _ hmerge
      rw [← Option.some.inj h]
      split_ifs
      · exact hstart
      · exact hstart

lemma newZone_start (heap : ByteHeap) (ptr size grants : ℕ) :
    KeepsStart heap (newZone heap ptr size grants) := by
  intro heap' r h
  obtain ⟨zone, hzone⟩ : ∃ zone, (if (info heap (wsub ptr sizeofInfo)).ptr = 0 then
      malloc heap size grants else valloc heap size grants) = zone := ⟨_, rfl⟩
  have hkeeps : KeepsStart heap zone := by
    rw [← hzone]
    split_ifs
    · exact mallocLoop_start _ _ _ _ _
    · exact valloc_start _ _ _
  rw [newZone] at h
  simp only [hzone] at h
  rcases zone with _ | ⟨heap₁, _ | q⟩
  · exact absurd h (by simp)
  · obtain ⟨rfl, -⟩ := Prod.mk.inj (Option.some.inj h)
    exact hkeeps _ _ rfl
  · obtain ⟨rfl, -⟩ := Prod.mk.inj (Option.some.inj h)
    exact hkeeps heap₁ _ rfl

lemma realloc_start (heap : ByteHeap) (ptr size grants : ℕ) :
    KeepsStart heap (realloc heap ptr size grants) := by
  intro heap' r h
  rw [realloc] at h
  split_ifs at h
  · exact mallocLoop_start _ _ _ _ _ _ _ h
  · obtain ⟨heap₁, hfree, heq⟩ := Option.map_eq_some_iff.1 h
    obtain ⟨rfl, -⟩ := Prod.mk.inj heq
    exact free_start _ _ hfree
  · obtain ⟨rfl, -⟩ := Prod.mk.inj (Option.some.inj h)
    rfl
  · rcases hzone : newZone heap ptr size grants with _ | ⟨heap₁, _ | q⟩
    · simp only [hzone, freeOld, reduceCtorEq] at h
    · have hstart := newZone_start heap ptr size grants heap₁ none hzone
      simp only [hzone, freeOld] at h
      obtain ⟨rfl, -⟩ := Prod.mk.inj (Option.some.inj h)
      exact hstart
    · have hstart := newZone_start heap ptr size grants heap₁ (some q) hzone
      simp only [hzone, freeOld] at h
      obtain ⟨heap₂, hfree, heq⟩ := Option.map_eq_some_iff.1 h
      obtain ⟨rfl, -⟩ := Prod.mk.inj heq
      exact (free_start _ _ hfree).trans hstart

variable {s t : State}

lemma allocated_start {live : List Allocation} {result : Option (ByteHeap × Option ℕ)}
    (hkeeps : KeepsStart heap result) (h : result.map (allocated live size) = some t) :
    t.heap.start = heap.start := by
  obtain ⟨⟨heap', r⟩, hresult, rfl⟩ := Option.map_eq_some_iff.1 h
  cases r with
  | none => exact hkeeps heap' none hresult
  | some ptr => exact hkeeps heap' (some ptr) hresult

lemma step_start {e : Event} (h : step s e = some t) : t.heap.start = s.heap.start := by
  cases e with
  | malloc size grants => exact allocated_start (mallocLoop_start _ _ _ _ _) h
  | valloc size grants => exact allocated_start (valloc_start _ _ _) h
  | realloc a size grants =>
    rw [step] at h
    split_ifs at h
    rcases hresult : realloc s.heap a.ptr size grants with _ | ⟨heap', _ | ptr⟩
    · simp only [hresult, reduceCtorEq] at h
    · have hstart := realloc_start s.heap a.ptr size grants heap' none hresult
      simp only [hresult, Option.some.injEq] at h
      rw [← h]
      exact hstart
    · have hstart := realloc_start s.heap a.ptr size grants heap' (some ptr) hresult
      simp only [hresult, Option.some.injEq] at h
      rw [← h]
      exact hstart
  | free a =>
    rw [step] at h
    split_ifs at h
    obtain ⟨heap', hfree, rfl⟩ := Option.map_eq_some_iff.1 h
    exact free_start _ _ hfree
  | write f =>
    rw [← Option.some.inj h]

lemma start_reach (h : machine.Reach EventOk s) : pageSize ≤ s.heap.start := by
  refine Machine.Reach.invariant (I := fun s => pageSize ≤ s.heap.start) ?_ ?_ h
  · rintro s ⟨bssEnd, reported, hpos, -, halign, -, rfl⟩
    exact Nat.le_of_dvd hpos halign
  · intro s e t hstart _ hstep
    rw [step_start hstep]
    exact hstart

def maxBlock : ℕ := usrLimit - pageSize

lemma Good.size_le (h : Good heap l) (hstart : pageSize ≤ heap.start) (hb : b ∈ l) :
    (info heap b).size ≤ maxBlock := by
  obtain ⟨hle, -, hend, -⟩ := h.bounds hb
  have hroom : heap.limit ≤ usrLimit := h.shape.room
  rw [maxBlock]
  omega

lemma effectiveSize_wrapped (hwrap : 2 ^ 32 < size + 72) (hsize : size < 2 ^ 32) :
    effectiveSize size = 0 ∨ effectiveSize size = 64 := by
  rw [effectiveSize, arroundUp, wadd, sizeofInfo, cachelineSize]
  split_ifs <;> omega

lemma effectiveSize_le (hsize : size + 8 ≤ maxBlock) : effectiveSize size ≤ maxBlock := by
  have hmax : maxBlock = 0x6FFFF000 := rfl
  rw [effectiveSize, arroundUp, wadd, sizeofInfo, cachelineSize]
  split_ifs <;> omega

lemma calloc_refused (h : Good heap l) (hstart : pageSize ≤ heap.start)
    (hlarge : maxBlock < effectiveSize (nmemb * size % 2 ^ 32)) (grants : ℕ) (heap' : ByteHeap)
    (ptr : ℕ) : calloc heap nmemb size grants ≠ some (heap', some ptr) := by
  have hmax : maxBlock = 0x6FFFF000 := rfl
  have hnowrap : nmemb * size % 2 ^ 32 + 72 ≤ 2 ^ 32 := by
    by_contra hwrap
    have := effectiveSize_wrapped (not_le.1 hwrap) (Nat.mod_lt _ (by decide))
    omega
  intro hcall
  obtain ⟨heap₁, l₁, r, hresult, hgood, hkeep, -, hnew⟩ := h.calloc hnowrap grants
  obtain ⟨rfl, rfl⟩ := Prod.mk.inj (Option.some.inj (hresult.symm.trans hcall))
  obtain ⟨b, hlive, -⟩ := hnew ptr rfl
  have hbounds := hlive.bounds
  have hsize := hgood.size_le (hkeep.start ▸ hstart) hlive.mem
  simp only at hbounds
  have hle := effectiveSize_le (show nmemb * size % 2 ^ 32 + 8 ≤ maxBlock by omega)
  omega

def fullHeap : State := ⟨heapManagerInit 0x1000 maxBlock, []⟩

lemma fullHeap_init : machine.init fullHeap :=
  ⟨0x1000, maxBlock, by decide, by decide, by decide, by decide, rfl⟩

lemma fullHeap_info : info fullHeap.heap 0x1000 = ⟨false, maxBlock, 0⟩ :=
  infoAt_storeInfo_self (by decide) (by decide)

lemma malloc_full (hfit : effectiveSize size ≤ maxBlock) : malloc fullHeap.heap size 0 =
    some (takeBlock fullHeap.heap 0x1000 (effectiveSize size), some 0x1008) := by
  have hmax : maxBlock = 0x6FFFF000 := rfl
  have hlimit : fullHeap.heap.limit = 0x70000000 := rfl
  have hnext : fullHeap.heap.next = 0x1000 := rfl
  have hsearch : search (view fullHeap.heap) (effectiveSize size) (0x70000000 + 1) 0x1000 =
      some (some 0x1000) := by
    have hfound : ¬((info fullHeap.heap 0x1000).busy = true ∨
        (info fullHeap.heap 0x1000).size < effectiveSize size) := by
      rw [fullHeap_info]
      simpa using hfit
    rw [search]
    exact if_neg hfound
  have hcursor : ¬wsub 0x70000000 (effectiveSize size) < 0x1000 := by
    rw [wsub_of_le (by omega) (by omega)]
    omega
  have hfirst : doMalloc fullHeap.heap size 0 =
      some (takeBlock fullHeap.heap 0x1000 (effectiveSize size), some 0x1008) := by
    rw [doMalloc]
    simp only [hlimit, hnext, hcursor, and_false, if_false, hsearch]
    rfl
  rw [malloc, mallocLimit, mallocLoop, hfirst]

/-- A block too small for its request, right behind the header at `0x1000`. -/
def Short (heap : ByteHeap) : Prop :=
  (info heap 0x1000).ptr = 0 ∧ (info heap 0x1000).size ≤ 64

lemma Short.payload_le (h : Short heap) : payload heap 0x1008 ≤ 56 := by
  have hheader : headerOf heap 0x1008 = 0x1000 := by
    have hsub : wsub 0x1008 sizeofInfo = 0x1000 := rfl
    rw [headerOf, hsub]
    exact if_neg (not_not.2 h.1)
  have hsize := h.2
  rw [payload, hheader]
  omega

lemma malloc_wrapped (hwrap : 2 ^ 32 < size + 72) (hsize : size < 2 ^ 32) :
    ∃ heap', malloc fullHeap.heap size 0 = some (heap', some 0x1008) ∧ Short heap' := by
  have hmax : maxBlock = 0x6FFFF000 := rfl
  rcases effectiveSize_wrapped hwrap hsize with hesz | hesz
  · refine ⟨_, malloc_full (by omega), ?_⟩
    rw [hesz]
    exact ⟨by decide, by decide⟩
  · refine ⟨_, malloc_full (by omega), ?_⟩
    rw [hesz]
    exact ⟨by decide, by decide⟩

lemma malloc_short (hwrap : 2 ^ 32 < size + 72) (hsize : size < 2 ^ 32) :
    ¬Serves fullHeap.heap size (malloc fullHeap.heap size 0) := by
  obtain ⟨heap', hmalloc, hshort⟩ := malloc_wrapped hwrap hsize
  intro hserves
  have hle := (hserves heap' 0x1008 hmalloc).1.trans hshort.payload_le
  omega

lemma calloc_short (hwrap : 2 ^ 32 < nmemb * size + 72)
    (hfit : effectiveSize (nmemb * size % 2 ^ 32) ≤ maxBlock) :
    ¬Serves fullHeap.heap (nmemb * size) (calloc fullHeap.heap nmemb size 0) := by
  obtain ⟨p, hp⟩ : ∃ p, nmemb * size % 2 ^ 32 = p := ⟨_, rfl⟩
  have hlt : p < 2 ^ 32 := hp ▸ Nat.mod_lt _ (by decide)
  have hle : p ≤ nmemb * size := hp ▸ Nat.mod_le _ _
  intro hserves
  by_cases hsmall : p + 72 ≤ 2 ^ 32
  · obtain ⟨l, hinv⟩ := inv_reach (.init fullHeap_init)
    obtain ⟨heap', l', r, hresult, hgood, -, -, hnew⟩ :=
      hinv.good.calloc (show nmemb * size % 2 ^ 32 + 72 ≤ 2 ^ 32 by omega) 0
    have hsome : r = some 0x1008 := by
      have hcall := hresult
      simp only [calloc, malloc_full hfit] at hcall
      exact (Prod.mk.inj (Option.some.inj hcall)).2.symm
    obtain ⟨b, hlive, -⟩ := hnew 0x1008 hsome
    have hpayload := hlive.ptr_add_payload (hgood.headerOf_eq hlive)
    have hbounds := hgood.bounds hlive.mem
    have hserved := (hserves heap' 0x1008 (by rw [hresult, hsome])).1
    simp only at hpayload
    omega
  · obtain ⟨heap', hmalloc, hptr, hsize⟩ := malloc_wrapped (not_le.1 hsmall) hlt
    have hcall : calloc fullHeap.heap nmemb size 0 =
        some ({ heap' with mem := fill heap'.mem 0x1008 p 0 }, some 0x1008) := by
      simp only [calloc, hp, hmalloc]
    have hinfo : info { heap' with mem := fill heap'.mem 0x1008 p 0 } 0x1000 = info heap' 0x1000 :=
      infoAt_congr fun x _ hx => fill_of_outside (.inl (by omega))
    have hshort : Short { heap' with mem := fill heap'.mem 0x1008 p 0 } := by
      rw [Short, hinfo]
      exact ⟨hptr, hsize⟩
    have hserved := (hserves _ 0x1008 hcall).1.trans hshort.payload_le
    omega

lemma valloc_short (hwrap : 2 ^ 32 < size + 8192) (hsize : size < 2 ^ 32) :
    ¬Serves fullHeap.heap size (valloc fullHeap.heap size 0) := by
  have hrequest : ∃ request, wadd (arroundUp size pageSize % 2 ^ 32) pageSize = request ∧
      (request = 0 ∨ request = 4096) := by
    refine ⟨_, rfl, ?_⟩
    rw [wadd, arroundUp, pageSize]
    split_ifs <;> omega
  obtain ⟨request, hrequest, hcases⟩ := hrequest
  obtain ⟨heap', hmalloc, hroom⟩ : ∃ heap', malloc fullHeap.heap request 0 =
      some (heap', some 0x1008) ∧ (info heap' 0x1000).size ≤ 4160 := by
    rcases hcases with rfl | rfl
    · exact ⟨_, malloc_full (by decide), by decide⟩
    · exact ⟨_, malloc_full (by decide), by decide⟩
  have hcall : valloc fullHeap.heap size 0 =
      some (setInfo heap' 0x1FF8 ⟨true, size, 0x1000⟩, some 0x2000) := by
    simp only [valloc, hrequest, hmalloc]
    rfl
  have hheader : headerOf (setInfo heap' 0x1FF8 ⟨true, size, 0x1000⟩) 0x2000 = 0x1000 := by
    have hsub : wsub 0x2000 sizeofInfo = 0x1FF8 := rfl
    have hptr : (info (setInfo heap' 0x1FF8 ⟨true, size, 0x1000⟩) 0x1FF8).ptr = 0x1000 :=
      load32_store32 (show (0x1000 : ℕ) < 2 ^ 32 by decide)
    rw [headerOf, hsub]
    simp only [hptr]
    rfl
  have hinfo : info (setInfo heap' 0x1FF8 ⟨true, size, 0x1000⟩) 0x1000 = info heap' 0x1000 :=
    infoAt_congr fun x _ hx => storeInfo_of_outside (.inl (by omega))
  intro hserves
  have hserved := (hserves _ 0x2000 hcall).1
  rw [payload, hheader, hinfo] at hserved
  omega

end Almos.UserRealloc

namespace Almos.KernelHeap
open Word Bits BlockChain

/-- The block behind a pointer that is returned has the bytes asked for, and no header of a free
block got the size 0. -/
def Serves (s : State) (size : ℕ) : Prop :=
  ∀ heap' ptr, heapManagerMalloc s.heap size = some (heap', some ptr) →
    size + sizeofInfo ≤ sizeAt heap' (wsub ptr sizeofInfo) ∧
      ∀ l, HeapOk s l → ∀ c ∈ l, (s.heap.mem c).busy = false → sizeAt heap' c ≠ 0

variable {s : State} {size : ℕ}

lemma HeapOk.shape {l l₀ : List ℕ} (h : HeapOk s l) (hinv : Inv s l₀) : Shape s.heap l :=
  ⟨h.chain, hinv.shape.limit, hinv.shape.room, h.next⟩

lemma serves_small (hs : (machine (2 ^ 31)).Reachable s) (hsize : size + 72 ≤ 2 ^ 32) :
    Serves s size := by
  obtain ⟨hesz, -⟩ := effectiveSize_spec hsize
  obtain ⟨l₀, hinv⟩ := inv_reach hs
  have htaken : ∀ {l heap' ptr}, Shape s.heap l →
      heapManagerMalloc s.heap size = some (heap', some ptr) →
        ∃ l' b, ptr = b + sizeofInfo ∧ Taken s.heap l heap' l' b (effectiveSize size) ∧ b ∈ l := by
    intro l heap' ptr hshape hcall
    obtain hnone | ⟨heap₁, l', b, hsome, htaken, hb, -⟩ := hshape.malloc hsize
    · rw [hnone] at hcall
      exact absurd hcall (by simp)
    · obtain ⟨rfl, hptr⟩ := Prod.mk.inj (Option.some.inj (hsome.symm.trans hcall))
      exact ⟨l', b, (Option.some.inj hptr).symm, htaken, hb⟩
  intro heap' ptr hcall
  refine ⟨?_, fun l hl c hc _ => ?_⟩
  · obtain ⟨l', b, rfl, htaken, hb⟩ := htaken hinv.shape hcall
    obtain ⟨-, hunit, hend, -, hlimit⟩ := hinv.shape.bounds hb
    have hsub : wsub (b + sizeofInfo) sizeofInfo = b := by
      rw [wsub_of_le (Nat.le_add_left _ _) (by unfold sizeofInfo; omega), Nat.add_sub_cancel]
    rw [hsub]
    exact hesz.trans htaken.room
  · obtain ⟨l', b, -, htaken, -⟩ := htaken (hl.shape hinv) hcall
    have hunit := (htaken.shape.bounds (htaken.sub c hc)).2.1
    omega

lemma effectiveSize_wrapped (hwrap : 2 ^ 32 < size + 72) (hsize : size < 2 ^ 32) :
    effectiveSize size = 0 ∨ effectiveSize size = 64 := by
  rw [effectiveSize, arroundUp, wadd, sizeofInfo, cacheLineSize]
  split_ifs <;> omega

lemma malloc_short (hwrap : 2 ^ 32 < size + 72) (hsize : size < 2 ^ 32) : ¬Serves onePage size := by
  obtain ⟨heap', hcall, hroom⟩ : ∃ heap', heapManagerMalloc onePage.heap size =
      some (heap', some 0x1008) ∧ sizeAt heap' 0x1000 ≤ 64 := by
    rcases effectiveSize_wrapped hwrap hsize with hesz | hesz
    · refine ⟨takeBlock onePage.heap 0x1000 0, ?_, by decide⟩
      rw [heapManagerMalloc, hesz]
      rfl
    · refine ⟨takeBlock onePage.heap 0x1000 64, ?_, by decide⟩
      rw [heapManagerMalloc, hesz]
      rfl
  intro hserves
  have hserved := (hserves heap' 0x1008 hcall).1
  have hsub : wsub 0x1008 sizeofInfo = 0x1000 := rfl
  rw [hsub] at hserved
  omega

end Almos.KernelHeap

namespace Almos

section Heaps
open UserRealloc

/-- A request is served right in every heap of a program if and only if it does not wrap when the
header is added and the sum is rounded; a product of `calloc` that wraps does no harm where no block
could hold the wrapped request. -/
theorem requests_not_truncated {size : ℕ} (nmemb : ℕ) (hsize : size < 2 ^ 32) :
    ((∀ s, machine.Reach EventOk s → ∀ grants,
        Serves s.heap size (malloc s.heap size grants)) ↔ size + 72 ≤ 2 ^ 32) ∧
      ((∀ s, machine.Reach EventOk s → ∀ grants,
        Serves s.heap (nmemb * size) (calloc s.heap nmemb size grants)) ↔
          nmemb * size + 72 ≤ 2 ^ 32 ∨ maxBlock < effectiveSize (nmemb * size % 2 ^ 32)) ∧
      ((∀ s, machine.Reach EventOk s → ∀ grants,
        Serves s.heap size (valloc s.heap size grants)) ↔ size + 8192 ≤ 2 ^ 32) ∧
      ((∀ s, (KernelHeap.machine (2 ^ 31)).Reachable s → KernelHeap.Serves s size) ↔
        size + 72 ≤ 2 ^ 32) := by
  have hfull : machine.Reach EventOk fullHeap := .init fullHeap_init
  refine ⟨⟨fun h => ?_, fun h s hs grants => ?_⟩, ⟨fun h => ?_, fun h s hs grants => ?_⟩,
    ⟨fun h => ?_, fun h s hs grants => ?_⟩, ⟨fun h => ?_, fun h s hs => KernelHeap.serves_small hs h⟩⟩
  · by_contra hwrap
    exact malloc_short (not_le.1 hwrap) hsize (h fullHeap hfull 0)
  · obtain ⟨l, hinv⟩ := inv_reach hs
    exact (hinv.good.malloc h grants).serves hinv.good
  · by_contra hno
    rw [not_or, not_le, not_lt] at hno
    exact calloc_short hno.1 hno.2 (h fullHeap hfull 0)
  · obtain ⟨l, hinv⟩ := inv_reach hs
    rcases h with h | h
    · have hmod : nmemb * size % 2 ^ 32 = nmemb * size := Nat.mod_eq_of_lt (by omega)
      have hcalloc := hinv.good.calloc (show nmemb * size % 2 ^ 32 + 72 ≤ 2 ^ 32 by omega) grants
      rw [hmod] at hcalloc
      exact hcalloc.serves hinv.good
    · intro heap' ptr hcall
      exact absurd hcall (calloc_refused hinv.good (start_reach hs) h grants heap' ptr)
  · by_contra hwrap
    exact valloc_short (not_le.1 hwrap) hsize (h fullHeap hfull 0)
  · obtain ⟨l, hinv⟩ := inv_reach hs
    exact (hinv.good.valloc h grants).serves hinv.good
  · by_contra hwrap
    exact KernelHeap.malloc_short (not_le.1 hwrap) hsize
      (h KernelHeap.onePage (.init KernelHeap.onePage_init))

/-- A page, and an array of 64 KiB, are served right by the largest heap. -/
theorem requests_not_truncated_page :
    Serves fullHeap.heap 4096 (malloc fullHeap.heap 4096 0) ∧
      Serves fullHeap.heap (16 * 4096) (calloc fullHeap.heap 16 4096 0) ∧
      Serves fullHeap.heap 4096 (valloc fullHeap.heap 4096 0) ∧
      KernelHeap.Serves KernelHeap.onePage 4096 := by
  obtain ⟨hmalloc, hcalloc, hvalloc, hkernel⟩ :=
    requests_not_truncated 16 (show 4096 < 2 ^ 32 by decide)
  have hfull : machine.Reach EventOk fullHeap := .init fullHeap_init
  exact ⟨hmalloc.2 (by decide) _ hfull 0, hcalloc.2 (.inl (by decide)) _ hfull 0,
    hvalloc.2 (by decide) _ hfull 0, hkernel.2 (by decide) _ (.init KernelHeap.onePage_init)⟩

/-- A request of `2 ^ 32 - 8` bytes becomes one of 0: the free block is split at its own start, and
its header gets the size 0. -/
theorem malloc_zeroes_block : machine.Reach EventOk fullHeap ∧
    ¬Serves fullHeap.heap 0xFFFFFFF8 (malloc fullHeap.heap 0xFFFFFFF8 0) ∧
    ∃ heap', malloc fullHeap.heap 0xFFFFFFF8 0 = some (heap', some 0x1008) ∧
      (info fullHeap.heap 0x1000).busy = false ∧ (info heap' 0x1000).size = 0 := by
  refine ⟨.init fullHeap_init, malloc_short (by decide) (by decide), _, malloc_full (by decide), ?_⟩
  decide

end Heaps

end Almos
