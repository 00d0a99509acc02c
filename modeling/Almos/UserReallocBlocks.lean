import Almos.UserHeapChain
import Almos.UserRealloc

/-!
# What the heap calls do to blocks in use

Each call writes headers only. `Tracks` relates it to the same call on the heap seen through
its headers, and `KeepsBlocks` says that the blocks in use hold the same bytes.
-/
namespace Almos.UserRealloc
open Word Bits ByteMemory BlockChain UserHeap

def Separate (a b : ℕ) : Prop := a = b ∨ a + 8 ≤ b ∨ b + 8 ≤ a

section headers
variable {mem mem' : ByteMemory} {a b c x : ℕ} {i j : BlockInfo}

lemma infoAt_size_lt (mem : ByteMemory) (a : ℕ) : (infoAt mem a).size < 2 ^ 31 := by
  have := load32_lt mem a
  simp only [infoAt]
  omega

lemma infoAt_ptr_lt (mem : ByteMemory) (a : ℕ) : (infoAt mem a).ptr < 2 ^ 32 :=
  load32_lt mem (a + 4)

lemma infoAt_congr (h : SameOn mem mem' a (a + 8)) : infoAt mem' a = infoAt mem a := by
  have hlow : SameOn mem mem' a (a + 4) := h.mono le_rfl (by omega)
  have hhigh : SameOn mem mem' (a + 4) (a + 4 + 4) := h.mono (by omega) (by omega)
  unfold infoAt
  rw [hlow.load32, hhigh.load32]

lemma storeInfo_of_outside (h : x < a ∨ a + 8 ≤ x) : storeInfo mem a i x = mem x := by
  unfold storeInfo
  rw [store32_of_outside (by omega), store32_of_outside (by omega)]

lemma infoAt_storeInfo_self (hsize : i.size < 2 ^ 31) (hptr : i.ptr < 2 ^ 32) :
    infoAt (storeInfo mem a i) a = i := by
  have h31 : size31 i.size = i.size := Nat.mod_eq_of_lt hsize
  have hbusy : i.busy.toNat < 2 := Bool.toNat_lt i.busy
  have hlow : load32 (storeInfo mem a i) a = i.busy.toNat + 2 * i.size := by
    unfold storeInfo
    rw [load32_store32_of_apart (by omega), h31, load32_store32 (by omega)]
  have hhigh : load32 (storeInfo mem a i) (a + 4) = i.ptr := load32_store32 hptr
  have hsize' : (i.busy.toNat + 2 * i.size) / 2 = i.size := by omega
  have hbit : decide ((i.busy.toNat + 2 * i.size) % 2 = 1) = i.busy := by
    cases i.busy with
    | false => simp
    | true => simp
  unfold infoAt
  rw [hlow, hhigh, hsize', hbit]

lemma storeInfo_infoAt (mem : ByteMemory) (a : ℕ) : storeInfo mem a (infoAt mem a) = mem := by
  have h31 : size31 (infoAt mem a).size = (infoAt mem a).size :=
    Nat.mod_eq_of_lt (infoAt_size_lt mem a)
  have hlow : (infoAt mem a).busy.toNat + 2 * (infoAt mem a).size = load32 mem a := by
    unfold infoAt
    by_cases hodd : load32 mem a % 2 = 1
    · simp only [hodd, decide_true, Bool.toNat_true]
      omega
    · simp only [hodd, decide_false, Bool.toNat_false]
      omega
  unfold storeInfo
  rw [h31, hlow, store32_load32]
  exact store32_load32 mem (a + 4)

lemma infoAt_storeInfo (hsize : i.size < 2 ^ 31) (hptr : i.ptr < 2 ^ 32) (hsep : Separate c a) :
    infoAt (storeInfo mem a i) c = Function.update (infoAt mem) a i c := by
  by_cases hca : c = a
  · rw [hca, Function.update_self]
    exact infoAt_storeInfo_self hsize hptr
  · rw [Function.update_of_ne hca]
    refine infoAt_congr fun x hcx hxc => storeInfo_of_outside ?_
    unfold Separate at hsep
    omega

lemma storeInfo_storeInfo : storeInfo (storeInfo mem a i) a j = storeInfo mem a j := by
  funext x
  by_cases hout : x < a ∨ a + 8 ≤ x
  · rw [storeInfo_of_outside hout, storeInfo_of_outside hout, storeInfo_of_outside hout]
  · by_cases hlow : x < a + 4
    · have hin : a ≤ x ∧ x < a + 4 := ⟨by omega, hlow⟩
      have hnot : ¬(a + 4 ≤ x ∧ x < a + 4 + 4) := by omega
      simp [storeInfo, store32, hin, hnot]
    · have hin : a + 4 ≤ x ∧ x < a + 4 + 4 := ⟨by omega, by omega⟩
      simp [storeInfo, store32, hin]

end headers

/-! ### Following the calls on headers -/

variable {heap heap' heap'' : ByteHeap} {spec : HeapManager} {l l' l'' w : List ℕ} {b c : ℕ}

@[simp] lemma view_limit (heap : ByteHeap) : (view heap).limit = heap.limit := rfl
@[simp] lemma view_next (heap : ByteHeap) : (view heap).next = heap.next := rfl
@[simp] lemma view_last (heap : ByteHeap) : (view heap).last = heap.last := rfl
@[simp] lemma view_start (heap : ByteHeap) : (view heap).start = heap.start := rfl
@[simp] lemma view_mem (heap : ByteHeap) (a : ℕ) : (view heap).mem a = info heap a := rfl
@[simp] lemma sizeAt_view (heap : ByteHeap) (a : ℕ) : sizeAt (view heap) a = (info heap a).size :=
  rfl

/-- `heap'` differs from `heap` in the headers `w` only, and its headers are those of `spec`. -/
structure Tracks (heap heap' : ByteHeap) (spec : HeapManager) (w : List ℕ) : Prop where
  limit : heap'.limit = spec.limit
  next : heap'.next = spec.next
  last : heap'.last = spec.last
  start : heap'.start = spec.start
  sbrkSize : heap'.sbrkSize = spec.sbrkSize
  header : ∀ a, (∀ b ∈ w, Separate a b) → info heap' a = spec.mem a
  bytes : ∀ x, (∀ b ∈ w, x < b ∨ b + 8 ≤ x) → heap'.mem x = heap.mem x

/-- Blocks in use other than `b` hold the same bytes, and so does memory outside the heap. -/
structure KeepsBlocks (heap : ByteHeap) (l : List ℕ) (heap' : ByteHeap) (l' : List ℕ)
    (b : Option ℕ) : Prop where
  start : heap'.start = heap.start
  limit : heap.limit ≤ heap'.limit
  blocks : ∀ c ∈ l, (info heap c).busy = true → b ≠ some c →
    c ∈ l' ∧ SameOn heap.mem heap'.mem c (c + (info heap c).size)
  outside : ∀ x, x < heap.start ∨ heap'.limit ≤ x → heap'.mem x = heap.mem x

lemma KeepsBlocks.refl (heap : ByteHeap) (l : List ℕ) (b : Option ℕ) :
    KeepsBlocks heap l heap l b :=
  ⟨rfl, le_rfl, fun _ hc _ _ => ⟨hc, SameOn.refl _ _ _⟩, fun _ _ => rfl⟩

lemma KeepsBlocks.info_eq {b : Option ℕ} (h : KeepsBlocks heap l heap' l' b)
    (hs : Shape (view heap) l) (hc : c ∈ l) (hbusy : (info heap c).busy = true)
    (hne : b ≠ some c) : info heap' c = info heap c := by
  obtain ⟨-, hsize, -⟩ := hs.lt_limit hc
  have hunit : cachelineSize = 64 := rfl
  rw [sizeAt_view] at hsize
  exact infoAt_congr ((h.blocks c hc hbusy hne).2.mono le_rfl (by omega))

lemma KeepsBlocks.trans {b : Option ℕ} (hs : Shape (view heap) l)
    (h₁ : KeepsBlocks heap l heap' l' none) (h₂ : KeepsBlocks heap' l' heap'' l'' b) :
    KeepsBlocks heap l heap'' l'' b := by
  refine ⟨h₂.start.trans h₁.start, h₁.limit.trans h₂.limit, ?_, ?_⟩
  · intro c hc hbusy hne
    have hinfo := h₁.info_eq hs hc hbusy (by simp)
    obtain ⟨hc', hsame⟩ := h₁.blocks c hc hbusy (by simp)
    obtain ⟨hc'', hsame'⟩ := h₂.blocks c hc' (by rw [hinfo]; exact hbusy) hne
    rw [hinfo] at hsame'
    exact ⟨hc'', hsame.trans hsame'⟩
  · intro x hx
    have hlimit := h₂.limit
    rw [h₂.outside x (by rw [h₁.start]; exact hx), h₁.outside x (by omega)]

lemma separate_of_mem (h : Chain (sizeAt spec) cachelineSize spec.start l spec.limit) {a : ℕ}
    (ha : a ∈ l ∨ spec.limit ≤ a) (hb : b ∈ l) : Separate a b := by
  have hunit : cachelineSize = 64 := rfl
  have hbounds := h.bounds hb
  unfold Separate
  cases ha with
  | inl hmem =>
    by_cases hab : a = b
    · exact .inl hab
    · have hsize := h.bounds hmem
      have := h.disjoint hmem hb hab
      omega
  | inr hge => omega

namespace Tracks

lemma view_eq (h : Tracks heap heap' spec w) : view heap' = { spec with mem := info heap' } := by
  have hlimit := h.limit
  have hnext := h.next
  have hlast := h.last
  have hstart := h.start
  have hsbrk := h.sbrkSize
  unfold view
  rw [hlimit, hnext, hlast, hstart, hsbrk]
  rfl

lemma header_of_mem (h : Tracks heap heap' spec w)
    (hchain : Chain (sizeAt spec) cachelineSize spec.start l' spec.limit) (hw : ∀ b ∈ w, b ∈ l')
    {a : ℕ} (ha : a ∈ l' ∨ spec.limit ≤ a) : info heap' a = spec.mem a :=
  h.header a fun b hb => separate_of_mem hchain ha (hw b hb)

lemma shape (h : Tracks heap heap' spec w) (hs : Shape spec l') (hw : ∀ b ∈ w, b ∈ l') :
    Shape (view heap') l' := by
  rw [h.view_eq]
  exact hs.congr fun a ha => h.header_of_mem hs.chain hw ha

lemma chain (h : Tracks heap heap' spec w)
    (hchain : Chain (sizeAt spec) cachelineSize spec.start l' spec.limit) (hw : ∀ b ∈ w, b ∈ l') :
    Chain (sizeAt (view heap')) cachelineSize heap'.start l' heap'.limit := by
  rw [h.start, h.limit]
  refine hchain.congr fun a ha => ?_
  rw [sizeAt_view, h.header_of_mem hchain hw (.inl ha)]
  rfl

lemma keepsBlocks {b : Option ℕ} (h : Tracks heap heap' spec w)
    (hchain : Chain (sizeAt spec) cachelineSize spec.start l' spec.limit) (hw : ∀ a ∈ w, a ∈ l')
    (hstart : spec.start = heap.start) (hlimit : heap.limit ≤ spec.limit)
    (hkeep : KeepsBusy (view heap) l spec l' b)
    (hfree : ∀ a ∈ w, a ∈ l → (info heap a).busy = true → b = some a) :
    KeepsBlocks heap l heap' l' b := by
  have hunit : cachelineSize = 64 := rfl
  refine ⟨h.start.trans hstart, h.limit.symm ▸ hlimit, ?_, ?_⟩
  · intro c hc hbusy hne
    obtain ⟨hc', hsame⟩ := hkeep c hc hbusy hne
    refine ⟨hc', fun x hcx hxc => h.bytes x fun a ha => ?_⟩
    have hac : a ≠ c := by
      rintro rfl
      exact hne (hfree a ha hc hbusy)
    have hdis := hchain.disjoint (hw a ha) hc' hac
    have hbounds := hchain.bounds (hw a ha)
    have hsize : sizeAt spec c = (info heap c).size := by
      unfold sizeAt
      rw [hsame, view_mem]
    omega
  · intro x hx
    refine h.bytes x fun a ha => ?_
    have hbounds := hchain.bounds (hw a ha)
    rw [h.limit] at hx
    omega

end Tracks

lemma Separate.self (a : ℕ) : Separate a a := .inl rfl

lemma takeBlock_split {esz : ℕ} (hesz : cachelineSize ≤ esz)
    (hfit : esz + cachelineSize ≤ (info heap b).size) (hend : b + (info heap b).size < 2 ^ 31) :
    Tracks heap (takeBlock heap b esz) (UserHeap.takeBlock (view heap) b esz) [b, b + esz] := by
  have hunit : cachelineSize = 64 := rfl
  have hspec : UserHeap.takeBlock (view heap) b esz = _ :=
    UserHeap.takeBlock_split (Nat.lt_of_lt_of_le (by decide) hesz) hfit hend
  rw [hspec]
  obtain ⟨old, hold⟩ : ∃ old, infoAt heap.mem b = old := ⟨_, rfl⟩
  simp only [info, hold] at hfit hend
  simp only [sizeAt_view, view_mem, view_limit, info, hold]
  have hptr : old.ptr < 2 ^ 32 := hold ▸ infoAt_ptr_lt heap.mem b
  have hsub : wsub old.size esz = old.size - esz := wsub_of_le (by omega) (by omega)
  have hadd : wadd b esz = b + esz := wadd_of_lt (by omega)
  have hrem : cachelineSize ≤ old.size - esz := by omega
  have hnext : Separate b (b + esz) := .inr (.inl (by omega))
  have hsum : wadd (b + esz) (old.size - esz) = b + old.size := by
    rw [wadd_of_lt (by omega)]
    omega
  generalize hi : (⟨false, old.size - esz, (infoAt heap.mem (b + esz)).ptr⟩ : BlockInfo) = i
  have hisize : i.size < 2 ^ 31 := by
    rw [← hi]
    simp only
    omega
  have hiptr : i.ptr < 2 ^ 32 := hi ▸ infoAt_ptr_lt heap.mem (b + esz)
  have hone : infoAt (storeInfo heap.mem (b + esz) i) b = old := by
    rw [infoAt_storeInfo hisize hiptr hnext, Function.update_of_ne (by omega), hold]
  have htwo : infoAt (storeInfo (storeInfo heap.mem (b + esz) i) b ⟨true, esz, old.ptr⟩) b =
      ⟨true, esz, old.ptr⟩ :=
    infoAt_storeInfo_self (by simp only; omega) hptr
  have hlast : infoAt (storeInfo (storeInfo heap.mem (b + esz) i) b ⟨true, esz, 0⟩) (b + esz) = i := by
    rw [infoAt_storeInfo (by simp only; omega) (by simp) (.inr (.inr (by omega))),
      Function.update_of_ne (by omega), infoAt_storeInfo_self hisize hiptr]
  have hsize : i.size = old.size - esz := hi ▸ rfl
  have hresult : takeBlock heap b esz = { heap with
      next := b + esz
      last := if heap.limit ≤ b + old.size then b + esz else heap.last
      mem := storeInfo (storeInfo heap.mem (b + esz) i) b ⟨true, esz, 0⟩ } := by
    simp only [takeBlock, setInfo, info, hold, hsub, if_pos hrem, hadd, hi, hone, htwo,
      storeInfo_storeInfo, hlast, hsize, hsum]
    split_ifs <;> rfl
  rw [hresult]
  refine ⟨rfl, rfl, rfl, rfl, rfl, ?_, ?_⟩
  · intro a ha
    change infoAt (storeInfo (storeInfo heap.mem (b + esz) i) b ⟨true, esz, 0⟩) a = _
    rw [infoAt_storeInfo (by simp only; omega) (by simp) (ha b (by simp))]
    by_cases hab : a = b
    · simp [hab]
    · rw [Function.update_of_ne hab, infoAt_storeInfo hisize hiptr (ha (b + esz) (by simp))]
      simp [Function.update_apply, hab, view]
  · intro x hx
    change storeInfo (storeInfo heap.mem (b + esz) i) b ⟨true, esz, 0⟩ x = heap.mem x
    rw [storeInfo_of_outside (hx b (by simp)), storeInfo_of_outside (hx (b + esz) (by simp))]

lemma takeBlock_whole {esz : ℕ} (hfit : esz ≤ (info heap b).size)
    (hsmall : (info heap b).size < esz + cachelineSize) (hunit : cachelineSize ≤ (info heap b).size)
    (hend : b + (info heap b).size < 2 ^ 31) :
    Tracks heap (takeBlock heap b esz) (UserHeap.takeBlock (view heap) b esz) [b] := by
  have h64 : cachelineSize = 64 := rfl
  have hspec : UserHeap.takeBlock (view heap) b esz = _ :=
    UserHeap.takeBlock_whole hfit hsmall (Nat.lt_of_lt_of_le (by decide) hunit) hend
  rw [hspec]
  obtain ⟨old, hold⟩ : ∃ old, infoAt heap.mem b = old := ⟨_, rfl⟩
  simp only [info, hold] at hfit hsmall hunit hend
  simp only [sizeAt_view, view_limit, info, hold]
  have hptr : old.ptr < 2 ^ 32 := hold ▸ infoAt_ptr_lt heap.mem b
  have hsize : old.size < 2 ^ 31 := by omega
  have hsub : wsub old.size esz = old.size - esz := wsub_of_le (by omega) (by omega)
  have hadd : wadd b old.size = b + old.size := wadd_of_lt (by omega)
  have hrem : ¬cachelineSize ≤ old.size - esz := by omega
  have hone : infoAt (storeInfo heap.mem b ⟨true, old.size, old.ptr⟩) b = ⟨true, old.size, old.ptr⟩ :=
    infoAt_storeInfo_self hsize hptr
  have hnext : infoAt (storeInfo heap.mem b ⟨true, old.size, 0⟩) (b + old.size) =
      infoAt heap.mem (b + old.size) := by
    rw [infoAt_storeInfo (i := ⟨true, old.size, 0⟩) hsize (by simp) (.inr (.inr (by omega))),
      Function.update_of_ne (by omega)]
  have hresult : takeBlock heap b esz = { heap with
      next := b + old.size
      last := if heap.limit ≤ wadd (b + old.size) (infoAt heap.mem (b + old.size)).size
        then b + old.size else heap.last
      mem := storeInfo heap.mem b ⟨true, old.size, 0⟩ } := by
    simp only [takeBlock, setInfo, info, hold, hsub, if_neg hrem, hadd, hone,
      storeInfo_storeInfo, hnext]
    split_ifs <;> rfl
  rw [hresult]
  refine ⟨rfl, rfl, rfl, rfl, rfl, ?_, ?_⟩
  · intro a ha
    change infoAt (storeInfo heap.mem b ⟨true, old.size, 0⟩) a = _
    rw [infoAt_storeInfo (i := ⟨true, old.size, 0⟩) hsize (by simp) (ha b (by simp))]
    rfl
  · intro x hx
    exact storeInfo_of_outside (hx b (by simp))

/-- The blocks `l` of a heap between calls, all at multiples of 8. -/
structure Good (heap : ByteHeap) (l : List ℕ) : Prop where
  shape : Shape (view heap) l
  limit : 8 ∣ heap.limit
  aligned : ∀ a ∈ l, 8 ∣ a

lemma Good.bounds (h : Good heap l) (hc : c ∈ l) :
    heap.start ≤ c ∧ 64 ≤ (info heap c).size ∧ c + (info heap c).size ≤ heap.limit ∧
      heap.limit < 2 ^ 31 :=
  h.shape.lt_limit hc

lemma Good.take (h : Good heap l) {esz : ℕ} (hb : b ∈ l) (hfree : (info heap b).busy = false)
    (hesz : cachelineSize ≤ esz) (hfit : esz ≤ (info heap b).size) (h8 : 8 ∣ esz) :
    ∃ l', Good (takeBlock heap b esz) l' ∧ KeepsBlocks heap l (takeBlock heap b esz) l' none ∧
      (∀ a ∈ l, a ∈ l') ∧ b ∈ l' ∧
      ∃ size, esz ≤ size ∧ info (takeBlock heap b esz) b = ⟨true, size, 0⟩ := by
  have hunit : cachelineSize = 64 := rfl
  obtain ⟨hstart, hsize, hend, hlimit⟩ := h.bounds hb
  obtain ⟨l', hshape, hb', ⟨size, hle, hmem⟩, hkeep, hfrom, hsub⟩ :=
    h.shape.take hb hfree hesz hfit
  obtain ⟨w, htracks, hw, hwfree⟩ : ∃ w, Tracks heap (takeBlock heap b esz)
      (UserHeap.takeBlock (view heap) b esz) w ∧ (∀ a ∈ w, a ∈ l') ∧
        ∀ a ∈ w, a ∈ l → (info heap a).busy = true → none = some a := by
    by_cases hsplit : esz + cachelineSize ≤ (info heap b).size
    · refine ⟨_, takeBlock_split hesz hsplit (by omega), ?_, ?_⟩
      · intro a ha
        have hcases : a = b ∨ a = b + esz := by simpa using ha
        obtain rfl | rfl := hcases
        · exact hb'
        · have hnext := hshape.next
          rw [UserHeap.takeBlock_split (by omega) hsplit (by rw [sizeAt_view]; omega)] at hnext
          obtain heq | hin := hnext
          · change b + esz = heap.limit at heq
            omega
          · exact hin
      · intro a ha hal hbusy
        have hcases : a = b ∨ a = b + esz := by simpa using ha
        obtain rfl | rfl := hcases
        · rw [hfree] at hbusy
          simp at hbusy
        · have := h.shape.chain.disjoint hal hb (by omega)
          have := h.bounds hal
          simp only [sizeAt_view] at *
          omega
    · refine ⟨_, takeBlock_whole hfit (by omega) (by omega) (by omega), ?_, ?_⟩
      · intro a ha
        obtain rfl : a = b := by simpa using ha
        exact hb'
      · intro a ha _ hbusy
        obtain rfl : a = b := by simpa using ha
        rw [hfree] at hbusy
        simp at hbusy
  have hfields : (UserHeap.takeBlock (view heap) b esz).start = heap.start ∧
      (UserHeap.takeBlock (view heap) b esz).limit = heap.limit := by
    unfold UserHeap.takeBlock UserHeap.setInfo
    simp only
    split_ifs <;> exact ⟨rfl, rfl⟩
  refine ⟨l', ⟨htracks.shape hshape hw, ?_, ?_⟩, ?_, hsub, hb', size, hle, ?_⟩
  · rw [htracks.limit, hfields.2]
    exact h.limit
  · intro a ha
    have hba := h.aligned b hb
    obtain hal | rfl := hfrom a ha
    · exact h.aligned a hal
    · exact Dvd.dvd.add hba h8
  · exact htracks.keepsBlocks hshape.chain hw hfields.1 hfields.2.ge hkeep hwfree
  · rw [htracks.header_of_mem hshape.chain hw (.inl hb'), hmem]

def grownAt (heap : ByteHeap) : ℕ :=
  if (info heap heap.last).busy then wadd heap.last (info heap heap.last).size else heap.last

lemma grow_tracks {pages : ℕ} (hsize : (info heap heap.last).size + pages * pageSize < 2 ^ 31) :
    Tracks heap (grow heap pages) (UserHeap.grow (view heap) pages) [grownAt heap] := by
  have h31 : size31 (pages * pageSize) = pages * pageSize := Nat.mod_eq_of_lt (by omega)
  have h31' : size31 ((info heap heap.last).size + pages * pageSize) =
      (info heap heap.last).size + pages * pageSize := Nat.mod_eq_of_lt hsize
  cases hbusy : (info heap heap.last).busy with
  | true =>
    have hgrow : grow heap pages = { heap with
        limit := wadd heap.limit (pages * pageSize)
        last := wadd heap.last (info heap heap.last).size
        mem := storeInfo heap.mem (wadd heap.last (info heap heap.last).size)
          ⟨false, pages * pageSize, 0⟩ } := by
      unfold info at hbusy
      simp [grow, setInfo, info, hbusy]
    have hspec : UserHeap.grow (view heap) pages = { view heap with
        limit := wadd heap.limit (pages * pageSize)
        last := wadd heap.last (info heap heap.last).size
        mem := Function.update (info heap) (wadd heap.last (info heap heap.last).size)
          ⟨false, pages * pageSize, 0⟩ } := by
      simp [UserHeap.grow, UserHeap.setInfo, hbusy, h31]
      rfl
    rw [hgrow, hspec, grownAt, if_pos hbusy]
    refine ⟨rfl, rfl, rfl, rfl, rfl, ?_, ?_⟩
    · intro a ha
      exact infoAt_storeInfo (i := ⟨false, pages * pageSize, 0⟩) (by simp only; omega) (by simp)
        (ha _ (by simp))
    · intro x hx
      exact storeInfo_of_outside (hx _ (by simp))
  | false =>
    have hgrow : grow heap pages = { heap with
        limit := wadd heap.limit (pages * pageSize)
        mem := storeInfo heap.mem heap.last { info heap heap.last with
          size := (info heap heap.last).size + pages * pageSize } } := by
      unfold info at hbusy
      simp [grow, setInfo, info, hbusy]
    have hspec : UserHeap.grow (view heap) pages = { view heap with
        limit := wadd heap.limit (pages * pageSize)
        mem := Function.update (info heap) heap.last { info heap heap.last with
          size := (info heap heap.last).size + pages * pageSize } } := by
      simp [UserHeap.grow, UserHeap.setInfo, hbusy, h31']
      rfl
    rw [hgrow, hspec, grownAt, hbusy, if_neg Bool.false_ne_true]
    refine ⟨rfl, rfl, rfl, rfl, rfl, ?_, ?_⟩
    · intro a ha
      exact infoAt_storeInfo (i := { info heap heap.last with
        size := (info heap heap.last).size + pages * pageSize }) hsize (infoAt_ptr_lt _ _)
        (ha _ (by simp))
    · intro x hx
      exact storeInfo_of_outside (hx _ (by simp))

lemma Good.grow (h : Good heap l) {pages : ℕ} (hpages : 0 < pages)
    (hroom : heap.limit + pages * pageSize ≤ usrLimit) :
    ∃ l', Good (UserRealloc.grow heap pages) l' ∧
      KeepsBlocks heap l (UserRealloc.grow heap pages) l' none ∧
      (UserRealloc.grow heap pages).limit ≤ usrLimit ∧ ∀ a ∈ l, a ∈ l' := by
  have hunit : cachelineSize = 64 := rfl
  have hpos : 0 < pages * pageSize := Nat.mul_pos hpages (by decide)
  have husr : usrLimit < 2 ^ 31 := by decide
  have hlast : heap.last ≤ heap.limit ∧ (info heap heap.last).size + heap.last ≤ heap.limit := by
    obtain heq | ⟨-, hend⟩ := h.shape.last
    · have hfresh := h.shape.fresh heap.last (by rw [← heq]; rfl)
      have hzero : (info heap heap.last).size = 0 := congrArg BlockInfo.size hfresh
      change heap.last = heap.limit at heq
      omega
    · change heap.last + (info heap heap.last).size = heap.limit at hend
      omega
  have htracks : Tracks heap (UserRealloc.grow heap pages) _ _ := grow_tracks (by omega)
  have hlimit : (UserHeap.grow (view heap) pages).limit = heap.limit + pages * pageSize := by
    have hadd : wadd heap.limit (pages * pageSize) = heap.limit + pages * pageSize :=
      wadd_of_lt (by omega)
    rw [← hadd]
    unfold UserHeap.grow UserHeap.setInfo
    simp only
    split_ifs <;> rfl
  have hstart : (UserHeap.grow (view heap) pages).start = heap.start := by
    unfold UserHeap.grow UserHeap.setInfo
    simp only
    split_ifs <;> rfl
  have hat : (UserHeap.grow (view heap) pages).last = grownAt heap := by
    cases hb : (info heap heap.last).busy with
    | true => simp [UserHeap.grow, UserHeap.setInfo, grownAt, hb]
    | false => simp [UserHeap.grow, UserHeap.setInfo, grownAt, hb]
  have hle : grownAt heap ≤ heap.limit := by
    have hadd : wadd heap.last (info heap heap.last).size = heap.last + (info heap heap.last).size :=
      wadd_of_lt (by omega)
    unfold grownAt
    split_ifs <;> omega
  obtain ⟨l', hshape, hkeep, hfrom, hsub⟩ := h.shape.grow hpages hroom
  have hw : ∀ a ∈ [grownAt heap], a ∈ l' := by
    intro a ha
    obtain rfl : a = grownAt heap := by simpa using ha
    obtain heq | ⟨hin, -⟩ := hshape.last
    · omega
    · rwa [hat] at hin
  refine ⟨l', ⟨htracks.shape hshape hw, ?_, ?_⟩, ?_, ?_, hsub⟩
  · rw [htracks.limit, hlimit]
    exact Dvd.dvd.add h.limit (Dvd.dvd.mul_left (by decide) pages)
  · intro a ha
    obtain hal | rfl := hfrom a ha
    · exact h.aligned a hal
    · exact h.limit
  · refine htracks.keepsBlocks hshape.chain hw hstart (by omega) hkeep ?_
    intro a ha hal hbusy
    obtain rfl : a = grownAt heap := by simpa using ha
    -- the header written is that of a free block, or it lies at the old limit
    have hbounds := h.bounds hal
    cases hb : (info heap heap.last).busy with
    | true =>
      obtain heq | ⟨hin, hend⟩ := h.shape.last
      · have hfresh := h.shape.fresh heap.last (by rw [← heq]; rfl)
        have hfree : (info heap heap.last).busy = false := congrArg BlockInfo.busy hfresh
        rw [hfree] at hb
        simp at hb
      · change heap.last + (info heap heap.last).size = heap.limit at hend
        have heq : grownAt heap = heap.limit := by
          rw [grownAt, if_pos hb, wadd_of_lt (by omega), hend]
        omega
    | false =>
      have heq : grownAt heap = heap.last := by
        rw [grownAt, hb, if_neg Bool.false_ne_true]
      rw [heq, hb] at hbusy
      simp at hbusy
  · rw [htracks.limit, hlimit]
    exact hroom

/-- The block behind a new allocation of `size` bytes. -/
structure NewBlock (heap : ByteHeap) (l : List ℕ) (heap' : ByteHeap) (l' : List ℕ)
    (size b : ℕ) : Prop where
  mem : b ∈ l'
  header : ∃ room, size + sizeofInfo ≤ room ∧ info heap' b = ⟨true, room, 0⟩
  unused : ∀ c ∈ l, (info heap c).busy = true → c ≠ b

lemma effectiveSize_eq {size : ℕ} (hsize : size + 72 ≤ 2 ^ 32) :
    effectiveSize size = UserHeap.effectiveSize size :=
  Nat.mod_eq_of_lt (effectiveSize_spec hsize).2.2.1

lemma Good.doMalloc (h : Good heap l) {size : ℕ} (hsize : size + 72 ≤ 2 ^ 32) (round : ℕ) :
    UserRealloc.doMalloc heap size round = some (heap, none) ∨
      ∃ heap' l' b, UserRealloc.doMalloc heap size round = some (heap', some (b + sizeofInfo)) ∧
        Good heap' l' ∧ KeepsBlocks heap l heap' l' none ∧ (∀ a ∈ l, a ∈ l') ∧
        NewBlock heap l heap' l' size b := by
  obtain ⟨hesz, hunit, -, h64⟩ := effectiveSize_spec hsize
  have heq := effectiveSize_eq hsize
  generalize UserHeap.effectiveSize size = esz at *
  by_cases hround : round = 0 ∧ wsub heap.limit esz < heap.next
  · left
    simp [UserRealloc.doMalloc, heq, hround]
  · obtain ⟨cur, hcur⟩ : ∃ cur, (if wsub heap.limit esz < heap.next then heap.start
        else heap.next) = cur := ⟨_, rfl⟩
    have hsearch : search (view heap) esz (heap.limit + 1) cur = some none ∨
        ∃ b ∈ l, search (view heap) esz (heap.limit + 1) cur = some (some b) ∧
          (info heap b).busy = false ∧ esz ≤ (info heap b).size :=
      hcur ▸ h.shape.search (Nat.lt_of_lt_of_le (by decide) hunit)
    obtain hnone | ⟨b, hb, hfound, hfree, hfit⟩ := hsearch
    · left
      simp [UserRealloc.doMalloc, heq, hround, hcur, hnone]
    · right
      have h8 : 8 ∣ esz := Dvd.dvd.trans (by decide) h64
      obtain ⟨l', hgood, hkeep, hsub, hb', room, hroom, hinfo⟩ := h.take hb hfree hunit hfit h8
      have hbounds := h.bounds hb
      have hptr : wadd b sizeofInfo = b + sizeofInfo :=
        wadd_of_lt (by unfold sizeofInfo; omega)
      refine ⟨UserRealloc.takeBlock heap b esz, l', b, ?_, hgood, hkeep, hsub,
        hb', ⟨room, by omega, hinfo⟩, ?_⟩
      · simp [UserRealloc.doMalloc, heq, hround, hcur, hfound, hptr]
      · rintro c - hbusy rfl
        rw [hfree] at hbusy
        simp at hbusy

lemma NewBlock.after {size : ℕ} (hs : Shape (view heap) l)
    (hkeep : KeepsBlocks heap l heap' l' none) (h : NewBlock heap' l' heap'' l'' size b) :
    NewBlock heap l heap'' l'' size b := by
  refine ⟨h.mem, h.header, ?_⟩
  intro c hc hbusy
  have hinfo := hkeep.info_eq hs hc hbusy (by simp)
  exact h.unused c (hkeep.blocks c hc hbusy (by simp)).1 (by rw [hinfo]; exact hbusy)

lemma mallocLoop_spec {size : ℕ} (hsize : size + 72 ≤ 2 ^ 32) :
    ∀ fuel tries (heap : ByteHeap) l grants, Good heap l →
      ∃ heap' l' r, mallocLoop size fuel tries heap grants = some (heap', r) ∧ Good heap' l' ∧
        KeepsBlocks heap l heap' l' none ∧ (∀ a ∈ l, a ∈ l') ∧
          ∀ ptr, r = some ptr → ∃ b, ptr = b + sizeofInfo ∧ NewBlock heap l heap' l' size b := by
  intro fuel
  induction fuel with
  | zero =>
    intro tries heap l grants h
    exact ⟨heap, l, none, rfl, h, .refl _ _ _, fun a ha => ha, by simp⟩
  | succ fuel ih =>
    intro tries heap l grants h
    obtain hnone | ⟨heap', l', b, hfound, hgood, hkeep, hsub, hnew⟩ := h.doMalloc hsize tries
    · by_cases hstop : grants = 0 ∨ usrLimit < heap.limit + growPages (view heap) size * pageSize
      · refine ⟨heap, l, none, ?_, h, .refl _ _ _, fun a ha => ha, by simp⟩
        simp [mallocLoop, hnone, hstop]
      · obtain ⟨l₁, hgood₁, hkeep₁, -, hsub₁⟩ :=
          h.grow (growPages_pos h.shape size) (Nat.le_of_not_lt fun hlt => hstop (.inr hlt))
        obtain ⟨heap', l', r, hloop, hgood, hkeep, hsub, hnew⟩ :=
          ih (tries + 1) (UserRealloc.grow heap (growPages (view heap) size)) l₁ (grants - 1) hgood₁
        refine ⟨heap', l', r, ?_, hgood, hkeep₁.trans h.shape hkeep,
          fun a ha => hsub a (hsub₁ a ha), ?_⟩
        · simp [mallocLoop, hnone, hstop, hloop]
        · intro ptr hptr
          obtain ⟨b, hb, hblock⟩ := hnew ptr hptr
          exact ⟨b, hb, hblock.after h.shape hkeep₁⟩
    · refine ⟨heap', l', some (b + sizeofInfo), by simp [mallocLoop, hfound], hgood, hkeep, hsub, ?_⟩
      intro ptr hptr
      obtain rfl : b + sizeofInfo = ptr := by simpa using hptr
      exact ⟨b, rfl, hnew⟩

lemma setInfo_setInfo (a : ℕ) (i j : BlockInfo) :
    setInfo (setInfo heap a i) a j = setInfo heap a j := by
  simp [setInfo, storeInfo_storeInfo]

lemma setInfo_self (a : ℕ) : setInfo heap a (info heap a) = heap := by
  simp [setInfo, info, storeInfo_infoAt]

lemma mergeLoop_spec {limit : ℕ} (hlimit : limit < 2 ^ 31) :
    ∀ l₂ fuel (heap : ByteHeap), cachelineSize ≤ (info heap b).size →
      Chain (sizeAt (view heap)) cachelineSize (b + (info heap b).size) l₂ limit →
      l₂.length < fuel →
      ∃ s gone rest, l₂ = gone ++ rest ∧ (∀ c ∈ gone, (info heap c).busy = false) ∧
        mergeLoop limit b fuel heap = some (setInfo heap b { info heap b with size := s }) ∧
        cachelineSize ≤ s ∧ s < 2 ^ 31 ∧
          Chain (sizeAt (view heap)) cachelineSize (b + s) rest limit := by
  have hunit : cachelineSize = 64 := rfl
  intro l₂
  induction l₂ with
  | nil =>
    intro fuel heap hsize hr hfuel
    have hend : b + (info heap b).size = limit := hr
    cases fuel with
    | zero => simp at hfuel
    | succ fuel =>
      refine ⟨(info heap b).size, [], [], rfl, by simp, ?_, hsize, by omega, hr⟩
      have hadd : wadd b (info heap b).size = limit := by rw [wadd_of_lt (by omega), hend]
      have hstop : mergeLoop limit b (fuel + 1) heap = some heap := by simp [mergeLoop, hadd]
      rw [hstop]
      exact congrArg some (setInfo_self b).symm
  | cons y ys ih =>
    intro fuel heap hsize hr hfuel
    have hr' := hr
    obtain ⟨rfl, hy, hrest⟩ := hr
    have hle := hrest.le
    simp only [sizeAt_view] at hy hrest hle
    cases fuel with
    | zero => simp at hfuel
    | succ fuel =>
      have hadd : wadd b (info heap b).size = b + (info heap b).size := wadd_of_lt (by omega)
      have hlt : ¬limit ≤ b + (info heap b).size := by omega
      cases hbusy : (info heap (b + (info heap b).size)).busy with
      | true =>
        refine ⟨(info heap b).size, [], _, rfl, by simp, ?_, hsize, by omega, hr'⟩
        have hstop : mergeLoop limit b (fuel + 1) heap = some heap := by
          simp [mergeLoop, hadd, hbusy]
        rw [hstop]
        exact congrArg some (setInfo_self b).symm
      | false =>
        obtain ⟨s, hs⟩ : ∃ s, (info heap b).size + (info heap (b + (info heap b).size)).size = s :=
          ⟨_, rfl⟩
        obtain ⟨heap₁, hheap₁⟩ : ∃ heap₁, setInfo heap b { info heap b with size := s } = heap₁ :=
          ⟨_, rfl⟩
        have hinfo : ∀ c, Separate c b →
            info heap₁ c = Function.update (info heap) b { info heap b with size := s } c := by
          intro c hc
          rw [← hheap₁]
          exact infoAt_storeInfo (i := { info heap b with size := s }) (by simp only; omega)
            (infoAt_ptr_lt _ _) hc
        have hself : info heap₁ b = { info heap b with size := s } := by
          rw [hinfo b (.self b), Function.update_self]
        have hother : ∀ c, b + 8 ≤ c → info heap₁ c = info heap c := by
          intro c hc
          rw [hinfo c (.inr (.inr hc)), Function.update_of_ne (by omega)]
        have hrest₁ : Chain (sizeAt (view heap₁)) cachelineSize (b + (info heap₁ b).size) ys
            limit := by
          have hsum : b + (info heap b).size + (info heap (b + (info heap b).size)).size = b + s := by
            omega
          rw [hsum] at hrest
          rw [hself]
          refine hrest.congr fun c hc => ?_
          have := hrest.bounds hc
          rw [sizeAt_view, sizeAt_view, hother c (by omega)]
        obtain ⟨s', gone, rest, rfl, hgone, hmerge, hs', hlt', hchain⟩ :=
          ih fuel heap₁ (by rw [hself]; simp only; omega) hrest₁ (by simpa using hfuel)
        have hafter : ∀ c ∈ gone ++ rest, b + 8 ≤ c := by
          intro c hc
          have := hrest.bounds hc
          omega
        refine ⟨s', _ :: gone, rest, rfl, ?_, ?_, hs', hlt', ?_⟩
        · intro c hc
          obtain rfl | hmem := List.mem_cons.mp hc
          · exact hbusy
          · rw [← hother c (hafter c (by simp [hmem]))]
            exact hgone c hmem
        · have hstep : mergeLoop limit b (fuel + 1) heap = mergeLoop limit b fuel heap₁ := by
            simp [mergeLoop, hadd, hlt, hbusy, hs, hheap₁]
          rw [hstep, hmerge, hself, ← hheap₁, setInfo_setInfo]
        · refine hchain.congr fun c hc => ?_
          rw [sizeAt_view, sizeAt_view, hother c (hafter c (by simp [hc]))]

/-- The heap after the block at `b` was freed and grew to `s` bytes. -/
def freedAt (heap : ByteHeap) (b s : ℕ) : ByteHeap :=
  { setInfo heap b ⟨false, s, 0⟩ with next := if b < heap.next then b else heap.next }

/-- The heap after the block behind `ptr` was freed: the blocks `gone` are merged into it. -/
lemma Good.free_merged (h : Good heap l) {ptr : ℕ} (hb : b ∈ l) (hptr : (info heap b).ptr = 0)
    (hheader : headerOf heap ptr = b) (hpos : ptr ≠ 0) :
    ∃ l₁ s gone rest, l = l₁ ++ b :: (gone ++ rest) ∧ Merged (view heap) l₁ b s gone rest ∧
      s < 2 ^ 31 ∧ UserRealloc.free heap ptr = some (freedAt heap b s) := by
  have hunit : cachelineSize = 64 := rfl
  obtain ⟨hstart, hsize, hend, hlimit⟩ := h.bounds hb
  obtain ⟨l₁, l₂, rfl, hl, hr⟩ := h.shape.chain.split hb
  obtain ⟨heap₀, hheap₀⟩ : ∃ heap₀, setInfo heap b { info heap b with busy := false } = heap₀ :=
    ⟨_, rfl⟩
  have hinfo : ∀ c, Separate c b →
      info heap₀ c = Function.update (info heap) b { info heap b with busy := false } c := by
    intro c hc
    rw [← hheap₀]
    exact infoAt_storeInfo (i := { info heap b with busy := false }) (infoAt_size_lt _ _)
      (infoAt_ptr_lt _ _) hc
  have hself : info heap₀ b = { info heap b with busy := false } := by
    rw [hinfo b (.self b), Function.update_self]
  have hother : ∀ c ∈ l₂, info heap₀ c = info heap c := by
    intro c hc
    have hbounds := hr.bounds hc
    rw [sizeAt_view] at hbounds
    rw [hinfo c (.inr (.inr (by omega))), Function.update_of_ne (by omega)]
  have hr₀ : Chain (sizeAt (view heap₀)) cachelineSize (b + (info heap₀ b).size) l₂ heap.limit := by
    rw [hself]
    refine hr.congr fun c hc => ?_
    rw [sizeAt_view, sizeAt_view, hother c hc]
  have hlen : l₂.length < heap.limit + 1 := by
    have := hr.length_mul_le
    rw [hunit] at this
    simp only [view_limit, sizeAt_view] at this
    omega
  obtain ⟨s, gone, rest, rfl, hgone, hmerge, hs, hlt, hchain⟩ :=
    mergeLoop_spec (by omega) l₂ (heap.limit + 1) heap₀ (by rw [hself]; simp only; omega) hr₀ hlen
  refine ⟨l₁, s, gone, rest, rfl, ⟨?_, hs, hl, hr, ?_⟩, hlt, ?_⟩
  · intro c hc
    rw [view_mem, ← hother c (by simp [hc])]
    exact hgone c hc
  · refine hchain.congr fun c hc => ?_
    rw [sizeAt_view, sizeAt_view, hother c (by simp [hc])]
  · have hlimit₀ : heap₀.limit = heap.limit := by rw [← hheap₀]; rfl
    have hmerged : ({ info heap₀ b with size := s } : BlockInfo) = ⟨false, s, 0⟩ := by
      simp [hself, hptr]
    have hmerge' : mergeLoop heap₀.limit b (heap₀.limit + 1) heap₀ =
        some (setInfo heap b ⟨false, s, 0⟩) := by
      rw [hlimit₀, hmerge, hmerged, ← hheap₀, setInfo_setInfo]
    simp only [UserRealloc.free, if_neg hpos, hheader, hheap₀, hmerge']
    by_cases hnext : b < heap.next
    · simp [freedAt, setInfo, hnext]
    · simp [freedAt, setInfo, hnext]

lemma free_tracks (heap : ByteHeap) (b : ℕ) {s : ℕ} (hlt : s < 2 ^ 31) :
    Tracks heap (freedAt heap b s) (freed (view heap) b s) [b] := by
  refine ⟨rfl, rfl, rfl, rfl, rfl, ?_, ?_⟩
  · intro a ha
    exact infoAt_storeInfo (i := ⟨false, s, 0⟩) hlt (by simp) (ha b (by simp))
  · intro x hx
    exact storeInfo_of_outside (hx b (by simp))

lemma Good.merged_keeps {l₁ gone rest : List ℕ} {s : ℕ} (h : Good heap (l₁ ++ b :: (gone ++ rest)))
    (hm : Merged (view heap) l₁ b s gone rest) (hlt : s < 2 ^ 31) :
    KeepsBlocks heap (l₁ ++ b :: (gone ++ rest)) (freedAt heap b s) (l₁ ++ b :: rest) (some b) := by
  have hsize := (h.bounds (c := b) (by simp)).2.1
  refine (free_tracks heap b hlt).keepsBlocks (hm.chain hsize) (by simp) rfl le_rfl hm.keepsBusy ?_
  intro a ha _ _
  obtain rfl : a = b := by simpa using ha
  rfl

lemma Good.merged {l₁ gone rest : List ℕ} {s : ℕ} (h : Good heap (l₁ ++ b :: (gone ++ rest)))
    (hm : Merged (view heap) l₁ b s gone rest) (hlt : s < 2 ^ 31)
    (hlast : ¬SwallowsLast (view heap) b) : Good (freedAt heap b s) (l₁ ++ b :: rest) := by
  refine ⟨(free_tracks heap b hlt).shape (hm.shape h.shape hlast) (by simp), h.limit, ?_⟩
  intro a ha
  refine h.aligned a ?_
  have hcases : a ∈ l₁ ∨ a = b ∨ a ∈ rest := by simpa using ha
  obtain h₁ | h₁ | h₁ := hcases
  · simp [h₁]
  · simp [h₁]
  · simp [h₁]

lemma Good.free (h : Good heap l) {ptr : ℕ} (hb : b ∈ l) (hptr : (info heap b).ptr = 0)
    (hheader : headerOf heap ptr = b) (hpos : ptr ≠ 0) :
    ∃ heap' l', UserRealloc.free heap ptr = some heap' ∧
      Chain (sizeAt (view heap')) cachelineSize heap'.start l' heap'.limit ∧
      KeepsBlocks heap l heap' l' (some b) ∧ heap'.limit = heap.limit ∧
      (∀ x, x < b ∨ b + 8 ≤ x → heap'.mem x = heap.mem x) ∧
      (¬SwallowsLast (view heap) b → Good heap' l') := by
  have hsize := (h.bounds hb).2.1
  obtain ⟨l₁, s, gone, rest, rfl, hm, hlt, hresult⟩ := h.free_merged hb hptr hheader hpos
  exact ⟨_, l₁ ++ b :: rest, hresult, (free_tracks heap b hlt).chain (hm.chain hsize) (by simp),
    h.merged_keeps hm hlt, rfl, fun x hx => storeInfo_of_outside hx, h.merged hm hlt⟩

end Almos.UserRealloc
