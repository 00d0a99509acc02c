import Almos.UserReallocKept

/-!
# The blocks of `valloc`

A `free` may merge the block that `heap_mgr.last` points to. The blocks are still laid end to
end, and the next growth of the heap writes a header inside a free block. The search after it
does not return, so the pointers that `valloc` does return are all right.
-/
namespace Almos.UserRealloc
open Word Bits ByteMemory BlockChain UserHeap

section search
variable {heap : HeapManager} {esz : ℕ}

def Unfit (heap : HeapManager) (esz b : ℕ) : Prop :=
  (heap.mem b).busy = true ∨ sizeAt heap b < esz

lemma unfit_of_search (hlimit : heap.limit < 2 ^ 32) :
    ∀ l c fuel, Chain (sizeAt heap) cachelineSize c l heap.limit →
      search heap esz fuel c = some none → ∀ b ∈ l, Unfit heap esz b := by
  have hunit : cachelineSize = 64 := rfl
  intro l
  induction l with
  | nil => simp
  | cons y ys ih =>
    intro c fuel h hsearch
    obtain ⟨rfl, -, hrest⟩ := h
    have hle := hrest.le
    cases fuel with
    | zero => simp [search] at hsearch
    | succ fuel =>
      have hadd : wadd y (heap.mem y).size = y + sizeAt heap y :=
        wadd_of_lt (by unfold sizeAt at hle; omega)
      by_cases hskip : (heap.mem y).busy = true ∨ (heap.mem y).size < esz
      · intro b hb
        obtain rfl | hmem := List.mem_cons.mp hb
        · exact hskip
        · have hbounds := hrest.bounds hmem
          have hend : ¬heap.limit ≤ y + sizeAt heap y := by omega
          simp only [search, if_pos hskip, hadd, if_neg hend] at hsearch
          exact ih _ fuel hrest hsearch b hmem
      · simp [search, hskip] at hsearch

lemma search_hangs {stop : ℕ} (hzero : heap.mem stop = zeroInfo) (hstop : stop < heap.limit)
    (hlimit : heap.limit < 2 ^ 32) (hesz : 0 < esz) :
    ∀ l c fuel, Chain (sizeAt heap) cachelineSize c l stop → (∀ b ∈ l, Unfit heap esz b) →
      search heap esz fuel c = none := by
  intro l
  induction l with
  | nil =>
    intro c fuel h _
    obtain rfl : c = stop := h
    have hadd : wadd c 0 = c := wadd_of_lt (by omega)
    induction fuel with
    | zero => rfl
    | succ fuel ih => simp [search, hzero, zeroInfo, hesz, hadd, hstop, ih]
  | cons y ys ih =>
    intro c fuel h hunfit
    obtain ⟨rfl, -, hrest⟩ := h
    have hle := hrest.le
    cases fuel with
    | zero => rfl
    | succ fuel =>
      have hadd : wadd y (heap.mem y).size = y + sizeAt heap y :=
        wadd_of_lt (by unfold sizeAt at hle; omega)
      have hskip : (heap.mem y).busy = true ∨ (heap.mem y).size < esz := hunfit y (by simp)
      have hend : ¬heap.limit ≤ y + sizeAt heap y := by omega
      simp only [search, if_pos hskip, hadd, if_neg hend]
      exact ih _ fuel hrest fun b hb => hunfit b (List.mem_cons_of_mem _ hb)

end search

/-! ### Heaps whose last block was merged -/

variable {heap heap' heap'' : ByteHeap} {l l' l'' : List ℕ} {x y : Allocation} {b c tail : ℕ}

def withLast (heap : ByteHeap) (last : ℕ) : ByteHeap := { heap with last := last }

@[simp] lemma withLast_limit (heap : ByteHeap) (a : ℕ) : (withLast heap a).limit = heap.limit := rfl
@[simp] lemma withLast_next (heap : ByteHeap) (a : ℕ) : (withLast heap a).next = heap.next := rfl
@[simp] lemma withLast_mem (heap : ByteHeap) (a : ℕ) : (withLast heap a).mem = heap.mem := rfl
@[simp] lemma info_withLast (heap : ByteHeap) (a c : ℕ) : info (withLast heap a) c = info heap c :=
  rfl

/-- `heap_mgr.last` points into the payload of the free block `tail` that ends the heap. -/
structure Stale (heap : ByteHeap) (l : List ℕ) (tail : ℕ) : Prop where
  good : Good (withLast heap heap.limit) l
  mem : tail ∈ l
  free : (info heap tail).busy = false
  ends : tail + (info heap tail).size = heap.limit
  low : tail + 64 ≤ heap.last
  high : heap.last + 64 ≤ heap.limit
  idle : (info heap heap.last).busy = false
  next : heap.next ≤ tail

def Loose (heap : ByteHeap) (l : List ℕ) : Prop := Good heap l ∨ ∃ tail, Stale heap l tail

lemma Good.withLast (h : Good heap l) {a : ℕ}
    (ha : a = heap.limit ∨ a ∈ l ∧ a + (info heap a).size = heap.limit)
    (hnext : heap.next = heap.limit → a = heap.limit) : Good (withLast heap a) l :=
  ⟨⟨h.shape.chain, h.shape.start_pos, h.shape.start_lt, h.shape.room, ha, h.shape.next, hnext,
    h.shape.fresh, h.shape.sbrk_pos⟩, h.limit, h.aligned⟩

lemma Good.unlast (h : Good heap l) : Good (UserRealloc.withLast heap heap.limit) l :=
  h.withLast (.inl rfl) fun _ => rfl

lemma Loose.unlast (h : Loose heap l) : Good (withLast heap heap.limit) l := by
  obtain hgood | ⟨tail, hstale⟩ := h
  · exact hgood.unlast
  · exact hstale.good

lemma Loose.bounds (h : Loose heap l) (hc : c ∈ l) :
    heap.start ≤ c ∧ 64 ≤ (info heap c).size ∧ c + (info heap c).size ≤ heap.limit ∧
      heap.limit < 2 ^ 31 :=
  h.unlast.bounds hc

lemma Stale.le_tail (h : Stale heap l tail) (hb : b ∈ l) (hne : b ≠ tail) :
    b + (info heap b).size ≤ tail := by
  have hdis := h.good.shape.chain.disjoint hb h.mem hne
  have hbounds := h.good.bounds hb
  have hends := h.ends
  simp only [sizeAt_view, info_withLast, withLast_limit] at hdis hbounds
  omega

lemma Stale.write (h : Stale heap l tail) (hgood : Good (UserRealloc.withLast heap' heap'.limit) l')
    (hlimit : heap'.limit = heap.limit) (hlast : heap'.last = heap.last) (hmem : tail ∈ l')
    (hnext : heap'.next ≤ tail) (hsame : ∀ x, tail ≤ x → heap'.mem x = heap.mem x) :
    Stale heap' l' tail := by
  have hlow := h.low
  have htail : info heap' tail = info heap tail := infoAt_congr fun x hx _ => hsame x hx
  have hidle : info heap' heap.last = info heap heap.last :=
    infoAt_congr fun x hx _ => hsame x (by omega)
  refine ⟨hgood, hmem, ?_, ?_, ?_, ?_, ?_, hnext⟩
  · rw [htail]
    exact h.free
  · rw [htail, hlimit]
    exact h.ends
  · rw [hlast]
    exact h.low
  · rw [hlast, hlimit]
    exact h.high
  · rw [hlast, hidle]
    exact h.idle

def Ends (heap : ByteHeap) : Prop := heap.limit ≤ wadd heap.next (info heap heap.next).size

instance (heap : ByteHeap) : Decidable (Ends heap) :=
  inferInstanceAs (Decidable (heap.limit ≤ wadd heap.next (info heap heap.next).size))

lemma takeBlock_cases (heap : ByteHeap) (b esz : ℕ) : ∃ taken, ∀ a,
    takeBlock (withLast heap a) b esz =
      if Ends taken then withLast taken taken.next else withLast taken a := by
  by_cases hsplit : cachelineSize ≤ wsub (info heap b).size esz
  · let next := wadd b esz
    let split := setInfo (setInfo heap next { info heap next with
      busy := false, size := wsub (info heap b).size esz }) b
        { info (setInfo heap next { info heap next with
          busy := false, size := wsub (info heap b).size esz }) b with busy := true, size := esz }
    refine ⟨setInfo { split with next := next } b { info split b with ptr := 0 }, fun a => ?_⟩
    have hsplit' : cachelineSize ≤ wsub (info (withLast heap a) b).size esz := hsplit
    simp only [takeBlock, if_pos hsplit']
    rfl
  · let whole := setInfo heap b { info heap b with busy := true }
    refine ⟨setInfo { whole with next := wadd b (info heap b).size } b
      { info whole b with ptr := 0 }, fun a => ?_⟩
    have hsplit' : ¬cachelineSize ≤ wsub (info (withLast heap a) b).size esz := hsplit
    simp only [takeBlock, if_neg hsplit']
    rfl

lemma takeBlock_withLast (heap : ByteHeap) (a b esz : ℕ) :
    takeBlock (withLast heap a) b esz =
      if Ends (takeBlock heap b esz) then takeBlock heap b esz
      else withLast (takeBlock heap b esz) a := by
  obtain ⟨taken, htaken⟩ := takeBlock_cases heap b esz
  have hself : takeBlock heap b esz = _ := htaken heap.last
  rw [htaken a, hself]
  by_cases hends : Ends taken
  · have hends' : Ends (withLast taken taken.next) := hends
    rw [if_pos hends, if_pos hends, if_pos hends']
  · have hends' : ¬Ends (withLast taken heap.last) := hends
    rw [if_neg hends, if_neg hends, if_neg hends']
    rfl

lemma Good.take_frame (h : Good heap l) {esz : ℕ} (hb : b ∈ l) (hesz : cachelineSize ≤ esz)
    (hfit : esz ≤ (info heap b).size) :
    (takeBlock heap b esz).limit = heap.limit ∧
      (takeBlock heap b esz).next ≤ b + (info heap b).size ∧
      (b + (info heap b).size = heap.limit → Ends (takeBlock heap b esz)) ∧
      ∀ x, x < b ∨ b + (info heap b).size ≤ x → (takeBlock heap b esz).mem x = heap.mem x := by
  have hunit : cachelineSize = 64 := rfl
  obtain ⟨-, hsize, hend, hlimit⟩ := h.bounds hb
  by_cases hsplit : esz + cachelineSize ≤ (info heap b).size
  · have htracks := takeBlock_split hesz hsplit (by omega)
    have hspec := @UserHeap.takeBlock_split (view heap) b esz (Nat.lt_of_lt_of_le (by decide) hesz)
      hsplit (by rw [sizeAt_view]; omega)
    rw [hspec] at htracks
    have hnext : (takeBlock heap b esz).next = b + esz := htracks.next
    have hheader := htracks.header (b + esz) fun a ha => by
      have hcases : a = b ∨ a = b + esz := by simpa using ha
      obtain rfl | rfl := hcases
      · exact .inr (.inr (by omega))
      · exact .self _
    have hne : b + esz ≠ b := by omega
    simp only [Function.update_of_ne hne, Function.update_self, sizeAt_view] at hheader
    refine ⟨htracks.limit, by omega, ?_, ?_⟩
    · intro heq
      have hlim : (takeBlock heap b esz).limit = heap.limit := htracks.limit
      rw [Ends, hnext, hheader, hlim]
      simp only
      rw [wadd_of_lt (by omega)]
      omega
    · intro x hx
      refine htracks.bytes x fun a ha => ?_
      have hcases : a = b ∨ a = b + esz := by simpa using ha
      omega
  · have htracks := takeBlock_whole hfit (by omega) (by omega) (by omega)
    have hspec := @UserHeap.takeBlock_whole (view heap) b esz hfit
      (by rw [sizeAt_view]; omega) (by rw [sizeAt_view]; omega) (by rw [sizeAt_view]; omega)
    rw [hspec] at htracks
    have hnext : (takeBlock heap b esz).next = b + (info heap b).size := htracks.next
    refine ⟨htracks.limit, hnext.le, ?_, ?_⟩
    · intro heq
      have hlim : (takeBlock heap b esz).limit = heap.limit := htracks.limit
      have hheader := htracks.header heap.limit fun a ha => by
        obtain rfl : a = b := by simpa using ha
        exact .inr (.inr (by omega))
      have hne : heap.limit ≠ b := by omega
      simp only [Function.update_of_ne hne] at hheader
      have hfresh := h.shape.fresh heap.limit le_rfl
      rw [hfresh] at hheader
      have hadd : wadd heap.limit 0 = heap.limit := wadd_of_lt (by omega)
      rw [Ends, hnext, hlim, heq, hheader]
      exact hadd.ge
    · intro x hx
      refine htracks.bytes x fun a ha => ?_
      obtain rfl : a = b := by simpa using ha
      omega

lemma Stale.take (h : Stale heap l tail) {esz : ℕ} (hb : b ∈ l) (hfree : (info heap b).busy = false)
    (hesz : cachelineSize ≤ esz) (hfit : esz ≤ (info heap b).size) (h8 : 8 ∣ esz) :
    ∃ l', Loose (takeBlock heap b esz) l' ∧ KeepsBlocks heap l (takeBlock heap b esz) l' none ∧
      b ∈ l' ∧ ∃ size, esz ≤ size ∧ info (takeBlock heap b esz) b = ⟨true, size, 0⟩ := by
  obtain ⟨fixed, hfixed⟩ : ∃ fixed, withLast heap heap.limit = fixed := ⟨_, rfl⟩
  have hgood := h.good
  rw [hfixed] at hgood
  have heap_eq : heap = withLast fixed heap.last := by rw [← hfixed]; rfl
  have hinfo : ∀ a, info fixed a = info heap a := fun a => by rw [← hfixed]; rfl
  have htake : takeBlock heap b esz = if Ends (takeBlock fixed b esz) then takeBlock fixed b esz
      else withLast (takeBlock fixed b esz) heap.last := by
    conv_lhs => rw [heap_eq]
    exact takeBlock_withLast fixed heap.last b esz
  obtain ⟨l', hgood', hkeep, hsub, hb', hnew⟩ :=
    hgood.take hb (by rw [hinfo]; exact hfree) hesz (by rw [hinfo]; exact hfit) h8
  obtain ⟨hlimit, hnext, hends, hsame⟩ := hgood.take_frame hb hesz (by rw [hinfo]; exact hfit)
  have hkeep' : ∀ a, KeepsBlocks heap l (withLast (takeBlock fixed b esz) a) l' none := by
    intro a
    rw [← hfixed] at hkeep ⊢
    exact ⟨hkeep.start, hkeep.limit, hkeep.blocks, hkeep.outside⟩
  refine ⟨l', ?_, ?_, hb', ?_⟩
  · rw [htake]
    split_ifs with hend
    · exact .inl hgood'
    · have hfixlimit : fixed.limit = heap.limit := by rw [← hfixed]; rfl
      have hfixmem : fixed.mem = heap.mem := by rw [← hfixed]; rfl
      have htail : b ≠ tail := by
        rintro rfl
        exact hend (hends (by rw [hinfo, hfixlimit]; exact h.ends))
      have hle := h.le_tail hb htail
      rw [hinfo] at hnext hsame
      refine .inr ⟨tail, h.write hgood'.unlast (hlimit.trans hfixlimit) rfl (hsub _ h.mem)
        (hnext.trans hle) fun x hx => ?_⟩
      rw [withLast_mem, hsame x (.inr (by omega)), hfixmem]
  · rw [htake]
    split_ifs with hend
    · exact hkeep' (takeBlock fixed b esz).last
    · exact hkeep' heap.last
  · rw [htake]
    split_ifs with hend
    · exact hnew
    · exact hnew

lemma search_withLast (heap : ByteHeap) (a esz : ℕ) : ∀ fuel c,
    search (view (withLast heap a)) esz fuel c = search (view heap) esz fuel c := by
  intro fuel
  induction fuel with
  | zero => exact fun _ => rfl
  | succ fuel ih =>
    intro c
    simp only [search, ih]
    rfl

lemma effectiveSize_le_add {size : ℕ} (hsize : size + 72 ≤ 2 ^ 32) : effectiveSize size ≤ size + 71 := by
  have hadd : wadd size sizeofInfo = size + 8 := wadd_of_lt (by unfold sizeofInfo; omega)
  refine (Nat.mod_le _ _).trans ?_
  unfold arroundUp
  rw [hadd]
  unfold cachelineSize
  split_ifs <;> omega

/-- The first round finds a block, or none of those from `heap_mgr.next` on fits. -/
lemma Stale.doMalloc (h : Stale heap l tail) {size : ℕ} (hsize : size + 72 ≤ 2 ^ 32) :
    UserRealloc.doMalloc heap size 0 = some (heap, none) ∧
        (∀ b ∈ l, heap.next ≤ b → Unfit (view heap) (effectiveSize size) b) ∨
      ∃ heap' l' b, UserRealloc.doMalloc heap size 0 = some (heap', some (b + sizeofInfo)) ∧
        Loose heap' l' ∧ KeepsBlocks heap l heap' l' none ∧ NewBlock heap l heap' l' size b := by
  obtain ⟨hesz, hunit, hlt, h64⟩ := effectiveSize_spec hsize
  have heq := effectiveSize_eq hsize
  rw [← heq] at hesz hunit hlt h64
  obtain ⟨esz, hsz⟩ : ∃ esz, effectiveSize size = esz := ⟨_, rfl⟩
  rw [hsz] at hesz hunit hlt h64 ⊢
  have hunit' : cachelineSize = 64 := rfl
  have hlimit := (h.good.bounds h.mem).2.2.2
  have hends := h.ends
  have hnext := h.next
  rw [withLast_limit] at hlimit
  by_cases hround : wsub heap.limit esz < heap.next
  · left
    refine ⟨by simp [UserRealloc.doMalloc, hsz, hround], fun b hb hle => .inr ?_⟩
    have hbounds := h.good.bounds hb
    have hfits : esz ≤ heap.limit := by
      by_contra hbig
      have hwrap : wsub heap.limit esz = heap.limit + 2 ^ 32 - esz := by
        unfold wsub
        omega
      omega
    rw [wsub_of_le hfits (by omega)] at hround
    simp only [info_withLast, withLast_limit] at hbounds
    rw [sizeAt_view]
    omega
  · have hcur : (if wsub heap.limit esz < heap.next then heap.start else heap.next) = heap.next :=
      if_neg hround
    have hsearch := h.good.shape.search (Nat.lt_of_lt_of_le (by decide) hunit)
    change search (view (withLast heap heap.limit)) esz (heap.limit + 1)
        (if wsub heap.limit esz < heap.next then heap.start else heap.next) = some none ∨
      ∃ b ∈ l, search (view (withLast heap heap.limit)) esz (heap.limit + 1)
        (if wsub heap.limit esz < heap.next then heap.start else heap.next) = some (some b) ∧
          (info heap b).busy = false ∧ esz ≤ (info heap b).size at hsearch
    rw [hcur, search_withLast] at hsearch
    obtain hnone | ⟨b, hb, hfound, hfree, hfit⟩ := hsearch
    · left
      refine ⟨by simp [UserRealloc.doMalloc, hsz, hround, hnone], fun b hb hle => ?_⟩
      have hmem : heap.next ∈ l := by
        obtain hlast | hin := h.good.shape.next
        · simp only [view_next, withLast_next, view_limit, withLast_limit] at hlast
          have hsize := (h.good.bounds h.mem).2.1
          rw [info_withLast] at hsize
          omega
        · exact hin
      obtain ⟨l₁, l₂, rfl, hl, hr⟩ := h.good.shape.chain.split hmem
      have hunitNext := (h.good.bounds hmem).2.1
      have hchain : Chain (sizeAt (view heap)) cachelineSize heap.next (heap.next :: l₂) heap.limit :=
        ⟨rfl, hunitNext, hr⟩
      refine @unfit_of_search (view heap) _ (by rw [view_limit]; omega) _ _ _ hchain hnone b ?_
      have hcases : b ∈ l₁ ∨ b = heap.next ∨ b ∈ l₂ := by simpa using hb
      obtain hlow | rfl | hin := hcases
      · have := hl.bounds hlow
        omega
      · simp
      · simp [hin]
    · right
      have h8 : 8 ∣ esz := Dvd.dvd.trans (by decide) h64
      have hbounds := h.good.bounds hb
      rw [withLast_limit] at hbounds
      obtain ⟨l', hloose, hkeep, hb', room, hroom, hinfo⟩ := h.take hb hfree hunit hfit h8
      have hptr : wadd b sizeofInfo = b + sizeofInfo :=
        wadd_of_lt (by unfold sizeofInfo; omega)
      refine ⟨takeBlock heap b esz, l', b, ?_, hloose, hkeep, hb', ⟨room, by omega, hinfo⟩, ?_⟩
      · simp [UserRealloc.doMalloc, hsz, hround, hfound, hptr]
      · rintro c - hbusy rfl
        rw [hfree] at hbusy
        simp at hbusy

/-- Growing with a stale pointer writes inside the tail, and the next round does not return. -/
lemma Stale.grow_hangs (h : Stale heap l tail) {size pages : ℕ} (hsize : size + 72 ≤ 2 ^ 32)
    (hunfit : ∀ b ∈ l, heap.next ≤ b → Unfit (view heap) (effectiveSize size) b)
    (hpages : size < pages * pageSize) (hroom : heap.limit + pages * pageSize ≤ usrLimit)
    (round : ℕ) : UserRealloc.doMalloc (grow heap pages) size (round + 1) = none := by
  have hle := effectiveSize_le_add hsize
  have hunit := (effectiveSize_spec hsize).2.1
  rw [← effectiveSize_eq hsize] at hunit
  obtain ⟨esz, hsz⟩ : ∃ esz, effectiveSize size = esz := ⟨_, rfl⟩
  rw [hsz] at hle hunit hunfit
  have husr : usrLimit < 2 ^ 31 := by decide
  have hnext := h.next
  have hlow := h.low
  have hhigh := h.high
  have hadd : wadd heap.limit (pages * pageSize) = heap.limit + pages * pageSize :=
    wadd_of_lt (by omega)
  obtain ⟨grown, hgrown⟩ : ∃ grown, grow heap pages = grown := ⟨_, rfl⟩
  have hgrow : grown = { heap with
      limit := heap.limit + pages * pageSize
      mem := storeInfo heap.mem heap.last { info heap heap.last with
        size := (info heap heap.last).size + pages * pageSize } } := by
    have hidle : (infoAt heap.mem heap.last).busy = false := h.idle
    rw [← hgrown]
    simp [grow, setInfo, info, hidle, hadd]
  have hlimit : grown.limit = heap.limit + pages * pageSize := by rw [hgrow]
  have hgnext : grown.next = heap.next := by rw [hgrow]
  have hother : ∀ a, a + 8 ≤ heap.last ∨ heap.last + 8 ≤ a → info grown a = info heap a := by
    intro a ha
    rw [hgrow]
    exact infoAt_congr fun x _ _ => storeInfo_of_outside (by omega)
  have hmem : heap.next ∈ l := by
    obtain hlast | hin := h.good.shape.next
    · simp only [view_next, withLast_next, view_limit, withLast_limit] at hlast
      omega
    · exact hin
  have hsub : ¬wsub grown.limit esz < grown.next := by
    rw [hlimit, hgnext, wsub_of_le (by omega) (by omega)]
    omega
  have hbelow : ∀ c ∈ l, info grown c = info heap c := by
    intro c hc
    have hct : c ≤ tail := by
      by_cases heq : c = tail
      · exact heq.le
      · have := h.le_tail hc heq
        omega
    exact hother c (.inl (by omega))
  obtain ⟨l₁, l₂, rfl, -, hr⟩ := h.good.shape.chain.split hmem
  have hr' : Chain (sizeAt (view heap)) cachelineSize (heap.next + sizeAt (view heap) heap.next) l₂
      heap.limit := hr
  have hchain : Chain (sizeAt (view grown)) cachelineSize heap.next (heap.next :: l₂) heap.limit := by
    have hself : sizeAt (view grown) heap.next = sizeAt (view heap) heap.next := by
      rw [sizeAt_view, sizeAt_view, hbelow _ hmem]
    refine ⟨rfl, ?_, ?_⟩
    · rw [hself]
      exact (h.good.bounds hmem).2.1
    · rw [hself]
      refine hr'.congr fun c hc => ?_
      rw [sizeAt_view, sizeAt_view, hbelow c (by simp [hc])]
  have hfresh : info grown heap.limit = zeroInfo := by
    rw [hother _ (.inr (by omega))]
    exact h.good.shape.fresh heap.limit le_rfl
  have hsearch : search (view grown) esz (grown.limit + 1) heap.next = none := by
    have hpos : 0 < pages * pageSize := by omega
    refine @search_hangs _ _ heap.limit hfresh ?_ ?_ (Nat.lt_of_lt_of_le (by decide) hunit)
      _ _ _ hchain ?_
    · rw [view_limit, hlimit]
      omega
    · rw [view_limit, hlimit]
      omega
    · intro b hb
      have hbl : b ∈ l₁ ++ heap.next :: l₂ := List.mem_append_right l₁ hb
      have hge : heap.next ≤ b := by
        obtain rfl | hin := List.mem_cons.mp hb
        · exact le_rfl
        · have := hr'.bounds hin
          omega
      have hold := hunfit b hbl hge
      unfold Unfit at hold ⊢
      rw [sizeAt_view, view_mem, hbelow b hbl]
      exact hold
  have hcur : (if wsub grown.limit esz < grown.next then grown.start else grown.next) =
      heap.next := by
    rw [if_neg hsub, hgnext]
  rw [hgrown]
  simp [UserRealloc.doMalloc, hsz, hcur, hsearch]

lemma growPages_lt (h : Good heap l) (size : ℕ) : size < growPages (view heap) size * pageSize := by
  have hpos := h.shape.sbrk_pos
  have hpage : pageSize = 4096 := rfl
  unfold growPages
  simp only [hpage] at hpos ⊢
  split_ifs <;> omega

/-- What a call of `malloc` that returned leaves behind. -/
def Allocated (heap : ByteHeap) (l : List ℕ) (size : ℕ) (heap' : ByteHeap) (r : Option ℕ) : Prop :=
  ∃ l', Loose heap' l' ∧ KeepsBlocks heap l heap' l' none ∧
    ∀ ptr, r = some ptr → ∃ b, ptr = b + sizeofInfo ∧ NewBlock heap l heap' l' size b

lemma Stale.malloc (h : Stale heap l tail) {size grants : ℕ} {r : Option ℕ}
    (hsize : size + 72 ≤ 2 ^ 32) (hcall : malloc heap size grants = some (heap', r)) :
    Allocated heap l size heap' r := by
  change mallocLoop size (18 + 1 + 1) 0 heap grants = _ at hcall
  rw [mallocLoop] at hcall
  obtain ⟨hnone, hunfit⟩ | ⟨taken, l', b, hfound, hloose, hkeep, hnew⟩ := h.doMalloc hsize
  · simp only [hnone] at hcall
    by_cases hstop : grants = 0 ∨ usrLimit < heap.limit + growPages (view heap) size * pageSize
    · rw [if_pos hstop] at hcall
      obtain ⟨rfl, rfl⟩ : heap = heap' ∧ none = r := by simpa using hcall
      exact ⟨l, .inr ⟨tail, h⟩, .refl _ _ _, by simp⟩
    · have hpages : size < growPages (view heap) size * pageSize := growPages_lt h.good size
      have hhang := h.grow_hangs hsize hunfit hpages
        (Nat.le_of_not_lt fun hlt => hstop (.inr hlt)) 0
      rw [if_neg hstop, mallocLoop] at hcall
      simp only [hhang, reduceCtorEq] at hcall
  · simp only [hfound] at hcall
    obtain ⟨rfl, rfl⟩ : taken = heap' ∧ some (b + sizeofInfo) = r := by simpa using hcall
    refine ⟨l', hloose, hkeep, fun ptr hptr => ⟨b, ?_, hnew⟩⟩
    simpa using hptr.symm

lemma Loose.malloc (h : Loose heap l) {size grants : ℕ} {r : Option ℕ}
    (hsize : size + 72 ≤ 2 ^ 32) (hcall : UserRealloc.malloc heap size grants = some (heap', r)) :
    Allocated heap l size heap' r := by
  obtain hgood | ⟨tail, hstale⟩ := h
  · obtain ⟨heap'', l', r', hloop, hgood', hkeep, -, hnew⟩ :=
      mallocLoop_spec hsize mallocLimit 0 heap l grants hgood
    obtain ⟨rfl, rfl⟩ : heap'' = heap' ∧ r' = r := by
      have heq : some (heap'', r') = some (heap', r) := hloop.symm.trans hcall
      simpa using heq
    exact ⟨l', .inl hgood', hkeep, hnew⟩
  · exact hstale.malloc hsize hcall

lemma KeepsBlocks.withLast {o : Option ℕ} (h : KeepsBlocks heap l heap' l' o) (a a' : ℕ) :
    KeepsBlocks (UserRealloc.withLast heap a) l (UserRealloc.withLast heap' a') l' o :=
  ⟨h.start, h.limit, h.blocks, h.outside⟩

lemma LiveAt.withLast (h : LiveAt heap l x b) (a : ℕ) :
    LiveAt (UserRealloc.withLast heap a) l x b :=
  ⟨h.mem, h.busy, h.ptr, h.place⟩

lemma Loose.write (h : Loose heap l) {mem : ByteMemory}
    (hmem : ∀ x, mem x ≠ heap.mem x → ∃ b ∈ l, (info heap b).busy = true ∧ b + 8 ≤ x ∧
      x < b + (info heap b).size) : Loose { heap with mem := mem } l := by
  have hinside : ∀ x, mem x ≠ heap.mem x → ∃ b ∈ l, b + 8 ≤ x ∧ x < b + (info heap b).size := by
    intro x hx
    obtain ⟨b, hb, -, hrange⟩ := hmem x hx
    exact ⟨b, hb, hrange⟩
  obtain hgood | ⟨tail, hstale⟩ := h
  · exact .inl (hgood.write hinside)
  · refine .inr ⟨tail, hstale.write (hstale.good.write hinside) rfl rfl hstale.mem hstale.next ?_⟩
    intro x hx
    by_contra hne
    obtain ⟨b, hb, hbusy, -, hhigh⟩ := hmem x hne
    have htail : b ≠ tail := by
      rintro rfl
      rw [hstale.free] at hbusy
      simp at hbusy
    have := hstale.le_tail hb htail
    omega

lemma Loose.valloc (h : Loose heap l) {size grants : ℕ} {r : Option ℕ}
    (hsize : size + 8192 ≤ 2 ^ 32) (hcall : UserRealloc.valloc heap size grants = some (heap', r)) :
    ∃ l', Loose heap' l' ∧ KeepsBlocks heap l heap' l' none ∧ ∀ ptr, r = some ptr →
      ∃ b, NewAt heap l heap' l' ⟨ptr, size⟩ b ∧ pageSize ∣ ptr ∧ b + 16 ≤ ptr := by
  obtain ⟨rounded, hround, hle, hadd, hwrap⟩ := arroundUp_page hsize
  cases hmalloc : UserRealloc.malloc heap (rounded + 4096) grants with
  | none => simp only [UserRealloc.valloc, hround, hadd, hmalloc, reduceCtorEq] at hcall
  | some result =>
    obtain ⟨heap₁, block⟩ := result
    obtain ⟨l', hloose, hkeep, hnew⟩ := h.malloc hwrap hmalloc
    cases block with
    | none =>
      simp only [UserRealloc.valloc, hround, hadd, hmalloc] at hcall
      obtain ⟨rfl, rfl⟩ : heap₁ = heap' ∧ none = r := by simpa using hcall
      exact ⟨l', hloose, hkeep, by simp⟩
    | some block =>
      obtain ⟨b, rfl, hb, ⟨room, hroom, hinfo⟩, hunused⟩ := hnew block rfl
      have hgood := hloose.unlast
      have hbounds := hgood.bounds hb
      have hhead : sizeofInfo = 8 := rfl
      simp only [info_withLast, withLast_limit, hinfo] at hbounds
      obtain ⟨ptr, hptr, hpage, hlow, hhigh, hsub, hblock⟩ :=
        valloc_ptr (hgood.aligned b hb) (by omega)
      simp only [UserRealloc.valloc, hround, hadd, hmalloc, hptr, hsub, hblock] at hcall
      obtain ⟨rfl, rfl⟩ : setInfo heap₁ (ptr - 8) ⟨true, size, b⟩ = heap' ∧ some ptr = r := by
        simpa using hcall
      obtain ⟨-, hwrite, hlive⟩ :=
        hgood.forward hb hinfo hlow (show ptr + size ≤ b + room by omega)
      have hinside : ∀ x, storeInfo heap₁.mem (ptr - 8) ⟨true, size, b⟩ x ≠ heap₁.mem x →
          ∃ b ∈ l', (info heap₁ b).busy = true ∧ b + 8 ≤ x ∧ x < b + (info heap₁ b).size := by
        intro x hx
        refine ⟨b, hb, by rw [hinfo], ?_⟩
        rw [hinfo]
        by_contra hout
        refine hx (storeInfo_of_outside ?_)
        simp only at hout
        omega
      have hkeep' : KeepsBlocks heap l (setInfo heap₁ (ptr - 8) ⟨true, size, b⟩) l' none :=
        ((hkeep.withLast heap.limit heap₁.limit).trans_new h.unlast.shape hwrite hunused).withLast
          heap.last heap₁.last
      refine ⟨l', hloose.write hinside, hkeep', ?_⟩
      intro q hq
      obtain rfl : ptr = q := by simpa using hq
      exact ⟨b, ⟨hlive.withLast heap₁.last, hunused⟩, hpage, hlow⟩

lemma mergeLoop_withLast (limit a : ℕ) : ∀ fuel (heap : ByteHeap),
    mergeLoop limit b fuel (withLast heap a) =
      (mergeLoop limit b fuel heap).map fun heap => withLast heap a := by
  intro fuel
  induction fuel with
  | zero => exact fun _ => rfl
  | succ fuel ih =>
    intro heap
    by_cases hstop : limit ≤ wadd b (info heap b).size ∨
        (info heap (wadd b (info heap b).size)).busy = true
    · have hstop' : limit ≤ wadd b (info (withLast heap a) b).size ∨
          (info (withLast heap a) (wadd b (info (withLast heap a) b).size)).busy = true := hstop
      simp only [mergeLoop, if_pos hstop, if_pos hstop', Option.map_some]
    · have hstop' : ¬(limit ≤ wadd b (info (withLast heap a) b).size ∨
          (info (withLast heap a) (wadd b (info (withLast heap a) b).size)).busy = true) := hstop
      simp only [mergeLoop, if_neg hstop, if_neg hstop']
      exact ih (setInfo heap b { info heap b with
        size := (info heap b).size + (info heap (wadd b (info heap b).size)).size })

/-- The end of `free`. -/
def release (current : ℕ) (heap : ByteHeap) : ByteHeap :=
  if current < heap.next then { heap with next := current } else heap

lemma free_eq {ptr : ℕ} (hnull : ptr ≠ 0) : free heap ptr =
    (mergeLoop heap.limit (headerOf heap ptr) (heap.limit + 1)
      (setInfo heap (headerOf heap ptr) { info heap (headerOf heap ptr) with busy := false })).map
        (release (headerOf heap ptr)) := by
  obtain ⟨merged, hmerged⟩ : ∃ merged, mergeLoop heap.limit (headerOf heap ptr) (heap.limit + 1)
      (setInfo heap (headerOf heap ptr) { info heap (headerOf heap ptr) with busy := false }) =
        merged := ⟨_, rfl⟩
  have hlimit : (setInfo heap (headerOf heap ptr)
      { info heap (headerOf heap ptr) with busy := false }).limit = heap.limit := rfl
  simp only [free, if_neg hnull, hlimit, hmerged]
  cases merged with
  | none => rfl
  | some merged => rfl

lemma free_withLast (heap : ByteHeap) (a ptr : ℕ) :
    free (withLast heap a) ptr = (free heap ptr).map fun heap => withLast heap a := by
  by_cases hnull : ptr = 0
  · simp [free, hnull]
  · have hmerge := mergeLoop_withLast (b := headerOf heap ptr) heap.limit a (heap.limit + 1)
      (setInfo heap (headerOf heap ptr) { info heap (headerOf heap ptr) with busy := false })
    have hrelease : ∀ merged, release (headerOf heap ptr) (withLast merged a) =
        withLast (release (headerOf heap ptr) merged) a := by
      intro merged
      by_cases hnext : headerOf heap ptr < merged.next
      · have hnext' : headerOf heap ptr < (withLast merged a).next := hnext
        rw [release, release, if_pos hnext, if_pos hnext']
        rfl
      · have hnext' : ¬headerOf heap ptr < (withLast merged a).next := hnext
        rw [release, release, if_neg hnext, if_neg hnext']
    rw [free_eq hnull, free_eq hnull]
    change (mergeLoop heap.limit (headerOf heap ptr) (heap.limit + 1) (withLast (setInfo heap
      (headerOf heap ptr) { info heap (headerOf heap ptr) with busy := false }) a)).map
        (release (headerOf heap ptr)) = _
    rw [hmerge, Option.map_map, Option.map_map]
    exact congrArg (fun f => Option.map f _) (funext hrelease)

lemma Merged.ends {l₁ gone rest : List ℕ} {s : ℕ} (hm : Merged (view heap) l₁ b s gone rest)
    (hc : c ∈ gone) (hend : c + (info heap c).size = heap.limit) :
    rest = [] ∧ b + s = heap.limit := by
  have hunit : 0 < cachelineSize := by decide
  have hnil : rest = [] := by
    cases rest with
    | nil => rfl
    | cons y ys =>
      have hlt := hm.after.lt_of_append hunit hc (List.mem_cons_self ..)
      have hdis := hm.after.disjoint (List.mem_append_left _ hc)
        (List.mem_append_right gone (List.mem_cons_self ..)) (by omega)
      have hy := hm.after.bounds (List.mem_append_right gone (List.mem_cons_self (a := y) (l := ys)))
      simp only [sizeAt_view, view_limit] at hdis hy
      omega
  have hrest := hm.rest
  rw [hnil] at hrest
  exact ⟨hnil, hrest⟩

lemma Good.stale_merged {l₁ gone rest : List ℕ} {s last : ℕ}
    (h : Good heap (l₁ ++ b :: (gone ++ rest))) (hlimit : heap.last = heap.limit)
    (hm : Merged (view heap) l₁ b s gone rest) (hlt : s < 2 ^ 31) (hc : c ∈ gone)
    (hend : c + (info heap c).size = heap.limit) (hlow : c ≤ last) (hhigh : last + 64 ≤ heap.limit)
    (hidle : (info heap last).busy = false) :
    Stale (UserRealloc.withLast (freedAt heap b s) last) (l₁ ++ b :: rest) b := by
  obtain ⟨hnil, hsum⟩ := Merged.ends hm hc hend
  have hb := h.bounds (c := b) (by simp)
  have hcb := hm.after.bounds (List.mem_append_left rest hc)
  simp only [sizeAt_view, view_limit] at hcb
  have hgood := h.merged hm hlt fun hswallow => hswallow.1 hlimit
  have hself : info (setInfo heap b ⟨false, s, 0⟩) b = ⟨false, s, 0⟩ :=
    infoAt_storeInfo_self hlt (by simp)
  have hother : info (setInfo heap b ⟨false, s, 0⟩) last = info heap last :=
    infoAt_congr fun x hx _ => storeInfo_of_outside (by omega)
  refine ⟨hgood.unlast, by simp, ?_, ?_, by change b + 64 ≤ last; omega, hhigh, ?_, ?_⟩
  · change (info (setInfo heap b ⟨false, s, 0⟩) b).busy = false
    rw [hself]
  · change b + (info (setInfo heap b ⟨false, s, 0⟩) b).size = heap.limit
    rw [hself]
    exact hsum
  · change (info (setInfo heap b ⟨false, s, 0⟩) last).busy = false
    rw [hother]
    exact hidle
  · change (if b < heap.next then b else heap.next) ≤ b
    split_ifs <;> omega

/-- Freeing a block, also one before the block that `heap_mgr.last` points to. -/
lemma Loose.free (h : Loose heap l) {ptr : ℕ} (hb : b ∈ l) (hbusy : (info heap b).busy = true)
    (hptr : (info heap b).ptr = 0) (hheader : headerOf heap ptr = b) (hpos : ptr ≠ 0) :
    ∃ heap' l', UserRealloc.free heap ptr = some heap' ∧ Loose heap' l' ∧
      KeepsBlocks heap l heap' l' (some b) := by
  obtain ⟨fixed, hfixed⟩ : ∃ fixed, withLast heap heap.limit = fixed := ⟨_, rfl⟩
  have hgood := h.unlast
  rw [hfixed] at hgood
  have heap_eq : heap = withLast fixed heap.last := by rw [← hfixed]; rfl
  have hinfo : ∀ a, info fixed a = info heap a := fun a => by rw [← hfixed]; rfl
  have hlimit : fixed.limit = heap.limit := by rw [← hfixed]; rfl
  have hlastLimit : fixed.last = fixed.limit := by rw [← hfixed]; rfl
  obtain ⟨l₁, s, gone, rest, rfl, hm, hlt, hcall⟩ :=
    hgood.free_merged hb (by rw [hinfo]; exact hptr) (by rw [← hfixed]; exact hheader) hpos
  have hfreed := hgood.merged hm hlt fun hswallow => hswallow.1 hlastLimit
  have hkeep := hgood.merged_keeps hm hlt
  have hresult : UserRealloc.free heap ptr = some (withLast (freedAt fixed b s) heap.last) := by
    rw [heap_eq, free_withLast, hcall]
    rfl
  have hkeep' : KeepsBlocks heap (l₁ ++ b :: (gone ++ rest))
      (withLast (freedAt fixed b s) heap.last) (l₁ ++ b :: rest) (some b) := by
    rw [heap_eq]
    exact hkeep.withLast heap.last heap.last
  refine ⟨_, l₁ ++ b :: rest, hresult, ?_, hkeep'⟩
  have hb64 := hgood.bounds (c := b) (by simp)
  have hnext : (freedAt fixed b s).next ≤ b := by
    change (if b < fixed.next then b else fixed.next) ≤ b
    split_ifs <;> omega
  have hother : ∀ a, b + 8 ≤ a → info (freedAt fixed b s) a = info fixed a := fun a ha =>
    infoAt_congr fun x hx _ => storeInfo_of_outside (by omega)
  have hbefore := hm.before_lt
  have hafter := fun c hc => (hm.after.bounds (x := c) hc).1
  simp only [sizeAt_view] at hafter
  obtain hheap | ⟨tail, hstale⟩ := h
  · by_cases hgone : heap.last ∈ gone
    · have hend : heap.last + (info fixed heap.last).size = fixed.limit := by
        have hin := hm.after.bounds (List.mem_append_left rest hgone)
        obtain heq | ⟨-, hend⟩ := hheap.shape.last
        · simp only [view_last, view_limit, sizeAt_view] at heq hin
          omega
        · rw [hinfo, hlimit]
          exact hend
      have hsize := (hgood.bounds (c := heap.last) (by simp [hgone])).2.1
      exact .inr ⟨b, hgood.stale_merged hlastLimit hm hlt hgone hend le_rfl (by omega)
        (hm.free _ hgone)⟩
    · refine .inl (hfreed.withLast ?_ fun heq => ?_)
      · obtain heq | ⟨hin, hend⟩ := hheap.shape.last
        · exact .inl (heq.trans hlimit.symm)
        · change heap.last + (info heap heap.last).size = heap.limit at hend
          rw [← hinfo, ← hlimit] at hend
          have hcases : heap.last ∈ l₁ ∨ heap.last = b ∨ heap.last ∈ gone ∨ heap.last ∈ rest := by
            simpa using hin
          right
          obtain hlow | heq | hin | hin := hcases
          · have hle := (hm.before.bounds hlow).2.2
            simp only [sizeAt_view] at hle
            omega
          · -- nothing follows the last block
            have hlen := hm.after.length_mul_le
            have hunit : cachelineSize = 64 := rfl
            simp only [sizeAt_view, view_limit, hunit] at hlen
            rw [heq] at hend
            have hnil : gone ++ rest = [] := List.length_eq_zero_iff.mp (by omega)
            have hrest := hm.rest
            rw [(List.append_eq_nil_iff.mp hnil).2] at hrest
            have hself : info (freedAt fixed b s) b = ⟨false, s, 0⟩ :=
              infoAt_storeInfo_self hlt (by simp)
            refine ⟨by simp [heq], ?_⟩
            rw [heq, hself]
            exact hrest
          · exact absurd hin hgone
          · have hlow := hafter _ (List.mem_append_right gone hin)
            refine ⟨by simp [hin], ?_⟩
            rw [hother _ (by omega)]
            exact hend
      · change (freedAt fixed b s).next = fixed.limit at heq
        omega
  · have htail : tail ≠ b := by
      rintro rfl
      rw [hstale.free] at hbusy
      simp at hbusy
    have hend : tail + (info fixed tail).size = fixed.limit := by
      rw [hinfo, hlimit]
      exact hstale.ends
    have hcases : tail ∈ l₁ ∨ tail = b ∨ tail ∈ gone ∨ tail ∈ rest := by simpa using hstale.mem
    obtain hlow | heq | hin | hin := hcases
    · have hle := (hm.before.bounds hlow).2.2
      simp only [sizeAt_view] at hle
      omega
    · exact absurd heq htail
    · have hlow := hstale.low
      have hhigh := hstale.high
      exact .inr ⟨b, hgood.stale_merged hlastLimit hm hlt hin hend (by omega) (by omega)
        (by rw [hinfo]; exact hstale.idle)⟩
    · have hlow := hafter _ (List.mem_append_right gone hin)
      have hfixmem : fixed.mem = heap.mem := by rw [← hfixed]; rfl
      refine .inr ⟨tail, hstale.write hfreed.unlast hlimit rfl (by simp [hin])
        (hnext.trans (by omega)) fun x hx => ?_⟩
      change storeInfo fixed.mem b ⟨false, s, 0⟩ x = heap.mem x
      rw [storeInfo_of_outside (by omega), hfixmem]

/-- The calls that allocate, free and write. The sizes do not wrap when they are rounded. -/
def Calls (_ : State) : Event → Prop
  | .malloc size _ => size + 72 ≤ 2 ^ 32
  | .valloc size _ => size + 8192 ≤ 2 ^ 32
  | .realloc .. => False
  | .free _ => True
  | .write _ => True

structure LooseInv (s : State) (l : List ℕ) : Prop where
  loose : Loose s.heap l
  inv : Inv ⟨withLast s.heap s.heap.limit, s.live⟩ l

variable {s t : State}

lemma LooseInv.live (h : LooseInv s l) (hx : x ∈ s.live) :
    LiveAt s.heap l x (headerOf s.heap x.ptr) :=
  (h.inv.live x hx).withLast s.heap.last

lemma Loose.isBlock (h : Loose heap l) (hc : c ∈ l) : IsBlock (view heap) c :=
  @isBlock_of_mem (view heap) _ _ h.unlast.shape.chain (fun _ => .start h.unlast.shape.start_lt)
    c hc

lemma Inv.loose (h : Inv s l) : LooseInv s l := by
  refine ⟨.inl h.good, h.good.unlast, fun x hx => ?_, h.nodup⟩
  exact (h.live x hx).withLast s.heap.limit

lemma LooseInv.allocated (h : LooseInv s l) {size : ℕ} {r : Option ℕ} (hloose : Loose heap' l')
    (hkeep : KeepsBlocks s.heap l heap' l' none)
    (hnew : ∀ ptr, r = some ptr → ∃ b, NewAt s.heap l heap' l' ⟨ptr, size⟩ b) :
    LooseInv (UserRealloc.allocated s.live size (heap', r)) l' := by
  have hinv := h.inv.allocated (r := r) hloose.unlast (hkeep.withLast _ _) fun ptr hptr => by
    obtain ⟨b, hlive, hunused⟩ := hnew ptr hptr
    exact ⟨b, hlive.withLast _, hunused⟩
  cases r with
  | none => exact ⟨hloose, hinv⟩
  | some ptr => exact ⟨hloose, hinv⟩

lemma LooseInv.free (h : LooseInv s l) {a : Allocation} (ha : a ∈ s.live) :
    ∃ t l', step s (.free a) = some t ∧ LooseInv t l' := by
  have hal := h.live ha
  have hbounds := hal.bounds
  obtain ⟨heap', l', hcall, hloose, hkeep⟩ :=
    h.loose.free hal.mem hal.busy hal.ptr rfl (by omega)
  have hinv := (h.inv.keep hloose.unlast (hkeep.withLast _ _) List.erase_sublist
    fun x hx heq => h.inv.erase_ne ha hx (Option.some.inj heq).symm).1
  refine ⟨⟨heap', s.live.erase a⟩, l', ?_, hloose, hinv⟩
  simp [step, ha, hcall]

lemma LooseInv.write (h : LooseInv s l) (f : ByteMemory) :
    ∃ t, step s (.write f) = some t ∧ LooseInv t l := by
  obtain ⟨t, ht, hinv⟩ := h.inv.write f
  refine ⟨_, rfl, h.loose.write fun a ha => ?_, ?_⟩
  · by_cases hin : inPayload s a = true
    · obtain ⟨x, hx, hrange⟩ := List.any_eq_true.mp hin
      have hlive := h.live hx
      have hbounds := hlive.bounds
      have hrange' : x.ptr ≤ a ∧ a < x.ptr + x.size := of_decide_eq_true hrange
      exact ⟨_, hlive.mem, hlive.busy, by omega, by omega⟩
    · simp [hin] at ha
  · obtain rfl : _ = t := by simpa [step] using ht
    exact hinv

lemma LooseInv.step (h : LooseInv s l) {e : Event} (hok : Calls s e)
    (hstep : UserRealloc.step s e = some t) : ∃ l', LooseInv t l' := by
  cases e with
  | malloc size grants =>
    obtain ⟨⟨heap', r⟩, hcall, rfl⟩ := Option.map_eq_some_iff.mp hstep
    obtain ⟨l', hloose, hkeep, hnew⟩ := h.loose.malloc hok hcall
    refine ⟨l', h.allocated hloose hkeep fun ptr hptr => ?_⟩
    obtain ⟨b, rfl, hblock⟩ := hnew ptr hptr
    exact ⟨b, hblock.newAt⟩
  | valloc size grants =>
    obtain ⟨⟨heap', r⟩, hcall, rfl⟩ := Option.map_eq_some_iff.mp hstep
    obtain ⟨l', hloose, hkeep, hnew⟩ := h.loose.valloc hok hcall
    refine ⟨l', h.allocated hloose hkeep fun ptr hptr => ?_⟩
    obtain ⟨b, hblock, -⟩ := hnew ptr hptr
    exact ⟨b, hblock⟩
  | realloc a size grants => exact hok.elim
  | free a =>
    by_cases ha : a ∈ s.live
    · obtain ⟨t', l', ht', hinv⟩ := h.free ha
      obtain rfl : t' = t := by simpa [ht'] using hstep
      exact ⟨l', hinv⟩
    · simp only [UserRealloc.step, if_neg ha, reduceCtorEq] at hstep
  | write f =>
    obtain ⟨t', ht', hinv⟩ := h.write f
    obtain rfl : t' = t := by simpa [ht'] using hstep
    exact ⟨l, hinv⟩

lemma loose_reach (h : machine.Reach Calls s) : ∃ l, LooseInv s l := by
  refine Machine.Reach.invariant (I := fun s => ∃ l, LooseInv s l) (fun s hs => ?_) ?_ h
  · obtain ⟨l, hinv⟩ := inv_init hs
    exact ⟨l, hinv.loose⟩
  · rintro s e t ⟨l, hinv⟩ hok hstep
    exact hinv.step hok hstep

/-- `size` bytes at `ptr` in the payload of the block in use at `b`, which `free` releases. -/
structure InBlockAt (heap : ByteHeap) (ptr size b : ℕ) : Prop where
  block : IsBlock (view heap) b
  busy : (info heap b).busy = true
  inside : b + sizeofInfo ≤ ptr ∧ ptr + size ≤ b + (info heap b).size
  freed : free heap ptr = free heap (b + sizeofInfo)

lemma Loose.inBlockAt (h : Loose heap l) (hx : LiveAt heap l x b) :
    InBlockAt heap x.ptr x.size b := by
  have hbounds := h.bounds hx.mem
  have hinside := hx.bounds
  have hpos := h.unlast.pos hx.mem
  have hheader : headerOf heap x.ptr = b := hx.headerOf_eq hpos (by omega)
  have hsub : wsub (b + sizeofInfo) sizeofInfo = b := by
    unfold sizeofInfo
    rw [wsub_of_le (by omega) (by omega)]
    omega
  have hblock : headerOf heap (b + sizeofInfo) = b := by simp [headerOf, hsub, hx.ptr]
  refine ⟨h.isBlock hx.mem, hx.busy, hinside, ?_⟩
  rw [free_eq (by omega), free_eq (by unfold sizeofInfo; omega), hheader, hblock]

/-- After any calls of `malloc`, `valloc` and `free`, the pointers of `valloc` begin a page, with
their bytes and the header before them in the payload of a block in use. Freeing a live pointer
frees its block. -/
theorem valloc_aligned_freeable (s : State) (hs : machine.Reach Calls s) :
    (∀ size grants heap' ptr, size < 2 ^ 30 → valloc s.heap size grants = some (heap', some ptr) →
      ∃ b, pageSize ∣ ptr ∧ b + sizeofInfo ≤ ptr - sizeofInfo ∧ InBlockAt heap' ptr size b) ∧
    ∀ x ∈ s.live, ∃ b, InBlockAt s.heap x.ptr x.size b := by
  obtain ⟨l, hinv⟩ := loose_reach hs
  refine ⟨fun size grants heap' ptr hsize hcall => ?_, fun x hx => ?_⟩
  · obtain ⟨l', hloose, -, hnew⟩ := hinv.loose.valloc (by omega) hcall
    obtain ⟨b, hblock, hpage, hlow⟩ := hnew ptr rfl
    exact ⟨b, hpage, by unfold sizeofInfo; omega, hloose.inBlockAt hblock.live⟩
  · exact ⟨_, hinv.loose.inBlockAt (hinv.live hx)⟩

/-- After the first block was freed and merged with the rest of the heap. -/
theorem valloc_aligned_freeable_merged : ∃ s heap',
    machine.run freshHeap [.malloc 1 0, .free ⟨0x1008, 1⟩] = some s ∧
      valloc s.heap 100 0 = some (heap', some 0x2000) ∧
        ∃ b, pageSize ∣ 0x2000 ∧ b + sizeofInfo ≤ 0x2000 - sizeofInfo ∧
          InBlockAt heap' 0x2000 100 b := by
  obtain ⟨t, s, heap', hmalloc, hfree, hs, hcall⟩ : ∃ t s heap',
      machine.step freshHeap (.malloc 1 0) = some t ∧
        machine.step t (.free ⟨0x1008, 1⟩) = some s ∧
          machine.run freshHeap [.malloc 1 0, .free ⟨0x1008, 1⟩] = some s ∧
            valloc s.heap 100 0 = some (heap', some 0x2000) :=
    ⟨_, _, _, rfl, rfl, rfl, rfl⟩
  have hok : Calls freshHeap (.malloc 1 0) := by
    change 1 + 72 ≤ 2 ^ 32
    decide
  have hok' : Calls t (.free ⟨0x1008, 1⟩) := trivial
  have hreach : machine.Reach Calls s := .step (.step (.init freshHeap_init) hok hmalloc) hok' hfree
  exact ⟨s, heap', hs, hcall,
    (valloc_aligned_freeable s hreach).1 100 0 heap' 0x2000 (by decide) hcall⟩

end Almos.UserRealloc
