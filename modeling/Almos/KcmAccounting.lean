import Almos.KcmInvariant

/-!
# Page accounting of the kernel cache manager

Populating and releasing the free list, replacing the active page, and what follows
for every run of a cache.
-/
namespace Almos.Kcm
open Word Bits

/-- No bit past the last block of a page is set in the words delivered for its bitmap. -/
def CleanBeyond (blocksNr : ℕ) (bitmap : Bitmap) : Prop :=
  ∀ k < 128, blocksNr ≤ k → bitmapState bitmap k = false

structure Ready (kcm : Kcm) (hand : List ℕ) (ds : List Delivery) : Prop where
  nodup : (ds.map Delivery.page).Nodup
  legal : ∀ d ∈ ds, d.page % kcmPageSize = 0 ∧ d.page < 2 ^ 32 ∧ d.page ∉ held kcm hand
  clean : ∀ d ∈ ds, CleanBeyond kcm.blocksNr d.bitmap

structure Keeps (kcm kcm' : Kcm) : Prop where
  activelist : kcm'.activelist = kcm.activelist
  size : kcm'.size = kcm.size
  blocksNr : kcm'.blocksNr = kcm.blocksNr

section Moves
variable {kcm : Kcm} {hand out : List ℕ} {p : ℕ} {d : Delivery} {ds : List Delivery}

theorem Inv.populate (h : Inv kcm hand out) (hal : d.page % kcmPageSize = 0)
    (hsm : d.page < 2 ^ 32) (hnew : d.page ∉ held kcm hand)
    (hclean : CleanBeyond kcm.blocksNr d.bitmap) : Inv (freelistPopulate kcm d) hand out := by
  have hnot : d.page ∉ kcm.freelist ∧ d.page ∉ kcm.activelist ∧ d.page ∉ kcm.busylist ∧
      d.page ∉ hand := by simpa [mem_held] using hnew
  obtain ⟨hnf, hna, hnb, hnh⟩ := hnot
  have hself : (freelistPopulate kcm d).pages d.page =
      ⟨bitmapSetRange d.bitmap 0 kcm.blocksNr, wadd d.page (arroundUp sizeofPageInfo kcm.aligne),
        0, 0, false, false⟩ := by
    simp [freelistPopulate]
  have hsame : ∀ q, q ≠ d.page → (freelistPopulate kcm d).pages q = kcm.pages q := by
    intro q hq
    simp [freelistPopulate, hq]
  have hcases : ∀ q, q ∈ held (freelistPopulate kcm d) hand →
      q = d.page ∨ q ≠ d.page ∧ q ∈ held kcm hand := by
    intro q hq
    by_cases hqd : q = d.page
    · exact .inl hqd
    · right
      have hmem : q ∈ d.page :: kcm.freelist ∨ q ∈ kcm.activelist ∨ q ∈ kcm.busylist ∨ q ∈ hand :=
        mem_held.mp hq
      refine ⟨hqd, mem_held.mpr ?_⟩
      simpa [hqd] using hmem
  have hstate : ∀ k < 128, bitmapState (bitmapSetRange d.bitmap 0 kcm.blocksNr) k =
      decide (k < kcm.blocksNr) := by
    intro k hk
    rw [bitmapState_bitmapSetRange]
    by_cases hlt : k < kcm.blocksNr
    · simp [hlt]
    · simp [hlt, hclean k hk (by omega)]
  have hcount : out.countP (fun ptr => pageOf ptr = d.page) = 0 := by
    rw [List.countP_eq_zero]
    intro ptr hptr hpage
    have hmem := (h.block_of_mem hptr).1
    rw [of_decide_eq_true hpage] at hmem
    exact hnew hmem
  have hblocks := h.geo.blocks_le
  have hlen := h.lengths
  refine ⟨h.geo.congr rfl rfl rfl, ?_, ?_, h.activeNr, h.busyNr, ?_, ?_, ?_, ?_, ?_, h.outNodup, ?_⟩
  · intro q
    have honce := h.once q
    change (d.page :: kcm.freelist).count q + _ + _ + _ ≤ 1
    by_cases hqd : q = d.page
    · subst hqd
      have h1 := List.count_eq_zero.mpr hnf
      have h2 := List.count_eq_zero.mpr hna
      have h3 := List.count_eq_zero.mpr hnb
      have h4 := List.count_eq_zero.mpr hnh
      rw [List.count_cons_self]
      change _ + kcm.activelist.count d.page + kcm.busylist.count d.page + _ ≤ 1
      omega
    · rw [List.count_cons_of_ne (Ne.symm hqd)]
      exact honce
  · change wadd kcm.freePagesNr 1 = (d.page :: kcm.freelist).length
    rw [h.freeNr, List.length_cons]
    exact wadd_of_lt (by omega)
  · intro q hq
    change _ ↔ kcm.activelist.head? = some q
    obtain rfl | ⟨hqd, hq'⟩ := hcases q hq
    · rw [hself]
      simp only [Bool.false_eq_true, false_iff]
      intro hhead
      exact hna (List.mem_of_head? hhead)
    · rw [hsame q hqd]
      exact h.activeFlag q hq'
  · intro q hq
    change _ ↔ q ∈ kcm.busylist
    obtain rfl | ⟨hqd, hq'⟩ := hcases q hq
    · simp [hself, hnb]
    · rw [hsame q hqd]
      exact h.busyFlag q hq'
  · intro q hq
    obtain rfl | ⟨hqd, hq'⟩ := hcases q hq
    · refine ⟨hal, hsm, ?_, ?_, ?_, ?_, ?_⟩
      · rw [hself, h.geo.header_eq]
        refine wadd_of_lt ?_
        unfold header kcmPageSize at *
        omega
      · intro k hk hset
        rw [hself] at hset
        change k < kcm.blocksNr
        simpa [hstate k hk] using hset
      · intro k hk
        change k < kcm.blocksNr at hk
        rw [hself]
        change bitmapState (bitmapSetRange d.bitmap 0 kcm.blocksNr) k = false ↔
          blockAddr kcm d.page k ∈ out
        rw [hstate k (by omega)]
        simp only [hk, decide_true, Bool.true_eq_false, false_iff]
        intro hmem
        rw [List.countP_eq_zero] at hcount
        exact hcount _ hmem (by simp [h.geo.pageOf_block hal hk])
      · rw [hself]
        exact hcount.symm
      · intro k _ _
        rw [hself]
        exact Nat.zero_le _
    · exact (h.page q hq').frame (by simp [SameBlocks, hsame q hqd]) rfl rfl
        (fun _ _ => Iff.rfl) rfl
  · intro q hq
    have hmem : q = d.page ∨ q ∈ kcm.freelist ++ hand := by
      have hmem' : q ∈ (d.page :: kcm.freelist) ++ hand := hq
      simpa [or_assoc] using hmem'
    obtain rfl | hmem := hmem
    · rw [hself]
    · have hqd : q ≠ d.page := by
        rintro rfl
        simp [hnf, hnh] at hmem
      rw [hsame q hqd]
      exact h.freeEmpty q hmem
  · intro q hq j hj
    have hqd : q ≠ d.page := by
      rintro rfl
      exact hnb hq
    rw [hsame q hqd]
    exact h.busyFull q hq j hj
  · intro ptr hptr
    obtain ⟨q, hq, j, hj, heq⟩ := h.outBlock ptr hptr
    refine ⟨q, ?_, j, hj, heq⟩
    have hmem := mem_held.mp hq
    refine mem_held.mpr ?_
    change q ∈ d.page :: kcm.freelist ∨ _
    obtain hf | hrest := hmem
    · exact .inl (List.mem_cons_of_mem _ hf)
    · exact .inr hrest

theorem Ready.tail (h : Ready kcm hand (d :: ds)) : Ready (freelistPopulate kcm d) hand ds := by
  have hnodup := List.nodup_cons.mp h.nodup
  refine ⟨hnodup.2, ?_, fun e he => h.clean e (List.mem_cons_of_mem _ he)⟩
  intro e he
  obtain ⟨hal, hsm, hnot⟩ := h.legal e (List.mem_cons_of_mem _ he)
  refine ⟨hal, hsm, ?_⟩
  have hne : e.page ≠ d.page := by
    intro heq
    exact hnodup.1 (List.mem_map.mpr ⟨e, he, heq⟩)
  intro hmem
  apply hnot
  have hmem' : e.page ∈ d.page :: kcm.freelist ∨ e.page ∈ kcm.activelist ∨
      e.page ∈ kcm.busylist ∨ e.page ∈ hand := mem_held.mp hmem
  refine mem_held.mpr ?_
  simpa [hne] using hmem'

theorem Inv.populateLoop (h : Inv kcm hand out) (hr : Ready kcm hand ds) :
    Inv (Kcm.populateLoop kcm ds) hand out ∧ Keeps kcm (Kcm.populateLoop kcm ds) := by
  induction ds generalizing kcm with
  | nil => exact ⟨h, rfl, rfl, rfl⟩
  | cons d ds ih =>
    rw [Kcm.populateLoop]
    by_cases hlow : kcm.freePagesNr < wadd kcm.freePagesMin kcm.freePagesMax / 2
    · rw [if_pos hlow]
      obtain ⟨hal, hsm, hnot⟩ := hr.legal d (by simp)
      obtain ⟨hinv, hkeep⟩ := ih (h.populate hal hsm hnot (hr.clean d (by simp))) hr.tail
      exact ⟨hinv, hkeep.activelist, hkeep.size, hkeep.blocksNr⟩
    · rw [if_neg hlow]
      exact ⟨h, rfl, rfl, rfl⟩

theorem Inv.unlink_free (h : Inv kcm [] out) {rest : List ℕ} (hfree : kcm.freelist = p :: rest) :
    Inv { kcm.listUnlink p with freePagesNr := wsub kcm.freePagesNr 1 } [p] out ∧
      (kcm.listUnlink p).activelist = kcm.activelist := by
  have hp : p ∈ kcm.freelist := by simp [hfree]
  obtain ⟨hna, hnb, -⟩ := (h.not_mem (p := p)).1 hp
  have hf : (kcm.listUnlink p).freelist = rest := by simp [listUnlink, hfree]
  have ha : (kcm.listUnlink p).activelist = kcm.activelist := List.erase_of_not_mem hna
  have hb : (kcm.listUnlink p).busylist = kcm.busylist := List.erase_of_not_mem hnb
  have hlen := h.lengths
  have hheldIff : ∀ q, q ∈ held { kcm.listUnlink p with freePagesNr := wsub kcm.freePagesNr 1 } [p] ↔
      q ∈ held kcm [] := by
    intro q
    rw [mem_held, mem_held]
    change q ∈ (kcm.listUnlink p).freelist ∨ q ∈ (kcm.listUnlink p).activelist ∨
      q ∈ (kcm.listUnlink p).busylist ∨ _ ↔ _
    rw [hf, ha, hb, hfree]
    simp only [List.mem_cons, List.not_mem_nil, or_false]
    tauto
  refine ⟨⟨h.geo.congr rfl rfl rfl, ?_, ?_, ?_, ?_, ?_, ?_, ?_, ?_, ?_, h.outNodup, ?_⟩, ha⟩
  · intro q
    have honce := h.once q
    change (kcm.listUnlink p).freelist.count q + (kcm.listUnlink p).activelist.count q +
      (kcm.listUnlink p).busylist.count q + _ ≤ 1
    rw [hf, ha, hb]
    simp only [hfree, List.count_cons, List.count_nil] at honce ⊢
    omega
  · change wsub kcm.freePagesNr 1 = (kcm.listUnlink p).freelist.length
    rw [hf, h.freeNr, hfree, List.length_cons]
    rw [hfree, List.length_cons] at hlen
    exact wsub_of_le (by omega) (by omega)
  · change kcm.activePagesNr = (kcm.listUnlink p).activelist.length
    rw [ha]
    exact h.activeNr
  · change kcm.busyPagesNr = (kcm.listUnlink p).busylist.length
    rw [hb]
    exact h.busyNr
  · intro q hq
    change (kcm.pages q).active = true ↔ (kcm.listUnlink p).activelist.head? = some q
    rw [ha]
    exact h.activeFlag q ((hheldIff q).mp hq)
  · intro q hq
    change (kcm.pages q).busy = true ↔ q ∈ (kcm.listUnlink p).busylist
    rw [hb]
    exact h.busyFlag q ((hheldIff q).mp hq)
  · intro q hq
    exact (h.page q ((hheldIff q).mp hq)).frame ⟨rfl, rfl, rfl, rfl⟩ rfl rfl
      (fun _ _ => Iff.rfl) rfl
  · intro q hq
    change (kcm.pages q).refcount = 0
    refine h.freeEmpty q ?_
    have hmem : q ∈ rest ∨ q = p := by simpa [hf] using hq
    simpa [hfree, or_comm] using hmem
  · intro q hq j hj
    exact h.busyFull q (hb ▸ hq) j hj
  · intro ptr hptr
    obtain ⟨q, hq, j, hj, heq⟩ := h.outBlock ptr hptr
    exact ⟨q, (hheldIff q).mpr hq, j, hj, heq⟩

theorem freelistGet_spec (h : Inv kcm [] out) (hr : Ready kcm [] ds) :
    ∃ kcm', Keeps kcm kcm' ∧
      (freelistGet kcm ds = some (kcm', none) ∧ Inv kcm' [] out ∨
        ∃ p, freelistGet kcm ds = some (kcm', some p) ∧ Inv kcm' [p] out) := by
  obtain ⟨kcm₁, hdef, h₁, hkeep⟩ : ∃ kcm₁,
      (if kcm.freePagesNr ≤ kcm.freePagesMin then Kcm.populateLoop kcm ds else kcm) = kcm₁ ∧
        Inv kcm₁ [] out ∧ Keeps kcm kcm₁ := by
    by_cases hlow : kcm.freePagesNr ≤ kcm.freePagesMin
    · obtain ⟨hinv, hkeep⟩ := h.populateLoop hr
      exact ⟨_, if_pos hlow, hinv, hkeep⟩
    · exact ⟨_, if_neg hlow, h, rfl, rfl, rfl⟩
  by_cases hzero : kcm₁.freePagesNr = 0
  · exact ⟨kcm₁, hkeep, .inl ⟨by simp [freelistGet, hdef, hzero], h₁⟩⟩
  · cases hfree : kcm₁.freelist with
    | nil => exact absurd (by simp [h₁.freeNr, hfree]) hzero
    | cons p rest =>
      obtain ⟨hinv, hact⟩ := h₁.unlink_free hfree
      refine ⟨{ kcm₁.listUnlink p with freePagesNr := wsub kcm₁.freePagesNr 1 },
        ⟨hact.trans hkeep.activelist, hkeep.size, hkeep.blocksNr⟩, .inr ⟨p, ?_, hinv⟩⟩
      simp [freelistGet, hdef, hzero, hfree, listUnlink]

theorem Inv.link_active (h : Inv kcm [p] out) (hne : kcm.activelist ≠ []) :
    Inv { kcm with
      activelist := kcm.activelist ++ [p]
      activePagesNr := wadd kcm.activePagesNr 1 } [] out := by
  have hheldIff : ∀ q, q ∈ held { kcm with
      activelist := kcm.activelist ++ [p]
      activePagesNr := wadd kcm.activePagesNr 1 } [] ↔ q ∈ held kcm [p] := by
    intro q
    rw [mem_held, mem_held]
    simp only [List.mem_append, List.mem_singleton, List.not_mem_nil, or_false]
    tauto
  have hlen := h.lengths
  refine ⟨h.geo.congr rfl rfl rfl, ?_, h.freeNr, ?_, h.busyNr, ?_, ?_, ?_, ?_, h.busyFull,
    h.outNodup, ?_⟩
  · intro q
    have honce := h.once q
    simp only [List.count_append, List.count_nil] at honce ⊢
    omega
  · change wadd kcm.activePagesNr 1 = (kcm.activelist ++ [p]).length
    rw [h.activeNr, List.length_append]
    exact wadd_of_lt (by omega)
  · intro q hq
    change (kcm.pages q).active = true ↔ (kcm.activelist ++ [p]).head? = some q
    rw [List.head?_append_of_ne_nil _ hne]
    exact h.activeFlag q ((hheldIff q).mp hq)
  · intro q hq
    exact h.busyFlag q ((hheldIff q).mp hq)
  · intro q hq
    exact (h.page q ((hheldIff q).mp hq)).frame ⟨rfl, rfl, rfl, rfl⟩ rfl rfl
      (fun _ _ => Iff.rfl) rfl
  · intro q hq
    exact h.freeEmpty q (List.mem_append_left _ (by simpa using hq))
  · intro ptr hptr
    obtain ⟨q, hq, j, hj, heq⟩ := h.outBlock ptr hptr
    exact ⟨q, (hheldIff q).mpr hq, j, hj, heq⟩

/-- The first active page, when it is full, becomes busy and the next one takes its place. -/
theorem Inv.replaceActive (h : Inv kcm [] out) {q : ℕ} {rest : List ℕ}
    (hactive : kcm.activelist = p :: q :: rest)
    (hfull : ∀ k < kcm.blocksNr, bitmapState (kcm.pages p).bitmap k = false) :
    Inv (Kcm.replaceActive kcm p q) [] out ∧
      (Kcm.replaceActive kcm p q).activelist = q :: rest := by
  have hp : p ∈ kcm.activelist := by simp [hactive]
  have hqm : q ∈ kcm.activelist := by simp [hactive]
  obtain ⟨hfree, hact, -⟩ := h.not_mem (p := p)
  have hnf : p ∉ kcm.freelist := fun hmem => (hfree hmem).1 hp
  have hnb : p ∉ kcm.busylist := (hact hp).1
  have hqp : q ≠ p := by
    rintro rfl
    have honce := h.once q
    simp only [hactive, List.count_cons_self] at honce
    omega
  have hf : (Kcm.replaceActive kcm p q).freelist = kcm.freelist := List.erase_of_not_mem hnf
  have ha : (Kcm.replaceActive kcm p q).activelist = q :: rest := by
    simp [Kcm.replaceActive, setPage, listUnlink, hactive]
  have hb : (Kcm.replaceActive kcm p q).busylist = p :: kcm.busylist := by
    simp [Kcm.replaceActive, setPage, listUnlink, List.erase_of_not_mem hnb]
  have hpages : ∀ r, (Kcm.replaceActive kcm p q).pages r =
      { kcm.pages r with
        active := if r = q then true else if r = p then false else (kcm.pages r).active
        busy := if r = p then true else (kcm.pages r).busy } := by
    intro r
    by_cases hrp : r = p
    · subst hrp
      simp [Kcm.replaceActive, setPage, listUnlink, Ne.symm hqp]
    · by_cases hrq : r = q
      · subst hrq
        simp [Kcm.replaceActive, setPage, listUnlink, hrp]
      · simp [Kcm.replaceActive, setPage, listUnlink, hrp, hrq]
  have hheldIff : ∀ r, r ∈ held (Kcm.replaceActive kcm p q) [] ↔ r ∈ held kcm [] := by
    intro r
    rw [mem_held, mem_held, hf, ha, hb, hactive]
    simp only [List.mem_cons, List.not_mem_nil, or_false]
    tauto
  have hlen := h.lengths
  have hlenA : kcm.activelist.length = rest.length + 2 := by simp [hactive]
  refine ⟨⟨h.geo.congr rfl rfl rfl, ?_, ?_, ?_, ?_, ?_, ?_, ?_, ?_, ?_, h.outNodup, ?_⟩, ha⟩
  · intro r
    have honce := h.once r
    rw [hf, ha, hb]
    simp only [hactive, List.count_cons, List.count_nil] at honce ⊢
    omega
  · rw [hf]
    exact h.freeNr
  · change wsub kcm.activePagesNr 1 = _
    rw [ha, h.activeNr, hlenA, List.length_cons]
    exact wsub_of_le (by omega) (by omega)
  · change wadd kcm.busyPagesNr 1 = _
    rw [hb, h.busyNr, List.length_cons]
    exact wadd_of_lt (by omega)
  · intro r hr
    rw [hpages r, ha]
    simp only [List.head?_cons, Option.some.injEq]
    by_cases hrq : r = q
    · simp [hrq]
    · have hflag := h.activeFlag r ((hheldIff r).mp hr)
      simp only [hactive, List.head?_cons, Option.some.injEq] at hflag
      by_cases hrp : r = p
      · simp [hrp, hqp, Ne.symm hqp]
      · simp [hrq, hrp, Ne.symm hrq, hflag, Ne.symm hrp]
  · intro r hr
    rw [hpages r, hb, List.mem_cons]
    by_cases hrp : r = p
    · simp [hrp]
    · simpa [hrp] using h.busyFlag r ((hheldIff r).mp hr)
  · intro r hr
    refine (h.page r ((hheldIff r).mp hr)).frame ?_ rfl rfl (fun _ _ => Iff.rfl) rfl
    rw [hpages r]
    exact ⟨rfl, rfl, rfl, rfl⟩
  · intro r hr
    rw [hpages r]
    rw [hf] at hr
    exact h.freeEmpty r hr
  · intro r hr k hk
    rw [hpages r]
    obtain rfl | hmem := List.mem_cons.mp (hb ▸ hr)
    · exact hfull k hk
    · exact h.busyFull r hmem k hk
  · intro ptr hptr
    obtain ⟨r, hr, j, hj, heq⟩ := h.outBlock ptr hptr
    exact ⟨r, (hheldIff r).mpr hr, j, hj, heq⟩

theorem Inv.full (h : Inv kcm hand out) {kcm' : Kcm} {hand' : List ℕ} (h' : Inv kcm' hand' out)
    (hp : p ∈ held kcm hand) (hp' : p ∈ held kcm' hand') (hkeep : Keeps kcm kcm')
    (hfull : ∀ k < kcm.blocksNr, bitmapState (kcm.pages p).bitmap k = false) :
    ∀ k < kcm'.blocksNr, bitmapState (kcm'.pages p).bitmap k = false := by
  intro k hk
  rw [(h'.page p hp').bits k hk]
  rw [hkeep.blocksNr] at hk
  have hmem := ((h.page p hp).bits k hk).mp (hfull k hk)
  simpa [blockAddr, hkeep.size] using hmem

/-- A full first active page is replaced, or kept when there is no other page. -/
theorem computeActivePage_spec (h : Inv kcm [] out) (hr : Ready kcm [] ds) {rest : List ℕ}
    (hactive : kcm.activelist = p :: rest)
    (hfull : ∀ k < kcm.blocksNr, bitmapState (kcm.pages p).bitmap k = false) :
    ∃ kcm' q, computeActivePage kcm ds = some (kcm', q) ∧ Inv kcm' [] out ∧
      kcm'.activelist.head? = some q ∧ kcm'.size = kcm.size ∧ kcm'.blocksNr = kcm.blocksNr := by
  have hp : p ∈ held kcm [] := mem_held.mpr (.inr (.inl (by simp [hactive])))
  cases rest with
  | nil =>
    obtain ⟨kcm₁, hkeep, ⟨hget, h₁⟩ | ⟨q, hget, h₁⟩⟩ := freelistGet_spec h hr
    · refine ⟨kcm₁, p, by simp [computeActivePage, hactive, hget], h₁, ?_, hkeep.size, hkeep.blocksNr⟩
      simp [hkeep.activelist, hactive]
    · have hlist : kcm₁.activelist = [p] := by rw [hkeep.activelist, hactive]
      have hp₁ : p ∈ held kcm₁ [q] := mem_held.mpr (.inr (.inl (by simp [hlist])))
      have hfull₁ := h.full h₁ hp hp₁ hkeep hfull
      have h₂ := h₁.link_active (by simp [hlist])
      have hlist₂ : kcm₁.activelist ++ [q] = [p, q] := by simp [hlist]
      obtain ⟨hinv, hact⟩ := h₂.replaceActive hlist₂ hfull₁
      refine ⟨_, q, by simp [computeActivePage, hactive, hget], hinv, by simp [hact], ?_, ?_⟩
      · exact hkeep.size
      · exact hkeep.blocksNr
  | cons q rest =>
    obtain ⟨hinv, hact⟩ := h.replaceActive hactive hfull
    exact ⟨_, q, by simp [computeActivePage, hactive], hinv, by simp [hact], rfl, rfl⟩

/-- An allocation keeps the invariant, and a pointer it returns is a block that was free. -/
theorem kcmAlloc_spec (h : Inv kcm [] out) (hr : Ready kcm [] ds) (hne : kcm.activelist ≠ []) :
    ∃ kcm' r, kcmAlloc kcm ds = some (kcm', r) ∧ kcm'.activelist ≠ [] ∧
      kcm'.blocksNr = kcm.blocksNr ∧
      ((r = none ∧ Inv kcm' [] out) ∨
        ∃ p ∈ kcm'.activelist, ∃ k < kcm'.blocksNr, r = some (blockAddr kcm' p k) ∧
          Inv kcm' [] (blockAddr kcm' p k :: out)) := by
  cases hactive : kcm.activelist with
  | nil => exact absurd hactive hne
  | cons p rest =>
    have hp : p ∈ kcm.activelist := by simp [hactive]
    have hheld : p ∈ held kcm [] := mem_held.mpr (.inr (.inl hp))
    obtain ⟨hget, hfull⟩ | ⟨k, hk, hset, hmin, hget⟩ := getBlock_spec h.geo (h.page p hheld)
    · obtain ⟨kcm₁, q, hcompute, h₁, hhead, -, hblocks⟩ := computeActivePage_spec h hr hactive hfull
      have hq : q ∈ kcm₁.activelist := List.mem_of_head? hhead
      have hne₁ : kcm₁.activelist ≠ [] := List.ne_nil_of_mem hq
      by_cases hqp : q = p
      · exact ⟨kcm₁, none, by simp [kcmAlloc, hactive, hget, hcompute, hqp], hne₁, hblocks,
          .inl ⟨rfl, h₁⟩⟩
      · have hq' : q ∈ held kcm₁ [] := mem_held.mpr (.inr (.inl hq))
        obtain ⟨hget', -⟩ | ⟨k, hk, hset, hmin, hget'⟩ := getBlock_spec h₁.geo (h₁.page q hq')
        · refine ⟨kcm₁, none, ?_, hne₁, hblocks, .inl ⟨rfl, h₁⟩⟩
          simp [kcmAlloc, hactive, hget, hcompute, hqp, hget']
        · refine ⟨_, _, ?_, ?_, ?_, .inr ⟨q, ?_, k, ?_, rfl, h₁.take hq hk hset hmin⟩⟩
          · simp [kcmAlloc, hactive, hget, hcompute, hqp, hget']
            rfl
          · exact hne₁
          · exact hblocks
          · exact hq
          · exact hk
    · refine ⟨_, _, ?_, ?_, ?_, .inr ⟨p, ?_, k, ?_, rfl, h.take hp hk hset hmin⟩⟩
      · simp [kcmAlloc, hactive, hget]
        rfl
      · exact hne
      · rfl
      · exact hp
      · exact hk

theorem Inv.drop (h : Inv kcm [p] out) (calls : List KcmCall) :
    Inv { kcm with calls := calls } [] out := by
  have hmem : ∀ q, q ∈ held { kcm with calls := calls } [] → q ∈ held kcm [p] := by
    intro q hq
    have hq' := mem_held.mp hq
    refine mem_held.mpr ?_
    simp only [List.not_mem_nil, or_false] at hq'
    tauto
  refine ⟨h.geo.congr rfl rfl rfl, ?_, h.freeNr, h.activeNr, h.busyNr, ?_, ?_, ?_, ?_, h.busyFull,
    h.outNodup, ?_⟩
  · intro q
    have honce := h.once q
    simp only [List.count_nil] at honce ⊢
    omega
  · intro q hq
    exact h.activeFlag q (hmem q hq)
  · intro q hq
    exact h.busyFlag q (hmem q hq)
  · intro q hq
    exact (h.page q (hmem q hq)).frame ⟨rfl, rfl, rfl, rfl⟩ rfl rfl (fun _ _ => Iff.rfl) rfl
  · intro q hq
    exact h.freeEmpty q (List.mem_append_left _ (by simpa using hq))
  · intro ptr hptr
    obtain ⟨q, hq, j, hj, heq⟩ := h.outBlock ptr hptr
    refine ⟨q, ?_, j, hj, heq⟩
    have hqp : q ≠ p := by
      rintro rfl
      have hzero := h.freeEmpty q (by simp)
      rw [(h.page q hq).refs, List.countP_eq_zero] at hzero
      refine hzero ptr hptr ?_
      simp [heq, h.geo.pageOf_block (h.page q hq).aligned hj]
    have hq' := mem_held.mp hq
    refine mem_held.mpr ?_
    simpa [hqp] using hq'

theorem Inv.releaseLoop {l : List ℕ} (h : Inv kcm [] out) (hl : kcm.freelist = l) :
    Inv (Kcm.releaseLoop kcm l) [] out ∧ Keeps kcm (Kcm.releaseLoop kcm l) := by
  induction l generalizing kcm with
  | nil => exact ⟨h, rfl, rfl, rfl⟩
  | cons p rest ih =>
    rw [Kcm.releaseLoop]
    by_cases hlow : kcm.freePagesNr ≤ kcm.freePagesMin
    · rw [if_pos hlow]
      exact ⟨h, rfl, rfl, rfl⟩
    · rw [if_neg hlow]
      obtain ⟨hinv, hact⟩ := h.unlink_free hl
      obtain ⟨hrest, hkeep⟩ := ih (hinv.drop _) (by simp [listUnlink, hl])
      exact ⟨hrest, hkeep.activelist.trans hact, hkeep.size, hkeep.blocksNr⟩

theorem arroundUp_size {size aligne : ℕ} (hal : aligne = 32 ∨ aligne = 64) (hlow : 64 ≤ size)
    (hhigh : size ≤ 1024) : 64 ≤ arroundUp size aligne ∧ arroundUp size aligne ≤ 1024 ∧
      arroundUp size aligne % 32 = 0 := by
  unfold arroundUp
  obtain rfl | rfl := hal
  · split_ifs <;> omega
  · split_ifs <;> omega

theorem blocks_fit {size : ℕ} (hlow : 64 ≤ size) (hhigh : size ≤ 1024) (hal : size % 32 = 0) :
    64 + (if sizeofPageInfo ≤ 4096 % size then 4096 / size else wsub (4096 / size) 1) * size ≤ 4096 ∧
      (if sizeofPageInfo ≤ 4096 % size then 4096 / size else wsub (4096 / size) 1) ≤ 128 := by
  have hdiv := Nat.div_add_mod 4096 size
  have hq : 4096 / size ≤ 64 := by
    calc 4096 / size ≤ 4096 / 64 := Nat.div_le_div_left hlow (by decide)
      _ = 64 := rfl
  have hq4 : 4 ≤ 4096 / size := by
    calc 4 = 4096 / 1024 := rfl
      _ ≤ 4096 / size := Nat.div_le_div_left hhigh (by omega)
  rw [Nat.mul_comm] at hdiv
  by_cases hrem : sizeofPageInfo ≤ 4096 % size
  · rw [if_pos hrem]
    -- the remainder is a multiple of 32 as the size is
    have hmul : 4096 / size * size % 32 = 0 := by
      rw [Nat.mul_mod, hal]
      simp
    unfold sizeofPageInfo at hrem
    omega
  · rw [if_neg hrem, wsub_of_le (by omega) (by omega), Nat.sub_mul, Nat.one_mul]
    omega

theorem geometry_blank {c : Config} (hlow : 64 ≤ c.size) (hhigh : c.size ≤ kcmPageSize / 4) :
    Geometry (blank c) := by
  have hal : (blank c).aligne = 32 ∨ (blank c).aligne = 64 := by
    simp only [blank, kcmAligne]
    split_ifs
    · exact .inl rfl
    · exact .inr rfl
  obtain ⟨h64, h1024, hmod⟩ := arroundUp_size hal hlow hhigh
  have hsize : (blank c).size = arroundUp c.size (blank c).aligne := rfl
  rw [← hsize] at h64 h1024 hmod
  obtain ⟨hfit, hle⟩ := blocks_fit h64 h1024 hmod
  refine ⟨by omega, ?_, hfit, hle⟩
  obtain hal | hal := hal
  · rw [hal]
    rfl
  · rw [hal]
    rfl

theorem Inv.link_first (h : Inv kcm [p] []) (hnil : kcm.activelist = []) :
    let kcm₁ := { kcm with activelist := p :: kcm.activelist }.setPage p ({ · with active := true })
    Inv { kcm₁ with activePagesNr := wadd kcm₁.activePagesNr 1 } [] [] := by
  intro kcm₁
  have hlist : kcm₁.activelist = [p] := by
    change p :: kcm.activelist = [p]
    rw [hnil]
  have hheldIff : ∀ q, q ∈ held { kcm₁ with activePagesNr := wadd kcm₁.activePagesNr 1 } [] ↔
      q ∈ held kcm [p] := by
    intro q
    rw [mem_held, mem_held, hnil]
    change q ∈ kcm.freelist ∨ q ∈ kcm₁.activelist ∨ q ∈ kcm.busylist ∨ _ ↔ _
    rw [hlist]
    simp only [List.mem_singleton, List.not_mem_nil, or_false, false_or]
    tauto
  have hsame : ∀ q, kcm₁.pages q =
      { kcm.pages q with active := if q = p then true else (kcm.pages q).active } := by
    intro q
    by_cases hqp : q = p
    · simp [kcm₁, setPage, hqp]
    · simp [kcm₁, setPage, hqp]
  refine ⟨h.geo.congr rfl rfl rfl, ?_, h.freeNr, ?_, h.busyNr, ?_, ?_, ?_, ?_, ?_,
    List.nodup_nil, by simp⟩
  · intro q
    have honce := h.once q
    change kcm.freelist.count q + kcm₁.activelist.count q + kcm.busylist.count q + _ ≤ 1
    rw [hlist]
    simp only [hnil, List.count_nil] at honce ⊢
    omega
  · change wadd kcm.activePagesNr 1 = kcm₁.activelist.length
    rw [hlist, h.activeNr, hnil]
    rfl
  · intro q hq
    change (kcm₁.pages q).active = true ↔ kcm₁.activelist.head? = some q
    have hflag := h.activeFlag q ((hheldIff q).mp hq)
    rw [hsame q, hlist]
    simp only [hnil, List.head?_nil, reduceCtorEq, iff_false] at hflag
    by_cases hqp : q = p
    · simp [hqp]
    · simp [hqp, hflag, Ne.symm hqp]
  · intro q hq
    change (kcm₁.pages q).busy = true ↔ q ∈ kcm.busylist
    rw [hsame q]
    exact h.busyFlag q ((hheldIff q).mp hq)
  · intro q hq
    refine (h.page q ((hheldIff q).mp hq)).frame ?_ rfl rfl (fun _ _ => Iff.rfl) rfl
    change SameBlocks (kcm₁.pages q) _
    rw [hsame q]
    exact ⟨rfl, rfl, rfl, rfl⟩
  · intro q hq
    change (kcm₁.pages q).refcount = 0
    have hq' : q ∈ kcm.freelist ++ [] := hq
    rw [hsame q]
    exact h.freeEmpty q (List.mem_append_left _ (by simpa using hq'))
  · intro q hq j hj
    change bitmapState (kcm₁.pages q).bitmap j = false
    rw [hsame q]
    exact h.busyFull q hq j hj

theorem inv_blank {c : Config} (geo : Geometry (blank c)) : Inv (blank c) [] [] := by
  have hheld : ∀ q, q ∉ held (blank c) [] := by simp [held, owned, blank]
  refine ⟨geo, by simp [blank], rfl, rfl, rfl, ?_, ?_, ?_, by simp [blank], by simp [blank],
    List.nodup_nil, by simp⟩
  · intro q hq
    exact absurd hq (hheld q)
  · intro q hq
    exact absurd hq (hheld q)
  · intro q hq
    exact absurd hq (hheld q)

theorem kcmInit_spec {c : Config} (geo : Geometry (blank c)) (hr : Ready (blank c) [] ds)
    (hinit : kcmInit c ds = some kcm) :
    Inv kcm [] [] ∧ kcm.activelist ≠ [] ∧ kcm.blocksNr = (blank c).blocksNr := by
  obtain ⟨kcm₁, hkeep, ⟨hget, -⟩ | ⟨p, hget, h₁⟩⟩ := freelistGet_spec (inv_blank geo) hr
  · simp [kcmInit, hget] at hinit
  · have hnil : kcm₁.activelist = [] := hkeep.activelist
    simp only [kcmInit, hget, Option.some.injEq] at hinit
    subst hinit
    exact ⟨h₁.link_first hnil, List.cons_ne_nil _ _, hkeep.blocksNr⟩

end Moves

theorem putBlock_blocksNr (kcm : Kcm) (ptr : ℕ) : (putBlock kcm ptr).blocksNr = kcm.blocksNr := by
  simp only [putBlock]
  split_ifs <;> rfl

structure Accounting (s : State) : Prop where
  once : s.kcm.owned.Nodup
  freeNr : s.kcm.freePagesNr = s.kcm.freelist.length
  activeNr : s.kcm.activePagesNr = s.kcm.activelist.length
  busyNr : s.kcm.busyPagesNr = s.kcm.busylist.length
  active : ∃ p rest, s.kcm.activelist = p :: rest ∧
    ∀ q ∈ s.kcm.owned, (s.kcm.pages q).active = true ↔ q = p
  busy : ∀ p ∈ s.kcm.owned, (s.kcm.pages p).busy = true ↔ p ∈ s.kcm.busylist
  busyFull : ∀ p ∈ s.kcm.owned, (s.kcm.pages p).busy = true →
    ∀ k < s.kcm.blocksNr, bitmapState (s.kcm.pages p).bitmap k = false
  freeEmpty : ∀ p ∈ s.kcm.freelist, (s.kcm.pages p).refcount = 0
  refcount : ∀ p ∈ s.kcm.owned,
    (s.kcm.pages p).refcount = s.outstanding.countP fun ptr => pageOf ptr = p
  lowest : ∀ p ∈ s.kcm.owned, ∀ k < s.kcm.blocksNr,
    bitmapState (s.kcm.pages p).bitmap k = true → (s.kcm.pages p).currentIndex ≤ k

structure Running (c : Config) (s : State) : Prop where
  inv : Inv s.kcm [] s.outstanding
  active : s.kcm.activelist ≠ []
  blocksNr : s.kcm.blocksNr = (blank c).blocksNr

theorem mem_held_nil {kcm : Kcm} {p : ℕ} : p ∈ held kcm [] ↔ p ∈ kcm.owned := by simp [held]

theorem Running.accounting {c : Config} {s : State} (h : Running c s) : Accounting s := by
  have hinv := h.inv
  refine ⟨by simpa [held] using hinv.nodup, hinv.freeNr, hinv.activeNr, hinv.busyNr, ?_, ?_, ?_, ?_,
    ?_, ?_⟩
  · cases hl : s.kcm.activelist with
    | nil => exact absurd hl h.active
    | cons p rest =>
      refine ⟨p, rest, rfl, ?_⟩
      intro q hq
      rw [hinv.activeFlag q (mem_held_nil.mpr hq), hl]
      simp [eq_comm]
  · exact fun p hp => hinv.busyFlag p (mem_held_nil.mpr hp)
  · intro p hp hbusy
    exact hinv.busyFull p ((hinv.busyFlag p (mem_held_nil.mpr hp)).mp hbusy)
  · exact fun p hp => hinv.freeEmpty p (by simpa using hp)
  · exact fun p hp => (hinv.page p (mem_held_nil.mpr hp)).refs
  · exact fun p hp => (hinv.page p (mem_held_nil.mpr hp)).index

theorem Running.ready {c : Config} {s : State} (h : Running c s) {ds : List Delivery}
    (hlegal : Deliverable s.kcm ds) (hclean : ∀ d ∈ ds, CleanBeyond (blank c).blocksNr d.bitmap) :
    Ready s.kcm [] ds := by
  refine ⟨hlegal.1, ?_, ?_⟩
  · intro d hd
    obtain ⟨hal, hsm, hnot⟩ := hlegal.2 d hd
    exact ⟨hal, hsm, fun hmem => hnot (mem_held_nil.mp hmem)⟩
  · intro d hd
    rw [h.blocksNr]
    exact hclean d hd

theorem Running.alloc {c : Config} {s : State} (h : Running c s) {ds : List Delivery}
    (hlegal : Deliverable s.kcm ds) (hclean : ∀ d ∈ ds, CleanBeyond (blank c).blocksNr d.bitmap) :
    ∃ kcm r, kcmAlloc s.kcm ds = some (kcm, r) ∧
      ((r = none ∧ Running c ⟨kcm, s.outstanding⟩) ∨
        ∃ p ∈ kcm.owned, ∃ k < kcm.blocksNr, r = some (blockAddr kcm p k) ∧
          Running c ⟨kcm, blockAddr kcm p k :: s.outstanding⟩) := by
  obtain ⟨kcm, r, heq, hne, hblocks, hres⟩ :=
    kcmAlloc_spec h.inv (h.ready hlegal hclean) h.active
  refine ⟨kcm, r, heq, ?_⟩
  obtain ⟨hr, hinv⟩ | ⟨p, hp, k, hk, hr, hinv⟩ := hres
  · exact .inl ⟨hr, hinv, hne, hblocks.trans h.blocksNr⟩
  · right
    refine ⟨p, ?_, k, hk, hr, hinv, hne, hblocks.trans h.blocksNr⟩
    simp [owned, hp]

theorem Running.step {c : Config} {s t : State} {e : Event} (h : Running c s)
    (hok : Delivers (CleanBeyond (blank c).blocksNr) s e) (hstep : Kcm.step s e = some t) :
    Running c t := by
  cases e with
  | alloc ds =>
    by_cases hlegal : Deliverable s.kcm ds
    · obtain ⟨kcm, r, heq, ⟨rfl, hrun⟩ | ⟨p, -, k, -, rfl, hrun⟩⟩ := h.alloc hlegal hok
      · simp only [Kcm.step, if_pos hlegal, heq, Option.some.injEq] at hstep
        exact hstep ▸ hrun
      · simp only [Kcm.step, if_pos hlegal, heq, Option.some.injEq] at hstep
        exact hstep ▸ hrun
    · simp [Kcm.step, hlegal] at hstep
  | free ptr =>
    by_cases hmem : ptr ∈ s.outstanding
    · simp only [Kcm.step, if_pos hmem, Option.some.injEq] at hstep
      obtain ⟨hinv, hne⟩ := h.inv.putBlock hmem h.active
      subst hstep
      exact ⟨hinv, hne, (putBlock_blocksNr _ _).trans h.blocksNr⟩
    · simp [Kcm.step, hmem] at hstep
  | release =>
    simp only [Kcm.step, Option.some.injEq] at hstep
    subst hstep
    obtain ⟨hinv, hkeep⟩ := h.inv.releaseLoop rfl
    refine ⟨hinv, ?_, hkeep.blocksNr.trans h.blocksNr⟩
    exact fun hnil => h.active (hkeep.activelist.symm.trans hnil)

theorem running_reach {c : Config} (hlow : 64 ≤ c.size) (hhigh : c.size ≤ kcmPageSize / 4)
    {contents : Bitmap → Prop} (hclean : ∀ b, contents b → CleanBeyond (blank c).blocksNr b)
    {s : State} (hs : (machine c contents).Reach (Delivers contents) s) : Running c s := by
  refine Machine.Reach.invariant (I := Running c) ?_ ?_ hs
  · intro s hinit
    obtain ⟨ds, kcm, hlegal, hds, hkcm, rfl⟩ := hinit
    have hr : Ready (blank c) [] ds := by
      refine ⟨hlegal.1, ?_, fun d hd => hclean _ (hds d hd)⟩
      intro d hd
      obtain ⟨hal, hsm, hnot⟩ := hlegal.2 d hd
      exact ⟨hal, hsm, fun hmem => hnot (mem_held_nil.mp hmem)⟩
    obtain ⟨hinv, hne, hblocks⟩ := kcmInit_spec (geometry_blank hlow hhigh) hr hkcm
    exact ⟨hinv, hne, hblocks⟩
  · intro s e t hrun hok hstep
    refine hrun.step ?_ hstep
    cases e with
    | alloc ds => exact fun d hd => hclean _ (hok d hd)
    | free ptr => trivial
    | release => trivial

def ZeroFilled (bitmap : Bitmap) : Prop := ∀ i, bitmap i = 0

theorem ZeroFilled.clean {bitmap : Bitmap} (h : ZeroFilled bitmap) (blocksNr : ℕ) :
    CleanBeyond blocksNr bitmap := by
  intro k _ _
  rw [bitmapState, h (k / cpuWidth)]
  exact BitVec.getLsbD_zero

/-- In every state of a cache that is served zero-filled pages, page accounting holds and the
next allocation finds an active page to look at. -/
theorem page_accounting (c : Config) (hlow : 64 ≤ c.size) (hhigh : c.size ≤ kcmPageSize / 4)
    (s : State) (hs : (machine c ZeroFilled).Reach (Delivers ZeroFilled) s) :
    Accounting s ∧ ∀ ds, Deliverable s.kcm ds → (∀ d ∈ ds, ZeroFilled d.bitmap) →
      (kcmAlloc s.kcm ds).isSome := by
  have hrun := running_reach hlow hhigh (fun _ h => h.clean _) hs
  refine ⟨hrun.accounting, ?_⟩
  intro ds hlegal hzero
  obtain ⟨kcm, r, heq, -⟩ := hrun.alloc hlegal fun d hd => (hzero d hd).clean _
  simp [heq]

def sample : Config := ⟨1024, 0, 1, 1, false, false⟩

def fillAndFree : List Event :=
  [.alloc [], .alloc [], .alloc [], .alloc [⟨0x2000, fun _ => 0⟩], .free 0x1040]

theorem page_accounting_two_pages : ∃ kcm s, kcmInit sample [⟨0x1000, fun _ => 0⟩] = some kcm ∧
    (machine sample ZeroFilled).run ⟨kcm, []⟩ fillAndFree = some s ∧
    s.kcm.activelist = [0x2000, 0x1000] ∧ s.kcm.busylist = [] ∧ s.outstanding.length = 3 ∧
    Accounting s := by
  have hrun : ((kcmInit sample [⟨0x1000, fun _ => 0⟩]).bind fun kcm =>
      (machine sample ZeroFilled).run ⟨kcm, []⟩ fillAndFree).map (fun s =>
        (s.kcm.activelist, s.kcm.busylist, s.outstanding.length)) =
      some ([0x2000, 0x1000], [], 3) := by decide +kernel
  obtain ⟨s, hs, hvalues⟩ := Option.map_eq_some_iff.mp hrun
  obtain ⟨kcm, hkcm, hs⟩ := Option.bind_eq_some_iff.mp hs
  simp only [Prod.mk.injEq] at hvalues
  have hinit : (machine sample ZeroFilled).init ⟨kcm, []⟩ := by
    refine ⟨_, kcm, (by decide : Deliverable (blank sample) [⟨0x1000, fun _ => 0⟩]), ?_, hkcm, rfl⟩
    intro d hd
    obtain rfl := List.mem_singleton.mp hd
    exact fun _ => rfl
  have hreach : (machine sample ZeroFilled).Reach (Delivers ZeroFilled) s := by
    refine .run (.init hinit) fillAndFree (fun e he s => ?_) hs
    simp only [fillAndFree, List.mem_cons, List.not_mem_nil, or_false] at he
    rcases he with rfl | rfl | rfl | rfl | rfl <;> simp [Delivers, ZeroFilled]
  exact ⟨kcm, s, hkcm, hs, hvalues.1, hvalues.2.1, hvalues.2.2,
    (page_accounting sample (by decide) (by decide) s hreach).1⟩

/-- When the words delivered for the bitmaps hold no bit past the last block, every pointer
returned by an allocation is a block of an owned page, lies inside the page and was not
outstanding. -/
theorem alloc_block_sound (c : Config) (hlow : 64 ≤ c.size) (hhigh : c.size ≤ kcmPageSize / 4)
    (s : State) (hs : (machine c (CleanBeyond (blank c).blocksNr)).Reach
      (Delivers (CleanBeyond (blank c).blocksNr)) s) (ds : List Delivery)
    (hlegal : Deliverable s.kcm ds) (hclean : ∀ d ∈ ds, CleanBeyond (blank c).blocksNr d.bitmap) :
    ∃ kcm r, kcmAlloc s.kcm ds = some (kcm, r) ∧ ∀ ptr, r = some ptr →
      (∃ p ∈ kcm.owned, ∃ i < kcm.blocksNr, ptr = (kcm.pages p).blkTbl + i * kcm.size ∧
        p ≤ ptr ∧ ptr + kcm.size ≤ p + kcmPageSize) ∧ ptr ∉ s.outstanding := by
  have hrun := running_reach hlow hhigh (fun _ h => h) hs
  obtain ⟨kcm, r, heq, hres⟩ := hrun.alloc hlegal hclean
  refine ⟨kcm, r, heq, ?_⟩
  intro ptr hptr
  obtain ⟨hr, -⟩ | ⟨p, hp, k, hk, hr, hrun'⟩ := hres
  · simp [hr] at hptr
  · obtain rfl : blockAddr kcm p k = ptr := by simpa [hr] using hptr
    have hpage := hrun'.inv.page p (mem_held_nil.mpr hp)
    have hfit := hrun'.inv.geo.block_lt hk
    refine ⟨⟨p, hp, k, hk, ?_, ?_, ?_⟩, (List.nodup_cons.mp hrun'.inv.outNodup).1⟩
    · rw [hpage.table]
      rfl
    · unfold blockAddr
      omega
    · unfold blockAddr
      change header + k * kcm.size + kcm.size ≤ kcmPageSize at hfit
      omega

def usedPage : Delivery := ⟨0x1000, fun i => if i = 0 then 7 else 0⟩

theorem alloc_block_sound_first : ∃ kcm kcm', kcmInit sample [usedPage] = some kcm ∧
    kcmAlloc kcm [] = some (kcm', some 0x1040) ∧ ∃ p ∈ kcm'.owned, ∃ i < kcm'.blocksNr,
      0x1040 = (kcm'.pages p).blkTbl + i * kcm'.size ∧ p ≤ 0x1040 ∧
        0x1040 + kcm'.size ≤ p + kcmPageSize := by
  obtain ⟨kcm, kcm', hinit, halloc⟩ : ∃ kcm kcm', kcmInit sample [usedPage] = some kcm ∧
      kcmAlloc kcm [] = some (kcm', some 0x1040) := ⟨_, _, rfl, rfl⟩
  have hclean : CleanBeyond (blank sample).blocksNr usedPage.bitmap := by
    unfold CleanBeyond
    decide
  have hs : (machine sample (CleanBeyond (blank sample).blocksNr)).Reach
      (Delivers (CleanBeyond (blank sample).blocksNr)) ⟨kcm, []⟩ := by
    refine .init ⟨[usedPage], kcm, by decide, ?_, hinit, rfl⟩
    intro d hd
    obtain rfl := List.mem_singleton.mp hd
    exact hclean
  obtain ⟨kcm₁, r, heq, hptr⟩ := alloc_block_sound sample (by decide) (by decide) _ hs []
    (by simp [Deliverable]) (by simp)
  obtain ⟨rfl, rfl⟩ : kcm' = kcm₁ ∧ some 0x1040 = r := by simpa [halloc] using heq
  exact ⟨kcm, kcm', hinit, halloc, (hptr _ rfl).1⟩

/-- Words full of ones: after three allocations, giving the first block back and taking it
again, the search meets the stale fourth bit and a block past the end of the page is returned. -/
theorem alloc_past_page : ¬∀ s, (machine sample fun _ => True).Reachable s → ∀ kcm ptr,
    kcmAlloc s.kcm [] = some (kcm, some ptr) →
      ∃ p ∈ kcm.owned, ∃ i < kcm.blocksNr, ptr = (kcm.pages p).blkTbl + i * kcm.size := by
  intro h
  obtain ⟨s₀, hinit⟩ : ∃ s₀, (machine sample fun _ => True).init s₀ ∧ ∃ s kcm,
      (machine sample fun _ => True).run s₀
        [.alloc [], .alloc [], .alloc [], .free 0x1040, .alloc []] = some s ∧
      kcmAlloc s.kcm [] = some (kcm, some 0x1C40) ∧ kcm.owned = [0x1000] ∧ kcm.blocksNr = 3 ∧
      kcm.size = 1024 ∧ (kcm.pages 0x1000).blkTbl = 0x1040 := by
    refine ⟨_, ⟨[⟨0x1000, fun _ => BitVec.allOnes 32⟩], _, by decide, fun _ _ => trivial, rfl, rfl⟩,
      _, _, rfl, rfl, rfl, rfl, rfl, rfl⟩
  obtain ⟨hstart, s, kcm, hs, halloc, howned, hblocks, hsize, htable⟩ := hinit
  obtain ⟨p, hp, i, hi, heq⟩ :=
    h s (Machine.Reachable.run (.init hstart) _ hs) kcm 0x1C40 halloc
  obtain rfl : p = 0x1000 := by simpa [howned] using hp
  rw [htable, hsize] at heq
  omega

end Almos.Kcm
