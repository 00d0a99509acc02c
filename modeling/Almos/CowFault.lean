import Almos.Page
import Almos.TsarPmm

/-!
# Copy-on-write faults that fail

A write to a page that is shared for copying. The reference to the original page is given up, or
the page marked to be freed, before it is known whether a new page can be had and mapped, and no
exit takes that back.
-/
namespace Almos.Cow
open Word Tsar

def pmmWrite : BitVec 32 := pmmBitOrder 26
def pmmMigrate : BitVec 32 := pmmBitOrder 1

/-- Descriptors by frame, and the page table of the region's address space. -/
structure CowMemory where
  pages : BitVec 32 → Page
  pmm : Pmm

def CowMemory.setPage (s : CowMemory) (ppn : BitVec 32) (f : Page → Page) : CowMemory :=
  { s with pages := Function.update s.pages ppn (f (s.pages ppn)) }

def allocPage (s : CowMemory) (ppn : BitVec 32) : CowMemory := s.setPage ppn Page.allocPage

def ppmFreePages (s : CowMemory) (ppn : BitVec 32) : CowMemory := s.setPage ppn Page.ppmFreePages

/-- What a call leaves, what it returns, and whether it gave the original page to `kmem_free`. -/
structure CowResult where
  mem : CowMemory
  err : Option PmmError
  freed : Bool

/-- The entry that the end of `vmm_do_cow` writes. -/
def cowEntry (vmPgprot newpage : BitVec 32) : Tsar.PageInfo :=
  ⟨(vmPgprot ||| pmmWrite) &&& ~~~(pmmCow ||| pmmMigrate), newpage⟩

/-- `vmm_do_cow`; `alloc` is the frame that `kmem_alloc` delivers. An entry with `PMM_COW` lies in a
table, so `pmm_set_page` asks for no other. -/
def vmmDoCow (s : CowMemory) (vmPgprot page vaddr : BitVec 32) (cluster : ℕ)
    (alloc : Option (BitVec 32)) : CowResult :=
  let info := pmmGetPage s.pmm vaddr
  let desc := s.pages page
  if info.attr &&& pmmCow = 0 then ⟨s, none, false⟩
  else
    let isFreeable := desc.mapper = none ∧ desc.count = 1 ∧ desc.cid ≠ cluster
    let same := desc.mapper = none ∧ desc.count = 1 ∧ desc.cid = cluster
    let s := if desc.mapper = none ∧ desc.count ≠ 1 then s.setPage page (·.pageRefcountDown) else s
    let newpage := if same then some page else alloc
    let s := match newpage with
      | some ppn => if same then s else allocPage s ppn
      | none => s
    let r : CowMemory × Option PmmError := match newpage with
      | none => (s, some .enomem)
      | some ppn =>
          match pmmSetPage s.pmm vaddr (cowEntry vmPgprot ppn) none with
          | (pmm, err) => ({ s with pmm }, err)
    if isFreeable then ⟨ppmFreePages r.1 page, r.2, true⟩ else ⟨r.1, r.2, false⟩

/-! ### What a failing call should leave -/

def freeFrames (s : CowMemory) : Set (BitVec 32) := {ppn | (s.pages ppn).state = .pgFree}

structure Unchanged (s : CowMemory) (page vaddr : BitVec 32) (r : CowResult) : Prop where
  entry : pmmGetPage r.mem.pmm vaddr = pmmGetPage s.pmm vaddr
  refcount : (r.mem.pages page).count = (s.pages page).count
  free : freeFrames r.mem = freeFrames s
  notFreed : r.freed = false

def Reused (s : CowMemory) (page : BitVec 32) (cluster : ℕ) : Prop :=
  (s.pages page).mapper = none ∧ (s.pages page).count = 1 ∧ (s.pages page).cid = cluster

/-- `pmm_set_page` refuses a huge page where there is a table. -/
def Refused (vmPgprot newpage : BitVec 32) : Prop :=
  vmPgprot &&& pmmHuge ≠ 0 ∧ vmPgprot &&& pmmClear = 0 ∧ newpage ≠ 0

def Clean (s : CowMemory) (vmPgprot page vaddr : BitVec 32) (cluster : ℕ)
    (alloc : Option (BitVec 32)) : Prop :=
  (pmmGetPage s.pmm vaddr).attr &&& pmmCow = 0 ∨ Reused s page cluster ∨
    match alloc with
    | none => (s.pages page).mapper ≠ none
    | some newpage => ¬Refused vmPgprot newpage

variable {s : CowMemory} {vmPgprot page vaddr newpage : BitVec 32} {cluster : ℕ}
  {alloc : Option (BitVec 32)}

lemma cowEntry_huge : (cowEntry vmPgprot newpage).attr &&& pmmHuge = vmPgprot &&& pmmHuge := by
  simp only [cowEntry, pmmWrite, pmmMigrate, pmmCow, pmmHuge, pmmBitOrder]
  ext i hi
  simp only [BitVec.getElem_and, BitVec.getElem_or, BitVec.getElem_not, BitVec.getElem_twoPow]
  by_cases h : i = 30 <;> simp [h]

lemma cowEntry_clear : (cowEntry vmPgprot newpage).attr &&& pmmClear = vmPgprot &&& pmmClear := by
  simp only [cowEntry, pmmWrite, pmmMigrate, pmmCow, pmmClear, pmmBitOrder]
  ext i hi
  simp only [BitVec.getElem_and, BitVec.getElem_or, BitVec.getElem_not, BitVec.getElem_twoPow]
  by_cases h : i = 4 <;> simp [h]

lemma pgdir_ne_zero (hcow : (pmmGetPage s.pmm vaddr).attr &&& pmmCow ≠ 0) :
    s.pmm.pgdir (mmuPde vaddr) ≠ 0 := by
  intro hzero
  apply hcow
  simp [pmmGetPage, hzero]

/-- What `pmm_set_page` answers to the entry, and that it writes nothing where it refuses. -/
lemma pmmSetPage_refused {pmm : Pmm} (hpde : pmm.pgdir (mmuPde vaddr) ≠ 0)
    (h : Refused vmPgprot newpage) :
    pmmSetPage pmm vaddr (cowEntry vmPgprot newpage) none = (pmm, some .einval) := by
  have hpde' : pmm.pgdir (mmuPde vaddr) ≠ 0#32 := hpde
  have hhuge : vmPgprot &&& pmmHuge ≠ 0#32 := h.1
  have hclear : vmPgprot &&& pmmClear = 0#32 := h.2.1
  have hppn : (cowEntry vmPgprot newpage).ppn ≠ 0#32 := h.2.2
  simp [pmmSetPage, cowEntry_huge, cowEntry_clear, hhuge, hclear, hppn, hpde']

lemma pmmSetPage_accepted {pmm : Pmm} (hpde : pmm.pgdir (mmuPde vaddr) ≠ 0)
    (h : ¬Refused vmPgprot newpage) :
    (pmmSetPage pmm vaddr (cowEntry vmPgprot newpage) none).2 = none := by
  have hpde' : pmm.pgdir (mmuPde vaddr) ≠ 0#32 := hpde
  by_cases hhuge : vmPgprot &&& pmmHuge = 0#32
  · simp [pmmSetPage, cowEntry_huge, hhuge, hpde']
  · by_cases hclear : vmPgprot &&& pmmClear = 0#32
    · have hppn : (cowEntry vmPgprot newpage).ppn = 0#32 := by
        by_contra hne
        exact h ⟨hhuge, hclear, hne⟩
      simp [pmmSetPage, cowEntry_huge, cowEntry_clear, hhuge, hclear, hppn]
    · simp [pmmSetPage, cowEntry_huge, cowEntry_clear, hhuge, hclear]

lemma setPage_pages_self (s : CowMemory) (ppn : BitVec 32) (f : Page → Page) :
    (s.setPage ppn f).pages ppn = f (s.pages ppn) := by
  simp [CowMemory.setPage]

lemma setPage_pages_of_ne (s : CowMemory) {ppn p : BitVec 32} (f : Page → Page) (h : p ≠ ppn) :
    (s.setPage ppn f).pages p = s.pages p := by
  simp [CowMemory.setPage, h]

lemma wsub_one_ne (count : ℕ) : wsub count 1 ≠ count := by
  unfold wsub
  omega

lemma vmmDoCow_none (hcow : (pmmGetPage s.pmm vaddr).attr &&& pmmCow = 0) :
    vmmDoCow s vmPgprot page vaddr cluster alloc = ⟨s, none, false⟩ := by
  simp [vmmDoCow, hcow]

section
variable (hcow : (pmmGetPage s.pmm vaddr).attr &&& pmmCow ≠ 0#32)
include hcow

lemma vmmDoCow_reused (hsame : Reused s page cluster) :
    vmmDoCow s vmPgprot page vaddr cluster alloc =
      ⟨{ s with pmm := (pmmSetPage s.pmm vaddr (cowEntry vmPgprot page) none).1 },
        (pmmSetPage s.pmm vaddr (cowEntry vmPgprot page) none).2, false⟩ := by
  obtain ⟨hmapper, hcount, hcid⟩ := hsame
  simp [vmmDoCow, hcow, hmapper, hcount, hcid]

lemma vmmDoCow_mapped (hmapper : (s.pages page).mapper ≠ none) :
    vmmDoCow s vmPgprot page vaddr cluster none = ⟨s, some .enomem, false⟩ := by
  simp [vmmDoCow, hcow, hmapper]

lemma vmmDoCow_shared (hmapper : (s.pages page).mapper = none) (hcount : (s.pages page).count ≠ 1) :
    vmmDoCow s vmPgprot page vaddr cluster none =
      ⟨s.setPage page (·.pageRefcountDown), some .enomem, false⟩ := by
  simp [vmmDoCow, hcow, hmapper, hcount]

lemma vmmDoCow_remote (hmapper : (s.pages page).mapper = none) (hcount : (s.pages page).count = 1)
    (hcid : (s.pages page).cid ≠ cluster) :
    vmmDoCow s vmPgprot page vaddr cluster none = ⟨ppmFreePages s page, some .enomem, true⟩ := by
  simp [vmmDoCow, hcow, hmapper, hcount, hcid]

/-- With a new page the answer is that of `pmm_set_page`, and the new page is in use. -/
lemma vmmDoCow_new (hnew : ¬Reused s page cluster)
    (halloc : (s.pages newpage).state = .pgFree ∧ (s.pages newpage).count = 0) :
    (vmmDoCow s vmPgprot page vaddr cluster (some newpage)).err =
        (pmmSetPage s.pmm vaddr (cowEntry vmPgprot newpage) none).2 ∧
      ((vmmDoCow s vmPgprot page vaddr cluster (some newpage)).mem.pages newpage).state =
        .pgInvalid := by
  have hcow' : ¬(pmmGetPage s.pmm vaddr).attr &&& pmmCow = 0 := hcow
  have hsame : ¬((s.pages page).mapper = none ∧ (s.pages page).count = 1 ∧
      (s.pages page).cid = cluster) := hnew
  have hstate : ∀ s' : CowMemory, ((allocPage s' newpage).pages newpage).state = .pgInvalid := by
    intro s'
    rw [allocPage, setPage_pages_self]
    simp
  by_cases hshared : (s.pages page).mapper = none ∧ (s.pages page).count ≠ 1
  · have hone : ¬((s.pages page).count = 1 ∧ (s.pages page).cid ≠ cluster) := fun h => hshared.2 h.1
    simp only [vmmDoCow, if_neg hcow', if_pos hshared, if_neg hsame]
    simp only [hshared.1, hone, and_false, if_false]
    exact ⟨rfl, hstate _⟩
  · simp only [vmmDoCow, if_neg hcow', if_neg hshared, if_neg hsame]
    split_ifs with hremote
    · -- the frame that is given back is not the new one
      have hne : newpage ≠ page := by
        rintro rfl
        have hcount := hremote.2.1
        rw [halloc.2] at hcount
        cases hcount
      refine ⟨rfl, ?_⟩
      rw [ppmFreePages, setPage_pages_of_ne _ _ hne]
      exact hstate _
    · exact ⟨rfl, hstate _⟩

end

/-- A failing call leaves the entry, the reference count of the original page and the free frames
as they were, exactly if it does not ask for a page, or asks in vain for the copy of a page of a
mapper, or gets a page that `pmm_set_page` accepts. -/
theorem cow_failure_clean (s : CowMemory) (vmPgprot page vaddr : BitVec 32) (cluster : ℕ)
    (alloc : Option (BitVec 32))
    (halloc : ∀ newpage ∈ alloc, (s.pages newpage).state = .pgFree ∧ (s.pages newpage).count = 0) :
    ((vmmDoCow s vmPgprot page vaddr cluster alloc).err ≠ none →
        Unchanged s page vaddr (vmmDoCow s vmPgprot page vaddr cluster alloc)) ↔
      Clean s vmPgprot page vaddr cluster alloc := by
  by_cases hcow : (pmmGetPage s.pmm vaddr).attr &&& pmmCow = 0
  · rw [vmmDoCow_none hcow]
    exact iff_of_true (fun herr => absurd rfl herr) (.inl hcow)
  have hpde := pgdir_ne_zero hcow
  by_cases hsame : Reused s page cluster
  · refine iff_of_true (fun herr => ?_) (.inr (.inl hsame))
    rw [vmmDoCow_reused hcow hsame] at herr ⊢
    by_cases href : Refused vmPgprot page
    · rw [pmmSetPage_refused hpde href]
      exact ⟨rfl, rfl, rfl, rfl⟩
    · exact absurd (pmmSetPage_accepted hpde href) herr
  cases alloc with
  | none =>
    by_cases hmapper : (s.pages page).mapper = none
    · refine iff_of_false (fun hclean => ?_) ?_
      · by_cases hcount : (s.pages page).count = 1
        · have hcid : (s.pages page).cid ≠ cluster := fun hcid => hsame ⟨hmapper, hcount, hcid⟩
          rw [vmmDoCow_remote hcow hmapper hcount hcid] at hclean
          cases (hclean (Option.some_ne_none _)).notFreed
        · rw [vmmDoCow_shared hcow hmapper hcount] at hclean
          have hkept := (hclean (Option.some_ne_none _)).refcount
          rw [setPage_pages_self] at hkept
          exact wsub_one_ne _ hkept
      · rintro (hno | hno | hno)
        · exact hcow hno
        · exact hsame hno
        · exact hno hmapper
    · rw [vmmDoCow_mapped hcow hmapper]
      exact iff_of_true (fun _ => ⟨rfl, rfl, rfl, rfl⟩) (.inr (.inr hmapper))
  | some newpage =>
    obtain ⟨herr, hstate⟩ := vmmDoCow_new hcow hsame (halloc newpage rfl)
    by_cases href : Refused vmPgprot newpage
    · refine iff_of_false (fun hclean => ?_) ?_
      · rw [pmmSetPage_refused hpde href] at herr
        have hfree := (hclean (by rw [herr]; exact Option.some_ne_none _)).free
        have hmem : newpage ∈ freeFrames s := (halloc newpage rfl).1
        rw [← hfree] at hmem
        exact absurd (hstate.symm.trans hmem) (by decide)
      · rintro (hno | hno | hno)
        · exact hcow hno
        · exact hsame hno
        · exact hno href
    · rw [pmmSetPage_accepted hpde href] at herr
      exact iff_of_true (fun hne => absurd herr hne) (.inr (.inr href))

def cowStart (count cid : ℕ) : CowMemory where
  pages p := if p = 2 then ⟨.pgInvalid, cid, 0, none, count⟩ else ⟨.pgFree, 0, 0, none, 0⟩
  pmm := ⟨fun pde => if pde = 0 then pmmPresent ||| mmuPtd1 ||| 1 else 0,
    fun _ offset => if offset = 0 then pmmCow else 2⟩

/-- The new page is had and mapped. -/
theorem cow_failure_clean_copied :
    (vmmDoCow (cowStart 2 0) pmmPresent 2 0 0 (some 3)).err = none ∧
      ((vmmDoCow (cowStart 2 0) pmmPresent 2 0 0 (some 3)).err ≠ none →
        Unchanged (cowStart 2 0) 2 0 (vmmDoCow (cowStart 2 0) pmmPresent 2 0 0 (some 3))) :=
  ⟨by decide, (cow_failure_clean (cowStart 2 0) pmmPresent 2 0 0 (some 3)
    (by rintro _ ⟨⟩; exact ⟨rfl, rfl⟩)).mpr (.inr (.inr fun h => absurd h.1 (by decide)))⟩

/-- Without memory the reference to a page of two owners is given up, and the entry stays. -/
theorem cow_failure_drops_reference : ¬∀ (s : CowMemory) (vmPgprot page vaddr : BitVec 32)
    (cluster : ℕ) (alloc : Option (BitVec 32)),
    (∀ newpage ∈ alloc, (s.pages newpage).state = .pgFree ∧ (s.pages newpage).count = 0) →
      (vmmDoCow s vmPgprot page vaddr cluster alloc).err ≠ none →
        Unchanged s page vaddr (vmmDoCow s vmPgprot page vaddr cluster alloc) := by
  intro h
  have hkept := (h (cowStart 2 0) pmmPresent 2 0 0 none (by rintro _ ⟨⟩) (by decide)).refcount
  exact absurd hkept (by decide)

end Almos.Cow
