import Almos.AnonMemory

/-!
# Duplication of an address space

`vmm_dup` copies the regions one by one and, for a private region, its page table entries. A page
without mapper gets one reference more for each entry of the copy; a failure destroys what was
copied so far. Locks, files and the reference counts of mappers are left out; the latter go up
with the copy of a shared region, so that taking the copy back never brings them to zero.
-/
namespace Almos
open Word

structure DupRegion where
  vmBegin : ℕ
  vmEnd : ℕ
  vmStart : ℕ
  vmLimit : ℕ
  vmProt : ℕ
  vmPgprot : ℕ
  vmFlags : ℕ
  vmOffset : ℕ
  vmMapper : Option ℕ
  vmFile : Option ℕ
  deriving DecidableEq

/-- `VM_REG_SHARED` -/
def DupRegion.shared (r : DupRegion) : Bool := r.vmFlags.testBit 0

/-- Page descriptors by frame, the page tables of the source and of the destination, the regions of
the destination, and how many allocations it keeps for its database, its directory and its
tables. -/
structure DupState where
  pages : ℕ → Page
  srcPmm : ℕ → Pte
  dstPmm : ℕ → Pte
  regions : List DupRegion
  tables : ℕ

/-- What the allocations of a call deliver: the page of the database, the directory, the structure
of each region, and the entry of each page of a region, which tells whether it took a new table. -/
structure DupOutcomes where
  keysdb : Bool
  pmm : Bool
  region : ℕ → Bool
  set : ℕ → ℕ → Except Errno Bool

namespace Dup
open Anon

def setPage (s : DupState) (ppn : ℕ) (f : Page → Page) : DupState :=
  { s with pages := Function.update s.pages ppn (f (s.pages ppn)) }

def ppmFreePages (s : DupState) (ppn : ℕ) : DupState := setPage s ppn Page.ppmFreePages

def pagesCount (r : DupRegion) : ℕ := wsub r.vmLimit r.vmStart / 2 ^ pageShift

/-- A present page in the loop of `vm_region_dup`, once `pmm_set_page` succeeds on the destination.
On the source it replaces an entry, which takes no memory. -/
def dupPage (s : DupState) (vpn : ℕ) (newTable : Bool) : DupState :=
  let info := s.srcPmm vpn
  let info := { info with attr := { info.attr with cow := true, write := false } }
  let s := { s with
    dstPmm := Function.update s.dstPmm vpn info
    tables := if newTable then s.tables + 1 else s.tables }
  if (s.pages info.ppn).mapper = none then
    setPage { s with srcPmm := Function.update s.srcPmm vpn info } info.ppn (·.pageRefcountUp)
  else s

/-- The loop of `vm_region_dup` from page `i` on, with `todo` pages left. -/
def dupPages (start : ℕ) (set : ℕ → Except Errno Bool) : ℕ → ℕ → DupState →
    DupState × Option Errno
  | 0, _, s => (s, none)
  | todo + 1, i, s =>
      if (s.srcPmm (pageAt start i)).attr.present then
        match set i with
        | .error err => (s, some err)
        | .ok newTable => dupPages start set todo (i + 1) (dupPage s (pageAt start i) newTable)
      else dupPages start set todo (i + 1) s

/-- `vm_region_dup`; the pages of a shared region are left to the first access. -/
def vmRegionDup (s : DupState) (r : DupRegion) (set : ℕ → Except Errno Bool) :
    DupState × Option Errno :=
  if r.shared then (s, none) else dupPages r.vmStart set (pagesCount r) 0 s

/-- One turn of the loop of `vm_region_unmap` on the destination. `vmm_destroy` has made the region
lazy, so the entries stay. -/
def unmapPage (s : DupState) (vpn : ℕ) : DupState :=
  let info := s.dstPmm vpn
  if info.attr.present ∧ (s.pages info.ppn).mapper = none then
    let old := (s.pages info.ppn).count
    let s := setPage s info.ppn (·.pageRefcountDown)
    if old = 1 then ppmFreePages (setPage s info.ppn (·.pageRefcountUp)) info.ppn else s
  else s

def regionPages (r : DupRegion) : List ℕ := (List.range (pagesCount r)).map (pageAt r.vmStart)

def vmRegionUnmap (s : DupState) (r : DupRegion) : DupState :=
  (regionPages r).foldl unmapPage s

/-- `vmm_destroy`, the page of the database going back. -/
def vmmDestroy (s : DupState) : DupState :=
  let s := s.regions.foldl vmRegionUnmap s
  { s with regions := [], tables := s.tables - 1 }

/-- The loop of `vmm_dup` from region `i` on. Where the structure of a region cannot be had, `err`
is returned as the calls before left it. -/
def dupRegions (o : DupOutcomes) : ℕ → List DupRegion → Option Errno → DupState →
    DupState × Option Errno
  | _, [], _, s => (s, none)
  | i, r :: rs, err, s =>
      if o.region i then
        match vmRegionDup s r (o.set i) with
        | (s, some err) => (vmmDestroy s, some err)
        | (s, none) => dupRegions o (i + 1) rs none { s with regions := s.regions ++ [r] }
      else (vmmDestroy s, err)

/-- `vmm_dup` -/
def vmmDup (o : DupOutcomes) (src : List DupRegion) (s : DupState) : DupState × Option Errno :=
  let s := { s with regions := [], tables := 0 }
  if o.keysdb then
    let s := { s with tables := 1 }
    if o.pmm then
      dupRegions o 0 src none { s with dstPmm := fun _ => noPte, tables := s.tables + 1 }
    else (s, some .enomem)
  else (s, some .enomem)

/-- The reference counts of the frames that page tables map, and the frames of the source's
entries. -/
structure AsBefore (s t : DupState) : Prop where
  counts : ∀ ppn, (t.pages ppn).count = (s.pages ppn).count
  entries : ∀ vpn, (t.srcPmm vpn).ppn = (s.srcPmm vpn).ppn

def Atomic (src : List DupRegion) (s : DupState) (r : DupState × Option Errno) : Prop :=
  (r.2 = none → r.1.regions = src) ∧ (r.2 ≠ none → AsBefore s r.1)

/-- The entry of page `j` can be set wherever the source has one. -/
def PageOk (o : DupOutcomes) (s : DupState) (k : ℕ) (r : DupRegion) (j : ℕ) : Prop :=
  (s.srcPmm (pageAt r.vmStart j)).attr.present = true → ∃ newTable, o.set k j = .ok newTable

/-- No allocation is missing for the regions `rs`. -/
def NoFailure (o : DupOutcomes) (s : DupState) (rs : List DupRegion) : Prop :=
  ∀ k r, rs[k]? = some r →
    o.region k = true ∧ (r.shared = false → ∀ j < pagesCount r, PageOk o s k r j)

/-- The first allocation that is missing is for the entry of page `j` of region `k`. -/
structure FailsAt (o : DupOutcomes) (s : DupState) (src : List DupRegion) (k : ℕ) (r : DupRegion)
    (j : ℕ) : Prop where
  region : src[k]? = some r
  before : NoFailure o s (src.take k)
  struct : o.region k = true
  notShared : r.shared = false
  lt : j < pagesCount r
  present : (s.srcPmm (pageAt r.vmStart j)).attr.present = true
  error : ∃ err, o.set k j = .error err
  pages : ∀ i < j, PageOk o s k r i

/-- It is, and no page before it in that region counts its references. -/
def FailsUncounted (o : DupOutcomes) (s : DupState) (src : List DupRegion) : Prop :=
  ∃ k r j, FailsAt o s src k r j ∧ ∀ i < j,
    (s.srcPmm (pageAt r.vmStart i)).attr.present = true →
      (s.pages (s.srcPmm (pageAt r.vmStart i)).ppn).mapper ≠ none

def Apart (r r' : DupRegion) : Prop := ∀ v ∈ regionPages r, v ∉ regionPages r'

instance : Std.Symm Apart := ⟨fun _ _ h v hv hv' => h v hv' hv⟩

/-- Neither does the destination keep a page of its own. -/
def AtomicWhole (src : List DupRegion) (s : DupState) (r : DupState × Option Errno) : Prop :=
  Atomic src s r ∧ (r.2 ≠ none → r.1.tables = 0)

def counted (s : DupState) (vpn : ℕ) : Option ℕ :=
  let info := s.srcPmm vpn
  if info.attr.present ∧ (s.pages info.ppn).mapper = none then some info.ppn else none

def ups (s : DupState) (pages : List ℕ) (ppn : ℕ) : ℤ := (pages.filterMap (counted s)).count ppn

lemma ups_append (s : DupState) (l l' : List ℕ) (ppn : ℕ) :
    ups s (l ++ l') ppn = ups s l ppn + ups s l' ppn := by
  simp [ups]

@[simp] lemma ups_nil (s : DupState) (ppn : ℕ) : ups s [] ppn = 0 := rfl

lemma ups_single (s : DupState) (v ppn : ℕ) :
    ups s [v] ppn = if counted s v = some ppn then 1 else 0 := by
  cases h : counted s v with
  | none => simp [ups, h]
  | some p =>
    by_cases hp : p = ppn
    · simp [ups, h, hp]
    · simp [ups, h, hp]

/-- Where the call stands: `visited` are the pages copied so far, `n` tells how far the reference
counts have moved. -/
structure Copied (s₀ s : DupState) (visited : List ℕ) (n : ℕ → ℤ) : Prop where
  mapper : ∀ ppn, (s.pages ppn).mapper = (s₀.pages ppn).mapper
  ppn : ∀ v, (s.srcPmm v).ppn = (s₀.srcPmm v).ppn
  present : ∀ v, (s.srcPmm v).attr.present = (s₀.srcPmm v).attr.present
  copy : ∀ v, (s.dstPmm v).attr.present = (decide (v ∈ visited) && (s₀.srcPmm v).attr.present)
  frame : ∀ v, (s.dstPmm v).attr.present = true → (s.dstPmm v).ppn = (s₀.srcPmm v).ppn
  counts : ∀ ppn, (s.pages ppn).count = (((s₀.pages ppn).count + n ppn) % 2 ^ 32).toNat

lemma wadd_toNat (x : ℤ) : wadd (x % 2 ^ 32).toNat 1 = ((x + 1) % 2 ^ 32).toNat := by
  unfold wadd
  omega

lemma wsub_toNat (x : ℤ) : wsub (x % 2 ^ 32).toNat 1 = ((x - 1) % 2 ^ 32).toNat := by
  unfold wsub
  omega

lemma setPage_pages_self (s : DupState) (p : ℕ) (f : Page → Page) :
    (setPage s p f).pages p = f (s.pages p) :=
  Function.update_self ..

lemma setPage_pages_of_ne (s : DupState) {p q : ℕ} (f : Page → Page) (h : q ≠ p) :
    (setPage s p f).pages q = s.pages q :=
  Function.update_of_ne h ..

namespace Copied
variable {s₀ s : DupState} {visited : List ℕ} {n n' : ℕ → ℤ}

lemma counted_eq (h : Copied s₀ s visited n) (v : ℕ) :
    counted s₀ v = if (s.srcPmm v).attr.present ∧ (s.pages (s.srcPmm v).ppn).mapper = none
      then some (s.srcPmm v).ppn else none := by
  simp only [counted, h.present v, h.ppn v, h.mapper]

lemma congr_visited (h : Copied s₀ s visited n) {visited' : List ℕ}
    (hsame : ∀ v, v ∈ visited' ↔ v ∈ visited) : Copied s₀ s visited' n :=
  { h with copy := fun v => by simp only [h.copy v, hsame v] }

lemma congr_counts (h : Copied s₀ s visited n) (hsame : ∀ ppn, n' ppn = n ppn) :
    Copied s₀ s visited n' :=
  { h with counts := fun ppn => by rw [hsame ppn, h.counts ppn] }

lemma skip (h : Copied s₀ s visited n) {v : ℕ} (habsent : (s.srcPmm v).attr.present = false) :
    Copied s₀ s (visited ++ [v]) fun ppn => n ppn + ups s₀ [v] ppn := by
  have hnone : counted s₀ v = none := by
    rw [h.counted_eq v, habsent]
    simp
  refine { h with copy := fun w => ?_, counts := fun ppn => ?_ }
  · rw [h.copy w]
    by_cases hw : w = v
    · rw [hw, ← h.present v, habsent]
      simp
    · simp [hw]
  · rw [h.counts ppn, ups_single, hnone]
    simp

lemma setPage (h : Copied s₀ s visited n) {p : ℕ} {f : Page → Page} (d : ℤ)
    (hmapper : (f (s.pages p)).mapper = (s.pages p).mapper)
    (hcount : (f (s.pages p)).count = (((s₀.pages p).count + n p + d) % 2 ^ 32).toNat) :
    Copied s₀ (Dup.setPage s p f) visited fun q => n q + if q = p then d else 0 := by
  refine ⟨fun q => ?_, h.ppn, h.present, h.copy, h.frame, fun q => ?_⟩
  · by_cases hq : q = p
    · rw [hq, setPage_pages_self, hmapper]
      exact h.mapper p
    · rw [setPage_pages_of_ne s f hq]
      exact h.mapper q
  · by_cases hq : q = p
    · rw [hq, setPage_pages_self, hcount, if_pos rfl, add_assoc]
    · rw [setPage_pages_of_ne s f hq, if_neg hq, add_zero]
      exact h.counts q

/-- The entry of a page is copied; on the source only the attributes for writing may change. -/
lemma enter (h : Copied s₀ s visited n) {v : ℕ} (hpresent : (s.srcPmm v).attr.present = true)
    {info : Pte} (hinfo : info.attr.present = true ∧ info.ppn = (s.srcPmm v).ppn)
    {srcPmm : ℕ → Pte} (hsrc : ∀ w, (srcPmm w).ppn = (s.srcPmm w).ppn ∧
      (srcPmm w).attr.present = (s.srcPmm w).attr.present) (tables : ℕ) :
    Copied s₀ { s with srcPmm, dstPmm := Function.update s.dstPmm v info, tables } (visited ++ [v])
      n := by
  refine ⟨h.mapper, fun w => (hsrc w).1.trans (h.ppn w), fun w => (hsrc w).2.trans (h.present w),
    fun w => ?_, fun w hw => ?_, h.counts⟩
  · by_cases hwv : w = v
    · simp [hwv, hinfo.1, ← h.present v, hpresent]
    · simp [hwv, h.copy w]
  · by_cases hwv : w = v
    · simp [hwv, hinfo.2, h.ppn v]
    · simp only [Function.update_of_ne hwv] at hw ⊢
      exact h.frame w hw

lemma dupPage (h : Copied s₀ s visited n) {v : ℕ} (hpresent : (s.srcPmm v).attr.present = true)
    (newTable : Bool) :
    Copied s₀ (dupPage s v newTable) (visited ++ [v]) fun ppn => n ppn + ups s₀ [v] ppn := by
  let info : Pte := ⟨{ (s.srcPmm v).attr with cow := true, write := false }, (s.srcPmm v).ppn⟩
  have hinfo : info.attr.present = true ∧ info.ppn = (s.srcPmm v).ppn := ⟨hpresent, rfl⟩
  let tables := if newTable then s.tables + 1 else s.tables
  by_cases hmapper : (s.pages (s.srcPmm v).ppn).mapper = none
  · have hcounted : counted s₀ v = some (s.srcPmm v).ppn := by
      rw [h.counted_eq v, if_pos ⟨hpresent, hmapper⟩]
    have hsrc : ∀ w, (Function.update s.srcPmm v info w).ppn = (s.srcPmm w).ppn ∧
        (Function.update s.srcPmm v info w).attr.present = (s.srcPmm w).attr.present := by
      intro w
      by_cases hw : w = v
      · simp [hw, hinfo.2, hinfo.1, hpresent]
      · simp [hw]
    have henter := h.enter hpresent hinfo hsrc tables
    have hup : wadd (s.pages (s.srcPmm v).ppn).count 1 =
        (((s₀.pages (s.srcPmm v).ppn).count + n (s.srcPmm v).ppn + 1) % 2 ^ 32).toNat := by
      rw [h.counts, wadd_toNat]
    have hraised := henter.setPage (p := (s.srcPmm v).ppn) (f := (·.pageRefcountUp)) 1 rfl hup
    have hstep : Dup.dupPage s v newTable = Dup.setPage { s with
        srcPmm := Function.update s.srcPmm v info
        dstPmm := Function.update s.dstPmm v info
        tables := tables } (s.srcPmm v).ppn (·.pageRefcountUp) := by
      simp only [Dup.dupPage, hmapper, if_true]
      rfl
    rw [hstep]
    refine hraised.congr_counts fun q => ?_
    rw [ups_single, hcounted]
    simp [eq_comm]
  · have hnone : counted s₀ v = none := by
      rw [h.counted_eq v, if_neg fun hboth => hmapper hboth.2]
    have henter := h.enter hpresent hinfo (fun w => ⟨rfl, rfl⟩) tables
    have hstep : Dup.dupPage s v newTable = { s with
        srcPmm := s.srcPmm
        dstPmm := Function.update s.dstPmm v info
        tables := tables } := by
      simp only [Dup.dupPage, hmapper, if_false]
      rfl
    rw [hstep]
    refine henter.congr_counts fun q => ?_
    rw [ups_single, hnone]
    simp

lemma unmapPage (h : Copied s₀ s visited n) (v : ℕ) :
    Copied s₀ (unmapPage s v) visited fun ppn =>
      n ppn - ups s₀ ([v].filter (· ∈ visited)) ppn := by
  by_cases hcond : (s.dstPmm v).attr.present = true ∧ (s.pages (s.dstPmm v).ppn).mapper = none
  · obtain ⟨hpresent, hmapper⟩ := hcond
    have hppn := h.frame v hpresent
    have hmem : v ∈ visited ∧ (s₀.srcPmm v).attr.present = true := by
      have hcopy := h.copy v
      rw [hpresent] at hcopy
      simpa using hcopy.symm
    have hcounted : counted s₀ v = some (s.dstPmm v).ppn := by
      rw [hppn, h.mapper] at hmapper
      simp [counted, hmem.2, hmapper, hppn]
    have hdown : wsub (s.pages (s.dstPmm v).ppn).count 1 =
        (((s₀.pages (s.dstPmm v).ppn).count + n (s.dstPmm v).ppn + -1) % 2 ^ 32).toNat := by
      rw [h.counts, wsub_toNat, sub_eq_add_neg]
    have hnew : ∀ f : Page → Page, (f (s.pages (s.dstPmm v).ppn)).mapper =
        (s.pages (s.dstPmm v).ppn).mapper → (f (s.pages (s.dstPmm v).ppn)).count =
          wsub (s.pages (s.dstPmm v).ppn).count 1 → Copied s₀ (Dup.setPage s (s.dstPmm v).ppn f)
            visited fun ppn => n ppn - ups s₀ ([v].filter (· ∈ visited)) ppn := by
      intro f hf hcount
      refine (h.setPage (-1) hf (hcount.trans hdown)).congr_counts fun q => ?_
      have hfilter : [v].filter (· ∈ visited) = [v] := by simp [hmem.1]
      rw [hfilter, ups_single, hcounted]
      by_cases hq : q = (s.dstPmm v).ppn
      · simp [hq, sub_eq_add_neg]
      · simp [hq, Ne.symm hq]
    by_cases hlast : (s.pages (s.dstPmm v).ppn).count = 1
    · have hstep : Dup.unmapPage s v = Dup.setPage s (s.dstPmm v).ppn fun page =>
          page.pageRefcountDown.pageRefcountUp.pageRefcountDown.pageStateSet .pgFree := by
        simp [Dup.unmapPage, hpresent, hmapper, hlast, ppmFreePages, Dup.setPage, Page.ppmFreePages,
          Page.pageRefcountDown, Page.pageRefcountUp, wsub, wadd]
      rw [hstep]
      refine hnew _ rfl ?_
      simp [Page.pageRefcountDown, Page.pageRefcountUp, hlast, wsub, wadd]
    · have hstep : Dup.unmapPage s v = Dup.setPage s (s.dstPmm v).ppn (·.pageRefcountDown) := by
        simp [Dup.unmapPage, hpresent, hmapper, hlast]
      rw [hstep]
      exact hnew _ rfl rfl
  · have hstep : Dup.unmapPage s v = s := by
      simp only [Dup.unmapPage, if_neg hcond]
    rw [hstep]
    refine h.congr_counts fun q => ?_
    by_cases hmem : v ∈ visited
    · have hnone : counted s₀ v = none := by
        have hcopy := h.copy v
        rw [decide_eq_true hmem, Bool.true_and] at hcopy
        rw [counted, if_neg]
        rintro ⟨hpresent, hmapper⟩
        have hdst := hcopy.trans hpresent
        refine hcond ⟨hdst, ?_⟩
        rw [h.frame v hdst, h.mapper]
        exact hmapper
      simp [hmem, ups_single, hnone]
    · simp [hmem]

lemma unmapPages (pages : List ℕ) (h : Copied s₀ s visited n) :
    Copied s₀ (pages.foldl Dup.unmapPage s) visited fun ppn =>
      n ppn - ups s₀ (pages.filter (· ∈ visited)) ppn := by
  induction pages generalizing s n with
  | nil => exact h.congr_counts fun ppn => by simp
  | cons v pages ih =>
    refine (ih (h.unmapPage v)).congr_counts fun ppn => ?_
    rw [← List.singleton_append, List.filter_append, ups_append]
    ring

lemma unmapRegions (rs : List DupRegion) (h : Copied s₀ s visited n) :
    Copied s₀ (rs.foldl vmRegionUnmap s) visited fun ppn =>
      n ppn - ups s₀ ((rs.flatMap regionPages).filter (· ∈ visited)) ppn := by
  induction rs generalizing s n with
  | nil => exact h.congr_counts fun ppn => by simp
  | cons r rs ih =>
    refine (ih (h.unmapPages (regionPages r))).congr_counts fun ppn => ?_
    rw [List.flatMap_cons, List.filter_append, ups_append]
    ring

end Copied

/-- The first `j` pages of a region. -/
def firstPages (r : DupRegion) (j : ℕ) : List ℕ := (List.range j).map (pageAt r.vmStart)

lemma firstPages_succ (r : DupRegion) (j : ℕ) :
    firstPages r (j + 1) = firstPages r j ++ [pageAt r.vmStart j] := by
  simp [firstPages, List.range_succ]

structure Kept (s t : DupState) : Prop where
  regions : t.regions = s.regions
  tables : s.tables ≤ t.tables

lemma Kept.trans {s t u : DupState} (h : Kept s t) (h' : Kept t u) : Kept s u :=
  ⟨h'.regions.trans h.regions, h.tables.trans h'.tables⟩

lemma kept_dupPage (s : DupState) (v : ℕ) (newTable : Bool) : Kept s (dupPage s v newTable) := by
  have htables : s.tables ≤ if newTable then s.tables + 1 else s.tables := by
    split_ifs <;> omega
  by_cases hmapper : (s.pages (s.srcPmm v).ppn).mapper = none
  · simp only [dupPage, hmapper, if_true]
    exact ⟨rfl, htables⟩
  · simp only [dupPage, hmapper, if_false]
    exact ⟨rfl, htables⟩

variable {o : DupOutcomes} {s₀ s t : DupState} {src : List DupRegion} {visited : List ℕ}
  {n : ℕ → ℤ} {k j : ℕ} {r : DupRegion} {err : Option Errno}

/-- The loop over the pages of region `k` ended at page `j`: with all of them copied, or because the
entry of this one cannot be set. -/
structure EndsAt (o : DupOutcomes) (s₀ : DupState) (k : ℕ) (r : DupRegion) (visited : List ℕ)
    (n : ℕ → ℤ) (s t : DupState) (err : Option Errno) (j : ℕ) : Prop where
  kept : Kept s t
  copied : Copied s₀ t (visited ++ firstPages r j) fun ppn => n ppn + ups s₀ (firstPages r j) ppn
  before : ∀ i < j, PageOk o s₀ k r i
  ended : err = none ∧ j = pagesCount r ∨
    err ≠ none ∧ j < pagesCount r ∧ (s₀.srcPmm (pageAt r.vmStart j)).attr.present = true ∧
      ∃ e, o.set k j = .error e

lemma dupPages_spec : ∀ todo i (s : DupState), i + todo = pagesCount r →
    Copied s₀ s (visited ++ firstPages r i) (fun ppn => n ppn + ups s₀ (firstPages r i) ppn) →
    (∀ j < i, PageOk o s₀ k r j) →
    ∃ j, EndsAt o s₀ k r visited n s (dupPages r.vmStart (o.set k) todo i s).1
      (dupPages r.vmStart (o.set k) todo i s).2 j := by
  intro todo
  induction todo with
  | zero =>
    intro i s hi h hok
    exact ⟨i, ⟨rfl, le_rfl⟩, h, hok, .inl ⟨rfl, hi⟩⟩
  | succ todo ih =>
    intro i s hi h hok
    have hnext : ∀ t : DupState, Kept s t → PageOk o s₀ k r i →
        Copied s₀ t (visited ++ firstPages r i ++ [pageAt r.vmStart i]) (fun ppn =>
          n ppn + ups s₀ (firstPages r i) ppn + ups s₀ [pageAt r.vmStart i] ppn) →
        ∃ j, EndsAt o s₀ k r visited n s (dupPages r.vmStart (o.set k) todo (i + 1) t).1
          (dupPages r.vmStart (o.set k) todo (i + 1) t).2 j := by
      intro t hkept hpage ht
      have hcopied : Copied s₀ t (visited ++ firstPages r (i + 1))
          (fun ppn => n ppn + ups s₀ (firstPages r (i + 1)) ppn) := by
        rw [firstPages_succ, ← List.append_assoc]
        refine ht.congr_counts fun ppn => ?_
        rw [ups_append]
        ring
      have hbefore : ∀ j < i + 1, PageOk o s₀ k r j := by
        intro j hj
        obtain hj | rfl := Nat.lt_or_eq_of_le (Nat.lt_succ_iff.mp hj)
        · exact hok j hj
        · exact hpage
      obtain ⟨j, hend⟩ := ih (i + 1) t (by omega) hcopied hbefore
      exact ⟨j, hkept.trans hend.kept, hend.copied, hend.before, hend.ended⟩
    by_cases hpresent : (s.srcPmm (pageAt r.vmStart i)).attr.present = true
    · cases hset : o.set k i with
      | error e =>
        have hstep : dupPages r.vmStart (o.set k) (todo + 1) i s = (s, some e) := by
          simp [dupPages, hpresent, hset]
        rw [hstep]
        exact ⟨i, ⟨rfl, le_rfl⟩, h, hok,
          .inr ⟨Option.some_ne_none _, by omega, (h.present _).symm.trans hpresent, e, hset⟩⟩
      | ok newTable =>
        have hstep : dupPages r.vmStart (o.set k) (todo + 1) i s = dupPages r.vmStart (o.set k) todo
            (i + 1) (dupPage s (pageAt r.vmStart i) newTable) := by
          simp [dupPages, hpresent, hset]
        rw [hstep]
        exact hnext _ (kept_dupPage _ _ _) (fun _ => ⟨newTable, hset⟩) (h.dupPage hpresent newTable)
    · have habsent : (s.srcPmm (pageAt r.vmStart i)).attr.present = false := by simpa using hpresent
      have hstep : dupPages r.vmStart (o.set k) (todo + 1) i s =
          dupPages r.vmStart (o.set k) todo (i + 1) s := by
        simp [dupPages, habsent]
      rw [hstep]
      refine hnext s ⟨rfl, le_rfl⟩ (fun hsome => ?_) (h.skip habsent)
      rw [← h.present, habsent] at hsome
      cases hsome

def copiedPages (rs : List DupRegion) : List ℕ :=
  rs.flatMap fun r => if r.shared then [] else regionPages r

lemma copiedPages_append (rs : List DupRegion) (r : DupRegion) :
    copiedPages (rs ++ [r]) = copiedPages rs ++ if r.shared then [] else regionPages r := by
  simp [copiedPages]

/-- Taking back the regions copied before takes back their pages, whatever was copied of the last
one. -/
lemma filter_copiedPages {rs : List DupRegion} (hdisjoint : (rs ++ [r]).Pairwise Apart)
    (hr : r.shared = false) (hj : j ≤ pagesCount r) :
    (rs.flatMap regionPages).filter (· ∈ copiedPages rs ++ firstPages r j) = copiedPages rs := by
  have hapart : ∀ a ∈ rs ++ [r], ∀ b ∈ rs ++ [r], a ≠ b → Apart a b :=
    fun a ha b hb hne => hdisjoint.forall ha hb hne
  have hfirst : ∀ v ∈ firstPages r j, v ∈ regionPages r := by
    intro v hv
    obtain ⟨i, hi, rfl⟩ := List.mem_map.mp hv
    rw [List.mem_range] at hi
    exact List.mem_map_of_mem (List.mem_range.mpr (hi.trans_le hj))
  rw [List.filter_flatMap, copiedPages]
  refine List.flatMap_congr fun a ha => ?_
  cases hshared : a.shared with
  | true =>
    rw [if_pos rfl, List.filter_eq_nil_iff]
    intro v hv hmem
    obtain hmem | hmem := List.mem_append.mp (of_decide_eq_true hmem)
    · obtain ⟨b, hb, hvb⟩ := List.mem_flatMap.mp hmem
      split_ifs at hvb with hb'
      · cases hvb
      · have hne : a ≠ b := fun heq => hb' (heq ▸ hshared)
        exact hapart a (by simp [ha]) b (by simp [hb]) hne v hv hvb
    · have hne : a ≠ r := fun heq => by rw [heq, hr] at hshared; cases hshared
      exact hapart a (by simp [ha]) r (by simp) hne v hv (hfirst v hmem)
  | false =>
    rw [if_neg Bool.false_ne_true, List.filter_eq_self]
    intro v hv
    refine decide_eq_true (List.mem_append_left _ (List.mem_flatMap.mpr ⟨a, ha, ?_⟩))
    rw [hshared]
    exact hv

lemma tables_unmapPage (s : DupState) (v : ℕ) : (unmapPage s v).tables = s.tables := by
  simp only [unmapPage, ppmFreePages]
  split_ifs <;> rfl

lemma tables_unmap (rs : List DupRegion) (s : DupState) :
    (rs.foldl vmRegionUnmap s).tables = s.tables := by
  have hpages : ∀ (l : List ℕ) (s : DupState), (l.foldl unmapPage s).tables = s.tables := by
    intro l
    induction l with
    | nil => exact fun s => rfl
    | cons v l ih => exact fun s => (ih _).trans (tables_unmapPage s v)
  induction rs generalizing s with
  | nil => rfl
  | cons r rs ih => exact (ih _).trans (hpages _ s)

inductive Ended (o : DupOutcomes) (s₀ : DupState) (src : List DupRegion) :
    DupState × Option Errno → Prop
  | complete {t : DupState} (regions : t.regions = src) (ok : NoFailure o s₀ src) :
      Ended o s₀ src (t, none)
  | noStruct {t : DupState} (k : ℕ) (lt : k < src.length) (before : NoFailure o s₀ (src.take k))
      (missing : o.region k = false) (regions : t.regions = []) : Ended o s₀ src (t, none)
  | noEntry {t : DupState} {err : Errno} (k : ℕ) (r : DupRegion) (j : ℕ)
      (fails : FailsAt o s₀ src k r j) (tables : 0 < t.tables)
      (entries : ∀ v, (t.srcPmm v).ppn = (s₀.srcPmm v).ppn)
      (counts : src.Pairwise Apart → ∀ ppn, (t.pages ppn).count =
        (((s₀.pages ppn).count + ups s₀ (firstPages r j) ppn) % 2 ^ 32).toNat) :
      Ended o s₀ src (t, some err)

lemma NoFailure.append {rs : List DupRegion} (h : NoFailure o s₀ rs)
    (hstruct : o.region rs.length = true)
    (hpages : r.shared = false → ∀ j < pagesCount r, PageOk o s₀ rs.length r j) :
    NoFailure o s₀ (rs ++ [r]) := by
  intro k r' hk
  obtain hlt | rfl | hgt := Nat.lt_trichotomy k rs.length
  · rw [List.getElem?_append_left hlt] at hk
    exact h k r' hk
  · rw [List.getElem?_concat_length, Option.some.injEq] at hk
    subst hk
    exact ⟨hstruct, hpages⟩
  · rw [List.getElem?_eq_none (by simp; omega)] at hk
    cases hk

lemma dupRegions_spec : ∀ rs done (s : DupState), src = done ++ rs →
    Copied s₀ s (copiedPages done) (ups s₀ (copiedPages done)) → s.regions = done →
    NoFailure o s₀ done → 1 < s.tables →
    Ended o s₀ src (dupRegions o done.length rs none s) := by
  intro rs
  induction rs with
  | nil =>
    intro done s hsrc _ hregions hok _
    rw [List.append_nil] at hsrc
    exact .complete (hregions.trans hsrc.symm) (hsrc ▸ hok)
  | cons r rs ih =>
    intro done s hsrc h hregions hok htables
    have htake : src.take done.length = done := by simp [hsrc]
    have hget : src[done.length]? = some r := by simp [hsrc]
    have hlen : done.length < src.length := by simp [hsrc]
    have hassoc : src = done ++ [r] ++ rs := by simp [hsrc]
    have hcount : (done ++ [r]).length = done.length + 1 := by simp
    cases hstruct : o.region done.length with
    | false =>
      rw [dupRegions, hstruct, if_neg Bool.false_ne_true]
      exact .noStruct done.length hlen (htake.symm ▸ hok) hstruct rfl
    | true =>
      cases hshared : r.shared with
      | true =>
        have hstep : dupRegions o done.length (r :: rs) none s = dupRegions o (done ++ [r]).length rs
            none { s with regions := s.regions ++ [r] } := by
          simp [dupRegions, hstruct, vmRegionDup, hshared]
        rw [hstep]
        refine ih (done ++ [r]) _ hassoc ?_ (by rw [hregions]) (hok.append hstruct ?_) htables
        · rw [copiedPages_append, hshared, if_pos rfl, List.append_nil]
          exact { h with }
        · intro hprivate
          rw [hshared] at hprivate
          cases hprivate
      | false =>
        have hstart : Copied s₀ s (copiedPages done ++ firstPages r 0)
            (fun ppn => ups s₀ (copiedPages done) ppn + ups s₀ (firstPages r 0) ppn) := by
          refine (h.congr_visited fun v => by simp [firstPages]).congr_counts fun ppn => ?_
          simp [firstPages]
        obtain ⟨j, hend⟩ := dupPages_spec (o := o) (k := done.length) (pagesCount r) 0 s
          (Nat.zero_add _) hstart (fun j hj => absurd hj (Nat.not_lt_zero j))
        cases hdup : dupPages r.vmStart (o.set done.length) (pagesCount r) 0 s with
        | mk t err =>
          rw [hdup] at hend
          obtain ⟨rfl, hj⟩ | ⟨herr, hj, hpresent, hset⟩ := hend.ended
          · have hstep : dupRegions o done.length (r :: rs) none s = dupRegions o
                (done ++ [r]).length rs none { t with regions := t.regions ++ [r] } := by
              simp [dupRegions, hstruct, vmRegionDup, hshared, hdup]
            rw [hstep]
            have hall : firstPages r j = regionPages r := by rw [hj]; rfl
            have hcopied := hend.copied
            rw [hall] at hcopied
            refine ih (done ++ [r]) _ hassoc ?_ ?_ (hok.append hstruct fun _ i hi => ?_)
              (htables.trans_le hend.kept.tables)
            · rw [copiedPages_append, hshared, if_neg Bool.false_ne_true]
              refine { hcopied with counts := fun ppn => ?_ }
              rw [ups_append]
              exact hcopied.counts ppn
            · rw [hend.kept.regions, hregions]
            · exact hend.before i (hj ▸ hi)
          · obtain ⟨e, rfl⟩ := Option.ne_none_iff_exists'.mp herr
            have hstep : dupRegions o done.length (r :: rs) none s = (vmmDestroy t, some e) := by
              simp [dupRegions, hstruct, vmRegionDup, hshared, hdup]
            rw [hstep]
            have hdone : t.regions = done := hend.kept.regions.trans hregions
            have hback := hend.copied.unmapRegions t.regions
            have hfails : FailsAt o s₀ src done.length r j :=
              ⟨hget, htake.symm ▸ hok, hstruct, hshared, hj, hpresent, hset, hend.before⟩
            refine .noEntry done.length r j hfails ?_ hback.ppn fun hdisjoint ppn => ?_
            · have hleft : (t.regions.foldl vmRegionUnmap t).tables = t.tables := tables_unmap _ t
              have hless : s.tables ≤ t.tables := hend.kept.tables
              change 0 < (t.regions.foldl vmRegionUnmap t).tables - 1
              omega
            · have hprefix : (done ++ [r]).Pairwise Apart := by
                rw [hassoc] at hdisjoint
                exact (List.pairwise_append.mp hdisjoint).1
              have hcount := hback.counts ppn
              rw [hdone, filter_copiedPages hprefix hshared hj.le, add_sub_cancel_left] at hcount
              have hpages : (vmmDestroy t).pages = (t.regions.foldl vmRegionUnmap t).pages := rfl
              rw [hpages, hdone]
              exact hcount

/-! ### Where a call is all or nothing -/

lemma FailsAt.not_noFailure (h : FailsAt o s src k r j) {m : ℕ} (hm : k < m) :
    ¬NoFailure o s (src.take m) := by
  intro hok
  obtain ⟨e, he⟩ := h.error
  have hget : (src.take m)[k]? = some r := by rw [List.getElem?_take_of_lt hm, h.region]
  obtain ⟨newTable, hset⟩ := (hok k r hget).2 h.notShared j h.lt h.present
  rw [he] at hset
  cases hset

lemma FailsAt.unique (h : FailsAt o s src k r j) {k' : ℕ} {r' : DupRegion} {j' : ℕ}
    (h' : FailsAt o s src k' r' j') : k = k' ∧ r = r' ∧ j = j' := by
  have hk : k = k' := by
    by_contra hne
    obtain hlt | hlt := Nat.lt_or_gt_of_ne hne
    · exact h.not_noFailure hlt h'.before
    · exact h'.not_noFailure hlt h.before
  subst hk
  have hr : r = r' := Option.some.inj (h.region.symm.trans h'.region)
  subst hr
  refine ⟨rfl, rfl, ?_⟩
  have hnot : ∀ {i i'}, FailsAt o s src k r i → FailsAt o s src k r i' → ¬i < i' := by
    intro i i' hi hi' hlt
    obtain ⟨e, he⟩ := hi.error
    obtain ⟨newTable, hset⟩ := hi'.pages i hlt hi.present
    rw [he] at hset
    cases hset
  exact Nat.le_antisymm (Nat.le_of_not_lt (hnot h' h)) (Nat.le_of_not_lt (hnot h h'))

lemma noFailure_of_take {m : ℕ} (h : NoFailure o s src) : NoFailure o s (src.take m) := by
  intro k r hk
  obtain hlt | hge := Nat.lt_or_ge k m
  · rw [List.getElem?_take_of_lt hlt] at hk
    exact h k r hk
  · rw [List.getElem?_eq_none (by simp; omega)] at hk
    cases hk

/-- The references counted by the pages before the failure stay unless there are none. -/
lemma counts_kept_iff (hcounts : ∀ ppn, (s.pages ppn).count < 2 ^ 32) (hj : j ≤ pagesCount r) :
    (∀ ppn, (((s.pages ppn).count + ups s (firstPages r j) ppn) % 2 ^ 32).toNat =
        (s.pages ppn).count) ↔
      ∀ i < j, (s.srcPmm (pageAt r.vmStart i)).attr.present = true →
        (s.pages (s.srcPmm (pageAt r.vmStart i)).ppn).mapper ≠ none := by
  have hbound : pagesCount r < 2 ^ 20 := by
    have hlt := wsub_lt r.vmLimit r.vmStart
    have hdiv : pagesCount r = wsub r.vmLimit r.vmStart / 4096 := rfl
    omega
  constructor
  · intro hsame i hi hpresent hmapper
    have hcounted : counted s (pageAt r.vmStart i) = some (s.srcPmm (pageAt r.vmStart i)).ppn := by
      simp [counted, hpresent, hmapper]
    have hmem : (s.srcPmm (pageAt r.vmStart i)).ppn ∈ (firstPages r j).filterMap (counted s) :=
      List.mem_filterMap.mpr ⟨_, List.mem_map_of_mem (List.mem_range.mpr hi), hcounted⟩
    have hpos := List.count_pos_iff.mpr hmem
    have hlen : ((firstPages r j).filterMap (counted s)).length ≤ j := by
      refine (List.length_filterMap_le _ _).trans ?_
      simp [firstPages]
    have hle := (List.count_le_length (a := (s.srcPmm (pageAt r.vmStart i)).ppn)
      (l := (firstPages r j).filterMap (counted s))).trans hlen
    have hword := hcounts (s.srcPmm (pageAt r.vmStart i)).ppn
    have heq := hsame (s.srcPmm (pageAt r.vmStart i)).ppn
    rw [ups] at heq
    omega
  · intro hnone ppn
    have hempty : (firstPages r j).filterMap (counted s) = [] := by
      rw [List.filterMap_eq_nil_iff]
      intro v hv
      obtain ⟨i, hi, rfl⟩ := List.mem_map.mp hv
      rw [counted, if_neg]
      rintro ⟨hpresent, hmapper⟩
      exact hnone i (List.mem_range.mp hi) hpresent hmapper
    have hword := hcounts ppn
    rw [ups, hempty, List.count_nil]
    omega

lemma copied_start (hcounts : ∀ ppn, (s.pages ppn).count < 2 ^ 32) (tables : ℕ) :
    Copied s { s with regions := [], dstPmm := fun _ => noPte, tables := tables } [] (ups s []) where
  mapper _ := rfl
  ppn _ := rfl
  present _ := rfl
  copy _ := rfl
  frame _ h := by cases h
  counts ppn := by
    have hword := hcounts ppn
    change (s.pages ppn).count = (((s.pages ppn).count + ups s [] ppn) % 2 ^ 32).toNat
    rw [ups_nil]
    omega

lemma vmmDup_spec (o : DupOutcomes) (src : List DupRegion) (s : DupState)
    (hcounts : ∀ ppn, (s.pages ppn).count < 2 ^ 32) (hkeys : o.keysdb = true)
    (hpmm : o.pmm = true) : Ended o s src (vmmDup o src s) := by
  have hstart := copied_start hcounts 2
  have hnone : NoFailure o s [] := by
    rintro k r ⟨⟩
  have hstep : vmmDup o src s = dupRegions o 0 src none
      { s with regions := [], dstPmm := fun _ => noPte, tables := 2 } := by
    simp [vmmDup, hkeys, hpmm]
  rw [hstep]
  exact dupRegions_spec src [] _ rfl hstart rfl hnone (by decide : 1 < 2)

lemma Ended.atomic_iff {res : DupState × Option Errno} (hend : Ended o s src res)
    (hcounts : ∀ ppn, (s.pages ppn).count < 2 ^ 32) (hdisjoint : src.Pairwise Apart) :
    Atomic src s res ↔ NoFailure o s src ∨ FailsUncounted o s src := by
  cases hend with
  | complete regions ok => exact iff_of_true ⟨fun _ => regions, fun h => absurd rfl h⟩ (.inl ok)
  | noStruct k lt before missing regions =>
    refine iff_of_false (fun hatomic => ?_) ?_
    · have hempty : ([] : List DupRegion) = src := regions.symm.trans (hatomic.1 rfl)
      rw [← hempty] at lt
      exact absurd lt (Nat.not_lt_zero k)
    · have hget : src[k]? = some src[k] := List.getElem?_eq_getElem lt
      rintro (hok | ⟨k', r, j, hfails, -⟩)
      · rw [(hok k _ hget).1] at missing
        cases missing
      · obtain hlt | rfl | hgt := Nat.lt_trichotomy k k'
        · have hstruct := (hfails.before k src[k] (by rw [List.getElem?_take_of_lt hlt, hget])).1
          rw [hstruct] at missing
          cases missing
        · rw [hfails.struct] at missing
          cases missing
        · exact hfails.not_noFailure hgt before
  | noEntry k r j fails tables entries counts =>
    have hkept := counts_kept_iff hcounts fails.lt.le
    constructor
    · intro hatomic
      refine .inr ⟨k, r, j, fails, hkept.mp fun ppn => ?_⟩
      rw [← counts hdisjoint ppn]
      exact (hatomic.2 (Option.some_ne_none _)).counts ppn
    · rintro (hok | ⟨k', r', j', hfails, hnone⟩)
      · exact absurd (noFailure_of_take hok) (fails.not_noFailure (Nat.lt_succ_self k))
      · obtain ⟨rfl, rfl, rfl⟩ := fails.unique hfails
        refine ⟨(fun hnone => by cases hnone), fun _ => ⟨fun ppn => ?_, entries⟩⟩
        rw [counts hdisjoint ppn]
        exact hkept.mpr hnone ppn

lemma Ended.atomicWhole_iff {res : DupState × Option Errno} (hend : Ended o s src res) :
    AtomicWhole src s res ↔ NoFailure o s src := by
  cases hend with
  | complete regions ok =>
    exact iff_of_true ⟨⟨fun _ => regions, fun h => absurd rfl h⟩, fun h => absurd rfl h⟩ ok
  | noStruct k lt before missing regions =>
    refine iff_of_false (fun hall => ?_) fun hok => ?_
    · have hempty : ([] : List DupRegion) = src := regions.symm.trans (hall.1.1 rfl)
      rw [← hempty] at lt
      exact absurd lt (Nat.not_lt_zero k)
    · rw [(hok k _ (List.getElem?_eq_getElem lt)).1] at missing
      cases missing
  | noEntry k r j fails tables entries counts =>
    refine iff_of_false (fun hall => ?_) fun hok => ?_
    · exact absurd (hall.2 (Option.some_ne_none _)) tables.ne'
    · exact absurd (noFailure_of_take hok) (fails.not_noFailure (Nat.lt_succ_self k))

/-- On success the copy is complete, and a failure leaves every frame and every entry of the source's
tables, where nothing was missing or not even the page of the database was had. Where no page
belongs to two regions, the frames that page tables map are left also when the directory was
missing, or when no page before the first entry that could not be set, in its region, counts its
references. -/
theorem vmm_dup_atomic (o : DupOutcomes) (src : List DupRegion) (s : DupState)
    (hcounts : ∀ ppn, (s.pages ppn).count < 2 ^ 32) :
    (AtomicWhole src s (vmmDup o src s) ↔
      o.keysdb = false ∨ o.pmm = true ∧ NoFailure o s src) ∧
    (src.Pairwise Apart → (Atomic src s (vmmDup o src s) ↔
      o.keysdb = false ∨ o.pmm = false ∨ NoFailure o s src ∨ FailsUncounted o s src)) := by
  cases hkeys : o.keysdb with
  | false =>
    have hstep : vmmDup o src s = ({ s with regions := [], tables := 0 }, some .enomem) := by
      simp [vmmDup, hkeys]
    rw [hstep]
    have hatomic : Atomic src s ({ s with regions := [], tables := 0 }, some Errno.enomem) :=
      ⟨(fun hnone => by cases hnone), fun _ => ⟨fun _ => rfl, fun _ => rfl⟩⟩
    exact ⟨iff_of_true ⟨hatomic, fun _ => rfl⟩ (.inl rfl), fun _ => iff_of_true hatomic (.inl rfl)⟩
  | true =>
    cases hpmm : o.pmm with
    | false =>
      have hstep : vmmDup o src s = ({ s with regions := [], tables := 1 }, some .enomem) := by
        simp [vmmDup, hkeys, hpmm]
      rw [hstep]
      have hatomic : Atomic src s ({ s with regions := [], tables := 1 }, some Errno.enomem) :=
        ⟨(fun hnone => by cases hnone), fun _ => ⟨fun _ => rfl, fun _ => rfl⟩⟩
      refine ⟨iff_of_false (fun hall => ?_) ?_, fun _ => iff_of_true hatomic (.inr (.inl rfl))⟩
      · exact absurd (hall.2 (Option.some_ne_none _)) Nat.one_ne_zero
      · rintro (hfalse | ⟨hfalse, -⟩) <;> cases hfalse
    | true =>
      have hend := vmmDup_spec o src s hcounts hkeys hpmm
      refine ⟨hend.atomicWhole_iff.trans (by simp), fun hdisjoint => ?_⟩
      exact (hend.atomic_iff hcounts hdisjoint).trans (by simp)

def dupRegion : DupRegion :=
  ⟨0, 2 * 4096, 0, 2 * 4096, 0, 0, 0, 0, none, none⟩

def dupStart : DupState where
  pages _ := ⟨.pgInvalid, 0, 0, none, 1⟩
  srcPmm vpn := if vpn = 0 then ⟨⟨true, true, false, true, false⟩, 5⟩ else noPte
  dstPmm _ := noPte
  regions := []
  tables := 0

/-- The copy of both pages. -/
theorem vmm_dup_atomic_copied : AtomicWhole [dupRegion] dupStart
    (vmmDup ⟨true, true, fun _ => true, fun _ _ => .ok true⟩ [dupRegion] dupStart) :=
  (vmm_dup_atomic _ _ _ fun _ => (by decide : 1 < 2 ^ 32)).1.mpr
    (.inr ⟨rfl, fun _ _ _ => ⟨rfl, fun _ _ _ _ => ⟨true, rfl⟩⟩⟩)

/-- Without memory for the structure of the first region, zero is returned for an empty copy. -/
theorem vmm_dup_reports_success : ¬∀ (o : DupOutcomes) (src : List DupRegion) (s : DupState),
    (∀ ppn, (s.pages ppn).count < 2 ^ 32) → src.Pairwise Apart →
      Atomic src s (vmmDup o src s) := by
  intro h
  have hatomic := h ⟨true, true, fun _ => false, fun _ _ => .ok true⟩ [dupRegion] dupStart
    (fun _ => (by decide : 1 < 2 ^ 32)) (List.pairwise_singleton _ _)
  have hempty : [] = [dupRegion] := hatomic.1 rfl
  cases hempty

end Dup
end Almos
