import Almos.Bits
import Almos.Machine
import Almos.Page
import Almos.Word

/-!
# Private anonymous memory

Page faults, fork, migration requests and unmapping on the page tables of all tasks, for
regions without mapper. A page table is seen through `pmm_get_page` and `pmm_set_page`: it
gives an entry for each virtual page, zero where nothing was set. Page locks and the contents
of pages are left out. The frames that `kmem_alloc` returns, the page of the page
table that cannot be had and the cluster of the running thread are part of each event.
-/
namespace Almos
open Bits Word

/-- Attributes of a page table entry; `rest` stands for the bits that are always set in
`vm_pgprot` and never tested. -/
structure Attr where
  present : Bool
  write : Bool
  cow : Bool
  migrate : Bool
  rest : Bool
  deriving DecidableEq

structure Pte where
  attr : Attr
  ppn : ℕ

structure AnonRegion where
  vmStart : ℕ
  vmLimit : ℕ
  vmProt : ℕ
  isLazy : Bool
  inst : Bool
  hugetlb : Bool

/-- Page descriptors by page number, the page tables of the tasks, and the frames that the
kernel took for its own use, among them the pages of page tables. -/
structure Memory where
  pages : ℕ → Page
  pmm : ℕ → ℕ → Pte
  kernel : ℕ → Bool

namespace Anon

/-- `CONFIG_TASK_MAX_NR` -/
def taskMaxNr : ℕ := 1024

/-- `PMM_PAGE_SHIFT` -/
def pageShift : ℕ := 12

def vpnLimit : ℕ := 2 ^ 20

def noAttr : Attr := ⟨false, false, false, false, false⟩

def noPte : Pte := ⟨noAttr, 0⟩

/-- `vm_pgprot` as `vm_region_init` sets it, without `PMM_HUGE`, which `hugetlb` tells. -/
def vmPgprot (region : AnonRegion) : Attr :=
  ⟨decide (region.vmProt ≠ 0), region.vmProt.testBit 1, false, false, true⟩

def setPage (s : Memory) (ppn : ℕ) (f : Page → Page) : Memory :=
  { s with pages := Function.update s.pages ppn (f (s.pages ppn)) }

/-- `pmm_set_page` where the page of the page table exists. -/
def pmmSetPage (s : Memory) (task vpn : ℕ) (info : Pte) : Memory :=
  { s with pmm := Function.update s.pmm task (Function.update (s.pmm task) vpn info) }

def kmemAlloc (s : Memory) (ppn : ℕ) : Memory := setPage s ppn Page.kmemAlloc

def allocPage (s : Memory) (ppn : ℕ) : Memory := setPage s ppn Page.allocPage

def ppmFreePages (s : Memory) (ppn : ℕ) : Memory := setPage s ppn Page.ppmFreePages

/-- `vmm_do_aod`; `ptOk` is false when `pmm_lock_page` fails. Since that call leaves a page
table behind, `pmm_set_page` then refuses a huge page. -/
def vmmDoAod (s : Memory) (task : ℕ) (region : AnonRegion) (vpn : ℕ) (ptOk : Bool)
    (alloc : Option ℕ) : Memory :=
  if ¬ptOk then s
  else if (s.pmm task vpn).attr ≠ noAttr then s
  else
    match alloc with
    | none => s
    | some ppn =>
        let s := allocPage s ppn
        if region.hugetlb then ppmFreePages s ppn
        else pmmSetPage s task vpn ⟨vmPgprot region, ppn⟩

/-- `vmm_do_cow` on the frame that the entry holds; a huge page is refused as above. -/
def vmmDoCow (s : Memory) (task : ℕ) (region : AnonRegion) (vpn cluster : ℕ)
    (alloc : Option ℕ) : Memory :=
  let info := s.pmm task vpn
  let page := s.pages info.ppn
  let attr := { vmPgprot region with write := true, cow := false, migrate := false }
  if ¬info.attr.cow then s
  else if page.mapper = none ∧ page.count = 1 ∧ page.cid = cluster then
    if region.hugetlb then s else pmmSetPage s task vpn ⟨attr, info.ppn⟩
  else
    let isFreeable := page.mapper = none ∧ page.count = 1
    let s := if page.mapper = none ∧ page.count ≠ 1 then
      setPage s info.ppn (·.pageRefcountDown) else s
    let s := match alloc with
      | none => s
      | some ppn =>
          if region.hugetlb then allocPage s ppn
          else pmmSetPage (allocPage s ppn) task vpn ⟨attr, ppn⟩
    if isFreeable then ppmFreePages s info.ppn else s

/-- `vmm_do_migrate` on the frame that the entry holds. -/
def vmmDoMigrate (s : Memory) (task : ℕ) (region : AnonRegion) (vpn cluster : ℕ)
    (alloc : Option ℕ) : Memory :=
  let current := s.pmm task vpn
  let page := s.pages current.ppn
  if ¬current.attr.migrate then s
  else
    match (if cluster ≠ page.cid then alloc else none) with
    | none =>
        pmmSetPage s task vpn ⟨{ current.attr with present := true, migrate := false }, current.ppn⟩
    | some ppn =>
        let s := allocPage s ppn
        let attr := if current.attr.cow then { current.attr with write := true, cow := false }
          else current.attr
        let s := if current.attr.cow ∧ page.mapper = none ∧ page.count ≠ 1 then
          setPage s current.ppn (·.pageRefcountDown) else s
        let s := pmmSetPage s task vpn ⟨{ attr with present := true, migrate := false }, ppn⟩
        if region.inst then s else ppmFreePages s current.ppn

/-- `vmm_default_pagefault`, `vm_mapper` being `NULL`. -/
def vmmDefaultPagefault (s : Memory) (task : ℕ) (region : AnonRegion) (vpn : ℕ) (isWrite : Bool)
    (cluster : ℕ) (ptOk : Bool) (alloc : Option ℕ) : Memory :=
  let info := s.pmm task vpn
  if info.attr ≠ noAttr ∧ info.ppn ≠ 0 then
    if info.attr.cow ∧ isWrite then vmmDoCow s task region vpn cluster alloc
    else if info.attr.migrate then vmmDoMigrate s task region vpn cluster alloc
    else s
  else vmmDoAod s task region vpn ptOk alloc

/-! ### Loops over the pages of a region -/

/-- The virtual page `i` pages after an address. -/
def pageAt (start i : ℕ) : ℕ := (start + i * 2 ^ pageShift) % 2 ^ 32 / 2 ^ pageShift

def pagesCount (region : AnonRegion) : ℕ := wsub region.vmLimit region.vmStart / 2 ^ pageShift

/-- One turn of the loop of `vmm_madvise_migrate`. -/
def madvisePage (s : Memory) (task vpn : ℕ) : Memory :=
  let info := s.pmm task vpn
  if info.attr.present then
    pmmSetPage s task vpn ⟨{ info.attr with present := false, migrate := true }, info.ppn⟩
  else s

def vmmMadviseMigrate (s : Memory) (task start len : ℕ) : Memory :=
  (List.range (arroundUp len (2 ^ pageShift) % 2 ^ 32 / 2 ^ pageShift)).foldl
    (fun s i => madvisePage s task (pageAt start i)) s

/-- One turn of the loop of `vm_region_unmap`. -/
def unmapPage (s : Memory) (task : ℕ) (region : AnonRegion) (vpn : ℕ) : Memory :=
  let info := s.pmm task vpn
  if info.attr.present then
    let s := if region.isLazy then s else pmmSetPage s task vpn noPte
    let page := s.pages info.ppn
    if page.mapper = none then
      let s := setPage s info.ppn (·.pageRefcountDown)
      if page.count = 1 then ppmFreePages (setPage s info.ppn (·.pageRefcountUp)) info.ppn else s
    else s
  else s

def vmRegionUnmap (s : Memory) (task : ℕ) (region : AnonRegion) : Memory :=
  (List.range (pagesCount region)).foldl
    (fun s i => unmapPage s task region (pageAt region.vmStart i)) s

/-- One turn of the loop of `vm_region_dup`, the page of the page table being there. -/
def dupPage (s : Memory) (dst src vpn : ℕ) : Memory :=
  let info := s.pmm src vpn
  if info.attr.present then
    let info := { info with attr := { info.attr with cow := true, write := false } }
    let s := pmmSetPage s dst vpn info
    if (s.pages info.ppn).mapper = none then
      setPage (pmmSetPage s src vpn info) info.ppn (·.pageRefcountUp)
    else s
  else s

/-- The loop of `vm_region_dup`, with `todo` pages left: `pmm_set_page` fails on the child once
`sets` pages were set. -/
def dupLoop (dst src start : ℕ) : ℕ → ℕ → ℕ → Memory → Memory
  | 0, _, _, s => s
  | todo + 1, i, sets, s =>
      if (s.pmm src (pageAt start i)).attr.present then
        match sets with
        | 0 => s
        | sets + 1 => dupLoop dst src start todo (i + 1) sets (dupPage s dst src (pageAt start i))
      else dupLoop dst src start todo (i + 1) sets s

def vmRegionDup (s : Memory) (dst src : ℕ) (region : AnonRegion) (sets : ℕ) : Memory :=
  dupLoop dst src region.vmStart (pagesCount region) 0 sets s

inductive Event
  | fault (task : ℕ) (region : AnonRegion) (vaddr : ℕ) (isWrite : Bool) (cluster : ℕ)
      (ptOk : Bool) (alloc : Option ℕ)
  | dup (dst src : ℕ) (region : AnonRegion) (sets : ℕ)
  | madvise (task start len : ℕ)
  | unmap (task : ℕ) (region : AnonRegion)
  | kernelAlloc (ppn : ℕ)
  | kernelFree (ppn : ℕ)

/-- What `kmem_alloc` may return: a frame that its `ppm` holds. Page 0 is never given out. -/
def mayAlloc (s : Memory) (alloc : Option ℕ) : Bool :=
  alloc.all fun ppn => decide (ppn ≠ 0 ∧ (s.pages ppn).state = .pgFree)

def copiesFresh (s : Memory) (dst : ℕ) (region : AnonRegion) : Bool :=
  (List.range (pagesCount region)).all fun i => (s.pmm dst (pageAt region.vmStart i)).ppn == 0

def step (s : Memory) : Event → Option Memory
  | .fault task region vaddr isWrite cluster ptOk alloc =>
      if task < taskMaxNr ∧ vaddr < 2 ^ 32 ∧ mayAlloc s alloc then
        some (vmmDefaultPagefault s task region (vaddr / 2 ^ pageShift) isWrite cluster ptOk alloc)
      else none
  | .dup dst src region sets =>
      if dst < taskMaxNr ∧ src < taskMaxNr ∧ dst ≠ src ∧ copiesFresh s dst region then
        some (vmRegionDup s dst src region sets)
      else none
  | .madvise task start len =>
      if task < taskMaxNr then some (vmmMadviseMigrate s task start len) else none
  | .unmap task region => if task < taskMaxNr then some (vmRegionUnmap s task region) else none
  | .kernelAlloc ppn =>
      if mayAlloc s (some ppn) then
        some { kmemAlloc s ppn with kernel := Function.update s.kernel ppn true }
      else none
  | .kernelFree ppn =>
      if s.kernel ppn then
        some { ppmFreePages s ppn with kernel := Function.update s.kernel ppn false }
      else none

/-- Empty page tables. A frame of the kernel has one reference; of the others, those without
mapper and those that their `ppm` holds have none. -/
def machine : Machine Memory Event where
  init s := (∀ task vpn, s.pmm task vpn = noPte) ∧ ∀ ppn,
    if s.kernel ppn then (s.pages ppn).state ≠ .pgFree ∧ (s.pages ppn).count = 1
    else (s.pages ppn).mapper = none ∨ (s.pages ppn).state = .pgFree → (s.pages ppn).count = 0
  step := step

end Anon
end Almos
