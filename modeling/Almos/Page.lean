import Almos.Word

/-!
# Page descriptors

The fields of `struct page_s` that the allocators and the address spaces read.
Assertions of the source print a message and go on, so they have no effect here;
the wait queue and the page lock bit are left out.
-/
namespace Almos
open Word

inductive PageState
  | pgInit
  | pgReserved
  | pgFree
  | pgInvalid
  | pgValid
  | pgLockedIo
  | pgLocked
  deriving DecidableEq, Repr

structure Page where
  state : PageState
  cid : ℕ
  /-- A bit field of four bits. -/
  order : ℕ
  mapper : Option ℕ
  count : ℕ
  deriving DecidableEq, Repr

namespace Page

def pageInit (cid : ℕ) : Page := ⟨.pgInit, cid, 0, none, 0⟩

/-- Only the step to `PGRESERVED` touches another field. -/
def pageStateSet (page : Page) (newState : PageState) : Page :=
  match newState with
  | .pgReserved => { page with count := 1, state := .pgReserved }
  | state => { page with state := state }

def setOrder (page : Page) (order : ℕ) : Page := { page with order := order % 16 }

/-- Atomic increment; the source returns the old value. -/
def pageRefcountUp (page : Page) : Page := { page with count := wadd page.count 1 }

def pageRefcountDown (page : Page) : Page := { page with count := wsub page.count 1 }

/-- The frame that `kmem_alloc` returns. -/
def kmemAlloc (page : Page) : Page := (page.pageStateSet .pgInvalid).pageRefcountUp.setOrder 0

/-- A frame for a user page: `mapper` is reset after `kmem_alloc`. -/
def allocPage (page : Page) : Page := { page.kmemAlloc with mapper := none }

/-- `ppm_free_pages`: the frame is given back with the last reference. -/
def ppmFreePages (page : Page) : Page :=
  if page.count > 1 then page.pageRefcountDown else page.pageRefcountDown.pageStateSet .pgFree

@[simp] theorem pageStateSet_state (page : Page) (s : PageState) :
    (page.pageStateSet s).state = s := by cases s <;> rfl

@[simp] theorem pageStateSet_order (page : Page) (s : PageState) :
    (page.pageStateSet s).order = page.order := by cases s <;> rfl

@[simp] theorem pageStateSet_free_count (page : Page) :
    (page.pageStateSet .pgFree).count = page.count := rfl

@[simp] theorem pageStateSet_invalid_count (page : Page) :
    (page.pageStateSet .pgInvalid).count = page.count := rfl

@[simp] theorem setOrder_state (page : Page) (o : ℕ) : (page.setOrder o).state = page.state := rfl

@[simp] theorem setOrder_count (page : Page) (o : ℕ) : (page.setOrder o).count = page.count := rfl

@[simp] theorem setOrder_order (page : Page) (o : ℕ) : (page.setOrder o).order = o % 16 := rfl

@[simp] theorem pageRefcountUp_state (page : Page) : page.pageRefcountUp.state = page.state := rfl

@[simp] theorem pageRefcountUp_order (page : Page) : page.pageRefcountUp.order = page.order := rfl

@[simp] theorem pageRefcountDown_state (page : Page) :
    page.pageRefcountDown.state = page.state := rfl

@[simp] theorem pageRefcountDown_order (page : Page) :
    page.pageRefcountDown.order = page.order := rfl

@[simp] theorem kmemAlloc_state (page : Page) : page.kmemAlloc.state = .pgInvalid := rfl

@[simp] theorem kmemAlloc_count (page : Page) :
    page.kmemAlloc.count = page.pageRefcountUp.count := rfl

@[simp] theorem allocPage_state (page : Page) : page.allocPage.state = .pgInvalid := rfl

@[simp] theorem allocPage_count (page : Page) :
    page.allocPage.count = page.pageRefcountUp.count := rfl

end Page
end Almos
