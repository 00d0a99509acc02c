import Mathlib
import Almos.Machine

/-!
# The kernel FIFO with many writers and one reader

Writers reserve a slot by moving `wridx` with a compare-and-swap and store their value afterwards;
the reader takes the slot at `rdidx`. Each access of the shared fields is one step of its thread.
The lists `reserved`, `accepted` and `delivered` record what has happened: the slots reserved with
their values, the puts that returned 0 and the values that gets returned, each in that order.
-/
namespace Almos.Kfifo

/-- The `threshold` of `multi_put` and `multi_get`. -/
def threshold : ℕ := 10000

/-- Before which access of `multi_put` a writer is. What `store` has last is the position of its put
in `reserved`. -/
inductive WriterPc (α : Type*)
  | idle
  | readWridx (val : α) (cntr : ℕ)
  | readRdidx (val : α) (cntr wridx : ℕ)
  | cas (val : α) (cntr wridx : ℕ)
  | store (val : α) (wridx place : ℕ)

/-- Before which access of `single_get` or `multi_get` the reader is. -/
inductive ReaderPc (α : Type*)
  | idle
  | readRdidx (multi : Bool) (cntr : ℕ)
  | readWridx (multi : Bool) (cntr rdidx : ℕ)
  | readTbl (multi : Bool) (cntr rdidx : ℕ)
  | moveRdidx (multi : Bool) (cntr rdidx : ℕ) (val : α)

structure Fifo (ι α : Type*) where
  wridx : ℕ
  rdidx : ℕ
  tbl : ℕ → α
  writer : ι → WriterPc α
  reader : ReaderPc α
  reserved : List (ι × α)
  accepted : List (ι × α)
  delivered : List α

variable {ι α : Type*} [DecidableEq ι] (size : ℕ)

def Fifo.goto (s : Fifo ι α) (i : ι) (pc : WriterPc α) : Fifo ι α :=
  { s with writer := Function.update s.writer i pc }

@[simp] lemma Fifo.goto_writer_self (s : Fifo ι α) (i : ι) (pc : WriterPc α) :
    (s.goto i pc).writer i = pc := Function.update_self _ _ _

lemma Fifo.goto_writer_of_ne (s : Fifo ι α) {i j : ι} (h : j ≠ i) (pc : WriterPc α) :
    (s.goto i pc).writer j = s.writer j := Function.update_of_ne h _ _

def Fifo.gotoReader (s : Fifo ι α) (pc : ReaderPc α) : Fifo ι α := { s with reader := pc }

/-- The next access of `multi_put`. The store of the compare-and-swap is conditional and may fail
(`sc`); the count of the tries is looked at after it, whether it failed or not. -/
def multiPut (s : Fifo ι α) (i : ι) (sc : Bool) : Option (Fifo ι α) :=
  match s.writer i with
  | .idle => none
  | .readWridx val cntr => some (s.goto i (.readRdidx val cntr s.wridx))
  | .readRdidx val cntr wridx =>
      if (wridx + 1) % size = s.rdidx then some (s.goto i .idle)
      else some (s.goto i (.cas val cntr wridx))
  | .cas val cntr wridx =>
      if s.wridx = wridx ∧ sc = true then
        let moved := { s with
          wridx := (wridx + 1) % size, reserved := s.reserved ++ [(i, val)] }
        if cntr = threshold then some (moved.goto i .idle)
        else some (moved.goto i (.store val wridx s.reserved.length))
      else if cntr = threshold then some (s.goto i .idle)
      else some (s.goto i (.readWridx val (cntr + 1)))
  | .store val wridx _ =>
      let stored := { s with
        tbl := Function.update s.tbl wridx val, accepted := s.accepted ++ [(i, val)] }
      some (stored.goto i .idle)

/-- A get has its value and moves `rdidx`. -/
def Fifo.deliver (s : Fifo ι α) (rdidx : ℕ) (val : α) : Fifo ι α :=
  { s with rdidx := (rdidx + 1) % size, delivered := s.delivered ++ [val] }

/-- The next access of `single_get` or `multi_get`. -/
def getAccess (s : Fifo ι α) (sc : Bool) : Option (Fifo ι α) :=
  match s.reader with
  | .idle => none
  | .readRdidx multi cntr => some (s.gotoReader (.readWridx multi cntr s.rdidx))
  | .readWridx multi cntr rdidx =>
      if rdidx = s.wridx then some (s.gotoReader .idle)
      else some (s.gotoReader (.readTbl multi cntr rdidx))
  | .readTbl multi cntr rdidx => some (s.gotoReader (.moveRdidx multi cntr rdidx (s.tbl rdidx)))
  | .moveRdidx false _ rdidx val => some ((s.deliver size rdidx val).gotoReader .idle)
  | .moveRdidx true cntr rdidx val =>
      if s.rdidx = rdidx ∧ sc = true then
        -- the value is in `*val`, but EBUSY says there is none
        if cntr = threshold then
          some ({ s with rdidx := (rdidx + 1) % size }.gotoReader .idle)
        else some ((s.deliver size rdidx val).gotoReader .idle)
      else if cntr = threshold then some (s.gotoReader .idle)
      else some (s.gotoReader (.readRdidx true (cntr + 1)))

inductive FifoEvent (ι α : Type*)
  | put (i : ι) (val : α)
  | write (i : ι) (sc : Bool)
  | get (multi : Bool)
  | read (sc : Bool)

def fifoStep (s : Fifo ι α) : FifoEvent ι α → Option (Fifo ι α)
  | .put i val =>
      match s.writer i with
      | .idle => some (s.goto i (.readWridx val 0))
      | _ => none
  | .write i sc => multiPut size s i sc
  | .get multi =>
      match s.reader with
      | .idle => some (s.gotoReader (.readRdidx multi 0))
      | _ => none
  | .read sc => getAccess size s sc

/-- After `kfifo_init`, with every thread outside. -/
structure Initial (s : Fifo ι α) : Prop where
  wridx : s.wridx = 0
  rdidx : s.rdidx = 0
  writer : ∀ i, s.writer i = .idle
  reader : s.reader = .idle
  reserved : s.reserved = []
  accepted : s.accepted = []
  delivered : s.delivered = []

def fifoMachine (ι α : Type*) [DecidableEq ι] (size : ℕ) : Machine (Fifo ι α) (FifoEvent ι α) where
  init := Initial
  step := fifoStep size

end Almos.Kfifo
