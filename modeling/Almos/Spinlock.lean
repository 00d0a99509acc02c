import Mathlib
import Almos.Machine
import Almos.Threads

/-!
# The reader/writer spinlock

The word of a lock is 0 when it is free, -1 for a writer and else the number of readers; a writer
that waits for readers sets the top bit (`SL_WRITER`), which keeps new readers out. Each access of
the word is one step of a thread.
-/
namespace Almos.Spinlock
open Threads

inductive Mode
  | write
  | read
deriving DecidableEq

/-- Where a thread is: outside, before one of the accesses of a function, or with the lock. What it
has read from the word it keeps. -/
inductive SpinPc
  | idle
  | lockRead
  | lockMark (val : BitVec 32)
  | lockCas
  | rdlockRead
  | rdlockCas (val : BitVec 32)
  | trylockRead
  | trylockCas
  | tryrdlockRead
  | tryrdlockCas (val : BitVec 32)
  | held (mode : Mode)
  | unlockRead (mode : Mode)
  | unlockStore (mode : Mode)
  | unlockAdd (mode : Mode)
deriving DecidableEq

structure SpinState (ι : Type*) where
  val : BitVec 32
  pc : ι → SpinPc

/-- `SL_WRITER` -/
def slWriter : BitVec 32 := 0x80000000#32

/-- `cpu_atomic_cas`: the store is conditional and may fail (`sc`). -/
def cpuAtomicCas (val old new : BitVec 32) (sc : Bool) : BitVec 32 × Bool :=
  if val = old ∧ sc = true then (new, true) else (val, false)

/-- `__spinlock_unlock` as one step of a word. -/
def unlockWord (word : ℤ) : ℤ := if word < 0 then 0 else word - 1

variable {ι : Type*} [DecidableEq ι]

def SpinState.goto (s : SpinState ι) (i : ι) (pc : SpinPc) : SpinState ι :=
  { s with pc := Function.update s.pc i pc }

def SpinState.cas (s : SpinState ι) (i : ι) (old new : BitVec 32) (sc : Bool)
    (done again : SpinPc) : SpinState ι :=
  let (val, isAtomic) := cpuAtomicCas s.val old new sc
  { s with val }.goto i (if isAtomic then done else again)

def access (s : SpinState ι) (i : ι) (sc : Bool) : Option (SpinState ι) :=
  match s.pc i with
  | .idle | .held _ => none
  -- spinlock_lock
  | .lockRead =>
      if 0 < s.val.toInt then some (s.goto i (.lockMark s.val))
      else if s.val ≠ 0 then some (s.goto i .lockRead)
      else some (s.goto i .lockCas)
  | .lockMark val => some (s.cas i val (val ||| slWriter) sc .lockRead .lockRead)
  | .lockCas => some (s.cas i 0 (-1) sc (.held .write) .lockRead)
  -- spinlock_rdlock
  | .rdlockRead =>
      if s.val.toInt < 0 then some (s.goto i .rdlockRead) else some (s.goto i (.rdlockCas s.val))
  | .rdlockCas val => some (s.cas i val (val + 1) sc (.held .read) .rdlockRead)
  -- spinlock_trylock
  | .trylockRead => if s.val = 0 then some (s.goto i .trylockCas) else some (s.goto i .idle)
  | .trylockCas => some (s.cas i 0 (-1) sc (.held .write) .idle)
  -- spinlock_tryrdlock
  | .tryrdlockRead =>
      if 0 ≤ s.val.toInt then some (s.goto i (.tryrdlockCas s.val)) else some (s.goto i .idle)
  | .tryrdlockCas val => some (s.cas i val (val + 1) sc (.held .read) .idle)
  -- __spinlock_unlock
  | .unlockRead mode =>
      if s.val.toInt < 0 then some (s.goto i (.unlockStore mode))
      else some (s.goto i (.unlockAdd mode))
  | .unlockStore _ => some ({ s with val := 0 }.goto i .idle)
  | .unlockAdd _ => some ({ s with val := s.val - 1 }.goto i .idle)

inductive SpinEvent (ι : Type*)
  | spinlockLock (i : ι)
  | spinlockRdlock (i : ι)
  | spinlockTrylock (i : ι)
  | spinlockTryrdlock (i : ι)
  | spinlockUnlock (i : ι)
  | access (i : ι) (sc : Bool)

def enter (s : SpinState ι) (i : ι) (pc : SpinPc) : Option (SpinState ι) :=
  if s.pc i = .idle then some (s.goto i pc) else none

def spinStep (s : SpinState ι) : SpinEvent ι → Option (SpinState ι)
  | .spinlockLock i => enter s i .lockRead
  | .spinlockRdlock i => enter s i .rdlockRead
  | .spinlockTrylock i => enter s i .trylockRead
  | .spinlockTryrdlock i => enter s i .tryrdlockRead
  | .spinlockUnlock i =>
      match s.pc i with
      | .held mode => some (s.goto i (.unlockRead mode))
      | _ => none
  | .access i sc => access s i sc

/-- After `spinlock_init`, with every thread outside. -/
def spinMachine (ι : Type*) [DecidableEq ι] : Machine (SpinState ι) (SpinEvent ι) where
  init s := s.val = 0 ∧ ∀ i, s.pc i = .idle
  step := spinStep

def SpinPc.holds (mode : Mode) : SpinPc → Bool
  | .held mode' | .unlockRead mode' | .unlockStore mode' | .unlockAdd mode' => mode' = mode
  | _ => false

/-- Inside `spinlock_lock`. -/
def SpinPc.waits : SpinPc → Bool
  | .lockRead | .lockMark _ | .lockCas => true
  | _ => false

end Almos.Spinlock
