import Mathlib

/-!
# Wait queues

The threads of a queue, linked through their own list entry. The object that a queue belongs to is
locked around each call.
-/
namespace Almos.WaitQueue
variable {ι : Type*}

/-- `WAIT_FIRST`, `WAIT_LAST` and `WAIT_ANY` -/
inductive WaitOrder
  | first
  | last
  | any

/-- `wait_on` -/
def waitOn (queue : List ι) (this : ι) : WaitOrder → List ι
  | .last => queue ++ [this]
  | .first | .any => this :: queue

/-- `wakeup_one`: the thread that is woken and the queue without it. -/
def wakeupOne (queue : List ι) : WaitOrder → Option (ι × List ι)
  | .last => queue.getLast?.map fun thread => (thread, queue.dropLast)
  | .first | .any => queue.head?.map fun thread => (thread, queue.tail)

variable [DecidableEq ι]

lemma count_waitOn (queue : List ι) (this t : ι) (order : WaitOrder) :
    (waitOn queue this order).count t = queue.count t + if this = t then 1 else 0 := by
  cases order with
  | first => simp [waitOn, List.count_cons]
  | last => simp [waitOn, List.count_cons]
  | any => simp [waitOn, List.count_cons]

lemma count_wakeupOne {queue rest : List ι} {thread : ι} {order : WaitOrder}
    (h : wakeupOne queue order = some (thread, rest)) (t : ι) :
    queue.count t = rest.count t + if thread = t then 1 else 0 := by
  have hhead : ∀ {queue rest : List ι},
      queue.head?.map (fun thread => (thread, queue.tail)) = some (thread, rest) →
        queue.count t = rest.count t + if thread = t then 1 else 0 := by
    intro queue rest h
    cases queue with
    | nil => cases h
    | cons first queue =>
      obtain ⟨rfl, rfl⟩ : first = thread ∧ queue = rest := by simpa using h
      simp [List.count_cons]
  cases order with
  | first => exact hhead h
  | any => exact hhead h
  | last =>
    cases hlast : queue.getLast? with
    | none => simp [wakeupOne, hlast] at h
    | some last =>
      obtain ⟨rfl, rfl⟩ : last = thread ∧ queue.dropLast = rest := by simpa [wakeupOne, hlast] using h
      have hsplit := List.dropLast_append_getLast? last hlast
      rw [← hsplit, List.count_append, List.dropLast_concat]
      simp [List.count_cons]

end Almos.WaitQueue
