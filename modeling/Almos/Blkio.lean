import Mathlib
import Almos.Machine
import Almos.WaitQueue

/-!
# Block I/O of a page

`blkio_sync` submits a request for each buffer of a page; each completion runs `blkio_async`. The two
count in `b_ctrl` of the first buffer, which only `blkio_init` resets.
-/
namespace Almos.Blkio
open WaitQueue
variable {ι : Type*}

inductive BlkError
  | enomem
  | eio
deriving DecidableEq

/-- `b_ctrl`; its `error` is 0 or 1. -/
structure BCtrl (ι : Type*) where
  count : BitVec 16
  cntr : BitVec 16
  error : Bool
  wait : List ι

/-- A page with `PG_BUFFER`: `b_ctrl` of the head, and for each buffer whether `BLKIO_INIT` is set in
`b_flags`. -/
structure BlkPage (ι : Type*) where
  ctrl : BCtrl ι
  skip : List Bool

/-- The loop of `blkio_init`; `alloc` says which calls of `kmem_alloc` succeed. -/
def pushBuffers (alloc : ℕ → Bool) : ℕ → List Bool → Except BlkError (List Bool)
  | 0, root => .ok root
  | count + 1, root =>
      if alloc count then pushBuffers alloc count (false :: root) else .error .enomem

/-- `blkio_init` -/
def blkioInit (alloc : ℕ → Bool) (count : ℕ) : Except BlkError (BlkPage ι) :=
  match pushBuffers alloc count [] with
  | .ok root => .ok ⟨⟨BitVec.ofNat 16 count, 0#16, false, []⟩, root⟩
  | .error err => .error err

/-- `blkio_set_initial` -/
def blkioSetInitial (page : BlkPage ι) (k : ℕ) : BlkPage ι :=
  { page with skip := page.skip.set k true }

/-- `blkio_async` under the lock of the head, with the thread that it wakes. -/
def blkioAsync (info : BCtrl ι) (err : Bool) : BCtrl ι × Option ι :=
  let info := { info with cntr := info.cntr + 1, error := info.error || err }
  if info.cntr = info.count then
    match wakeupOne info.wait .any with
    | some (thread, rest) => ({ info with wait := rest }, some thread)
    | none => (info, none)
  else (info, none)

/-- The locked part of `blkio_sync` after `cntr` requests, with whether the caller `this` sleeps. -/
def blkioSyncLocked (info : BCtrl ι) (this : ι) (cntr : ℕ) : BCtrl ι × Bool :=
  let info := { info with cntr := info.cntr + (info.count - BitVec.ofNat 16 cntr) }
  if info.cntr < info.count then ({ info with wait := waitOn info.wait this .any }, true)
  else (info, false)

/-- Where the caller of `blkio_sync` is. -/
inductive SyncPc
  /-- in the loop, at this buffer -/
  | submits (k : ℕ)
  | locks
  /-- in `sched_sleep`, until it is woken -/
  | sleeps
  | returns
deriving DecidableEq

/-- A call of `blkio_sync` with its local `cntr`. The other fields are its history: `b_ctrl` at its
start, and the failures since. -/
structure SyncCall (ι : Type*) where
  thread : ι
  pc : SyncPc
  cntr : ℕ
  startCntr : BitVec 16
  startError : Bool
  submitFailed : Bool
  asyncFailed : Bool

/-- What a call returned, and which failures it met. -/
structure SyncResult where
  number : ℕ
  err : Option BlkError
  submitFailed : Bool
  asyncFailed : Bool
deriving DecidableEq

/-- A request that the device has not completed, with the number of its call. -/
structure Request where
  number : ℕ
  buffer : ℕ
deriving DecidableEq

structure BlkState (ι : Type*) where
  page : BlkPage ι
  pending : List Request
  number : ℕ
  call : Option (SyncCall ι)
  last : Option SyncResult

/-- The outcome of a submission and of a request is the device's. -/
inductive BlkEvent (ι : Type*)
  | setInitial (k : ℕ)
  | call (thread : ι)
  | submit (failed : Bool)
  | lock
  | complete (request : Request) (failed : Bool)
  | ret

/-- One round of the loop of `blkio_sync`. -/
def submitStep (s : BlkState ι) (call : SyncCall ι) (k : ℕ) (failed : Bool) : BlkState ι :=
  match s.page.skip[k]? with
  | none => { s with call := some { call with pc := .locks } }
  | some true =>
      { s with
        page := { s.page with skip := s.page.skip.set k false }
        call := some { call with pc := .submits (k + 1) } }
  | some false =>
      if failed then
        { s with call := some { call with pc := .locks, submitFailed := true } }
      else
        { s with
          pending := s.pending ++ [⟨s.number, k⟩]
          call := some { call with pc := .submits (k + 1), cntr := call.cntr + 1 } }

def SyncCall.complete [DecidableEq ι] (call : SyncCall ι) (own failed : Bool)
    (woken : Option ι) : SyncCall ι :=
  { call with
    asyncFailed := call.asyncFailed || (own && failed)
    pc := if woken = some call.thread ∧ call.pc = .sleeps then .returns else call.pc }

def blkStep [DecidableEq ι] (s : BlkState ι) : BlkEvent ι → Option (BlkState ι)
  | .setInitial k =>
      match s.call with
      | none => some { s with page := blkioSetInitial s.page k }
      | some _ => none
  | .call thread =>
      match s.call with
      | none =>
          some { s with
            number := s.number + 1
            call := some ⟨thread, .submits 0, 0, s.page.ctrl.cntr, s.page.ctrl.error, false, false⟩ }
      | some _ => none
  | .submit failed =>
      match s.call with
      | some call =>
          match call.pc with
          | .submits k => some (submitStep s call k failed)
          | _ => none
      | none => none
  | .lock =>
      match s.call with
      | some call =>
          if call.pc = .locks then
            let (ctrl, sleeps) := blkioSyncLocked s.page.ctrl call.thread call.cntr
            some { s with
              page := { s.page with ctrl := ctrl }
              call := some { call with pc := if sleeps then .sleeps else .returns } }
          else none
      | none => none
  | .complete request failed =>
      if request ∈ s.pending then
        let (ctrl, woken) := blkioAsync s.page.ctrl failed
        some { s with
          page := { s.page with ctrl := ctrl }
          pending := s.pending.erase request
          call := s.call.map fun call => call.complete (request.number = s.number) failed woken }
      else none
  | .ret =>
      match s.call with
      | some call =>
          if call.pc = .returns then
            some { s with
              call := none
              last := some ⟨s.number, if s.page.ctrl.error then some .eio else none,
                call.submitFailed, call.asyncFailed⟩ }
          else none
      | none => none

/-- A page with `count` buffers, just after `blkio_init`. -/
def blkMachine (ι : Type*) [DecidableEq ι] (count : ℕ) : Machine (BlkState ι) (BlkEvent ι) where
  init s := ∃ alloc page, blkioInit alloc count = .ok page ∧ s = ⟨page, [], 0, none, none⟩
  step := blkStep

/-- What is promised of the calls: a caller that sleeps has a request that is not complete, a call
that has returned has none, and it returned an error exactly if something of it failed. -/
structure CallsOk (s : BlkState ι) : Prop where
  sleeps : ∀ call, s.call = some call → call.pc = .sleeps → ∃ r ∈ s.pending, r.number = s.number
  complete : ∀ result, s.last = some result → ∀ r ∈ s.pending, r.number ≠ result.number
  err : ∀ result, s.last = some result →
    (result.err ≠ none ↔ result.submitFailed = true ∨ result.asyncFailed = true)

/-- What `blkio_sync` needs. When it takes the lock, the counter was 0 at its start and `count` has
room for the requests that are left, or none is left and the counter does not wrap around. When it
returns without a failed completion, `error` was set at its start just if a submission failed. -/
def SyncGuard (s : BlkState ι) : BlkEvent ι → Prop
  | .lock => ∀ call ∈ s.call,
      call.startCntr = 0#16 ∧ s.pending.length ≤ s.page.ctrl.count.toNat ∨
        s.pending = [] ∧ call.startCntr.toNat + s.page.ctrl.count.toNat < 2 ^ 16
  | .ret => ∀ call ∈ s.call, call.asyncFailed = false → call.startError = call.submitFailed
  | _ => True

instance (s : BlkState ι) : ∀ e, Decidable (SyncGuard s e)
  | .lock => inferInstanceAs (Decidable (∀ call ∈ s.call,
      call.startCntr = 0#16 ∧ s.pending.length ≤ s.page.ctrl.count.toNat ∨
        s.pending = [] ∧ call.startCntr.toNat + s.page.ctrl.count.toNat < 2 ^ 16))
  | .ret => inferInstanceAs (Decidable (∀ call ∈ s.call,
      call.asyncFailed = false → call.startError = call.submitFailed))
  | .setInitial _ | .call _ | .submit _ | .complete _ _ => .isTrue trivial

def PhaseOk (s : BlkState ι) (call : SyncCall ι) : SyncPc → Prop
  | .submits _ | .locks => s.page.ctrl.wait = [] ∧
      s.page.ctrl.cntr + BitVec.ofNat 16 s.pending.length =
        call.startCntr + BitVec.ofNat 16 call.cntr
  | .sleeps => s.page.ctrl.wait = [call.thread] ∧ s.pending ≠ [] ∧
      s.page.ctrl.cntr.toNat + s.pending.length = s.page.ctrl.count.toNat
  | .returns => s.page.ctrl.wait = [] ∧ s.pending = []

structure BlkInv (s : BlkState ι) : Prop where
  own : ∀ r ∈ s.pending, r.number = s.number
  idle : s.call = none → s.page.ctrl.wait = [] ∧ s.pending = []
  error : ∀ call, s.call = some call →
    s.page.ctrl.error = (call.startError || call.asyncFailed)
  phase : ∀ call, s.call = some call → PhaseOk s call call.pc
  last : ∀ result, s.last = some result → result.number ≤ s.number
  earlier : ∀ result call, s.last = some result → s.call = some call → result.number < s.number
  err : ∀ result, s.last = some result →
    (result.err ≠ none ↔ result.submitFailed = true ∨ result.asyncFailed = true)

lemma BlkInv.callsOk {s : BlkState ι} (h : BlkInv s) : CallsOk s := by
  constructor
  · intro call hcall hpc
    have hphase := h.phase call hcall
    rw [hpc] at hphase
    obtain ⟨r, hr⟩ := List.exists_mem_of_ne_nil _ hphase.2.1
    exact ⟨r, hr, h.own r hr⟩
  · intro result hlast r hr
    cases hcall : s.call with
    | none =>
      rw [(h.idle hcall).2] at hr
      cases hr
    | some call =>
      have hlt := h.earlier result call hlast hcall
      have hown := h.own r hr
      omega
  · exact h.err

lemma blkioAsync_no_sleeper {info : BCtrl ι} {err : Bool} (h : info.wait = []) :
    blkioAsync info err =
      ({ info with cntr := info.cntr + 1, error := info.error || err }, none) := by
  simp only [blkioAsync, h, wakeupOne, List.head?_nil, Option.map_none]
  split_ifs <;> rfl

lemma blkioAsync_sleeper {info : BCtrl ι} {err : Bool} {thread : ι} (h : info.wait = [thread]) :
    blkioAsync info err =
      if info.cntr + 1 = info.count then
        (⟨info.count, info.cntr + 1, info.error || err, []⟩, some thread)
      else (⟨info.count, info.cntr + 1, info.error || err, [thread]⟩, none) := by
  simp only [blkioAsync, h, wakeupOne, List.head?_cons, Option.map_some, List.tail_cons]

variable {s t : BlkState ι}

lemma BlkInv.submit {call : SyncCall ι} {k : ℕ} {failed : Bool} (h : BlkInv s)
    (hcall : s.call = some call) (hpc : call.pc = .submits k) :
    BlkInv (submitStep s call k failed) := by
  have hphase := h.phase call hcall
  rw [hpc] at hphase
  obtain ⟨hwait, hcntr⟩ := hphase
  have herror := h.error call hcall
  have hearlier : ∀ result, s.last = some result → result.number < s.number :=
    fun result hlast => h.earlier result call hlast hcall
  unfold submitStep
  split
  · -- the end of the list
    exact ⟨h.own, nofun, fun c hc => by cases hc; exact herror,
      fun c hc => by cases hc; exact ⟨hwait, hcntr⟩, h.last, fun r c hr _ => hearlier r hr, h.err⟩
  · exact ⟨h.own, nofun, fun c hc => by cases hc; exact herror,
      fun c hc => by cases hc; exact ⟨hwait, hcntr⟩, h.last, fun r c hr _ => hearlier r hr, h.err⟩
  · split_ifs with hfailed
    · exact ⟨h.own, nofun, fun c hc => by cases hc; exact herror,
        fun c hc => by cases hc; exact ⟨hwait, hcntr⟩, h.last, fun r c hr _ => hearlier r hr, h.err⟩
    · refine ⟨?_, nofun, fun c hc => ?_, fun c hc => ?_, h.last, fun r c hr _ => hearlier r hr, h.err⟩
      · intro r hr
        rcases List.mem_append.mp hr with hr | hr
        · exact h.own r hr
        · rw [List.mem_singleton.mp hr]
      · cases hc
        exact herror
      · cases hc
        refine ⟨hwait, ?_⟩
        -- one more submitted, one more left
        change s.page.ctrl.cntr +
            BitVec.ofNat 16 (s.pending ++ [(⟨s.number, k⟩ : Request)]).length =
          call.startCntr + BitVec.ofNat 16 (call.cntr + 1)
        rw [List.length_append, List.length_singleton, BitVec.ofNat_add, BitVec.ofNat_add,
          ← BitVec.add_assoc, ← BitVec.add_assoc, hcntr]

lemma toNat_topped {cntr count start : BitVec 16} {pending submitted : ℕ}
    (h : cntr + BitVec.ofNat 16 pending = start + BitVec.ofNat 16 submitted) :
    ((cntr + (count - BitVec.ofNat 16 submitted)).toNat + pending) % 2 ^ 16 =
      (start.toNat + count.toNat) % 2 ^ 16 := by
  have hsum : cntr + (count - BitVec.ofNat 16 submitted) + BitVec.ofNat 16 pending =
      start + count := by
    calc cntr + (count - BitVec.ofNat 16 submitted) + BitVec.ofNat 16 pending
        = cntr + BitVec.ofNat 16 pending + (count - BitVec.ofNat 16 submitted) := by
          rw [BitVec.add_assoc, BitVec.add_comm (count - _), ← BitVec.add_assoc]
      _ = start + (BitVec.ofNat 16 submitted + (count - BitVec.ofNat 16 submitted)) := by
          rw [h, BitVec.add_assoc]
      _ = start + count := by rw [BitVec.add_comm (BitVec.ofNat 16 submitted), BitVec.sub_add_cancel]
  have hnat := congrArg BitVec.toNat hsum
  rw [BitVec.toNat_add _ (BitVec.ofNat 16 pending), BitVec.toNat_ofNat, Nat.add_mod_mod,
    BitVec.toNat_add start] at hnat
  exact hnat

variable [DecidableEq ι]

lemma BlkInv.lock {call : SyncCall ι} (h : BlkInv s) (hcall : s.call = some call)
    (hpc : call.pc = .locks)
    (hguard : call.startCntr = 0#16 ∧ s.pending.length ≤ s.page.ctrl.count.toNat ∨
      s.pending = [] ∧ call.startCntr.toNat + s.page.ctrl.count.toNat < 2 ^ 16)
    (hstep : blkStep s .lock = some t) : BlkInv t := by
  have hphase := h.phase call hcall
  rw [hpc] at hphase
  obtain ⟨hwait, hcntr⟩ := hphase
  have herror := h.error call hcall
  have hearlier : ∀ result, s.last = some result → result.number < s.number :=
    fun result hlast => h.earlier result call hlast hcall
  have htopped := @toNat_topped _ s.page.ctrl.count _ _ _ hcntr
  have hcount := s.page.ctrl.count.isLt
  simp only [blkStep, hcall, hpc, if_true] at hstep
  by_cases hlt : s.page.ctrl.cntr + (s.page.ctrl.count - BitVec.ofNat 16 call.cntr) <
      s.page.ctrl.count
  · -- the caller sleeps
    rw [blkioSyncLocked, if_pos hlt] at hstep
    obtain rfl := Option.some.inj hstep
    rw [BitVec.lt_def] at hlt
    have hleft : s.pending.length ≠ 0 ∧
        (s.page.ctrl.cntr + (s.page.ctrl.count - BitVec.ofNat 16 call.cntr)).toNat +
          s.pending.length = s.page.ctrl.count.toNat := by
      rcases hguard with ⟨hstart, hroom⟩ | ⟨hnil, hroom⟩
      · rw [hstart, BitVec.toNat_zero] at htopped
        omega
      · rw [hnil, List.length_nil] at htopped
        omega
    exact ⟨h.own, fun hidle => absurd hidle (Option.some_ne_none _), fun c hc => by cases hc; exact herror,
      fun c hc => by
        cases hc
        exact ⟨by simp [waitOn, hwait], fun hnil => hleft.1 (by rw [hnil, List.length_nil]), hleft.2⟩,
      h.last, fun r c hr _ => hearlier r hr, h.err⟩
  · rw [blkioSyncLocked, if_neg hlt] at hstep
    obtain rfl := Option.some.inj hstep
    rw [BitVec.lt_def] at hlt
    have hnil : s.pending = [] := by
      rcases hguard with ⟨hstart, hroom⟩ | ⟨hnil, -⟩
      · rw [hstart, BitVec.toNat_zero] at htopped
        apply List.eq_nil_of_length_eq_zero
        omega
      · exact hnil
    exact ⟨h.own, fun hidle => absurd hidle (Option.some_ne_none _), fun c hc => by cases hc; exact herror,
      fun c hc => by
        cases hc
        exact ⟨hwait, hnil⟩,
      h.last, fun r c hr _ => hearlier r hr, h.err⟩

/-- One request less: the counter goes up, and both 16-bit sums stay as they were. -/
lemma counted_complete {cntr total : BitVec 16} {pending : ℕ} (hpos : 0 < pending)
    (h : cntr + BitVec.ofNat 16 pending = total) :
    cntr + 1 + BitVec.ofNat 16 (pending - 1) = total := by
  obtain ⟨left, rfl⟩ : ∃ left, pending = left + 1 := ⟨pending - 1, by omega⟩
  rw [Nat.add_sub_cancel, ← h, BitVec.ofNat_add, BitVec.add_comm (BitVec.ofNat 16 left),
    ← BitVec.add_assoc]
  rfl

lemma BlkInv.complete {request : Request} {failed : Bool} (h : BlkInv s)
    (hstep : blkStep s (.complete request failed) = some t) : BlkInv t := by
  simp only [blkStep] at hstep
  split_ifs at hstep with hmem
  obtain rfl := Option.some.inj hstep
  have hown : ∀ r ∈ s.pending.erase request, r.number = s.number :=
    fun r hr => h.own r (List.mem_of_mem_erase hr)
  have hlen := List.length_erase_of_mem hmem
  have hpos := List.length_pos_of_mem hmem
  cases hcall : s.call with
  | none =>
    rw [(h.idle hcall).2] at hmem
    cases hmem
  | some call =>
    have hphase := h.phase call hcall
    have herror : (s.page.ctrl.error || failed) =
        (call.startError || (call.asyncFailed || (decide (request.number = s.number) && failed))) := by
      rw [h.error call hcall, decide_eq_true (h.own request hmem), Bool.true_and, Bool.or_assoc]
    have hearlier : ∀ result, s.last = some result → result.number < s.number :=
      fun result hlast => h.earlier result call hlast hcall
    -- before the caller sleeps, `blkio_async` only counts
    have hcounts : s.page.ctrl.wait = [] → call.pc ≠ .sleeps → call.pc ≠ .returns →
        s.page.ctrl.cntr + BitVec.ofNat 16 s.pending.length =
          call.startCntr + BitVec.ofNat 16 call.cntr →
        BlkInv ⟨⟨(blkioAsync s.page.ctrl failed).1, s.page.skip⟩, s.pending.erase request, s.number,
          some (call.complete (decide (request.number = s.number)) failed
            (blkioAsync s.page.ctrl failed).2), s.last⟩ := by
      intro hwait hsleeps hreturns hcntr
      rw [blkioAsync_no_sleeper hwait]
      refine ⟨hown, nofun, fun c hc => ?_, fun c hc => ?_, h.last, fun r c hr _ => hearlier r hr, h.err⟩
      · cases hc
        exact herror
      · cases hc
        have hcntr' := counted_complete hpos hcntr
        rw [← hlen] at hcntr'
        simp only [SyncCall.complete, reduceCtorEq, false_and, if_false]
        cases hpc : call.pc with
        | submits k => exact ⟨hwait, hcntr'⟩
        | locks => exact ⟨hwait, hcntr'⟩
        | sleeps => exact absurd hpc hsleeps
        | returns => exact absurd hpc hreturns
    cases hpc : call.pc with
    | submits k =>
      rw [hpc] at hphase
      exact hcounts hphase.1 (by simp [hpc]) (by simp [hpc]) hphase.2
    | locks =>
      rw [hpc] at hphase
      exact hcounts hphase.1 (by simp [hpc]) (by simp [hpc]) hphase.2
    | sleeps =>
      rw [hpc] at hphase
      obtain ⟨hwait, -, hcntr⟩ := hphase
      have hcount := s.page.ctrl.count.isLt
      have hnext : (s.page.ctrl.cntr + 1).toNat = s.page.ctrl.cntr.toNat + 1 := by
        rw [BitVec.toNat_add]
        change (s.page.ctrl.cntr.toNat + 1) % 2 ^ 16 = _
        omega
      simp only [Option.map_some]
      rw [blkioAsync_sleeper hwait]
      split_ifs with hfull
      · -- it was the last one
        have hnil : s.pending.erase request = [] := by
          apply List.eq_nil_of_length_eq_zero
          rw [← BitVec.toNat_inj] at hfull
          omega
        refine ⟨hown, nofun, fun c hc => ?_, fun c hc => ?_, h.last, fun r c hr _ => hearlier r hr, h.err⟩
        · cases hc
          exact herror
        · cases hc
          simp only [SyncCall.complete, hpc, and_self, if_true]
          exact ⟨rfl, hnil⟩
      · have hleft : s.pending.erase request ≠ [] := by
          intro hnil
          rw [hnil, List.length_nil] at hlen
          apply hfull
          rw [← BitVec.toNat_inj]
          omega
        refine ⟨hown, nofun, fun c hc => ?_, fun c hc => ?_, h.last, fun r c hr _ => hearlier r hr, h.err⟩
        · cases hc
          exact herror
        · cases hc
          simp only [SyncCall.complete, reduceCtorEq, false_and, if_false, hpc]
          refine ⟨rfl, hleft, ?_⟩
          change (s.page.ctrl.cntr + 1).toNat + (s.pending.erase request).length =
            s.page.ctrl.count.toNat
          omega
    | returns =>
      rw [hpc] at hphase
      rw [hphase.2] at hmem
      cases hmem

lemma BlkInv.ret {call : SyncCall ι} (h : BlkInv s) (hcall : s.call = some call)
    (hpc : call.pc = .returns)
    (hguard : call.asyncFailed = false → call.startError = call.submitFailed)
    (hstep : blkStep s .ret = some t) : BlkInv t := by
  have hphase := h.phase call hcall
  rw [hpc] at hphase
  have herror := h.error call hcall
  simp only [blkStep, hcall, hpc, if_true] at hstep
  obtain rfl := Option.some.inj hstep
  refine ⟨h.own, fun _ => hphase, nofun, nofun, fun result hresult => ?_, nofun,
    fun result hresult => ?_⟩
  · cases hresult
    exact Nat.le_refl _
  cases hresult
  simp only [herror]
  cases hasync : call.asyncFailed with
  | true => simp
  | false =>
    rw [hguard hasync]
    cases call.submitFailed <;> simp

lemma BlkInv.step {e : BlkEvent ι} (h : BlkInv s) (hguard : SyncGuard s e)
    (hstep : blkStep s e = some t) : BlkInv t := by
  cases e with
  | complete request failed => exact h.complete hstep
  | setInitial k =>
    cases hcall : s.call with
    | none =>
      simp only [blkStep, hcall] at hstep
      obtain rfl := Option.some.inj hstep
      exact ⟨h.own, fun _ => h.idle hcall, nofun, nofun, h.last, nofun, h.err⟩
    | some call =>
      simp only [blkStep, hcall] at hstep
      cases hstep
  | call thread =>
    cases hcall : s.call with
    | none =>
      simp only [blkStep, hcall] at hstep
      obtain rfl := Option.some.inj hstep
      obtain ⟨hwait, hnil⟩ := h.idle hcall
      refine ⟨fun r hr => ?_, nofun, fun c hc => ?_, fun c hc => ?_, fun r hr => ?_, fun r c hr _ => ?_,
        h.err⟩
      · rw [hnil] at hr
        cases hr
      · cases hc
        exact (Bool.or_false _).symm
      · cases hc
        exact ⟨hwait, by rw [hnil]; rfl⟩
      · exact Nat.le_succ_of_le (h.last r hr)
      · exact Nat.lt_succ_of_le (h.last r hr)
    | some call =>
      simp only [blkStep, hcall] at hstep
      cases hstep
  | submit failed =>
    cases hcall : s.call with
    | none =>
      simp only [blkStep, hcall] at hstep
      cases hstep
    | some call =>
      cases hpc : call.pc with
      | submits k =>
        simp only [blkStep, hcall, hpc] at hstep
        obtain rfl := Option.some.inj hstep
        exact h.submit hcall hpc
      | locks | sleeps | returns =>
        simp only [blkStep, hcall, hpc] at hstep
        cases hstep
  | lock =>
    cases hcall : s.call with
    | none =>
      simp only [blkStep, hcall] at hstep
      cases hstep
    | some call =>
      by_cases hpc : call.pc = .locks
      · exact h.lock hcall hpc (hguard call hcall) hstep
      · simp only [blkStep, hcall, if_neg hpc] at hstep
        cases hstep
  | ret =>
    cases hcall : s.call with
    | none =>
      simp only [blkStep, hcall] at hstep
      cases hstep
    | some call =>
      by_cases hpc : call.pc = .returns
      · exact h.ret hcall hpc (hguard call hcall) hstep
      · simp only [blkStep, hcall, if_neg hpc] at hstep
        cases hstep

omit [DecidableEq ι] in
lemma BlkInv.init {alloc : ℕ → Bool} {count : ℕ} {page : BlkPage ι}
    (h : blkioInit alloc count = .ok page) : BlkInv ⟨page, [], 0, none, none⟩ := by
  unfold blkioInit at h
  split at h
  · cases h
    exact ⟨nofun, fun _ => ⟨rfl, rfl⟩, nofun, nofun, nofun, nofun, nofun⟩
  · cases h

/-- `blkio_sync` waits for and reports all of its requests in each run that meets its guard. -/
theorem blkio_sync_complete {count : ℕ} (hs : (blkMachine ι count).Reach SyncGuard s) :
    CallsOk s := by
  have hinv : BlkInv s := by
    refine hs.invariant ?_ fun s e t h hguard hstep => h.step hguard hstep
    rintro _ ⟨alloc, page, hinit, rfl⟩
    exact .init hinit
  exact hinv.callsOk

/-- The first of two buffers is skipped; the request of the second fails after the caller has gone to
sleep. -/
theorem blkio_sync_complete_failed : ∃ s : BlkState ℕ, (blkMachine ℕ 2).Reach SyncGuard s ∧
    s.last = some ⟨1, some .eio, false, true⟩ ∧ s.pending = [] ∧ CallsOk s := by
  let start : BlkState ℕ := ⟨⟨⟨2#16, 0#16, false, []⟩, [false, false]⟩, [], 0, none, none⟩
  have hrun : (((blkMachine ℕ 2).restrict fun s e => decide (SyncGuard s e)).run start
      [.setInitial 0, .call 7, .submit false, .submit false, .submit false, .lock,
        .complete ⟨1, 1⟩ true, .ret]).map (fun s => (s.last, s.pending)) =
      some (some ⟨1, some .eio, false, true⟩, []) := by decide +kernel
  obtain ⟨s, hs, hend⟩ := Option.map_eq_some_iff.mp hrun
  obtain ⟨hlast, hnil⟩ := Prod.mk.inj hend
  have hinit : (blkMachine ℕ 2).init start := ⟨fun _ => true, _, rfl, rfl⟩
  have hreach : (blkMachine ℕ 2).Reach SyncGuard s :=
    Machine.Reachable.of_restrict (fun _ _ => of_decide_eq_true)
      (Machine.Reachable.run (.init hinit) _ hs)
  exact ⟨s, hreach, hlast, hnil, blkio_sync_complete hreach⟩

/-- On a page with one buffer the second call returns while its request is still with the device. A
first call whose only submission fails returns 0. -/
theorem blkio_sync_returns_early :
    (∃ s : BlkState ℕ, (blkMachine ℕ 1).Reachable s ∧ s.last = some ⟨2, none, false, false⟩ ∧
      s.pending = [⟨2, 0⟩] ∧ ¬CallsOk s) ∧
    ∃ s : BlkState ℕ, (blkMachine ℕ 1).Reachable s ∧ s.last = some ⟨1, none, true, false⟩ ∧
      ¬CallsOk s := by
  let start : BlkState ℕ := ⟨⟨⟨1#16, 0#16, false, []⟩, [false]⟩, [], 0, none, none⟩
  have hinit : (blkMachine ℕ 1).init start := ⟨fun _ => true, _, rfl, rfl⟩
  constructor
  · have hrun : ((blkMachine ℕ 1).run start
        [.call 7, .submit false, .submit false, .lock, .complete ⟨1, 0⟩ false, .ret,
          .call 7, .submit false, .submit false, .lock, .ret]).map (fun s => (s.last, s.pending)) =
        some (some ⟨2, none, false, false⟩, [⟨2, 0⟩]) := by decide +kernel
    obtain ⟨s, hs, hend⟩ := Option.map_eq_some_iff.mp hrun
    obtain ⟨hlast, hpending⟩ := Prod.mk.inj hend
    refine ⟨s, .run (.init hinit) _ hs, hlast, hpending, fun hok => ?_⟩
    exact hok.complete _ hlast ⟨2, 0⟩ (by simp [hpending]) rfl
  · have hrun : ((blkMachine ℕ 1).run start [.call 7, .submit true, .lock, .ret]).map (·.last) =
        some (some ⟨1, none, true, false⟩) := by decide +kernel
    obtain ⟨s, hs, hlast⟩ := Option.map_eq_some_iff.mp hrun
    refine ⟨s, .run (.init hinit) _ hs, hlast, fun hok => ?_⟩
    exact (hok.err _ hlast).mpr (.inl rfl) rfl

end Almos.Blkio
