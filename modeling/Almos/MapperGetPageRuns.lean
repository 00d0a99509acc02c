import Almos.MapperGetPage

/-!
# Runs of threads that get pages

In every interleaving each index has at most one thread that loads it, a page in the tree is loaded,
and nobody sleeps at a dummy that is gone.
-/
namespace Almos.PageLoad
open Radix

/-! ### What holds of the threads and the tree -/

def Pc.loads : Pc → Option ℕ
  | .alloc index => some index
  | .read index _ => some index
  | .failed index _ => some index
  | .loaded index _ => some index
  | _ => none

def Pc.holds : Pc → Option ℕ
  | .read _ p => some p
  | .failed _ page => page
  | .loaded _ p => some p
  | _ => none

def Pc.index : Pc → Option ℕ
  | .out => none
  | .look index => some index
  | .asleep index _ => some index
  | .alloc index => some index
  | .read index _ => some index
  | .failed index _ => some index
  | .loaded index _ => some index
  | .back index _ => some index

def Pc.awake : Pc → Bool
  | .asleep _ _ => false
  | _ => true

def Pc.Stands (s : MapperCache) : Pc → Prop
  | .read i p => (s.page p).index = i
  | .loaded i p => (s.page p).index = i ∧ s.data p = some i
  | .asleep i slot => s.store.map i = some slot ∧ ∃ o, slot = .dummy o
  | _ => True

/-- Every page of the tree is loaded, every dummy belongs to the thread that loads its index, and who
sleeps is in the queue of such a dummy. -/
structure Good (s : MapperCache) : Prop where
  inv : Inv s.store.tree s.store.map
  entry : ∀ i p, s.store.map i = some (.page p) →
    s.live p = true ∧ (s.page p).index = i ∧ (s.page p).inload = false ∧ s.data p = some i
  owner : ∀ i t, s.store.map i = some (.dummy t) ↔ (s.pc t).loads = some i
  held : ∀ t p, (s.pc t).holds = some p → s.live p = true ∧ ∀ i, s.store.map i ≠ some (.page p)
  once : ∀ t t' p, (s.pc t).holds = some p → (s.pc t').holds = some p → t = t'
  stands : ∀ t, (s.pc t).Stands s
  queued : ∀ slot t, t ∈ s.queue slot ↔ ∃ i, s.pc t = .asleep i slot
  accounted : ∀ p, s.live p = true →
    (∃ i, s.store.map i = some (.page p)) ∨ ∃ t, (s.pc t).holds = some p
  low : ∀ t i, (s.pc t).index = some i → i < 2 ^ 32
  lowMap : ∀ i, s.store.map i ≠ none → i < 2 ^ 32

section Steps
variable {s s' : MapperCache} {t i p : ℕ}

lemma Good.stands_at {pc : Pc} (h : Good s) (hpc : s.pc t = pc) : pc.Stands s := hpc ▸ h.stands t

lemma Good.low_at {pc : Pc} (h : Good s) (hpc : s.pc t = pc) (hindex : pc.index = some i) :
    i < 2 ^ 32 := h.low t i (hpc ▸ hindex)

lemma Pc.Stands.congr {pc : Pc} (h : pc.Stands s)
    (hpage : ∀ q, pc.holds = some q → (s'.page q).index = (s.page q).index ∧ s'.data q = s.data q)
    (hslot : ∀ j slot, pc = .asleep j slot → s'.store.map j = s.store.map j) : pc.Stands s' := by
  cases pc with
  | read j q => exact (hpage q rfl).1.trans h
  | loaded j q => exact ⟨(hpage q rfl).1.trans h.1, (hpage q rfl).2.trans h.2⟩
  | asleep j slot => exact ⟨(hslot j slot rfl).trans h.1, h.2⟩
  | _ => trivial

lemma Good.queue_dummy (h : Good s) (hloads : (s.pc t).loads = none) : s.queue (.dummy t) = [] := by
  rw [List.eq_nil_iff_forall_not_mem]
  intro u hu
  obtain ⟨j, hj⟩ := (h.queued _ _).mp hu
  have hmap := (h.stands_at hj).1
  rw [h.owner, hloads] at hmap
  cases hmap

lemma Good.setPage (h : Good s) {f : PageRec → PageRec} (hindex : ∀ r, (f r).index = r.index)
    (hinload : ∀ r, (f r).inload = r.inload) : Good (s.setPage p f) := by
  have hpage : ∀ q, ((s.setPage p f).page q).index = (s.page q).index ∧
      ((s.setPage p f).page q).inload = (s.page q).inload := fun q => by
    by_cases hq : q = p
    · subst hq
      simp [MapperCache.setPage, hindex, hinload]
    · simp [MapperCache.setPage, hq]
  refine ⟨h.inv, fun j q hq => ?_, h.owner, h.held, h.once, fun u => ?_, h.queued, h.accounted, h.low,
    h.lowMap⟩
  · rw [(hpage q).1, (hpage q).2]
    exact h.entry j q hq
  · exact (h.stands u).congr (fun q _ => ⟨(hpage q).1, rfl⟩) fun _ _ _ => rfl

lemma Good.setStore (h : Good s) {store : Radix.State Slot} (hinv : Inv store.tree store.map)
    (hsame : store.map = s.store.map) : Good { s with store := store } := by
  obtain ⟨tree, map⟩ := store
  obtain rfl : map = s.store.map := hsame
  exact ⟨hinv, h.entry, h.owner, h.held, h.once,
    fun u => (h.stands u).congr (fun _ _ => ⟨rfl, rfl⟩) fun _ _ _ => rfl, h.queued, h.accounted,
    h.low, h.lowMap⟩

/-- The slot of an index in a step of a thread: it stays, gets the dummy of the thread, or the dummy
goes and those that wait for it are woken. -/
inductive SlotMove (s s' : MapperCache) (t i : ℕ) (pc : Pc) : Prop
  | keep (hmap : s'.store.map i = s.store.map i) (hloads : pc.loads = (s.pc t).loads)
  | enter (hfree : s.store.map i = none) (hmap : s'.store.map i = some (.dummy t))
      (hbefore : (s.pc t).loads = none) (hloads : pc.loads = some i)
  | settle (hbefore : (s.pc t).loads = some i) (hloads : pc.loads = none)
      (hmap : ∀ slot, s'.store.map i = some slot → ∃ p, slot = .page p ∧ (s.pc t).holds = some p ∧
        (s'.page p).inload = false ∧ s'.live p = true ∧ (s'.page p).index = i ∧ s'.data p = some i)
      (hwoken : ∀ u j, s'.pc u ≠ .asleep j (.dummy t))

def PageKept (s s' : MapperCache) (q : ℕ) : Prop :=
  s'.live q = true ∧ (s'.page q).index = (s.page q).index ∧
    (s'.page q).inload = (s.page q).inload ∧ s'.data q = s.data q

structure Moves (s s' : MapperCache) (t i : ℕ) (pc : Pc) : Prop where
  inv : Inv s'.store.tree s'.store.map
  low : i < 2 ^ 32
  slot : SlotMove s s' t i pc
  map : ∀ j, j ≠ i → s'.store.map j = s.store.map j
  self : s'.pc t = pc
  others : ∀ u, u ≠ t → s'.pc u = s.pc u ∨ ∃ j, s.pc u = .asleep j (.dummy t) ∧ s'.pc u = .look j
  queue : ∀ slot u, u ∈ s'.queue slot ↔ ∃ j, s'.pc u = .asleep j slot
  page : ∀ q, s.live q = true → (s.pc t).holds ≠ some q → PageKept s s' q
  index : pc.index = none ∨ pc.index = some i
  stands : pc.Stands s'
  holds : ∀ q, pc.holds = some q → s'.live q = true ∧ s'.store.map i ≠ some (.page q) ∧
    ((s.pc t).holds = some q ∨ s.live q = false)
  kept : ∀ q, (s.pc t).holds = some q → s'.live q = true →
    pc.holds = some q ∨ s'.store.map i = some (.page q)
  live : ∀ q, s'.live q = true → s.live q = true ∨ pc.holds = some q

lemma Good.moves {pc : Pc} (h : Good s) (m : Moves s s' t i pc) : Good s' := by
  have hmap := m.map
  have hslot := m.slot
  have howner := h.owner i t
  have hself := m.self
  have hview : ∀ u, u ≠ t → (s'.pc u).loads = (s.pc u).loads ∧ (s'.pc u).holds = (s.pc u).holds ∧
      (s'.pc u).index = (s.pc u).index := fun u hu => by
    obtain hsame | ⟨j, hold, hnew⟩ := m.others u hu
    · rw [hsame]
      exact ⟨rfl, rfl, rfl⟩
    · rw [hold, hnew]
      exact ⟨rfl, rfl, rfl⟩
  -- what is in the tree and what other threads hold is not the page of this step
  have hentry : ∀ j q, s.store.map j = some (.page q) → s'.live q = true ∧
      (s'.page q).index = j ∧ (s'.page q).inload = false ∧ s'.data q = some j := fun j q hq => by
    obtain ⟨hlive, hindex, hinload, hdata⟩ := h.entry j q hq
    obtain ⟨hlive', hindex', hinload', hdata'⟩ := m.page q hlive fun hq' => (h.held t q hq').2 j hq
    exact ⟨hlive', hindex'.trans hindex, hinload'.trans hinload, hdata'.trans hdata⟩
  have hother : ∀ u q, u ≠ t → (s.pc u).holds = some q → s'.live q = true ∧
      (s'.page q).index = (s.page q).index ∧ s'.data q = s.data q := fun u q hu hq => by
    obtain ⟨hlive, hindex, -, hdata⟩ := m.page q (h.held u q hq).1 fun hq' => hu (h.once u t q hq hq')
    exact ⟨hlive, hindex, hdata⟩
  refine ⟨m.inv, fun j q hq => ?_, fun j u => ?_, fun u q hu => ?_, fun u v q hu hv => ?_,
    fun u => ?_, m.queue, fun q hq => ?_, fun u j hu => ?_, fun j hj => ?_⟩
  · have := hentry j q
    by_cases hj : j = i
    · subst hj
      obtain ⟨hsame, -⟩ | ⟨-, hnew, -, -⟩ | ⟨-, -, hsettle, -⟩ := hslot
      · grind
      · grind
      · have := hsettle _ hq
        grind
    · grind
  · have := h.owner j u
    have := hview u
    by_cases hj : j = i
    · subst hj
      obtain ⟨hsame, hloads⟩ | ⟨hfree, hnew, -, hloads⟩ | ⟨hbefore, hloads, hsettle, -⟩ := hslot
      · grind
      · grind
      · have := hsettle (.dummy u)
        grind
    · obtain ⟨-, hloads⟩ | ⟨-, -, hbefore, hloads⟩ | ⟨hbefore, hloads, -, -⟩ := hslot
      · grind
      · grind
      · grind
  · have := h.held u q
    have := hview u
    have := hother u q
    have := m.holds q
    refine ⟨by grind, fun j hj => ?_⟩
    by_cases hji : j = i
    · subst hji
      obtain ⟨hsame, -⟩ | ⟨-, hnew, -, -⟩ | ⟨-, -, hsettle, -⟩ := hslot
      · grind
      · grind
      · have := hsettle _ hj
        have := h.once u t q
        grind
    · have := h.held t q
      have := h.entry j q
      grind
  · have := h.once u v q
    have := h.once u t q
    have := h.once t v q
    have := h.held u q
    have := h.held v q
    have := hview u
    have := hview v
    have := m.holds q
    grind
  · by_cases hu : u = t
    · rw [hu, hself]
      exact m.stands
    · obtain hsame | ⟨j, -, hlook⟩ := m.others u hu
      · rw [hsame]
        refine (h.stands u).congr (fun q hq => (hother u q hu hq).2) fun j slot hj => ?_
        have := (h.stands_at hj).1
        obtain ⟨hsame, -⟩ | ⟨hfree, -, -, -⟩ | ⟨hbefore, -, -, hwoken⟩ := hslot
        · grind
        · grind
        · have := hwoken u j
          grind
      · rw [hlook]
        trivial
  · have := m.live q hq
    have := m.kept q
    obtain hlive | hhold := m.live q hq
    · obtain ⟨j, hj⟩ | ⟨u, hu⟩ := h.accounted q hlive
      · refine .inl ⟨j, ?_⟩
        obtain ⟨hsame, -⟩ | ⟨hfree, -, -, -⟩ | ⟨hbefore, -, -, -⟩ := hslot
        · grind
        · grind
        · grind
      · have := hview u
        grind
    · exact .inr ⟨t, by rw [hself, hhold]⟩
  · have := h.low u j
    have := hview u
    have := m.index
    have := m.low
    grind
  · have := h.lowMap j
    have := m.low
    grind

lemma Good.stay {pc : Pc} (h : Good s) (hlow : i < 2 ^ 32) (hstore : s'.store = s.store)
    (hqueue : s'.queue = s.queue) (hpc : s'.pc = Function.update s.pc t pc)
    (hawake' : pc.awake = true) {old : Pc} (hold : s.pc t = old) (hawake : old.awake = true)
    (hloads : pc.loads = old.loads)
    (hindex : pc.index = none ∨ pc.index = some i) (hstands : pc.Stands s')
    (hpage : ∀ q, s.live q = true → (s.pc t).holds ≠ some q → PageKept s s' q)
    (hholds : ∀ q, pc.holds = some q → s'.live q = true ∧
      ((s.pc t).holds = some q ∨ s.live q = false))
    (hkept : ∀ q, (s.pc t).holds = some q → pc.holds = some q)
    (hlive : ∀ q, s'.live q = true → s.live q = true ∨ pc.holds = some q) :
    Moves s s' t i pc := by
  subst hold
  have hself : s'.pc t = pc := by rw [hpc, Function.update_self]
  have hothers : ∀ u, u ≠ t → s'.pc u = s.pc u := fun u hu => by rw [hpc, Function.update_of_ne hu]
  have hmap : s'.store.map = s.store.map := by rw [hstore]
  refine ⟨by rw [hstore]; exact h.inv, hlow, .keep (by rw [hmap]) hloads, fun j _ => by rw [hmap],
    hself, fun u hu => .inl (hothers u hu), fun slot u => ?_, hpage, hindex, hstands, fun q hq => ?_,
    fun q hq _ => .inl (hkept q hq), hlive⟩
  · rw [hqueue, h.queued]
    by_cases hu : u = t
    · grind [Pc.awake]
    · rw [hothers u hu]
  · obtain ⟨hlive, hbefore⟩ := hholds q hq
    refine ⟨hlive, ?_, hbefore⟩
    rw [hmap]
    obtain hbefore | hfree := hbefore
    · exact (h.held t q hbefore).2 i
    · intro hj
      rw [(h.entry i q hj).1] at hfree
      cases hfree

lemma Good.goTo {old : Pc} (h : Good s) (pc : Pc) (hpc : s.pc t = old) (hlow : i < 2 ^ 32)
    (hindex : pc.index = none ∨ pc.index = some i) (hawake : old.awake = true) (hawake' : pc.awake = true)
    (hloads : pc.loads = old.loads) (hholds : pc.holds = old.holds) (hstands : pc.Stands s) :
    Moves s (s.goTo t pc) t i pc := by
  subst hpc
  refine h.stay hlow rfl rfl rfl hawake' rfl hawake hloads hindex ?_ (fun q hq _ => ⟨hq, rfl, rfl, rfl⟩)
    (fun q hq => ?_) (fun q hq => hholds.trans hq) fun q hq => .inl hq
  · cases pc with
    | asleep i slot => cases hawake'
    | _ => exact hstands
  · rw [hholds] at hq
    exact ⟨(h.held t q hq).1, .inl hq⟩

lemma Good.waitOn (h : Good s) (hpc : s.pc t = .look i) {o : ℕ}
    (hmap : s.store.map i = some (.dummy o)) :
    Moves s (s.waitOn t i (.dummy o)) t i (.asleep i (.dummy o)) := by
  refine ⟨h.inv, h.low_at hpc rfl, .keep rfl (by rw [hpc]; rfl), fun _ _ => rfl,
    Function.update_self .., fun u hu => .inl (Function.update_of_ne hu _ _), fun slot u => ?_,
    fun q hq _ => ⟨hq, rfl, rfl, rfl⟩, .inr rfl, ⟨hmap, o, rfl⟩,
    (fun q hq => by cases hq), fun q hq => ?_, fun q hq => .inl hq⟩
  · have hqueue : (s.waitOn t i (.dummy o)).queue slot =
        if slot = .dummy o then s.queue slot ++ [t] else s.queue slot := by
      by_cases hslot : slot = .dummy o
      · subst hslot
        simp [MapperCache.waitOn, MapperCache.goTo]
      · simp [MapperCache.waitOn, MapperCache.goTo, hslot]
    have hpc' : (s.waitOn t i (.dummy o)).pc u = if u = t then .asleep i (.dummy o) else s.pc u :=
      Function.update_apply ..
    have := h.queued slot u
    rw [hqueue, hpc']
    grind
  · rw [hpc] at hq
    cases hq

lemma Good.begin (h : Good s) (hpc : s.pc t = .look i) (hmap : s.store.map i = none)
    (store : Radix.State Slot) (hinv : Inv store.tree store.map)
    (hstore : store.map = Function.update s.store.map i (some (.dummy t))) :
    Moves s ({ s with queue := Function.update s.queue (.dummy t) [], store := store }.goTo t
      (.alloc i)) t i (.alloc i) := by
  have hloads : (s.pc t).loads = none := by rw [hpc]; rfl
  rw [← h.queue_dummy hloads, Function.update_eq_self]
  refine ⟨hinv, h.low_at hpc rfl, .enter hmap ?_ hloads rfl, fun j hj => ?_,
    Function.update_self .., fun u hu => .inl (Function.update_of_ne hu _ _), fun slot u => ?_,
    fun q hq _ => ⟨hq, rfl, rfl, rfl⟩, .inr rfl, trivial,
    (fun q hq => by cases hq), fun q hq => ?_, fun q hq => .inl hq⟩
  · exact (congrFun hstore i).trans (Function.update_self ..)
  · exact (congrFun hstore j).trans (Function.update_of_ne hj _ _)
  · have hpc' : (({ s with store := store } : MapperCache).goTo t (.alloc i)).pc u =
        if u = t then .alloc i else s.pc u := Function.update_apply ..
    have := h.queued slot u
    change u ∈ s.queue slot ↔ _
    rw [hpc']
    grind
  · rw [hpc] at hq
    cases hq

lemma Good.allocSome (h : Good s) (hpc : s.pc t = .alloc i) (hfree : s.live p = false) :
    Moves s (s.allocPage t i (some p)) t i (.read i p) := by
  refine h.stay (h.low_at hpc rfl) rfl rfl rfl rfl hpc rfl rfl
    (.inr rfl) ?_ (fun q hq _ => ?_) (fun q hq => ?_) (fun q hq => ?_)
    fun q hq => ?_
  · simp [Pc.Stands, MapperCache.allocPage, MapperCache.goTo, MapperCache.setPage]
  · have hqp : q ≠ p := by
      rintro rfl
      rw [hfree] at hq
      cases hq
    simp [PageKept, MapperCache.allocPage, MapperCache.goTo, MapperCache.setPage, hqp, hq]
  · cases hq
    exact ⟨Function.update_self .., .inr hfree⟩
  · rw [hpc] at hq
    cases hq
  · by_cases hqp : q = p
    · exact .inr (congrArg some hqp.symm)
    · exact .inl ((Function.update_of_ne hqp _ _).symm.trans hq)

lemma Good.readOk (h : Good s) (hpc : s.pc t = .read i p) :
    Moves s (s.readPage t i p true) t i (.loaded i p) := by
  have hindex : (s.page p).index = i := h.stands_at hpc
  have hholds : (s.pc t).holds = some p := by rw [hpc]; rfl
  refine h.stay (h.low_at hpc rfl) rfl rfl rfl rfl hpc rfl rfl
    (.inr rfl) ⟨hindex, ?_⟩ (fun q hq hne => ?_) (fun q hq => ?_)
    (fun q hq => hholds.symm.trans hq) fun q hq => .inl hq
  · exact (Function.update_self ..).trans (congrArg some hindex)
  · refine ⟨hq, rfl, rfl, Function.update_of_ne ?_ _ _⟩
    rintro rfl
    exact hne hholds
  · cases hq
    exact ⟨(h.held t p hholds).1, .inl hholds⟩

/-- The sleepers of a queue are those that wait for it, so they all look again. -/
lemma Good.wakeupAll_pc (h : Good s) (slot : Slot) (u : ℕ) : (s.wakeupAll slot).pc u = s.pc u ∧
      (∀ j, s.pc u ≠ .asleep j slot) ∨
    ∃ j, s.pc u = .asleep j slot ∧ (s.wakeupAll slot).pc u = .look j := by
  by_cases hu : u ∈ s.queue slot
  · obtain ⟨j, hj⟩ := (h.queued slot u).mp hu
    refine .inr ⟨j, hj, ?_⟩
    simp [MapperCache.wakeupAll, hu, hj, MapperCache.resume]
  · refine .inl ⟨?_, fun j hj => hu ((h.queued slot u).mpr ⟨j, hj⟩)⟩
    simp [MapperCache.wakeupAll, hu]

/-- A thread that loads puts its page in the slot of its dummy, or takes the dummy out, and wakes who
waits for it. -/
lemma Good.settle (h : Good s) (slot : Option Slot) {result : Option ℕ}
    (hloads : (s.pc t).loads = some i) (hinv : Inv s'.store.tree s'.store.map)
    (hmap : s'.store.map = Function.update s.store.map i slot)
    (hpc : s'.pc = Function.update (s.wakeupAll (.dummy t)).pc t (.back i result))
    (hqueue : s'.queue = Function.update s.queue (.dummy t) [])
    (hslot : ∀ x, slot = some x → ∃ p, x = .page p ∧ (s.pc t).holds = some p ∧
      (s'.page p).inload = false ∧ s'.live p = true ∧ (s'.page p).index = i ∧ s'.data p = some i)
    (hpage : ∀ q, s.live q = true → (s.pc t).holds ≠ some q → PageKept s s' q)
    (hkept : ∀ q, (s.pc t).holds = some q → s'.live q = true → slot = some (.page q))
    (hlive : ∀ q, s'.live q = true → s.live q = true) : Moves s s' t i (.back i result) := by
  have hmap' : s'.store.map i = slot := (congrFun hmap i).trans (Function.update_self ..)
  have hself : s'.pc t = .back i result := (congrFun hpc t).trans (Function.update_self ..)
  have hothers : ∀ u, u ≠ t → s'.pc u = (s.wakeupAll (.dummy t)).pc u := fun u hu =>
    (congrFun hpc u).trans (Function.update_of_ne hu _ _)
  have hwoken := h.wakeupAll_pc (.dummy t)
  refine ⟨hinv, h.lowMap i (by simp [(h.owner i t).mpr hloads]),
    .settle hloads rfl (by rw [hmap']; exact hslot) fun u j => ?_,
    fun j hj => (congrFun hmap j).trans (Function.update_of_ne hj _ _), hself, fun u hu => ?_,
    fun q u => ?_, hpage, .inr rfl, trivial, (fun q hq => by cases hq),
    fun q hq hlive => .inr (hmap'.trans (hkept q hq hlive)), fun q hq => .inl (hlive q hq)⟩
  · have := hwoken u
    have := hothers u
    grind
  · have := hwoken u
    have := hothers u hu
    grind
  · have := hwoken u
    have := hothers u
    rw [hqueue]
    by_cases hq : q = .dummy t
    · subst hq
      grind
    · rw [Function.update_of_ne hq, h.queued]
      grind [Pc.loads]

lemma Good.removed (h : Good s) (hmap : s.store.map i = some (.page p)) {store : Radix.State Slot}
    (hinv : Inv store.tree store.map) (hstore : store.map = Function.update s.store.map i none) :
    Good ({ s with store := store }.freePage p) := by
  obtain ⟨s', hs'⟩ : ∃ s', s' = ({ s with store := store }.freePage p) := ⟨_, rfl⟩
  have hmap' : ∀ j, s'.store.map j = if j = i then none else s.store.map j := fun j => by
    simp [hs', MapperCache.freePage, MapperCache.setPage, hstore, Function.update_apply]
  have hlive : ∀ q, s'.live q = if q = p then false else s.live q := fun q => by
    simp [hs', MapperCache.freePage, MapperCache.setPage, Function.update_apply]
  have hpage : ∀ q, (s'.page q).index = (s.page q).index ∧ (s'.page q).inload = (s.page q).inload :=
    fun q => by
      by_cases hq : q = p
      · subst hq
        simp [hs', MapperCache.freePage, MapperCache.setPage]
      · simp [hs', MapperCache.freePage, MapperCache.setPage, hq]
  have hsame : s'.pc = s.pc ∧ s'.queue = s.queue ∧ s'.data = s.data := by
    rw [hs']
    exact ⟨rfl, rfl, rfl⟩
  obtain ⟨hpc, hqueue, hdata⟩ := hsame
  have hinv' : Inv s'.store.tree s'.store.map := by
    rw [hs']
    exact hinv
  rw [← hs']
  have honly : ∀ j, s.store.map j = some (.page p) → j = i := fun j hj =>
    (h.entry j p hj).2.1.symm.trans (h.entry i p hmap).2.1
  have hnotHeld : ∀ u, (s.pc u).holds ≠ some p := fun u hu => (h.held u p hu).2 i hmap
  refine ⟨hinv', fun j q hq => ?_, fun j u => ?_, fun u q hu => ?_, by rw [hpc]; exact h.once,
    fun u => ?_, by rw [hpc, hqueue]; exact h.queued, fun q hq => ?_, by rw [hpc]; exact h.low,
    fun j hj => ?_⟩
  · rw [hmap'] at hq
    rw [hlive, (hpage q).1, (hpage q).2, hdata]
    have := h.entry j q
    have := honly j
    grind
  · rw [hpc, hmap']
    have := h.owner j u
    grind
  · rw [hpc] at hu
    rw [hlive]
    simp only [hmap']
    have := h.held u q hu
    have := hnotHeld u
    grind
  · rw [hpc]
    refine (h.stands u).congr (fun q _ => ⟨(hpage q).1, by rw [hdata]⟩) fun j slot hj => ?_
    obtain ⟨hslot, o, rfl⟩ := h.stands_at hj
    rw [hmap']
    grind
  · rw [hlive] at hq
    simp only [hmap', hpc]
    have := h.accounted q
    grind
  · rw [hmap'] at hj
    have := h.lowMap j
    grind

def Returns (s : MapperCache) (t i p : ℕ) : Prop :=
  s.pc t = .back i (some p) ∧ s.store.map i = some (.page p) ∧ s.live p = true ∧ s.data p = some i

def Answers (s s' : MapperCache) : Prop :=
  ∀ u j q, s'.pc u = .back j (some q) → s.pc u = .back j (some q) ∨ Returns s' u j q

lemma Moves.answers {pc : Pc} (m : Moves s s' t i pc)
    (hback : ∀ j q, pc = .back j (some q) → Returns s' t j q) : Answers s s' := by
  intro u j q hu
  have hself := m.self
  by_cases hut : u = t
  · subst hut
    exact .inr (hback j q (hself.symm.trans hu))
  · have := m.others u hut
    grind

lemma Good.takes {pc : Pc} (h : Good s) (m : Moves s s' t i pc)
    (hback : ∀ j q, pc = .back j (some q) → Returns s' t j q) : Good s' ∧ Answers s s' :=
  ⟨h.moves m, m.answers hback⟩

lemma insertDummy_spec (h : Good s) (hpc : s.pc t = .look i) (hmap : s.store.map i = none)
    {allocs : List ℕ} (hfresh : Fresh s.store.tree allocs) (deleted : Bool) :
    ∃ s', s.insertDummy t i allocs deleted = some s' ∧ Good s' ∧ Answers s s' := by
  have hlow := h.low_at hpc rfl
  obtain ⟨lay, hrep⟩ := h.inv.rep
  have hlookup := radixItemInfoLookup_spec hrep h.inv.maxKey hlow
  cases hinfo : (lay 0 (i / 64)).map fun a => (⟨a, i, i % 64⟩ : RadixItemInfo) with
  | some info =>
    rw [hinfo] at hlookup
    obtain ⟨hinv, hmap'⟩ := infoInsert_inv h.inv hlow hmap hlookup (.dummy t)
    refine ⟨_, ?_, h.takes (h.begin hpc hmap _ (hmap' ▸ hinv) hmap') fun j q hj => by cases hj⟩
    simp only [MapperCache.insertDummy, hlookup, Option.bind_eq_bind, Option.bind_some]
  | none =>
    rw [hinfo] at hlookup
    obtain ⟨tree, out, hinsert, hout⟩ := radixTreeInsert_spec h.inv hlow (.dummy t) hfresh
    by_cases hzero : out = 0
    · have hinv : Inv tree (Function.update s.store.map i (some (.dummy t))) := by
        obtain ⟨-, -, hinv⟩ | ⟨hexist, -⟩ | ⟨hnomem, -⟩ := hout
        · exact hinv
        · exact absurd (hzero.symm.trans hexist) (by decide)
        · exact absurd (hzero.symm.trans hnomem) (by decide)
      refine ⟨_, ?_, h.takes (h.begin hpc hmap
        ⟨tree, Function.update s.store.map i (some (.dummy t))⟩ hinv rfl) fun j q hj => by cases hj⟩
      simp only [MapperCache.insertDummy, hlookup, hinsert, Option.bind_eq_bind, Option.bind_some,
        hzero, ne_eq, not_true, if_false]
    · have hinv : Inv tree s.store.map := by
        obtain ⟨hzero', -⟩ | ⟨-, -, hinv⟩ | ⟨-, -, hinv⟩ := hout
        · exact absurd hzero' hzero
        · exact hinv
        · exact hinv
      obtain ⟨store, hdelete, hinv', hmap'⟩ := treeDelete_inv ⟨tree, s.store.map⟩ hinv hlow deleted
        fun hne => absurd hmap hne
      have hsame : store.map = s.store.map := by
        rw [hmap', ← hmap]
        exact Function.update_eq_self _ _
      have hqueue : Function.update s.queue (.dummy t) [] = s.queue := by
        rw [← h.queue_dummy (t := t) (by rw [hpc]; rfl)]
        exact Function.update_eq_self _ _
      have hmove := (h.setStore hinv' hsame).goTo (.back i none) hpc hlow
        (.inr rfl) rfl rfl rfl rfl trivial
      refine ⟨_, ?_, (h.setStore hinv' hsame).takes hmove fun j q hj => by cases hj⟩
      simp only [MapperCache.insertDummy, hlookup, hinsert, Option.bind_eq_bind, Option.bind_some,
        hzero, ne_eq, not_false_eq_true, if_true, hdelete, hqueue]

lemma lookup_spec (h : Good s) (hpc : s.pc t = .look i) {allocs : List ℕ}
    (hfresh : Fresh s.store.tree allocs) (deleted : Bool) :
    ∃ s', s.lookup t i allocs deleted = some s' ∧ Good s' ∧ Answers s s' := by
  have hlow := h.low_at hpc rfl
  have hlookup := radixTreeLookup_spec h.inv hlow
  cases hmap : s.store.map i with
  | none =>
    obtain ⟨s', hs', hspec⟩ := insertDummy_spec h hpc hmap hfresh deleted
    refine ⟨s', ?_, hspec⟩
    rw [MapperCache.lookup, hlookup, hmap]
    exact hs'
  | some slot =>
    cases slot with
    | dummy o =>
      refine ⟨s.waitOn t i (.dummy o), ?_, h.takes (h.waitOn hpc hmap) fun j q hj => by cases hj⟩
      rw [MapperCache.lookup, hlookup, hmap]
      rfl
    | page p =>
      obtain ⟨-, -, hinload, -⟩ := h.entry i p hmap
      obtain ⟨s₁, hs₁⟩ : ∃ s₁, s₁ =
          if (s.page p).migrate then s.setPage p ({ · with migrate := false }) else s := ⟨_, rfl⟩
      have h₁ : Good s₁ ∧ s₁.store = s.store ∧ s₁.pc = s.pc := by
        rw [hs₁]
        split_ifs
        · exact ⟨h.setPage (fun _ => rfl) fun _ => rfl, rfl, rfl⟩
        · exact ⟨h, rfl, rfl⟩
      obtain ⟨h₁, hstore, hpc₁⟩ := h₁
      have hmap₁ : s₁.store.map i = some (.page p) := by rw [hstore, hmap]
      obtain ⟨hlive, -, -, hdata⟩ := h₁.entry i p hmap₁
      have hlook : s₁.pc t = .look i := by rw [hpc₁, hpc]
      have hmove := h₁.goTo (.back i (some p)) hlook hlow
        (.inr rfl) rfl rfl rfl rfl trivial
      obtain ⟨hgood, hanswers⟩ := h₁.takes hmove fun j q hj => by
        cases hj
        exact ⟨MapperCache.goTo_self _ _ _, hmap₁, hlive, hdata⟩
      refine ⟨s₁.goTo t (.back i (some p)), ?_, hgood, fun u j q hu => hpc₁ ▸ hanswers u j q hu⟩
      rw [MapperCache.lookup, hlookup, hmap]
      simp only [Option.bind_eq_bind, Option.bind_some, hinload, Bool.false_eq_true, if_false, hs₁]

lemma withdraw_spec (h : Good s) {page : Option ℕ} (hpc : s.pc t = .failed i page) {deleted : Bool}
    (hok : DeleteOk s.store.tree s.store.map i deleted) :
    ∃ s', s.withdraw t i page deleted = some s' ∧ Good s' ∧ Answers s s' := by
  have hlow := h.low_at hpc rfl
  obtain ⟨store, hdelete, hinv, hmap⟩ := treeDelete_inv s.store h.inv hlow deleted fun _ => hok
  obtain ⟨s₁, hs₁⟩ : ∃ s₁, s₁ = { s with store := store }.wakeupAll (.dummy t) := ⟨_, rfl⟩
  have hholds : (s.pc t).holds = page := by rw [hpc]; rfl
  have hloads : (s.pc t).loads = some i := by rw [hpc]; rfl
  have hmove : Moves s ((page.elim s₁ s₁.freePage).goTo t (.back i none)) t i (.back i none) := by
    subst hs₁
    cases page with
    | none =>
      refine h.settle none hloads hinv hmap rfl rfl (fun x hx => ?_) (fun q hq _ => ⟨hq, rfl, rfl, rfl⟩)
        (fun q hq => ?_) fun q hq => hq
      · cases hx
      · rw [hholds] at hq
        cases hq
    | some p =>
      refine h.settle none hloads hinv hmap rfl rfl (fun x hx => ?_) (fun q hq hne => ?_)
        (fun q hq hlive => ?_) fun q hq => ?_
      · cases hx
      · have hqp : q ≠ p := by
          rintro rfl
          exact hne hholds
        exact ⟨(Function.update_of_ne hqp _ _).trans hq,
          congrArg PageRec.index (Function.update_of_ne hqp _ _),
          congrArg PageRec.inload (Function.update_of_ne hqp _ _), rfl⟩
      · obtain rfl := Option.some.inj (hholds.symm.trans hq)
        rw [Option.elim, MapperCache.goTo, MapperCache.freePage, MapperCache.setPage] at hlive
        simp at hlive
      · by_cases hqp : q = p
        · subst hqp
          exact (h.held t q hholds).1
        · exact (Function.update_of_ne hqp _ _).symm.trans hq
  refine ⟨(page.elim s₁ s₁.freePage).goTo t (.back i none), ?_, h.takes hmove fun j q hj => by cases hj⟩
  simp only [MapperCache.withdraw, hdelete, Option.bind_eq_bind, Option.bind_some, hs₁]

lemma publish_spec (h : Good s) (hpc : s.pc t = .loaded i p) :
    ∃ s', s.publish t i p = some s' ∧ Good s' ∧ Answers s s' := by
  have hlow := h.low_at hpc rfl
  have hholds : (s.pc t).holds = some p := by rw [hpc]; rfl
  have hloads : (s.pc t).loads = some i := by rw [hpc]; rfl
  have hmap := (h.owner i t).mpr hloads
  have hlookup := radixTreeLookup_spec h.inv hlow
  rw [hmap] at hlookup
  obtain ⟨hindex, hdata⟩ := h.stands_at hpc
  have hlive := (h.held t p hholds).1
  obtain ⟨info, hinfo, hinv, hset⟩ := infoSet_inv h.inv hlow (by simp [hmap]) (.page p)
  obtain ⟨s', hs'⟩ : ∃ s', s' = ((({ s with store := MapperCache.infoSet s.store info (.page p) }.setPage p
      ({ · with inload := false })).wakeupAll (.dummy t)).goTo t (.back i (some p))) := ⟨_, rfl⟩
  have hself : s'.page p = { s.page p with inload := false } := by
    rw [hs']
    exact Function.update_self ..
  have hmove : Moves s s' t i (.back i (some p)) := by
    refine h.settle (some (.page p)) hloads (by rw [hs']; exact hinv) (by rw [hs']; exact hset)
      (by rw [hs']; rfl) (by rw [hs']; rfl) (fun x hx => ?_) (fun q hq hne => ?_) (fun q hq _ => ?_)
      fun q hq => ?_
    · refine ⟨p, (Option.some.inj hx).symm, hholds, ?_, ?_, ?_, ?_⟩
      · rw [hself]
      · rw [hs']
        exact hlive
      · rw [hself]
        exact hindex
      · rw [hs']
        exact hdata
    · have hqp : s'.page q = s.page q := by
        rw [hs']
        refine Function.update_of_ne ?_ _ _
        rintro rfl
        exact hne hholds
      rw [PageKept, hqp, hs']
      exact ⟨hq, rfl, rfl, rfl⟩
    · rw [Option.some.inj (hholds.symm.trans hq)]
    · rw [hs'] at hq
      exact hq
  have hentry : s'.store.map i = some (.page p) := by
    rw [hs']
    exact (congrFun hset i).trans (Function.update_self ..)
  refine ⟨s', ?_, h.takes hmove fun j q hj => ?_⟩
  · simp only [MapperCache.publish, hinfo, hlookup, Option.bind_eq_bind, Option.bind_some, if_true, hs']
  · cases hj
    obtain ⟨hlive', -, -, hdata'⟩ := (h.moves hmove).entry i p hentry
    exact ⟨hmove.self, hentry, hlive', hdata'⟩

def Due (s : MapperCache) : Event → Prop
  | .call t _ => s.pc t = .out
  | .lookup t _ _ => ∃ i, s.pc t = .look i
  | .alloc t _ => ∃ i, s.pc t = .alloc i
  | .read t _ => ∃ i p, s.pc t = .read i p
  | .withdraw t _ => ∃ i page, s.pc t = .failed i page
  | .publish t => ∃ i p, s.pc t = .loaded i p
  | .leave t => ∃ i page, s.pc t = .back i page
  | .mark _ => True
  | .remove _ _ => True

/-- A step that is due goes through, and a call returns the page that is in the tree. -/
lemma step_spec (h : Good s) {e : Event} (hok : Ok s e) (hdue : Due s e) :
    ∃ s', step s e = some s' ∧ Good s' ∧ Answers s s' := by
  cases e with
  | call t i =>
    have hpc : s.pc t = .out := hdue
    have hmove := h.goTo (.look i) hpc hok (.inr rfl) rfl rfl rfl
      rfl trivial
    exact ⟨_, by simp only [step, hpc], h.takes hmove fun j q hj => by cases hj⟩
  | lookup t allocs deleted =>
    obtain ⟨i, hpc⟩ := hdue
    obtain ⟨s', hs', hspec⟩ := lookup_spec h hpc hok deleted
    exact ⟨s', by simpa only [step, hpc] using hs', hspec⟩
  | alloc t page =>
    obtain ⟨i, hpc⟩ := hdue
    refine ⟨s.allocPage t i page, by simp only [step, hpc], ?_⟩
    cases page with
    | none =>
      refine h.takes (h.goTo _ hpc (h.low_at hpc rfl) (.inr rfl)
        rfl rfl rfl rfl trivial) fun j q hj => by cases hj
    | some p => exact h.takes (h.allocSome hpc (hok p rfl)) fun j q hj => by cases hj
  | read t ok =>
    obtain ⟨i, p, hpc⟩ := hdue
    refine ⟨s.readPage t i p ok, by simp only [step, hpc], ?_⟩
    cases ok with
    | false =>
      refine h.takes (h.goTo _ hpc (h.low_at hpc rfl) (.inr rfl)
        rfl rfl rfl rfl trivial) fun j q hj => by cases hj
    | true => exact h.takes (h.readOk hpc) fun j q hj => by cases hj
  | withdraw t deleted =>
    obtain ⟨i, page, hpc⟩ := hdue
    obtain ⟨s', hs', hspec⟩ := withdraw_spec h hpc (hok i page hpc)
    exact ⟨s', by simpa only [step, hpc] using hs', hspec⟩
  | publish t =>
    obtain ⟨i, p, hpc⟩ := hdue
    obtain ⟨s', hs', hspec⟩ := publish_spec h hpc
    exact ⟨s', by simpa only [step, hpc] using hs', hspec⟩
  | leave t =>
    obtain ⟨i, page, hpc⟩ := hdue
    have hmove := h.goTo (i := i) .out hpc (h.low_at hpc rfl) (.inl rfl)
      rfl rfl rfl rfl trivial
    exact ⟨_, by simp only [step, hpc], h.takes hmove fun j q hj => by cases hj⟩
  | mark page =>
    exact ⟨_, rfl, h.setPage (fun _ => rfl) fun _ => rfl, fun u j q hu => .inl hu⟩
  | remove p deleted =>
    obtain ⟨hmap, hdelete⟩ := hok
    have hlow := h.lowMap _ (by rw [hmap]; exact Option.some_ne_none _)
    obtain ⟨store, htree, hinv, hstore⟩ := treeDelete_inv s.store h.inv hlow deleted fun _ => hdelete
    refine ⟨{ s with store := store }.freePage p, ?_, h.removed hmap hinv hstore,
      fun u j q hu => .inl hu⟩
    simp only [step, MapperCache.removePage, htree, Option.bind_eq_bind, Option.bind_some]

lemma due_of_step {e : Event} (h : step s e = some s') : Due s e := by
  cases e with
  | call t i =>
    cases hpc : s.pc t with
    | out => exact hpc
    | _ => simp [step, hpc] at h
  | lookup t allocs deleted =>
    cases hpc : s.pc t with
    | look i => exact ⟨i, hpc⟩
    | _ => simp [step, hpc] at h
  | alloc t page =>
    cases hpc : s.pc t with
    | alloc i => exact ⟨i, hpc⟩
    | _ => simp [step, hpc] at h
  | read t ok =>
    cases hpc : s.pc t with
    | read i p => exact ⟨i, p, hpc⟩
    | _ => simp [step, hpc] at h
  | withdraw t deleted =>
    cases hpc : s.pc t with
    | failed i page => exact ⟨i, page, hpc⟩
    | _ => simp [step, hpc] at h
  | publish t =>
    cases hpc : s.pc t with
    | loaded i p => exact ⟨i, p, hpc⟩
    | _ => simp [step, hpc] at h
  | leave t =>
    cases hpc : s.pc t with
    | back i page => exact ⟨i, page, hpc⟩
    | _ => simp [step, hpc] at h
  | mark page => trivial
  | remove p deleted => trivial

lemma good_reach (h : mapperCache.Reach Ok s) : Good s := by
  refine h.invariant (I := Good) (fun s hs => ?_) fun s e s' hgood hok hstep => ?_
  · obtain ⟨⟨heap, hstore⟩, hlive, hpc, hqueue⟩ := hs
    have hmap : ∀ i, s.store.map i = none := fun i => by rw [hstore]
    refine ⟨?_, fun i p hi => ?_, fun i t => ?_, fun t p ht => ?_, fun t u p ht => ?_, fun t => ?_,
      fun slot t => ?_, fun p hp => ?_, fun t i ht => ?_, fun i hi => absurd (hmap i) hi⟩
    · rw [hstore]
      exact inv_init heap
    · simp [hmap] at hi
    · simp [hmap, hpc, Pc.loads]
    · simp [hpc, Pc.holds] at ht
    · simp [hpc, Pc.holds] at ht
    · rw [hpc]
      trivial
    · simp [hqueue, hpc]
    · simp [hlive] at hp
    · simp [hpc, Pc.index] at ht
  · obtain ⟨t, ht, hgood', -⟩ := step_spec hgood hok (due_of_step hstep)
    obtain rfl := Option.some.inj (ht.symm.trans hstep)
    exact hgood'

/-- What the callers of `mapper_get_page` may count on in every state. -/
structure CacheSound (s : MapperCache) : Prop where
  tree : ∀ i < 2 ^ 32, radixTreeLookup s.store.tree i = some (s.store.map i)
  entry : ∀ i p, s.store.map i = some (.page p) →
    s.live p = true ∧ (s.page p).index = i ∧ (s.page p).inload = false ∧ s.data p = some i
  loader : ∀ t u i, (s.pc t).loads = some i → (s.pc u).loads = some i → t = u
  asleep : ∀ t i slot, s.pc t = .asleep i slot →
    ∃ o, slot = .dummy o ∧ (s.pc o).loads = some i ∧ t ∈ s.queue slot
  accounted : ∀ p, s.live p = true ↔
    (∃ i, s.store.map i = some (.page p)) ∨ ∃ t, (s.pc t).holds = some p
  own : ∀ t p, (s.pc t).holds = some p →
    (∀ i, s.store.map i ≠ some (.page p)) ∧ ∀ u, (s.pc u).holds = some p → t = u
  progress : ∀ e, Ok s e → Due s e → (step s e).isSome
  result : ∀ e s', Ok s e → step s e = some s' → Answers s s'

/-- In every interleaving of calls, with failures at any place, an index has one thread at most that
loads it, the others wait for that thread, and a call returns the page of its index in the tree. -/
theorem mapper_get_page_runs (h : mapperCache.Reach Ok s) : CacheSound s := by
  have hgood := good_reach h
  refine ⟨fun i hi => radixTreeLookup_spec hgood.inv hi, hgood.entry, fun t u i ht hu => ?_,
    fun t i slot ht => ?_, fun p => ⟨hgood.accounted p, ?_⟩,
    fun t p ht => ⟨(hgood.held t p ht).2, fun u hu => hgood.once t u p ht hu⟩,
    fun e hok hdue => ?_, fun e s' hok hstep => ?_⟩
  · have ht' := (hgood.owner i t).mpr ht
    have hu' := (hgood.owner i u).mpr hu
    rw [ht'] at hu'
    cases hu'
    rfl
  · obtain ⟨hmap, o, rfl⟩ := hgood.stands_at ht
    exact ⟨o, rfl, (hgood.owner i o).mp hmap, (hgood.queued _ t).mpr ⟨i, ht⟩⟩
  · rintro (⟨i, hi⟩ | ⟨t, ht⟩)
    · exact (hgood.entry i p hi).1
    · exact (hgood.held t p ht).1
  · obtain ⟨s', hs', -⟩ := step_spec hgood hok hdue
    exact Option.isSome_iff_exists.mpr ⟨s', hs'⟩
  · obtain ⟨s'', hs'', -, hanswers⟩ := step_spec hgood hok (due_of_step hstep)
    obtain rfl := Option.some.inj (hs''.symm.trans hstep)
    exact hanswers

end Steps

/-! ### A page that is loaded after a failure -/

def emptyMapper : MapperCache where
  store := ⟨radixTreeInit ⟨none, 0, 0, fun _ => zeroNode, fun _ => false⟩, fun _ => none⟩
  page _ := ⟨false, false, false, 0⟩
  live _ := false
  data _ := none
  pc _ := .out
  queue _ := []

/-- Conditions of `Ok` that can be computed. -/
def easy (s : MapperCache) : Event → Bool
  | .call _ index => index < 2 ^ 32
  | .lookup _ allocs _ => Fresh s.store.tree allocs
  | .alloc _ page => page.all fun p => s.live p = false
  | .withdraw t deleted =>
      (s.pc t).loads.all fun index => deleteTest s.store.tree s.store.map index deleted
  | .remove p deleted => s.store.map (s.page p).index = some (.page p) &&
      deleteTest s.store.tree s.store.map (s.page p).index deleted
  | _ => true

lemma ok_of_easy (s : MapperCache) (e : Event) (h : easy s e = true) : Ok s e := by
  cases e with
  | call t index =>
    have hindex : index < 2 ^ 32 := of_decide_eq_true h
    exact hindex
  | lookup t allocs deleted =>
    have hfresh : Fresh s.store.tree allocs := of_decide_eq_true h
    exact hfresh
  | alloc t page =>
    rintro p rfl
    simpa [easy] using h
  | read t ok => trivial
  | withdraw t deleted =>
    intro index page hpc
    rw [easy, hpc] at h
    exact deleteOk_of_test h
  | publish t => trivial
  | leave t => trivial
  | mark page => trivial
  | remove page deleted =>
    simp only [easy, Bool.and_eq_true, decide_eq_true_eq] at h
    exact ⟨h.1, deleteOk_of_test h.2⟩

/-- Page 7 is loaded at index 6. At index 5 thread 3 sleeps at the dummy of thread 2 until the read of
thread 2 fails, loads page 9 itself, and page 9 is removed. -/
def threeThreads : List Event :=
  [.call 1 6, .lookup 1 (supply 100) false, .alloc 1 (some 7), .read 1 true, .publish 1,
    .call 2 5, .call 3 5, .lookup 2 [] false, .lookup 3 [] false, .alloc 2 (some 8), .read 2 false,
    .withdraw 2 false, .lookup 3 [] false, .alloc 3 (some 9), .read 3 true, .publish 3,
    .remove 9 false]

theorem mapper_get_page_runs_failed : ∃ s,
    (mapperCache.restrict easy).run emptyMapper threeThreads = some s ∧
      s.pc 2 = .back 5 none ∧ s.pc 3 = .back 5 (some 9) ∧ CacheSound s ∧ s.live 8 = false ∧
        radixTreeLookup s.store.tree 5 = some none ∧
          radixTreeLookup s.store.tree 6 = some (some (.page 7)) := by
  have heval : ((mapperCache.restrict easy).run emptyMapper threeThreads).map (fun s =>
      decide (s.pc 2 = .back 5 none ∧ s.pc 3 = .back 5 (some 9) ∧ s.live 8 = false) &&
        decide (s.store.map 5 = none ∧ s.store.map 6 = some (.page 7))) = some true := by
    decide +kernel
  obtain ⟨s, hs, htest⟩ := Option.map_eq_some_iff.mp heval
  simp only [Bool.and_eq_true, decide_eq_true_eq] at htest
  obtain ⟨⟨hfailed, hloaded, hfree⟩, hremoved, hkept⟩ := htest
  have hinit : mapperCache.init emptyMapper := ⟨⟨_, rfl⟩, fun _ => rfl, fun _ => rfl, fun _ => rfl⟩
  have hsound := mapper_get_page_runs (Machine.Reach.of_run ok_of_easy hinit hs)
  refine ⟨s, hs, hfailed, hloaded, hsound, hfree, ?_, ?_⟩
  · rw [hsound.tree 5 (by decide), hremoved]
  · rw [hsound.tree 6 (by decide), hkept]

end Almos.PageLoad
