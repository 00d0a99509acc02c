import Almos.KcmAccounting
import Almos.KcmGeometry

/-!
# Objects of the kernel cache manager

The constructor and the destructor of a cache, seen through the calls it makes. A page is populated
with its blocks after the rounded header and released with blocks after the plain one.
-/
namespace Almos.Kcm
open Word Bits

def liveObjects : List KcmCall → List ℕ
  | [] => []
  | .objInit ptr :: calls => ptr :: liveObjects calls
  | .objDestroy ptr :: calls => (liveObjects calls).erase ptr
  | .pageFree _ :: calls => liveObjects calls

def Balanced : List KcmCall → Prop
  | [] => True
  | .objInit _ :: calls => Balanced calls
  | .objDestroy ptr :: calls => ptr ∈ liveObjects calls ∧ Balanced calls
  | .pageFree page :: calls => (∀ ptr ∈ liveObjects calls, pageOf ptr ≠ page) ∧ Balanced calls

instance decidableBalanced : (calls : List KcmCall) → Decidable (Balanced calls)
  | [] => .isTrue trivial
  | .objInit _ :: calls => decidableBalanced calls
  | .objDestroy ptr :: calls =>
      have := decidableBalanced calls
      inferInstanceAs (Decidable (ptr ∈ liveObjects calls ∧ Balanced calls))
  | .pageFree page :: calls =>
      have := decidableBalanced calls
      inferInstanceAs (Decidable ((∀ ptr ∈ liveObjects calls, pageOf ptr ≠ page) ∧ Balanced calls))

/-- What the constructor and the destructor of a cache rely on. -/
structure ObjectsMatch (s : State) : Prop where
  balanced : Balanced s.kcm.calls
  returned : ∀ ptr ∈ s.outstanding, ptr ∈ liveObjects s.kcm.calls

/-- The delivered pages hold no bit past the last block, and a release finds no page too many. -/
def KeepsPages (c : Config) (s : State) : Event → Prop
  | .alloc ds => ∀ d ∈ ds, CleanBeyond (blank c).blocksNr d.bitmap
  | .free _ => True
  | .release => s.kcm.freePagesNr ≤ s.kcm.freePagesMin

def Built (kcm : Kcm) (p : ℕ) : Prop :=
  ∀ k < kcm.blocksNr, blockAddr kcm p k ∈ liveObjects kcm.calls

structure Constructs (c : Config) (kcm : Kcm) : Prop where
  objInit : kcm.objInit = true
  objDestroy : kcm.objDestroy = true
  size : kcm.size = (blank c).size
  inits : ∀ call ∈ kcm.calls, ∃ ptr, call = .objInit ptr ∧ ptr % 32 = 0

section Calls
variable {calls : List KcmCall}

lemma Balanced.tail {front : List KcmCall} (h : Balanced (front ++ calls)) : Balanced calls := by
  induction front with
  | nil => exact h
  | cons call front ih =>
    cases call with
    | objInit ptr => exact ih h
    | objDestroy ptr => exact ih h.2
    | pageFree page => exact ih h.2

lemma balanced_inits (h : ∀ call ∈ calls, ∃ ptr, call = .objInit ptr ∧ ptr % 32 = 0) :
    Balanced calls ∧ ∀ ptr ∈ liveObjects calls, ptr % 32 = 0 := by
  induction calls with
  | nil => exact ⟨trivial, fun ptr hptr => absurd hptr List.not_mem_nil⟩
  | cons call calls ih =>
    obtain ⟨hrest, hlive⟩ := ih fun call' hcall' => h call' (List.mem_cons_of_mem _ hcall')
    obtain ⟨ptr, rfl, hptr⟩ := h call List.mem_cons_self
    refine ⟨hrest, fun ptr' hptr' => ?_⟩
    rcases List.mem_cons.1 hptr' with rfl | hptr'
    · exact hptr
    · exact hlive ptr' hptr'

lemma mem_liveObjects_inits {ptr : ℕ} (ptrs : List ℕ) :
    ptr ∈ liveObjects (ptrs.map .objInit ++ calls) ↔ ptr ∈ ptrs ∨ ptr ∈ liveObjects calls := by
  induction ptrs with
  | nil => simp
  | cons first ptrs ih =>
    rw [List.map_cons, List.cons_append, liveObjects, List.mem_cons, List.mem_cons, ih, or_assoc]

end Calls

section Moves
variable {c : Config} {kcm : Kcm} {d : Delivery} {ds : List Delivery} {p : ℕ}

lemma mem_blocksFrom (geo : Geometry kcm) (hal : p % kcmPageSize = 0) (hsm : p < 2 ^ 32) {ptr : ℕ} :
    ptr ∈ kcm.blocksFrom (wadd p (arroundUp sizeofPageInfo kcm.aligne)) ↔
      ∃ k < kcm.blocksNr, ptr = blockAddr kcm p k := by
  have hadd : ∀ k < kcm.blocksNr,
      wadd (wadd p (arroundUp sizeofPageInfo kcm.aligne)) (kcm.size * k) = blockAddr kcm p k := by
    intro k hk
    have hfit := geo.block_lt hk
    have hpos := geo.size_pos
    rw [geo.header_eq, mul_comm, blockAddr]
    rw [header] at hfit ⊢
    rw [kcmPageSize] at hfit hal
    have hfirst : wadd p 64 = p + 64 := wadd_of_lt (by omega)
    rw [hfirst, wadd_of_lt (by omega)]
  rw [blocksFrom, List.mem_map]
  constructor
  · rintro ⟨k, hk, rfl⟩
    exact ⟨k, List.mem_range.1 hk, hadd k (List.mem_range.1 hk)⟩
  · rintro ⟨k, hk, rfl⟩
    exact ⟨k, List.mem_range.2 hk, hadd k hk⟩

lemma Constructs.populate (h : Constructs c kcm) (geo : Geometry kcm) (hsize : kcm.size % 32 = 0)
    (hal : d.page % kcmPageSize = 0) (hsm : d.page < 2 ^ 32) :
    Constructs c (freelistPopulate kcm d) ∧ Built (freelistPopulate kcm d) d.page ∧
      ∀ q, Built kcm q → Built (freelistPopulate kcm d) q := by
  have hcalls : (freelistPopulate kcm d).calls =
      ((kcm.blocksFrom (wadd d.page (arroundUp sizeofPageInfo kcm.aligne))).reverse.map .objInit) ++
        kcm.calls := by
    simp [freelistPopulate, h.objInit]
  refine ⟨⟨h.objInit, h.objDestroy, h.size, ?_⟩, ?_, ?_⟩
  · intro call hcall
    rw [hcalls, List.mem_append, List.mem_map] at hcall
    rcases hcall with ⟨ptr, hptr, rfl⟩ | hcall
    · obtain ⟨k, -, rfl⟩ := (mem_blocksFrom geo hal hsm).1 (List.mem_reverse.1 hptr)
      refine ⟨_, rfl, ?_⟩
      have hk : k * kcm.size % 32 = 0 := by
        rw [Nat.mul_mod, hsize, mul_zero, Nat.zero_mod]
      rw [blockAddr, header]
      rw [kcmPageSize] at hal
      omega
    · exact h.inits call hcall
  · intro k hk
    rw [hcalls, mem_liveObjects_inits, List.mem_reverse]
    exact .inl ((mem_blocksFrom geo hal hsm).2 ⟨k, hk, rfl⟩)
  · intro q hbuilt k hk
    rw [hcalls, mem_liveObjects_inits]
    exact .inr (hbuilt k hk)

structure SameObjects (kcm kcm' : Kcm) : Prop where
  objInit : kcm'.objInit = kcm.objInit
  objDestroy : kcm'.objDestroy = kcm.objDestroy
  size : kcm'.size = kcm.size
  blocksNr : kcm'.blocksNr = kcm.blocksNr
  calls : kcm'.calls = kcm.calls

structure BuiltAll (c : Config) (kcm : Kcm) (hand : List ℕ) : Prop where
  constructs : Constructs c kcm
  built : ∀ p ∈ held kcm hand, Built kcm p

variable {kcm' : Kcm} {hand hand' : List ℕ} {q : ℕ} {r : Option ℕ}

lemma SameObjects.built (h : SameObjects kcm kcm') (hp : Built kcm p) : Built kcm' p := by
  intro k hk
  rw [h.calls, blockAddr, h.size]
  exact hp k (h.blocksNr ▸ hk)

lemma BuiltAll.move (h : BuiltAll c kcm hand) (hsame : SameObjects kcm kcm')
    (hpages : ∀ p ∈ held kcm' hand', Built kcm p) : BuiltAll c kcm' hand' := by
  obtain ⟨hinit, hdestroy, hsize, hinits⟩ := h.constructs
  refine ⟨⟨hsame.objInit.trans hinit, hsame.objDestroy.trans hdestroy, hsame.size.trans hsize, ?_⟩,
    fun p hp => hsame.built (hpages p hp)⟩
  rw [hsame.calls]
  exact hinits

lemma BuiltAll.populateLoop (h : BuiltAll c kcm []) (geo : Geometry kcm) (hsize : kcm.size % 32 = 0)
    (hlegal : ∀ d ∈ ds, d.page % kcmPageSize = 0 ∧ d.page < 2 ^ 32) :
    BuiltAll c (Kcm.populateLoop kcm ds) [] ∧
      ∀ q, Built kcm q → Built (Kcm.populateLoop kcm ds) q := by
  induction ds generalizing kcm with
  | nil => exact ⟨h, fun _ hq => hq⟩
  | cons d ds ih =>
    rw [Kcm.populateLoop]
    split_ifs
    · obtain ⟨hal, hsm⟩ := hlegal d List.mem_cons_self
      obtain ⟨hconstructs, hnew, hkeep⟩ := h.constructs.populate geo hsize hal hsm
      have hall : BuiltAll c (freelistPopulate kcm d) [] := by
        refine ⟨hconstructs, fun p hp => ?_⟩
        have hp' : p ∈ d.page :: kcm.freelist ∨ p ∈ kcm.activelist ∨ p ∈ kcm.busylist ∨ p ∈ [] :=
          mem_held.1 hp
        rw [List.mem_cons, or_assoc] at hp'
        rcases hp' with rfl | hp'
        · exact hnew
        · exact hkeep p (h.built p (mem_held.2 hp'))
      obtain ⟨hrest, hlater⟩ := ih hall (geo.congr rfl rfl rfl) hsize
        fun d' hd' => hlegal d' (List.mem_cons_of_mem _ hd')
      exact ⟨hrest, fun q hq => hlater q (hkeep q hq)⟩
    · exact ⟨h, fun _ hq => hq⟩

lemma BuiltAll.freelistGet (h : BuiltAll c kcm []) (geo : Geometry kcm) (hsize : kcm.size % 32 = 0)
    (hlegal : ∀ d ∈ ds, d.page % kcmPageSize = 0 ∧ d.page < 2 ^ 32)
    (hget : Kcm.freelistGet kcm ds = some (kcm', r)) :
    BuiltAll c kcm' r.toList ∧ ∀ q, Built kcm q → Built kcm' q := by
  obtain ⟨kcm₁, hdef, hall, hkeep⟩ : ∃ kcm₁,
      (if kcm.freePagesNr ≤ kcm.freePagesMin then Kcm.populateLoop kcm ds else kcm) = kcm₁ ∧
        BuiltAll c kcm₁ [] ∧ ∀ q, Built kcm q → Built kcm₁ q := by
    by_cases hlow : kcm.freePagesNr ≤ kcm.freePagesMin
    · exact ⟨_, if_pos hlow, h.populateLoop geo hsize hlegal⟩
    · exact ⟨_, if_neg hlow, h, fun _ hq => hq⟩
  rw [Kcm.freelistGet, hdef] at hget
  simp only at hget
  split_ifs at hget
  · obtain ⟨rfl, rfl⟩ := Prod.mk.inj (Option.some.inj hget)
    exact ⟨hall, hkeep⟩
  · cases hfree : kcm₁.freelist with
    | nil => simp [hfree] at hget
    | cons ptr rest =>
      rw [hfree] at hget
      obtain ⟨rfl, rfl⟩ := Prod.mk.inj (Option.some.inj hget)
      have hsame : SameObjects kcm₁
          { kcm₁.listUnlink ptr with freePagesNr := wsub kcm₁.freePagesNr 1 } :=
        ⟨rfl, rfl, rfl, rfl, rfl⟩
      refine ⟨hall.move hsame fun p hp => hall.built p ?_, fun q hq => hsame.built (hkeep q hq)⟩
      rcases mem_held.1 hp with hp | hp | hp | hp
      · exact mem_held.2 (.inl (List.mem_of_mem_erase hp))
      · exact mem_held.2 (.inr (.inl (List.mem_of_mem_erase hp)))
      · exact mem_held.2 (.inr (.inr (.inl (List.mem_of_mem_erase hp))))
      · obtain rfl := List.mem_singleton.1 hp
        exact mem_held.2 (.inl (by rw [hfree]; exact List.mem_cons_self))

lemma BuiltAll.replaceActive (h : BuiltAll c kcm []) (hp : Built kcm p) :
    BuiltAll c (Kcm.replaceActive kcm p q) [] := by
  refine h.move ⟨rfl, rfl, rfl, rfl, rfl⟩ fun p' hp' => ?_
  have hmem : p' ∈ kcm.freelist.erase p ∨ p' ∈ kcm.activelist.erase p ∨
      p' ∈ p :: kcm.busylist.erase p ∨ p' ∈ [] := mem_held.1 hp'
  rcases hmem with hmem | hmem | hmem | hmem
  · exact h.built p' (mem_held.2 (.inl (List.mem_of_mem_erase hmem)))
  · exact h.built p' (mem_held.2 (.inr (.inl (List.mem_of_mem_erase hmem))))
  · rcases List.mem_cons.1 hmem with rfl | hmem
    · exact hp
    · exact h.built p' (mem_held.2 (.inr (.inr (.inl (List.mem_of_mem_erase hmem)))))
  · exact absurd hmem List.not_mem_nil

lemma BuiltAll.computeActivePage (h : BuiltAll c kcm []) (geo : Geometry kcm)
    (hsize : kcm.size % 32 = 0) (hlegal : ∀ d ∈ ds, d.page % kcmPageSize = 0 ∧ d.page < 2 ^ 32)
    (hcompute : Kcm.computeActivePage kcm ds = some (kcm', q)) : BuiltAll c kcm' [] := by
  rw [Kcm.computeActivePage] at hcompute
  have hfirst : ∀ p ∈ kcm.activelist, Built kcm p :=
    fun p hp => h.built p (mem_held.2 (.inr (.inl hp)))
  rcases hactive : kcm.activelist with _ | ⟨pinfo, _ | ⟨pinfoNew, rest⟩⟩
  · simp [hactive] at hcompute
  · rw [hactive] at hcompute hfirst
    have hpinfo := hfirst pinfo List.mem_cons_self
    rcases hget : Kcm.freelistGet kcm ds with _ | ⟨kcm₁, _ | pinfoNew⟩
    · simp [hget] at hcompute
    · simp only [hget] at hcompute
      obtain ⟨rfl, -⟩ := Prod.mk.inj (Option.some.inj hcompute)
      exact (h.freelistGet geo hsize hlegal hget).1
    · simp only [hget] at hcompute
      obtain ⟨rfl, -⟩ := Prod.mk.inj (Option.some.inj hcompute)
      obtain ⟨hall, hkeep⟩ := h.freelistGet geo hsize hlegal hget
      have hsame : SameObjects kcm₁ { kcm₁ with
          activelist := kcm₁.activelist ++ [pinfoNew]
          activePagesNr := wadd kcm₁.activePagesNr 1 } := ⟨rfl, rfl, rfl, rfl, rfl⟩
      refine (hall.move hsame fun p hp => hall.built p ?_).replaceActive
        (hsame.built (hkeep pinfo hpinfo))
      have hmem : p ∈ kcm₁.freelist ∨ p ∈ kcm₁.activelist ++ [pinfoNew] ∨ p ∈ kcm₁.busylist ∨
          p ∈ [] := mem_held.1 hp
      rw [mem_held]
      simp only [List.mem_append, List.not_mem_nil, or_false] at hmem ⊢
      change _ ∨ _ ∨ _ ∨ p ∈ [pinfoNew]
      tauto
  · rw [hactive] at hcompute hfirst
    obtain ⟨rfl, -⟩ := Prod.mk.inj (Option.some.inj hcompute)
    exact h.replaceActive (hfirst pinfo List.mem_cons_self)

lemma BuiltAll.getBlock (h : BuiltAll c kcm []) (p : ℕ) :
    BuiltAll c (Kcm.getBlock kcm p).1 [] := by
  rw [Kcm.getBlock]
  split_ifs
  · exact h
  · split
    · exact h
    · exact h.move ⟨rfl, rfl, rfl, rfl, rfl⟩ h.built

lemma BuiltAll.kcmAlloc (h : BuiltAll c kcm []) (geo : Geometry kcm) (hsize : kcm.size % 32 = 0)
    (hlegal : ∀ d ∈ ds, d.page % kcmPageSize = 0 ∧ d.page < 2 ^ 32)
    (halloc : Kcm.kcmAlloc kcm ds = some (kcm', r)) : BuiltAll c kcm' [] := by
  rw [Kcm.kcmAlloc] at halloc
  cases hactive : kcm.activelist with
  | nil => simp [hactive] at halloc
  | cons pinfo rest =>
    simp only [hactive] at halloc
    have hfirst := h.getBlock pinfo
    rcases hget : Kcm.getBlock kcm pinfo with ⟨kcm₁, _ | ptr⟩
    · have hkcm : kcm₁ = kcm := by
        rw [Kcm.getBlock] at hget
        split_ifs at hget
        · exact (Prod.mk.inj hget).1.symm
        · split at hget
          · exact (Prod.mk.inj hget).1.symm
          · exact absurd (Prod.mk.inj hget).2 (by simp)
      subst hkcm
      simp only [hget] at halloc
      rcases hcompute : Kcm.computeActivePage kcm₁ ds with _ | ⟨kcm₂, pinfoNew⟩
      · simp [hcompute] at halloc
      · have hall := h.computeActivePage geo hsize hlegal hcompute
        simp only [hcompute] at halloc
        split_ifs at halloc
        · have hfirst' : (Kcm.getBlock kcm₂ pinfoNew).1 = kcm' :=
            congrArg Prod.fst (Option.some.inj halloc)
          rw [← hfirst']
          exact hall.getBlock pinfoNew
        · obtain ⟨rfl, -⟩ := Prod.mk.inj (Option.some.inj halloc)
          exact hall
    · simp only [hget] at halloc
      obtain ⟨rfl, -⟩ := Prod.mk.inj (Option.some.inj halloc)
      rw [hget] at hfirst
      exact hfirst

lemma BuiltAll.putBlock (h : BuiltAll c kcm []) (ptr : ℕ) (hpage : pageOf ptr ∈ held kcm []) :
    BuiltAll c (Kcm.putBlock kcm ptr) [] := by
  have hunlink : ∀ p, (p ∈ kcm.freelist.erase (pageOf ptr) ∨ p ∈ kcm.activelist.erase (pageOf ptr) ∨
      p ∈ kcm.busylist.erase (pageOf ptr) ∨ p = pageOf ptr) → Built kcm p := by
    rintro p (hp | hp | hp | rfl)
    · exact h.built p (mem_held.2 (.inl (List.mem_of_mem_erase hp)))
    · exact h.built p (mem_held.2 (.inr (.inl (List.mem_of_mem_erase hp))))
    · exact h.built p (mem_held.2 (.inr (.inr (.inl (List.mem_of_mem_erase hp)))))
    · exact h.built _ hpage
  rw [Kcm.putBlock]
  simp only
  split_ifs
  · refine h.move ⟨rfl, rfl, rfl, rfl, rfl⟩ fun p hp => hunlink p ?_
    have hmem : p ∈ kcm.freelist.erase (pageOf ptr) ∨
        p ∈ kcm.activelist.erase (pageOf ptr) ++ [pageOf ptr] ∨
          p ∈ kcm.busylist.erase (pageOf ptr) ∨ p ∈ [] := mem_held.1 hp
    simp only [List.mem_append, List.mem_singleton, List.not_mem_nil, or_false] at hmem
    tauto
  · refine h.move ⟨rfl, rfl, rfl, rfl, rfl⟩ fun p hp => hunlink p ?_
    have hmem : p ∈ pageOf ptr :: kcm.freelist.erase (pageOf ptr) ∨
        p ∈ kcm.activelist.erase (pageOf ptr) ∨
          p ∈ kcm.busylist.erase (pageOf ptr) ∨ p ∈ [] := mem_held.1 hp
    simp only [List.mem_cons, List.not_mem_nil, or_false] at hmem
    tauto
  · exact h.move ⟨rfl, rfl, rfl, rfl, rfl⟩ h.built

end Moves

structure ObjectsOk (c : Config) (s : State) : Prop where
  running : Running c s
  all : BuiltAll c s.kcm []

section Runs
variable {c : Config} {s t : State} {e : Event}

lemma size_blank (hlow : 64 ≤ c.size) (hhigh : c.size ≤ kcmPageSize / 4) :
    64 ≤ (blank c).size ∧ (blank c).size ≤ 1024 ∧ (blank c).size % 32 = 0 := by
  have hsize := blank_size (show 1 ≤ c.size by omega) hhigh
  rwa [if_neg (by omega)] at hsize

lemma kcmRelease_few {kcm : Kcm} (h : kcm.freePagesNr ≤ kcm.freePagesMin) :
    kcmRelease kcm = kcm := by
  rw [kcmRelease, freelistRelease]
  cases kcm.freelist with
  | nil => rfl
  | cons p rest => rw [releaseLoop, if_pos h]

lemma releaseLoop_calls (kcm : Kcm) (l : List ℕ) :
    ∃ front, (releaseLoop kcm l).calls = front ++ kcm.calls := by
  induction l generalizing kcm with
  | nil => exact ⟨[], rfl⟩
  | cons p rest ih =>
    rw [releaseLoop]
    split_ifs with hlow
    · exact ⟨[], rfl⟩
    · obtain ⟨front, hfront⟩ := ih _
      refine ⟨front ++ .pageFree p :: (if kcm.objDestroy then
        (kcm.blocksFrom (wadd p sizeofPageInfo)).map .objDestroy else []).reverse, ?_⟩
      rw [hfront, List.append_assoc]
      rfl

lemma kcmRelease_many {kcm : Kcm} {p : ℕ} {rest : List ℕ} (hmany : kcm.freePagesMin < kcm.freePagesNr)
    (hfree : kcm.freelist = p :: rest) (hdestroy : kcm.objDestroy = true)
    (hblocks : 0 < kcm.blocksNr) :
    ∃ front, (kcmRelease kcm).calls =
      front ++ .objDestroy (wadd (wadd p sizeofPageInfo) (kcm.size * 0)) :: kcm.calls := by
  obtain ⟨n, hn⟩ := Nat.exists_eq_add_one.2 hblocks
  rw [kcmRelease, freelistRelease, hfree, releaseLoop, if_neg (not_le.2 hmany)]
  obtain ⟨front, hfront⟩ := releaseLoop_calls { kcm.listUnlink p with
    freePagesNr := wsub kcm.freePagesNr 1
    calls := .pageFree p :: (if kcm.objDestroy then
      (kcm.blocksFrom (wadd p sizeofPageInfo)).map KcmCall.objDestroy else []).reverse ++
        kcm.calls } rest
  refine ⟨front ++ .pageFree p :: ((List.range n).map fun i =>
    KcmCall.objDestroy (wadd (wadd p sizeofPageInfo) (kcm.size * (i + 1)))).reverse, ?_⟩
  refine hfront.trans ?_
  simp only [hdestroy, if_true, blocksFrom, hn, List.range_succ_eq_map, List.map_cons, List.map_map,
    List.reverse_cons, List.append_assoc, List.cons_append, List.nil_append]
  rfl

lemma ObjectsOk.step (hmod : (blank c).size % 32 = 0) (h : ObjectsOk c s) (hok : KeepsPages c s e)
    (hstep : Kcm.step s e = some t) : ObjectsOk c t := by
  have geo := h.running.inv.geo
  have hsize : s.kcm.size % 32 = 0 := by
    rw [h.all.constructs.size]
    exact hmod
  have hrunning : Running c t := by
    refine h.running.step ?_ hstep
    cases e with
    | alloc ds => exact hok
    | free ptr => trivial
    | release => trivial
  refine ⟨hrunning, ?_⟩
  cases e with
  | alloc ds =>
    by_cases hlegal : Deliverable s.kcm ds
    · rcases halloc : Kcm.kcmAlloc s.kcm ds with _ | ⟨kcm, _ | ptr⟩
      · simp [Kcm.step, hlegal, halloc] at hstep
      · simp only [Kcm.step, if_pos hlegal, halloc, Option.some.injEq] at hstep
        subst hstep
        exact h.all.kcmAlloc geo hsize (fun d hd => ⟨(hlegal.2 d hd).1, (hlegal.2 d hd).2.1⟩) halloc
      · simp only [Kcm.step, if_pos hlegal, halloc, Option.some.injEq] at hstep
        subst hstep
        exact h.all.kcmAlloc geo hsize (fun d hd => ⟨(hlegal.2 d hd).1, (hlegal.2 d hd).2.1⟩) halloc
    · simp [Kcm.step, hlegal] at hstep
  | free ptr =>
    by_cases hmem : ptr ∈ s.outstanding
    · simp only [Kcm.step, if_pos hmem, Option.some.injEq] at hstep
      subst hstep
      exact h.all.putBlock ptr (h.running.inv.block_of_mem hmem).1
    · simp [Kcm.step, hmem] at hstep
  | release =>
    simp only [Kcm.step, Option.some.injEq] at hstep
    subst hstep
    change BuiltAll c (kcmRelease s.kcm) []
    rw [kcmRelease_few hok]
    exact h.all

lemma constructs_blank (hinit : c.objInit = true) (hdestroy : c.objDestroy = true) :
    BuiltAll c (blank c) [] := by
  refine ⟨⟨hinit, hdestroy, rfl, fun call hcall => absurd hcall List.not_mem_nil⟩, fun p hp => ?_⟩
  rcases mem_held.1 hp with hp | hp | hp | hp <;> exact absurd hp List.not_mem_nil

lemma objectsOk_init (hlow : 64 ≤ c.size) (hhigh : c.size ≤ kcmPageSize / 4)
    (hinit : c.objInit = true) (hdestroy : c.objDestroy = true)
    (h : (machine c (CleanBeyond (blank c).blocksNr)).init s) : ObjectsOk c s := by
  have hrunning : Running c s := running_reach hlow hhigh (fun _ h => h) (.init h)
  obtain ⟨ds, kcm, hlegal, -, hkcm, rfl⟩ := h
  refine ⟨hrunning, ?_⟩
  rcases hget : freelistGet (blank c) ds with _ | ⟨kcm₁, _ | p⟩
  · simp [kcmInit, hget] at hkcm
  · simp [kcmInit, hget] at hkcm
  · obtain ⟨hall, -⟩ := (constructs_blank hinit hdestroy).freelistGet (geometry_blank hlow hhigh)
      (size_blank hlow hhigh).2.2 (fun d hd => ⟨(hlegal.2 d hd).1, (hlegal.2 d hd).2.1⟩) hget
    simp only [kcmInit, hget, Option.some.injEq] at hkcm
    subst hkcm
    refine hall.move ⟨rfl, rfl, rfl, rfl, rfl⟩ fun q hq => hall.built q ?_
    have hmem : q ∈ kcm₁.freelist ∨ q ∈ p :: kcm₁.activelist ∨ q ∈ kcm₁.busylist ∨ q ∈ [] :=
      mem_held.1 hq
    rw [mem_held]
    simp only [List.mem_cons, List.not_mem_nil, or_false] at hmem
    change _ ∨ _ ∨ _ ∨ q ∈ [p]
    rw [List.mem_singleton]
    tauto

lemma ObjectsOk.objectsMatch (h : ObjectsOk c s) : ObjectsMatch s := by
  refine ⟨(balanced_inits h.all.constructs.inits).1, fun ptr hptr => ?_⟩
  obtain ⟨p, hp, k, hk, rfl⟩ := h.running.inv.outBlock ptr hptr
  exact h.all.built p hp k hk

lemma ObjectsOk.release_iff (h : ObjectsOk c s) (hblocks : 0 < s.kcm.blocksNr) :
    Balanced (kcmRelease s.kcm).calls ↔ s.kcm.freePagesNr ≤ s.kcm.freePagesMin := by
  obtain ⟨hbalanced, hlive⟩ := balanced_inits h.all.constructs.inits
  constructor
  · intro hrelease
    by_contra hmany
    have hinv := h.running.inv
    cases hfree : s.kcm.freelist with
    | nil =>
      have hfreeNr := hinv.freeNr
      rw [hfree, List.length_nil] at hfreeNr
      omega
    | cons p rest =>
      obtain ⟨front, hfront⟩ :=
        kcmRelease_many (not_le.1 hmany) hfree h.all.constructs.objDestroy hblocks
      rw [hfront] at hrelease
      have hdestroyed := hlive _ hrelease.tail.1
      have hp := hinv.page p (mem_held.2 (.inl (by rw [hfree]; exact List.mem_cons_self)))
      have hal := hp.aligned
      have hsm := hp.small
      rw [kcmPageSize] at hal
      have hfirst : wadd p sizeofPageInfo = p + 40 := wadd_of_lt (by unfold sizeofPageInfo; omega)
      rw [hfirst, mul_zero, wadd_of_lt (by omega)] at hdestroyed
      omega
  · intro hfew
    rw [kcmRelease_few hfew]
    exact hbalanced

end Runs

/-- As long as nothing is released and the bitmaps of the delivered pages hold no stale bit, objects
are where they should be. The first release of a page destroys an object that was never
constructed. -/
theorem objects_match (c : Config) (hlow : 64 ≤ c.size) (hhigh : c.size ≤ kcmPageSize / 4)
    (hinit : c.objInit = true) (hdestroy : c.objDestroy = true) (s : State)
    (hs : (machine c (CleanBeyond (blank c).blocksNr)).Reach (KeepsPages c) s) :
    ObjectsMatch s ∧
      (Balanced (kcmRelease s.kcm).calls ↔ s.kcm.freePagesNr ≤ s.kcm.freePagesMin) := by
  have hok : ObjectsOk c s := by
    refine Machine.Reach.invariant (I := ObjectsOk c)
      (fun s h => objectsOk_init hlow hhigh hinit hdestroy h) ?_ hs
    exact fun s e t h hok hstep => h.step (size_blank hlow hhigh).2.2 hok hstep
  refine ⟨hok.objectsMatch, hok.release_iff ?_⟩
  obtain ⟨hlow', hhigh', -⟩ := size_blank hlow hhigh
  rw [hok.running.blocksNr, blank_blocksNr]
  exact blocksNr_pos hlow' hhigh'

def objectCache : Config := ⟨1024, 0, 0, 4, true, true⟩

def zeroPages : List Delivery := [⟨0x1000, fun _ => 0⟩, ⟨0x2000, fun _ => 0⟩]

lemma zeroPages_clean (d : Delivery) (hd : d ∈ zeroPages) :
    CleanBeyond (blank objectCache).blocksNr d.bitmap := by
  have hzero : ZeroFilled d.bitmap := by
    rcases List.mem_pair.1 hd with rfl | rfl
    · exact fun _ => rfl
    · exact fun _ => rfl
  exact hzero.clean _

theorem objects_match_first : ∃ kcm kcm', kcmInit objectCache zeroPages = some kcm ∧
    kcmAlloc kcm [] = some (kcm', some 0x2040) ∧ ObjectsMatch ⟨kcm', [0x2040]⟩ := by
  obtain ⟨kcm, kcm', hkcm, halloc⟩ : ∃ kcm kcm', kcmInit objectCache zeroPages = some kcm ∧
      kcmAlloc kcm [] = some (kcm', some 0x2040) := ⟨_, _, rfl, rfl⟩
  refine ⟨kcm, kcm', hkcm, halloc,
    (objects_match objectCache (by decide) (by decide) rfl rfl ⟨kcm', [0x2040]⟩ ?_).1⟩
  refine .step (s := ⟨kcm, []⟩) (e := .alloc []) (.init ?_) ?_ ?_
  · exact ⟨zeroPages, kcm, by decide, zeroPages_clean, hkcm, rfl⟩
  · exact fun d hd => absurd hd List.not_mem_nil
  · have hlegal : Deliverable kcm [] := ⟨List.nodup_nil, fun d hd => absurd hd List.not_mem_nil⟩
    simp only [machine, Kcm.step, if_pos hlegal, halloc]

/-- The free page that the cache gives back was constructed from `0x1040` on, and is destroyed from
`0x1028` on. -/
theorem release_misses_objects :
    ¬∀ s, (machine objectCache ZeroFilled).Reachable s → Balanced s.kcm.calls := by
  intro h
  obtain ⟨s, hs, t, ht, hcalls⟩ : ∃ s, (machine objectCache ZeroFilled).init s ∧ ∃ t,
      (machine objectCache ZeroFilled).run s [.release] = some t ∧ ¬Balanced t.kcm.calls := by
    refine ⟨_, ⟨zeroPages, _, by decide, ?_, rfl, rfl⟩, _, rfl, by decide⟩
    intro d hd
    rcases List.mem_pair.1 hd with rfl | rfl
    · exact fun _ => rfl
    · exact fun _ => rfl
  exact hcalls (h t (Machine.Reachable.run (.init hs) _ ht))

end Almos.Kcm
