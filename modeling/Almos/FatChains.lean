import Almos.FatPageIo
import Almos.LinkChains

/-!
# Threads that share the FAT

A step is a critical section: the search of `vfat_alloc_fat_entry` with the lock of the context,
and each access to an entry with its page locked. Between two steps of a call any other thread
may run. An entry taken by `vfat_extend_cluster` belongs to its thread until it is linked, and
what `vfat_free_fat_entry` has not reached yet belongs to the thread that frees it.
-/
namespace Almos.Vfat

inductive FatThread
  | idle
  /-- In `vfat_extend_cluster`, before the page of `current` is locked. -/
  | extending (current next : ℕ)
  /-- In `vfat_extend_cluster`, where `current` was found to have a successor. -/
  | undoing (current next : ℕ)
  /-- In the loop of `vfat_free_fat_entry`. -/
  | freeing (current : ℕ)

structure FatRun where
  fat : Fat
  /-- The first clusters of the chains in use. -/
  starts : ℕ → Bool
  threads : ℕ → FatThread
  /-- What `vfat_extend_cluster` returned in the last step, with the cluster it extends, if it
  returned 0 and a cluster. -/
  returned : Option (ℕ × ℕ)

inductive FatEvent
  /-- A call of `vfat_alloc_fat_entry`. -/
  | alloc (loads : ℕ → Bool)
  /-- A call of `vfat_extend_cluster`, up to the page of `current`. Any cluster may be given: its
  chain may have changed between the call and this step. -/
  | extend (thread current : ℕ) (loads : ℕ → Bool)
  | link (thread : ℕ) (load : Bool)
  | undo (thread : ℕ) (load : Bool)
  /-- A call of `vfat_free_fat_entry`. -/
  | free (thread start : ℕ)
  | freeNext (thread : ℕ) (load : Bool)

namespace FatRun

def setThread (s : FatRun) (thread : ℕ) (pc : FatThread) : FatRun :=
  { s with threads := Function.update s.threads thread pc, returned := none }

end FatRun

variable (ctx : VfatContext)

/-- The steps. When a page cannot be loaded, `vfat_extend_cluster` frees its new entry with
`vfat_free_fat_entry`, which gives up instead. -/
def fatStep (s : FatRun) : FatEvent → Option FatRun
  | .alloc loads =>
      match vfatAllocFatEntry ctx loads s.fat with
      | (fat, .ok (n + 1)) =>
          some { s with fat := fat, starts := Function.update s.starts (n + 1) true
                        returned := none }
      | (fat, _) => some { s with fat := fat, returned := none }
  | .extend thread current loads =>
      match s.threads thread, vfatAllocFatEntry ctx loads s.fat with
      | .idle, (fat, .ok (n + 1)) =>
          let s := s.setThread thread (.extending current (n + 1))
          some { s with fat := fat }
      | .idle, (fat, _) => some { s with fat := fat, returned := none }
      | _, _ => none
  | .link thread load =>
      match s.threads thread with
      | .extending current next =>
          if load then
            match extendLink ctx s.fat current next with
            | some fat =>
                let s := s.setThread thread .idle
                some { s with fat := fat, returned := some (current, next) }
            | none => some (s.setThread thread (.undoing current next))
          else some (s.setThread thread (.freeing next))
      | _ => none
  | .undo thread load =>
      match s.threads thread with
      | .undoing current next =>
          if load then
            let s := s.setThread thread .idle
            some { s with fat := (freeEntry ctx s.fat next).1, returned := some (current, next) }
          else some (s.setThread thread (.freeing next))
      | _ => none
  | .free thread start =>
      match s.threads thread with
      | .idle =>
          if s.starts start then
            let s := s.setThread thread (.freeing start)
            some { s with starts := Function.update s.starts start false }
          else none
      | _ => none
  | .freeNext thread load =>
      match s.threads thread with
      | .freeing current =>
          if 0 < current ∧ current < badCluster ∧ load then
            let (fat, next) := freeEntry ctx s.fat current
            let s := s.setThread thread (.freeing next)
            some { s with fat := fat }
          else some (s.setThread thread .idle)
      | _ => none

def link (fat : Fat) (c : ℕ) : Option ℕ :=
  if c < entryCount ctx ∧ 0 < entryOf ctx fat c ∧ entryOf ctx fat c < badCluster then
    some (entryOf ctx fat c)
  else none

def FatThread.holds : FatThread → Option ℕ
  | .idle => none
  | .extending _ next => some next
  | .undoing _ next => some next
  | .freeing current => if 0 < current ∧ current < badCluster then some current else none

inductive Owner
  | file
  | thread (thread : ℕ)
  deriving DecidableEq

def Holds (s : FatRun) : Owner → ℕ → Prop
  | .file, c => s.starts c = true
  | .thread thread, c => (s.threads thread).holds = some c

structure Start (fat : Fat) (c : ℕ) : Prop where
  pos : 0 < c
  inside : c < entryCount ctx
  used : entryOf ctx fat c ≠ 0
  first : ∀ a, link ctx fat a ≠ some c

/-- No entry has two predecessors, no chain is a cycle, and chains end at an entry in use; each
chain in use starts at an entry without predecessor that has one owner. -/
structure FatOk (s : FatRun) : Prop where
  chains : Chains (link ctx s.fat)
  target : ∀ a c, link ctx s.fat a = some c → c < entryCount ctx ∧ entryOf ctx s.fat c ≠ 0
  start : ∀ o c, Holds s o c → Start ctx s.fat c
  owner : ∀ o o' c, Holds s o c → Holds s o' c → o = o'
  cursor : ctx.fatBeginLba ≤ s.fat.lastAllocatedSector
  linked : ∀ c n, s.returned = some (c, n) → entryOf ctx s.fat c = n ∧ entryOf ctx s.fat n ≠ 0

/-- No thread is in a call, and the chains in use are disjoint and acyclic. -/
def fatMachine : Machine FatRun FatEvent where
  init s := FatOk ctx s ∧ (∀ t, s.threads t = .idle) ∧ s.returned = none
  step := fatStep ctx

section Links
variable {ctx} {fat fat' : Fat} {a c n : ℕ}

lemma link_eq_some {d : ℕ} (h : link ctx fat c = some d) :
    c < entryCount ctx ∧ 0 < d ∧ d < badCluster ∧ entryOf ctx fat c = d := by
  unfold link at h
  split_ifs at h with hlink
  cases h
  exact ⟨hlink.1, hlink.2.1, hlink.2.2, rfl⟩

lemma link_mark (hfree : entryOf ctx fat n = 0)
    (hmark : ∀ c, entryOf ctx fat' c = if c = n then endOfChain else entryOf ctx fat c) :
    link ctx fat' = link ctx fat := by
  funext c
  simp only [link, hmark]
  rcases eq_or_ne c n with rfl | hne
  · simp [hfree, endOfChain, badCluster]
  · simp only [if_neg hne]

variable (ctx fat) in
lemma link_setEntry (val : ℕ) :
    link ctx (setEntry fat (clusterAddr ctx c) val) = Function.update (link ctx fat) c
      (if c < entryCount ctx ∧ 0 < val % 2 ^ 28 ∧ val % 2 ^ 28 < badCluster then
        some (val % 2 ^ 28) else none) := by
  funext a
  simp only [link, entryOf_setEntry]
  rcases eq_or_ne a c with rfl | hne
  · simp
  · rw [Function.update_of_ne hne, link, if_neg hne]

lemma link_freeEntry : link ctx (freeEntry ctx fat c).1 = Function.update (link ctx fat) c none := by
  rw [freeEntry, link_setEntry]
  simp

lemma entryOf_freeEntry :
    entryOf ctx (freeEntry ctx fat c).1 a = if a = c then 0 else entryOf ctx fat a := by
  rw [freeEntry, entryOf_setEntry, Nat.zero_mod]

end Links

section Holding
variable {s : FatRun} {k c : ℕ} {pc : FatThread} {o : Owner}

lemma holds_setThread (h : Holds (s.setThread k pc) o c) :
    o = .thread k ∧ pc.holds = some c ∨ o ≠ .thread k ∧ Holds s o c := by
  cases o with
  | file => exact .inr ⟨by simp, h⟩
  | thread j =>
    rcases eq_or_ne j k with rfl | hne
    · refine .inl ⟨rfl, ?_⟩
      simpa [Holds, FatRun.setThread] using h
    · refine .inr ⟨by simpa using hne, ?_⟩
      simpa [Holds, FatRun.setThread, Function.update_of_ne hne] using h

lemma holds_freeing (h : (FatThread.freeing k).holds = some c) :
    c = k ∧ 0 < k ∧ k < badCluster := by
  simp only [FatThread.holds] at h
  split_ifs at h with hvalid
  cases h
  exact ⟨rfl, hvalid⟩

end Holding

namespace FatOk
variable {ctx} {s t : FatRun} {k n : ℕ} {pc : FatThread}

theorem same (h : FatOk ctx s) (hfat : t.fat = s.fat) (hret : t.returned = none)
    (hold : ∀ o c, Holds t o c → Holds s o c) : FatOk ctx t := by
  refine ⟨?_, ?_, ?_, ?_, ?_, by simp [hret]⟩
  · rw [hfat]
    exact h.chains
  · rw [hfat]
    exact h.target
  · intro o c hc
    rw [hfat]
    exact h.start o c (hold o c hc)
  · intro o o' c hc hc'
    exact h.owner o o' c (hold o c hc) (hold o' c hc')
  · rw [hfat]
    exact h.cursor

theorem setThread (h : FatOk ctx s)
    (hold : ∀ c, pc.holds = some c → (s.threads k).holds = some c) :
    FatOk ctx (s.setThread k pc) := by
  refine h.same rfl rfl ?_
  intro o c hc
  rcases holds_setThread hc with ⟨rfl, hpc⟩ | ⟨-, hc⟩
  · exact hold c hpc
  · exact hc

theorem mark {fat : Fat} (h : FatOk ctx s) (o : Owner) (hinside : n < entryCount ctx)
    (hfree : entryOf ctx s.fat n = 0)
    (hmark : ∀ c, entryOf ctx fat c = if c = n then endOfChain else entryOf ctx s.fat c)
    (hcursor : ctx.fatBeginLba ≤ fat.lastAllocatedSector) (hfat : t.fat = fat)
    (hret : t.returned = none)
    (hold : ∀ o' c, Holds t o' c → Holds s o' c ∨ o' = o ∧ c = n ∧ 0 < n) : FatOk ctx t := by
  have hlink : link ctx fat = link ctx s.fat := link_mark hfree hmark
  have hused : ∀ c, entryOf ctx s.fat c ≠ 0 → entryOf ctx fat c ≠ 0 := by
    intro c hc
    rw [hmark]
    split_ifs
    · decide
    · exact hc
  -- nobody holds a free entry
  have hfresh : ∀ o', ¬Holds s o' n := fun o' hn => (h.start o' n hn).used hfree
  subst hfat
  refine ⟨?_, ?_, ?_, ?_, hcursor, by simp [hret]⟩
  · rw [hlink]
    exact h.chains
  · intro a c hac
    rw [hlink] at hac
    exact ⟨(h.target a c hac).1, hused c (h.target a c hac).2⟩
  · intro o' c hc
    rcases hold o' c hc with hc | ⟨-, rfl, hpos⟩
    · have hstart := h.start o' c hc
      exact ⟨hstart.pos, hstart.inside, hused c hstart.used, by rw [hlink]; exact hstart.first⟩
    · refine ⟨hpos, hinside, ?_, ?_⟩
      · rw [hmark, if_pos rfl]
        decide
      · intro a ha
        rw [hlink] at ha
        exact (h.target a c ha).2 hfree
  · intro o₁ o₂ c h₁ h₂
    rcases hold o₁ c h₁ with hc₁ | ⟨rfl, rfl, -⟩
    · rcases hold o₂ c h₂ with hc₂ | ⟨rfl, rfl, -⟩
      · exact h.owner o₁ o₂ c hc₁ hc₂
      · exact absurd hc₁ (hfresh o₁)
    · rcases hold o₂ c h₂ with hc₂ | ⟨rfl, -⟩
      · exact absurd hc₂ (hfresh o₂)
      · rfl

theorem join {current : ℕ} {fat : Fat} (h : FatOk ctx s)
    (hpc : s.threads k = .extending current n) (hlink : extendLink ctx s.fat current n = some fat)
    (hpath : ¬Reaches (link ctx s.fat) n current) :
    FatOk ctx { s.setThread k .idle with fat := fat, returned := some (current, n) } := by
  have hn : Holds s (.thread k) n := by simp [Holds, hpc, FatThread.holds]
  have hstart := h.start _ _ hn
  have hne : current ≠ n := by
    rintro rfl
    exact hpath .refl
  have hword : n % 2 ^ 28 = n := Nat.mod_eq_of_lt (hstart.inside.trans_le ctx.entries_max)
  unfold extendLink at hlink
  split_ifs at hlink with hend
  cases hlink
  have hentry : ∀ c, entryOf ctx (setEntry s.fat (clusterAddr ctx current) n) c =
      if c = current then n else entryOf ctx s.fat c := by
    intro c
    rw [entryOf_setEntry, hword]
  have hused : ∀ c, entryOf ctx s.fat c ≠ 0 →
      entryOf ctx (setEntry s.fat (clusterAddr ctx current) n) c ≠ 0 := by
    intro c hc
    rw [hentry]
    split_ifs
    · exact hstart.pos.ne'
    · exact hc
  have hlinks := link_setEntry ctx s.fat (c := current) n
  rw [hword] at hlinks
  have hnew : ∀ a c, link ctx (setEntry s.fat (clusterAddr ctx current) n) a = some c →
      link ctx s.fat a = some c ∨ c = n := by
    intro a c hac
    rw [hlinks] at hac
    rcases eq_or_ne a current with rfl | ha
    · rw [Function.update_self] at hac
      split_ifs at hac
      cases hac
      exact .inr rfl
    · rw [Function.update_of_ne ha] at hac
      exact .inl hac
  have hold : ∀ o c, Holds { s.setThread k .idle with
      fat := setEntry s.fat (clusterAddr ctx current) n, returned := some (current, n) } o c →
      o ≠ .thread k ∧ Holds s o c := by
    intro o c hc
    have hc' : Holds (s.setThread k .idle) o c := by
      cases o <;> exact hc
    rcases holds_setThread hc' with ⟨-, hidle⟩ | hrest
    · simp [FatThread.holds] at hidle
    · exact hrest
  refine ⟨?_, ?_, ?_, ?_, h.cursor, ?_⟩
  · rw [hlinks]
    split_ifs
    · exact h.chains.join hstart.first hpath
    · exact h.chains.clear current
  · intro a c hac
    rcases hnew a c hac with hac | rfl
    · exact ⟨(h.target a c hac).1, hused c (h.target a c hac).2⟩
    · exact ⟨hstart.inside, hused c hstart.used⟩
  · intro o c hc
    obtain ⟨hother, hsc⟩ := hold o c hc
    have hs := h.start o c hsc
    refine ⟨hs.pos, hs.inside, hused c hs.used, ?_⟩
    intro a hac
    rcases hnew a c hac with hac | rfl
    · exact hs.first a hac
    · exact hother (h.owner _ _ c hsc hn)
  · intro o o' c hc hc'
    exact h.owner o o' c (hold o c hc).2 (hold o' c hc').2
  · intro c n' hret
    cases hret
    exact ⟨(hentry current).trans (if_pos rfl), hused n hstart.used⟩

theorem take {start : ℕ} (h : FatOk ctx s)
    (hstart : s.starts start = true) :
    FatOk ctx { s.setThread k (.freeing start) with
      starts := Function.update s.starts start false } := by
  have hfile : Holds s .file start := hstart
  have hold : ∀ o c, Holds { s.setThread k (.freeing start) with
      starts := Function.update s.starts start false } o c →
      o = .thread k ∧ c = start ∨ c ≠ start ∧ Holds s o c := by
    intro o c hc
    cases o with
    | file =>
      have hne : c ≠ start := by
        rintro rfl
        simp [Holds] at hc
      refine .inr ⟨hne, ?_⟩
      simpa [Holds, Function.update_of_ne hne] using hc
    | thread j =>
      have hc' : Holds (s.setThread k (.freeing start)) (.thread j) c := hc
      rcases holds_setThread hc' with ⟨ho, hfreeing⟩ | ⟨-, hsc⟩
      · exact .inl ⟨ho, (holds_freeing hfreeing).1⟩
      · refine .inr ⟨?_, hsc⟩
        rintro rfl
        cases h.owner _ _ c hsc hfile
  refine ⟨h.chains, h.target, ?_, ?_, h.cursor, by simp [FatRun.setThread]⟩
  · intro o c hc
    rcases hold o c hc with ⟨-, rfl⟩ | ⟨-, hc⟩
    · exact h.start _ _ hfile
    · exact h.start o c hc
  · intro o o' c hc hc'
    rcases hold o c hc with ⟨rfl, rfl⟩ | ⟨hne, hs⟩
    · rcases hold o' c hc' with ⟨rfl, -⟩ | ⟨hne, -⟩
      · rfl
      · exact absurd rfl hne
    · rcases hold o' c hc' with ⟨-, rfl⟩ | ⟨-, hs'⟩
      · exact absurd rfl hne
      · exact h.owner o o' c hs hs'

/-- A thread clears the first entry of the chain it holds and goes on with the rest. -/
theorem advance {current : ℕ} (h : FatOk ctx s) (hpc : s.threads k = .freeing current)
    (hvalid : 0 < current ∧ current < badCluster) :
    FatOk ctx { s.setThread k (.freeing (entryOf ctx s.fat current)) with
      fat := (freeEntry ctx s.fat current).1 } := by
  have hcurrent : Holds s (.thread k) current := by
    simp [Holds, hpc, FatThread.holds, hvalid]
  have hstart := h.start _ _ hcurrent
  have hused : ∀ c, c ≠ current → entryOf ctx s.fat c ≠ 0 →
      entryOf ctx (freeEntry ctx s.fat current).1 c ≠ 0 := by
    intro c hne hc
    rw [entryOf_freeEntry, if_neg hne]
    exact hc
  have hlinks : ∀ a c, link ctx (freeEntry ctx s.fat current).1 a = some c →
      a ≠ current ∧ link ctx s.fat a = some c := by
    intro a c hac
    rw [link_freeEntry] at hac
    refine ⟨?_, Chains.link_of_clear hac⟩
    rintro rfl
    simp at hac
  -- the rest of the chain is what the entry linked to
  have hold : ∀ o c, Holds { s.setThread k (.freeing (entryOf ctx s.fat current)) with
      fat := (freeEntry ctx s.fat current).1 } o c →
      o = .thread k ∧ link ctx s.fat current = some c ∨ c ≠ current ∧ Holds s o c := by
    intro o c hc
    have hc' : Holds (s.setThread k (.freeing (entryOf ctx s.fat current))) o c := by
      cases o <;> exact hc
    rcases holds_setThread hc' with ⟨ho, hfreeing⟩ | ⟨ho, hsc⟩
    · obtain ⟨rfl, hnext⟩ := holds_freeing hfreeing
      exact .inl ⟨ho, if_pos ⟨hstart.inside, hnext⟩⟩
    · refine .inr ⟨?_, hsc⟩
      rintro rfl
      exact ho (h.owner _ _ c hsc hcurrent)
  refine ⟨?_, ?_, ?_, ?_, h.cursor, by simp [FatRun.setThread]⟩
  · rw [link_freeEntry]
    exact h.chains.clear current
  · intro a c hac
    have hs := (hlinks a c hac).2
    have hne : c ≠ current := by
      rintro rfl
      exact hstart.first a hs
    exact ⟨(h.target a c hs).1, hused c hne (h.target a c hs).2⟩
  · intro o c hc
    rcases hold o c hc with ⟨-, hnext⟩ | ⟨hne, hc⟩
    · have hne : c ≠ current := by
        rintro rfl
        exact hstart.first c hnext
      refine ⟨(link_eq_some hnext).2.1, (h.target _ c hnext).1, hused c hne (h.target _ c hnext).2, ?_⟩
      intro a hac
      obtain ⟨ha, hac⟩ := hlinks a c hac
      exact ha (h.chains.unique a current c hac hnext)
    · have hs := h.start o c hc
      refine ⟨hs.pos, hs.inside, hused c hne hs.used, ?_⟩
      intro a hac
      exact hs.first a (hlinks a c hac).2
  · intro o o' c hc hc'
    rcases hold o c hc with ⟨rfl, hnext⟩ | ⟨-, hs⟩
    · rcases hold o' c hc' with ⟨rfl, -⟩ | ⟨-, hs'⟩
      · rfl
      · exact absurd hnext ((h.start o' c hs').first current)
    · rcases hold o' c hc' with ⟨rfl, hnext⟩ | ⟨-, hs'⟩
      · exact absurd hnext ((h.start o c hs).first current)
      · exact h.owner o o' c hs hs'

theorem alloc (h : FatOk ctx s) (loads : ℕ → Bool) (o : Owner)
    (hfat : t.fat = (vfatAllocFatEntry ctx loads s.fat).1) (hret : t.returned = none)
    (hold : ∀ o' c, Holds t o' c → Holds s o' c ∨
      o' = o ∧ (vfatAllocFatEntry ctx loads s.fat).2 = .ok c ∧ 0 < c) : FatOk ctx t := by
  rcases vfatAllocFatEntry_cases loads s.fat h.cursor with
    ⟨-, n, hfound, hinside, hfree, hmark, hcursor⟩ | ⟨-, hsame, hnone⟩
  · refine h.mark o hinside hfree hmark hcursor hfat hret ?_
    intro o' c hc
    rcases hold o' c hc with hc | ⟨ho, hc, hpos⟩
    · exact .inl hc
    · rw [hfound] at hc
      cases hc
      exact .inr ⟨ho, rfl, hpos⟩
  · refine h.same (hfat.trans hsame) hret ?_
    intro o' c hc
    rcases hold o' c hc with hc | ⟨-, hc, hpos⟩
    · exact hc
    · rcases hnone with hnone | ⟨err, hnone⟩
      · rw [hnone] at hc
        cases hc
        exact absurd hpos (lt_irrefl 0)
      · rw [hnone] at hc
        cases hc

end FatOk

/-- The new entry is not cleared and still returned, and it is not linked from the end of its own
chain. -/
def Extends (s : FatRun) : FatEvent → Prop
  | .link thread _ => ∀ current next, s.threads thread = .extending current next →
      endOfChain ≤ entryOf ctx s.fat current → ¬Reaches (link ctx s.fat) next current
  | .undo _ load => load = false
  | _ => True

variable {ctx}

theorem FatOk.keep {s t : FatRun} {e : FatEvent} (h : FatOk ctx s) (hok : Extends ctx s e)
    (hstep : fatStep ctx s e = some t) : FatOk ctx t := by
  cases e with
  | alloc loads =>
    simp only [fatStep] at hstep
    split at hstep
    · rename_i fat n hcall
      cases hstep
      refine h.alloc loads .file (by rw [hcall]) rfl ?_
      intro o c hc
      cases o with
      | file =>
        rcases eq_or_ne c (n + 1) with rfl | hne
        · exact .inr ⟨rfl, by rw [hcall], n.succ_pos⟩
        · refine .inl ?_
          simpa [Holds, Function.update_of_ne hne] using hc
      | thread j => exact .inl hc
    · rename_i fat result hnone hcall
      cases hstep
      refine h.alloc loads .file (by rw [hcall]) rfl ?_
      intro o c hc
      cases o <;> exact .inl hc
  | extend thread current loads =>
    simp only [fatStep] at hstep
    split at hstep
    · rename_i fat n hpc hcall
      cases hstep
      refine h.alloc loads (.thread thread) (by rw [hcall]) rfl ?_
      intro o c hc
      have hc' : Holds (s.setThread thread (.extending current (n + 1))) o c := by
        cases o <;> exact hc
      rcases holds_setThread hc' with ⟨ho, hnext⟩ | ⟨-, hc⟩
      · obtain rfl : n + 1 = c := by simpa [FatThread.holds] using hnext
        exact .inr ⟨ho, by rw [hcall], n.succ_pos⟩
      · exact .inl hc
    · rename_i fat result hnone hpc hcall
      cases hstep
      refine h.alloc loads (.thread thread) (by rw [hcall]) rfl ?_
      intro o c hc
      cases o <;> exact .inl hc
    · cases hstep
  | link thread load =>
    cases hpc : s.threads thread with
    | extending current next =>
      simp only [fatStep, hpc] at hstep
      cases load with
      | true =>
        cases hlink : extendLink ctx s.fat current next with
        | some fat =>
          simp only [hlink, if_true] at hstep
          cases hstep
          have hend : endOfChain ≤ entryOf ctx s.fat current := by
            by_contra hlow
            simp [extendLink, entryOf] at hlink hlow
            omega
          exact h.join hpc hlink (hok current next hpc hend)
        | none =>
          simp only [hlink, if_true] at hstep
          cases hstep
          exact h.setThread fun c hc => by simpa [hpc, FatThread.holds] using hc
      | false =>
        cases hstep
        refine h.setThread fun c hc => ?_
        rw [hpc, (holds_freeing hc).1]
        rfl
    | idle => simp [fatStep, hpc] at hstep
    | undoing _ _ => simp [fatStep, hpc] at hstep
    | freeing _ => simp [fatStep, hpc] at hstep
  | undo thread load =>
    obtain rfl : load = false := hok
    cases hpc : s.threads thread with
    | undoing current next =>
      simp only [fatStep, hpc] at hstep
      cases hstep
      refine h.setThread fun c hc => ?_
      rw [hpc, (holds_freeing hc).1]
      rfl
    | idle => simp [fatStep, hpc] at hstep
    | extending _ _ => simp [fatStep, hpc] at hstep
    | freeing _ => simp [fatStep, hpc] at hstep
  | free thread start =>
    cases hpc : s.threads thread with
    | idle =>
      simp only [fatStep, hpc] at hstep
      split_ifs at hstep with hstart
      cases hstep
      exact h.take hstart
    | extending _ _ => simp [fatStep, hpc] at hstep
    | undoing _ _ => simp [fatStep, hpc] at hstep
    | freeing _ => simp [fatStep, hpc] at hstep
  | freeNext thread load =>
    cases hpc : s.threads thread with
    | freeing current =>
      simp only [fatStep, hpc] at hstep
      split_ifs at hstep with hvalid
      · cases hstep
        exact h.advance hpc ⟨hvalid.1, hvalid.2.1⟩
      · cases hstep
        exact h.setThread fun c hc => by simp [FatThread.holds] at hc
    | idle => simp [fatStep, hpc] at hstep
    | extending _ _ => simp [fatStep, hpc] at hstep
    | undoing _ _ => simp [fatStep, hpc] at hstep

/-- In every interleaving, no entry has two predecessors, chains are acyclic and those in use are
disjoint; when `vfat_extend_cluster` returns 0 and a cluster, that cluster is linked and in use. -/
theorem fat_chains_disjoint {s : FatRun} (h : (fatMachine ctx).Reach (Extends ctx) s) :
    (∀ a b c, link ctx s.fat a = some c → link ctx s.fat b = some c → a = b) ∧
      (∀ a b, link ctx s.fat a = some b → ¬Reaches (link ctx s.fat) b a) ∧
      (∀ a b c, s.starts a = true → s.starts b = true → Reaches (link ctx s.fat) a c →
        Reaches (link ctx s.fat) b c → a = b) ∧
      ∀ current next, s.returned = some (current, next) →
        entryOf ctx s.fat current = next ∧ entryOf ctx s.fat next ≠ 0 := by
  have hok : FatOk ctx s := by
    refine h.invariant ?_ fun s e t hs hguard hstep => hs.keep hguard hstep
    rintro s ⟨hinit, -⟩
    exact hinit
  refine ⟨hok.chains.unique, hok.chains.acyclic, ?_, hok.linked⟩
  intro a b c ha hb hac hbc
  exact hok.chains.eq_of_reaches (hok.start .file a ha).first (hok.start .file b hb).first hac hbc

def oneFile : FatRun where
  fat := ⟨fun page word => if page = 0 ∧ word = 2 then 5
    else if page = 0 ∧ word = 5 then endOfChain else 0, 0, 2⟩
  starts c := c == 2
  threads _ := .idle
  returned := none

lemma entryOf_oneFile (c : ℕ) : entryOf smallVolume oneFile.fat c =
    if c = 2 then 5 else if c = 5 then endOfChain else 0 := by
  have haddr : clusterAddr smallVolume c = (c / 1024, c % 1024) := by
    rw [clusterAddr_eq_lookupAddr]
    simp [lookupAddr, smallVolume, pageSize]
  have htwo : (c / 1024 = 0 ∧ c % 1024 = 2) ↔ c = 2 := by omega
  have hfive : (c / 1024 = 0 ∧ c % 1024 = 5) ↔ c = 5 := by omega
  simp only [entryOf, haddr, entryAt, oneFile, htwo, hfive]
  split_ifs <;> rfl

lemma link_oneFile (c : ℕ) : link smallVolume oneFile.fat c = if c = 2 then some 5 else none := by
  simp only [link, entryOf_oneFile]
  rcases eq_or_ne c 2 with rfl | htwo
  · rfl
  · rcases eq_or_ne c 5 with rfl | hfive
    · rfl
    · simp [htwo, hfive]

lemma oneFile_init : (fatMachine smallVolume).init oneFile := by
  have hlink : ∀ a c, link smallVolume oneFile.fat a = some c → a = 2 ∧ c = 5 := by
    intro a c hac
    rw [link_oneFile] at hac
    split_ifs at hac with ha
    cases hac
    exact ⟨ha, rfl⟩
  refine ⟨⟨⟨?_, ?_⟩, ?_, ?_, ?_, le_rfl, by simp [oneFile]⟩, fun _ => rfl, rfl⟩
  · intro a b c ha hb
    exact (hlink a c ha).1.trans (hlink b c hb).1.symm
  · intro a b hab hback
    obtain ⟨rfl, rfl⟩ := hlink a b hab
    rcases Relation.ReflTransGen.cases_head hback with heq | ⟨c, hc, -⟩
    · cases heq
    · cases (hlink 5 c hc).1
  · intro a c hac
    obtain ⟨rfl, rfl⟩ := hlink a c hac
    rw [entryOf_oneFile]
    decide
  · intro o c hc
    cases o with
    | file =>
      obtain rfl : c = 2 := by simpa [Holds, oneFile] using hc
      refine ⟨by decide, by decide, by rw [entryOf_oneFile]; decide, ?_⟩
      intro a ha
      cases (hlink a 2 ha).2
    | thread j => simp [Holds, oneFile, FatThread.holds] at hc
  · intro o o' c hc hc'
    cases o with
    | file =>
      cases o' with
      | file => rfl
      | thread j => simp [Holds, oneFile, FatThread.holds] at hc'
    | thread j => simp [Holds, oneFile, FatThread.holds] at hc

def loadsAll : ℕ → Bool := fun _ => true

/-- After the search of `vfat_extend_cluster` for cluster `current`. -/
def searched (current : ℕ) : FatRun :=
  { oneFile.setThread 0 (.extending current 3) with
    fat := (vfatAllocFatEntry smallVolume loadsAll oneFile.fat).1 }

theorem fat_chains_disjoint_append :
    ∃ s, (fatMachine smallVolume).Reach (Extends smallVolume) s ∧ s.returned = some (5, 3) ∧
      entryOf smallVolume s.fat 5 = 3 ∧ entryOf smallVolume s.fat 3 ≠ 0 := by
  have hsearched : (fatMachine smallVolume).Reach (Extends smallVolume) (searched 5) :=
    .step (e := .extend 0 5 loadsAll) (.init oneFile_init) trivial rfl
  have hlinked : (fatMachine smallVolume).Reach (Extends smallVolume)
      { (searched 5).setThread 0 .idle with
        fat := setEntry (searched 5).fat (clusterAddr smallVolume 5) 3
        returned := some (5, 3) } := by
    refine .step (e := .link 0 true) hsearched ?_ rfl
    intro current next hpc _ hpath
    cases hpc
    rcases Relation.ReflTransGen.cases_head hpath with heq | ⟨c, hc, -⟩
    · cases heq
    · have hnone : link smallVolume (searched 5).fat 3 = none := rfl
      rw [hnone] at hc
      cases hc
  exact ⟨_, hlinked, rfl, (fat_chains_disjoint hlinked).2.2.2 5 3 rfl⟩

/-- `vfat_extend_cluster` for a cluster that has a successor returns an entry that is free. With
the file freed between the call and the search, the entry found may be the cluster itself, which is
then linked to itself. -/
theorem extend_returns_free_entry :
    (∃ s, (fatMachine smallVolume).Reachable s ∧ s.returned = some (2, 3) ∧
      entryOf smallVolume s.fat 2 = 5 ∧ entryOf smallVolume s.fat 3 = 0) ∧
    ∃ s, (fatMachine smallVolume).Reachable s ∧ link smallVolume s.fat 2 = some 2 := by
  have hinit : (fatMachine smallVolume).Reachable oneFile := .init oneFile_init
  constructor
  · refine ⟨_, hinit.run [.extend 0 2 loadsAll, .link 0 true, .undo 0 true] rfl, rfl, rfl, rfl⟩
  · refine ⟨_, hinit.run [.free 1 2, .freeNext 1 true, .freeNext 1 true, .extend 0 2 loadsAll,
      .link 0 true] rfl, rfl⟩

end Almos.Vfat
