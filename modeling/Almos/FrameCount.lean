import Almos.AnonMemory

/-!
# Reference counts of private frames

The reference count of a frame without mapper is the number of page table entries, of all
tasks, that hold it. `FrameOk` says what one descriptor tells about its frame, and each change
of a descriptor has a lemma; `FramesOk.remap` then moves one entry from a frame to another.
-/
namespace Almos.Anon
open Bits Word

def entries (s : Memory) (ppn : ℕ) : Set (ℕ × ℕ) := {x | (s.pmm x.1 x.2).ppn = ppn}

noncomputable def held (s : Memory) (ppn : ℕ) : ℕ := (entries s ppn).ncard

/-- A descriptor whose frame is held by `n` entries. -/
structure FrameOk (page : Page) (kernel : Bool) (n : ℕ) : Prop where
  counted : kernel = false → page.mapper = none → page.count = n
  free : page.state = .pgFree → kernel = false ∧ page.count = 0
  kernelOne : kernel = true → page.count = 1

structure EntryOk (s : Memory) (task vpn : ℕ) : Prop where
  task_lt : task < taskMaxNr
  vpn_lt : vpn < vpnLimit
  rest : (s.pmm task vpn).attr.rest = true
  user : s.kernel (s.pmm task vpn).ppn = false
  anon : (s.pages (s.pmm task vpn).ppn).mapper = none

structure FramesOk (s : Memory) : Prop where
  frame : ∀ p, p ≠ 0 → FrameOk (s.pages p) (s.kernel p) (held s p)
  blank : ∀ task vpn, (s.pmm task vpn).ppn = 0 → s.pmm task vpn = noPte
  entry : ∀ task vpn, (s.pmm task vpn).ppn ≠ 0 → EntryOk s task vpn

theorem count_down {page : Page} {n : ℕ} (hn : n < 2 ^ 32 - 1) (hcount : page.count = n + 1) :
    page.pageRefcountDown.count = n := by
  have hsub := wsub_of_le (a := page.count) (b := 1) (by omega) (by omega)
  simp only [Page.pageRefcountDown, hsub]
  omega

theorem count_up {page : Page} (hn : page.count < 2 ^ 32 - 1) :
    page.pageRefcountUp.count = page.count + 1 :=
  wadd_of_lt (by omega)

namespace FrameOk
variable {page : Page} {n : ℕ}

theorem not_free (h : FrameOk page false (n + 1)) (hm : page.mapper = none) :
    page.state ≠ .pgFree := by
  intro hfree
  have hzero := (h.free hfree).2
  have hcount := h.counted rfl hm
  omega

theorem of_count (hcount : page.count = n) (hstate : page.state ≠ .pgFree) :
    FrameOk page false n where
  counted _ _ := hcount
  free hfree := absurd hfree hstate
  kernelOne hk := by simp at hk

theorem down (h : FrameOk page false (n + 1)) (hm : page.mapper = none) (hn : n < 2 ^ 32 - 1) :
    FrameOk page.pageRefcountDown false n :=
  of_count (count_down hn (h.counted rfl hm)) (h.not_free hm)

theorem up (h : FrameOk page false (n + 1)) (hm : page.mapper = none) (hn : n + 1 < 2 ^ 32 - 1) :
    FrameOk page.pageRefcountUp false (n + 2) := by
  have hcount := h.counted rfl hm
  refine of_count ?_ (h.not_free hm)
  rw [count_up (by omega), hcount]

theorem dropped_last (hcount : page.count = 1) : FrameOk page.ppmFreePages false 0 := by
  have hdown := count_down (n := 0) (by omega) hcount
  have hlast : Page.ppmFreePages page = page.pageRefcountDown.pageStateSet .pgFree :=
    if_neg (by omega)
  rw [hlast]
  exact
    { counted := fun _ _ => hdown
      free := fun _ => ⟨rfl, hdown⟩
      kernelOne := fun hk => by simp at hk }

theorem dropped (h : FrameOk page false (n + 1)) (hm : page.mapper = none)
    (hn : n < 2 ^ 32 - 1) : FrameOk page.ppmFreePages false n := by
  have hcount := h.counted rfl hm
  by_cases hlast : page.count > 1
  · rw [Page.ppmFreePages, if_pos hlast]
    exact h.down hm hn
  · obtain rfl : n = 0 := by omega
    exact dropped_last hcount

theorem taken (hcount : page.count = 0) : FrameOk page.allocPage false 1 := by
  refine of_count ?_ (by simp)
  simp [Page.pageRefcountUp, hcount, wadd]

end FrameOk

structure Loses (f : Page → Page) : Prop where
  mapper (page : Page) : (f page).mapper = page.mapper
  frame {page : Page} {n : ℕ} : FrameOk page false (n + 1) → page.mapper = none → n < 2 ^ 30 →
    FrameOk (f page) false n

theorem loses_down : Loses Page.pageRefcountDown where
  mapper _ := rfl
  frame h hm hn := h.down hm (by omega)

theorem loses_dropped : Loses Page.ppmFreePages where
  mapper page := by
    unfold Page.ppmFreePages
    split_ifs <;> rfl
  frame h hm hn := h.dropped hm (by omega)

/-- What `vm_region_unmap` does to the count before it calls `ppm_free_pages`. -/
theorem up_down {page : Page} (hcount : page.count = 1) :
    page.pageRefcountDown.pageRefcountUp = page := by
  have hone : wadd (wsub page.count 1) 1 = page.count := by rw [hcount]; rfl
  simp [Page.pageRefcountUp, Page.pageRefcountDown, hone]

section Entries
variable {s : Memory} {task vpn p : ℕ} {info : Pte}

@[simp] theorem setPage_pages (s : Memory) (p q : ℕ) (f : Page → Page) :
    (setPage s p f).pages q = if q = p then f (s.pages p) else s.pages q :=
  Function.update_apply ..

theorem setPage_setPage_pages {o q : ℕ} (hne : o ≠ q) (f g : Page → Page) :
    (setPage (setPage s o f) q g).pages p = if p = q then g (s.pages q)
      else if p = o then f (s.pages p) else s.pages p := by
  rcases eq_or_ne p q with rfl | hpq
  · simp [hne.symm]
  · rcases eq_or_ne p o with rfl | hpo
    · simp [hpq]
    · simp [hpq, hpo]

theorem setPage_comm {o q : ℕ} (hne : o ≠ q) (f g : Page → Page) :
    setPage (setPage s q g) o f = setPage (setPage s o f) q g := by
  simp [setPage, hne, hne.symm, Function.update_comm hne]

theorem pmmSetPage_self : (pmmSetPage s task vpn info).pmm task vpn = info := by
  simp [pmmSetPage]

theorem pmmSetPage_ne {t v : ℕ} (h : (t, v) ≠ (task, vpn)) :
    (pmmSetPage s task vpn info).pmm t v = s.pmm t v := by
  by_cases ht : t = task
  · subst ht
    have hv : v ≠ vpn := fun hv => h (by rw [hv])
    simp [pmmSetPage, hv]
  · simp [pmmSetPage, ht]

theorem entries_pmmSetPage_of_eq (h : info.ppn = p) :
    entries (pmmSetPage s task vpn info) p = insert (task, vpn) (entries s p) := by
  ext ⟨t, v⟩
  by_cases hx : (t, v) = (task, vpn)
  · obtain ⟨rfl, rfl⟩ := Prod.mk.inj hx
    simp [entries, pmmSetPage_self, h]
  · simp only [entries, Set.mem_ofPred_eq, pmmSetPage_ne hx, Set.mem_insert_iff, hx, false_or]

theorem entries_pmmSetPage_of_ne (h : info.ppn ≠ p) :
    entries (pmmSetPage s task vpn info) p = entries s p \ {(task, vpn)} := by
  ext ⟨t, v⟩
  by_cases hx : (t, v) = (task, vpn)
  · obtain ⟨rfl, rfl⟩ := Prod.mk.inj hx
    simp [entries, pmmSetPage_self, h]
  · simp only [entries, Set.mem_ofPred_eq, pmmSetPage_ne hx, Set.mem_sdiff, Set.mem_singleton_iff,
      hx, not_false_eq_true, and_true]

namespace FramesOk

theorem entries_subset (h : FramesOk s) (hp : p ≠ 0) :
    entries s p ⊆ (Finset.range taskMaxNr ×ˢ Finset.range vpnLimit : Finset (ℕ × ℕ)) := by
  rintro ⟨t, v⟩ hx
  have hx : (s.pmm t v).ppn = p := hx
  have hentry := h.entry t v (by omega)
  simp [hentry.task_lt, hentry.vpn_lt]

theorem entries_finite (h : FramesOk s) (hp : p ≠ 0) : (entries s p).Finite :=
  (Finset.finite_toSet _).subset (h.entries_subset hp)

theorem held_le (h : FramesOk s) (hp : p ≠ 0) : held s p ≤ 2 ^ 30 := by
  have hle := Set.ncard_le_ncard (h.entries_subset hp) (Finset.finite_toSet _)
  rw [Set.ncard_coe_finset, Finset.card_product, Finset.card_range, Finset.card_range] at hle
  exact hle

theorem held_pos (h : FramesOk s) (hp : (s.pmm task vpn).ppn ≠ 0) :
    0 < held s (s.pmm task vpn).ppn :=
  (Set.ncard_pos (h.entries_finite hp)).2 ⟨(task, vpn), rfl⟩

/-- Frames that are not held by an entry before or after have the same entries. -/
theorem held_other (hold : (s.pmm task vpn).ppn ≠ p) (hnew : info.ppn ≠ p) :
    held (pmmSetPage s task vpn info) p = held s p := by
  have hmem : (task, vpn) ∉ entries s p := hold
  rw [held, entries_pmmSetPage_of_ne hnew, Set.sdiff_singleton_eq_self hmem, held]

theorem held_same (hold : (s.pmm task vpn).ppn = p) (hnew : info.ppn = p) :
    held (pmmSetPage s task vpn info) p = held s p := by
  have hmem : (task, vpn) ∈ entries s p := hold
  rw [held, entries_pmmSetPage_of_eq hnew, Set.insert_eq_of_mem hmem, held]

theorem held_gain (h : FramesOk s) (hp : p ≠ 0) (hold : (s.pmm task vpn).ppn ≠ p)
    (hnew : info.ppn = p) : held (pmmSetPage s task vpn info) p = held s p + 1 := by
  have hmem : (task, vpn) ∉ entries s p := hold
  rw [held, entries_pmmSetPage_of_eq hnew, Set.ncard_insert_of_notMem hmem (h.entries_finite hp),
    held]

theorem held_loss (h : FramesOk s) (hp : p ≠ 0) (hold : (s.pmm task vpn).ppn = p)
    (hnew : info.ppn ≠ p) : held (pmmSetPage s task vpn info) p + 1 = held s p := by
  have hmem : (task, vpn) ∈ entries s p := hold
  rw [held, entries_pmmSetPage_of_ne hnew,
    Set.ncard_sdiff_singleton_add_one hmem (h.entries_finite hp), held]

theorem held_congr {s' : Memory} (h : s'.pmm = s.pmm) (p : ℕ) : held s' p = held s p := by
  simp only [held, entries, h]

theorem frame_of_entry (h : FramesOk s) (hp : (s.pmm task vpn).ppn ≠ 0) :
    FrameOk (s.pages (s.pmm task vpn).ppn) false (held s (s.pmm task vpn).ppn) := by
  have hframe := h.frame _ hp
  rwa [(h.entry task vpn hp).user] at hframe

theorem remap {s' : Memory} (info : Pte) (h : FramesOk s) (htask : task < taskMaxNr) (hvpn : vpn < vpnLimit)
    (hs : s' = { pmmSetPage s task vpn info with pages := s'.pages })
    (hne : (s.pmm task vpn).ppn ≠ info.ppn)
    (hother : ∀ p, p ≠ 0 → p ≠ (s.pmm task vpn).ppn → p ≠ info.ppn → s'.pages p = s.pages p)
    (hold : (s.pmm task vpn).ppn ≠ 0 → ∃ f, Loses f ∧
      s'.pages (s.pmm task vpn).ppn = f (s.pages (s.pmm task vpn).ppn))
    (hnew : info.ppn ≠ 0 → info.attr.rest = true ∧ s.kernel info.ppn = false ∧
      (s'.pages info.ppn).mapper = none ∧
      FrameOk (s'.pages info.ppn) false (held s info.ppn + 1))
    (hblank : info.ppn = 0 → info = noPte) : FramesOk s' := by
  have hpmm : s'.pmm = (pmmSetPage s task vpn info).pmm := by rw [hs]
  have hkernel : s'.kernel = s.kernel := by rw [hs]; rfl
  refine ⟨?_, ?_, ?_⟩
  · intro p hp
    rw [held_congr hpmm, hkernel]
    rcases eq_or_ne p (s.pmm task vpn).ppn with rfl | hpold
    · obtain ⟨f, hf, hpage⟩ := hold hp
      have hloss := h.held_loss hp rfl hne.symm
      have hframe := h.frame_of_entry hp
      have hle := h.held_le hp
      rw [← hloss] at hframe
      rw [hpage, (h.entry task vpn hp).user]
      exact hf.frame hframe (h.entry task vpn hp).anon (by omega)
    · rcases eq_or_ne p info.ppn with rfl | hpnew
      · obtain ⟨-, huser, -, hframe⟩ := hnew hp
        rw [h.held_gain hp hpold.symm rfl, huser]
        exact hframe
      · rw [hother p hp hpold hpnew, held_other hpold.symm hpnew.symm]
        exact h.frame p hp
  · intro t v hzero
    rw [hpmm] at hzero ⊢
    by_cases hx : (t, v) = (task, vpn)
    · obtain ⟨rfl, rfl⟩ := Prod.mk.inj hx
      rw [pmmSetPage_self] at hzero ⊢
      exact hblank hzero
    · rw [pmmSetPage_ne hx] at hzero ⊢
      exact h.blank t v hzero
  · intro t v hp
    rw [hpmm] at hp
    by_cases hx : (t, v) = (task, vpn)
    · obtain ⟨rfl, rfl⟩ := Prod.mk.inj hx
      rw [pmmSetPage_self] at hp
      obtain ⟨hrest, huser, hmapper, -⟩ := hnew hp
      refine ⟨htask, hvpn, ?_, ?_, ?_⟩ <;> rw [hpmm, pmmSetPage_self]
      · exact hrest
      · rwa [hkernel]
      · exact hmapper
    · rw [pmmSetPage_ne hx] at hp
      have hentry := h.entry t v hp
      refine ⟨hentry.task_lt, hentry.vpn_lt, ?_, ?_, ?_⟩ <;> rw [hpmm, pmmSetPage_ne hx]
      · exact hentry.rest
      · rw [hkernel]
        exact hentry.user
      · rcases eq_or_ne (s.pmm t v).ppn (s.pmm task vpn).ppn with heq | hpold
        · rw [heq] at hp ⊢
          obtain ⟨f, hf, hpage⟩ := hold hp
          rw [hpage, hf.mapper]
          exact (h.entry task vpn hp).anon
        · rcases eq_or_ne (s.pmm t v).ppn info.ppn with heq | hpnew
          · rw [heq] at hp ⊢
            exact (hnew hp).2.2.1
          · rw [hother _ hp hpold hpnew]
            exact hentry.anon

theorem retag (h : FramesOk s) (hp : (s.pmm task vpn).ppn ≠ 0)
    (hsame : info.ppn = (s.pmm task vpn).ppn) (hrest : info.attr.rest = true) :
    FramesOk (pmmSetPage s task vpn info) := by
  refine ⟨?_, ?_, ?_⟩
  · intro p hp'
    have hheld : held (pmmSetPage s task vpn info) p = held s p := by
      rcases eq_or_ne p info.ppn with rfl | hpnew
      · exact held_same hsame.symm rfl
      · exact held_other (hsame ▸ hpnew.symm) hpnew.symm
    rw [hheld]
    exact h.frame p hp'
  · intro t v hzero
    by_cases hx : (t, v) = (task, vpn)
    · obtain ⟨rfl, rfl⟩ := Prod.mk.inj hx
      rw [pmmSetPage_self, hsame] at hzero
      exact absurd hzero hp
    · rw [pmmSetPage_ne hx] at hzero ⊢
      exact h.blank t v hzero
  · intro t v hp'
    by_cases hx : (t, v) = (task, vpn)
    · obtain ⟨rfl, rfl⟩ := Prod.mk.inj hx
      have hentry := h.entry t v hp
      refine ⟨hentry.task_lt, hentry.vpn_lt, ?_, ?_, ?_⟩ <;> rw [pmmSetPage_self]
      · exact hrest
      · rw [hsame]
        exact hentry.user
      · rw [hsame]
        exact hentry.anon
    · rw [pmmSetPage_ne hx] at hp'
      have hentry := h.entry t v hp'
      refine ⟨hentry.task_lt, hentry.vpn_lt, ?_, ?_, ?_⟩ <;> rw [pmmSetPage_ne hx]
      · exact hentry.rest
      · exact hentry.user
      · exact hentry.anon

theorem setPage_unheld (h : FramesOk s) {q : ℕ} {b : Bool} {f : Page → Page}
    (hempty : q ≠ 0 → entries s q = ∅) (hframe : q ≠ 0 → FrameOk (f (s.pages q)) b 0) :
    FramesOk { setPage s q f with kernel := Function.update s.kernel q b } := by
  refine ⟨?_, h.blank, ?_⟩
  · intro p hp
    have hframe' := h.frame p hp
    change FrameOk ((setPage s q f).pages p) (Function.update s.kernel q b p) (held s p)
    rcases eq_or_ne p q with rfl | hpq
    · rw [held, hempty hp, Set.ncard_empty]
      simpa using hframe hp
    · simpa [hpq] using hframe'
  · intro t v hp
    have hentry := h.entry t v hp
    have hpq : (s.pmm t v).ppn ≠ q := by
      intro heq
      have hmem : (t, v) ∈ entries s q := heq
      rw [hempty (heq ▸ hp)] at hmem
      exact hmem
    refine ⟨hentry.task_lt, hentry.vpn_lt, hentry.rest, ?_, ?_⟩
    · simpa [setPage, hpq] using hentry.user
    · simpa [setPage, hpq] using hentry.anon

theorem fresh (h : FramesOk s) {q : ℕ} (hq : q ≠ 0) (hfree : (s.pages q).state = .pgFree) :
    s.kernel q = false ∧ (s.pages q).count = 0 ∧ entries s q = ∅ := by
  have hframe := h.frame q hq
  obtain ⟨huser, hcount⟩ := hframe.free hfree
  refine ⟨huser, hcount, ?_⟩
  by_cases hm : (s.pages q).mapper = none
  · have hheld := hframe.counted huser hm
    rw [hcount] at hheld
    exact (Set.ncard_eq_zero (h.entries_finite hq)).1 hheld.symm
  · refine Set.eq_empty_of_forall_notMem ?_
    rintro ⟨t, v⟩ hx
    have hx : (s.pmm t v).ppn = q := hx
    have hentry := h.entry t v (hx ▸ hq)
    exact hm (hx ▸ hentry.anon)

theorem ne_fresh (h : FramesOk s) {q : ℕ} (hq : q ≠ 0) (hfree : (s.pages q).state = .pgFree) :
    (s.pmm task vpn).ppn ≠ q := by
  intro heq
  have hmem : (task, vpn) ∈ entries s q := heq
  rw [(h.fresh hq hfree).2.2] at hmem
  exact hmem

theorem move {s' : Memory} {q : ℕ} (attr : Attr) (h : FramesOk s) (htask : task < taskMaxNr)
    (hvpn : vpn < vpnLimit) (hq : q ≠ 0) (hfree : (s.pages q).state = .pgFree)
    (hs : s' = { pmmSetPage s task vpn ⟨attr, q⟩ with pages := s'.pages })
    (hrest : attr.rest = true) (hpage : s'.pages q = (s.pages q).allocPage)
    (hother : ∀ p, p ≠ 0 → p ≠ (s.pmm task vpn).ppn → p ≠ q → s'.pages p = s.pages p)
    (hold : (s.pmm task vpn).ppn ≠ 0 → ∃ f, Loses f ∧
      s'.pages (s.pmm task vpn).ppn = f (s.pages (s.pmm task vpn).ppn)) : FramesOk s' := by
  obtain ⟨huser, hcount, hempty⟩ := h.fresh hq hfree
  refine h.remap _ htask hvpn hs (h.ne_fresh hq hfree) hother hold ?_ (fun hzero => absurd hzero hq)
  intro _
  refine ⟨hrest, huser, ?_, ?_⟩ <;> rw [hpage]
  · rfl
  · rw [held, hempty, Set.ncard_empty]
    exact FrameOk.taken hcount

theorem replace {s' : Memory} {q : ℕ} {f : Page → Page} (attr : Attr) (h : FramesOk s)
    (hp : (s.pmm task vpn).ppn ≠ 0) (hq : q ≠ 0) (hfree : (s.pages q).state = .pgFree)
    (hf : Loses f) (hs : s' = { pmmSetPage s task vpn ⟨attr, q⟩ with pages := s'.pages })
    (hrest : attr.rest = true)
    (hpages : ∀ p, s'.pages p = if p = q then (s.pages q).allocPage
      else if p = (s.pmm task vpn).ppn then f (s.pages p) else s.pages p) : FramesOk s' := by
  obtain ⟨htask, hvpn, -, -, -⟩ := h.entry task vpn hp
  refine h.move attr htask hvpn hq hfree hs hrest ?_ ?_ ?_
  · rw [hpages, if_pos rfl]
  · intro p _ hpold hpq
    rw [hpages, if_neg hpq, if_neg hpold]
  · intro _
    exact ⟨f, hf, by rw [hpages, if_neg (h.ne_fresh hq hfree), if_pos rfl]⟩

end FramesOk
end Entries

section Fault
variable {s : Memory} {task vpn cluster : ℕ} {region : AnonRegion} {alloc : Option ℕ}

theorem mayAlloc_some {q : ℕ} (h : mayAlloc s (some q)) :
    q ≠ 0 ∧ (s.pages q).state = .pgFree := by
  simpa [mayAlloc] using h

namespace FramesOk

theorem aod (h : FramesOk s) (htask : task < taskMaxNr) (hvpn : vpn < vpnLimit)
    (hblank : s.pmm task vpn = noPte) (halloc : mayAlloc s alloc) (ptOk : Bool) :
    FramesOk (vmmDoAod s task region vpn ptOk alloc) := by
  have hattr : (s.pmm task vpn).attr = noAttr := by rw [hblank]; rfl
  cases ptOk with
  | false => exact h
  | true =>
    cases alloc with
    | none => simpa [vmmDoAod, hattr] using h
    | some q =>
      obtain ⟨hq, hfree⟩ := mayAlloc_some halloc
      obtain ⟨huser, hcount, hempty⟩ := h.fresh hq hfree
      simp only [vmmDoAod, hattr, not_true_eq_false, ne_eq, if_false, allocPage,
        ppmFreePages]
      split_ifs
      · -- the frame is taken and given back
        have hframe : FrameOk (Page.ppmFreePages (Page.allocPage (s.pages q))) false 0 :=
          (FrameOk.taken hcount).dropped rfl (by omega)
        have hset := h.setPage_unheld (f := Page.ppmFreePages ∘ Page.allocPage) (fun _ => hempty) (fun _ => hframe)
        rw [← huser, Function.update_eq_self] at hset
        simpa [setPage] using hset
      · refine h.move (vmPgprot region) htask hvpn hq hfree rfl rfl ?_ ?_ ?_
        · simp [pmmSetPage]
        · intro p _ _ hpq
          simp [pmmSetPage, hpq]
        · intro hold
          rw [hblank] at hold
          exact absurd rfl hold

/-- With a new frame to be had, the entry of a frame that is shared or remote is moved. -/
theorem cow (h : FramesOk s) (hp : (s.pmm task vpn).ppn ≠ 0) (halloc : mayAlloc s alloc)
    (hok : alloc ≠ none ∧ region.hugetlb = false ∨ (s.pages (s.pmm task vpn).ppn).count = 1 ∧
      (s.pages (s.pmm task vpn).ppn).cid = cluster) :
    FramesOk (vmmDoCow s task region vpn cluster alloc) := by
  obtain ⟨htask, hvpn, hrest, huser, hm⟩ := h.entry task vpn hp
  by_cases hcow : (s.pmm task vpn).attr.cow
  · by_cases hlocal : (s.pages (s.pmm task vpn).ppn).count = 1 ∧
        (s.pages (s.pmm task vpn).ppn).cid = cluster
    · cases hhuge : region.hugetlb with
      | true => simpa [vmmDoCow, hcow, hm, hlocal, hhuge] using h
      | false =>
        simp only [vmmDoCow, hcow, hm, hlocal, hhuge, not_true_eq_false, and_self, if_false, if_true]
        exact h.retag hp rfl rfl
    · obtain ⟨hsome, hhuge⟩ := hok.resolve_right hlocal
      obtain ⟨q, rfl⟩ := Option.ne_none_iff_exists'.1 hsome
      obtain ⟨hq, hfree⟩ := mayAlloc_some halloc
      have hne : (s.pmm task vpn).ppn ≠ q := h.ne_fresh hq hfree
      by_cases hlast : (s.pages (s.pmm task vpn).ppn).count = 1
      · have hremote : (s.pages (s.pmm task vpn).ppn).cid ≠ cluster := fun heq => hlocal ⟨hlast, heq⟩
        simp only [vmmDoCow, hcow, hm, hremote, hhuge, hlast, not_true_eq_false, and_false, and_true,
          if_false, if_true, ne_eq, allocPage, ppmFreePages, Bool.false_eq_true]
        refine h.replace _ hp hq hfree loses_dropped rfl rfl fun p => ?_
        exact (congrArg (fun m => m.pages p) (setPage_comm hne Page.ppmFreePages Page.allocPage)).trans
          (setPage_setPage_pages hne Page.ppmFreePages Page.allocPage)
      · simp only [vmmDoCow, hcow, hm, hhuge, hlast, not_true_eq_false, true_and, false_and, if_false,
          if_true, ne_eq, allocPage, Bool.false_eq_true, not_false_eq_true]
        exact h.replace _ hp hq hfree loses_down rfl rfl fun p => setPage_setPage_pages hne _ _
  · simpa [vmmDoCow, hcow] using h

/-- A migration to a new frame takes one reference from the old one: the one that a shared
page loses, or the one that `kmem_free` takes. -/
theorem migrate (h : FramesOk s) (hp : (s.pmm task vpn).ppn ≠ 0) (halloc : mayAlloc s alloc)
    (hok : cluster = (s.pages (s.pmm task vpn).ppn).cid ∨ alloc = none ∨
      (region.inst = true ↔ (s.pmm task vpn).attr.cow = true ∧
        (s.pages (s.pmm task vpn).ppn).count ≠ 1)) :
    FramesOk (vmmDoMigrate s task region vpn cluster alloc) := by
  obtain ⟨htask, hvpn, hrest, huser, hm⟩ := h.entry task vpn hp
  by_cases hmigrate : (s.pmm task vpn).attr.migrate
  · by_cases hstay : cluster = (s.pages (s.pmm task vpn).ppn).cid ∨ alloc = none
    · have hnone : (if cluster ≠ (s.pages (s.pmm task vpn).ppn).cid then alloc else none) = none := by
        rcases hstay with heq | heq <;> simp [heq]
      simp only [vmmDoMigrate, hmigrate, hnone, not_true_eq_false, if_false]
      exact h.retag hp rfl hrest
    · obtain ⟨hremote, hsome⟩ := not_or.1 hstay
      have honce := (hok.resolve_left hremote).resolve_left hsome
      obtain ⟨q, rfl⟩ := Option.ne_none_iff_exists'.1 hsome
      obtain ⟨hq, hfree⟩ := mayAlloc_some halloc
      have hne : (s.pmm task vpn).ppn ≠ q := h.ne_fresh hq hfree
      cases hinst : region.inst with
      | true =>
        obtain ⟨hcow, hshared⟩ := honce.1 hinst
        simp only [vmmDoMigrate, hmigrate, hremote, hm, hcow, hshared, hinst, allocPage, ne_eq,
          not_true_eq_false, not_false_eq_true, and_self, if_true, if_false]
        rw [setPage_comm hne]
        exact h.replace _ hp hq hfree loses_down rfl hrest fun p => setPage_setPage_pages hne _ _
      | false =>
        have hshared : ¬((s.pmm task vpn).attr.cow = true ∧
            (s.pages (s.pmm task vpn).ppn).count ≠ 1) := by
          rw [← honce, hinst]
          exact Bool.false_ne_true
        simp only [vmmDoMigrate, hmigrate, hremote, hm, hshared, hinst, allocPage,
          ppmFreePages, ne_eq, not_true_eq_false, not_false_eq_true, true_and, if_true, if_false,
          Bool.false_eq_true]
        refine h.replace _ hp hq hfree loses_dropped rfl ?_ fun p => ?_
        · split_ifs <;> exact hrest
        · exact (congrArg (fun m => m.pages p) (setPage_comm hne Page.ppmFreePages Page.allocPage)).trans
            (setPage_setPage_pages hne Page.ppmFreePages Page.allocPage)
  · simpa [vmmDoMigrate, hmigrate] using h

theorem ppn_ne_of_present (h : FramesOk s) (hpresent : (s.pmm task vpn).attr.present = true) :
    (s.pmm task vpn).ppn ≠ 0 := by
  intro hzero
  rw [h.blank task vpn hzero] at hpresent
  exact Bool.false_ne_true hpresent

theorem attr_ne_of_ppn (h : FramesOk s) (hp : (s.pmm task vpn).ppn ≠ 0) :
    (s.pmm task vpn).attr ≠ noAttr := by
  intro hattr
  have hrest := (h.entry task vpn hp).rest
  rw [hattr] at hrest
  exact Bool.false_ne_true hrest

end FramesOk

/-- A fault that drops as many references as it takes entries away. A write to a copy on
write page gets its new frame, or keeps the frame that it alone holds in its cluster; a
migration that gets a new frame drops one reference of the old one, not two and not none. -/
def FaultOk (s : Memory) (task : ℕ) (region : AnonRegion) (vpn : ℕ) (isWrite : Bool)
    (cluster : ℕ) (alloc : Option ℕ) : Prop :=
  let info := s.pmm task vpn
  let page := s.pages info.ppn
  info.ppn ≠ 0 →
    if info.attr.cow ∧ isWrite then
      alloc ≠ none ∧ region.hugetlb = false ∨ page.count = 1 ∧ page.cid = cluster
    else info.attr.migrate → cluster = page.cid ∨ alloc = none ∨
      (region.inst = true ↔ info.attr.cow = true ∧ page.count ≠ 1)

theorem FramesOk.fault {isWrite : Bool} (h : FramesOk s) (htask : task < taskMaxNr)
    (hvpn : vpn < vpnLimit) (halloc : mayAlloc s alloc) (ptOk : Bool)
    (hok : FaultOk s task region vpn isWrite cluster alloc) :
    FramesOk (vmmDefaultPagefault s task region vpn isWrite cluster ptOk alloc) := by
  by_cases hp : (s.pmm task vpn).ppn = 0
  · have hblank := h.blank task vpn hp
    simp only [vmmDefaultPagefault, hp, ne_eq, not_true_eq_false, and_false, if_false]
    exact h.aod htask hvpn hblank halloc ptOk
  · have hattr := h.attr_ne_of_ppn hp
    simp only [vmmDefaultPagefault, hp, hattr, ne_eq, not_false_eq_true, and_self, if_true]
    have hok := hok hp
    split_ifs with hcow hmigrate
    · rw [if_pos hcow] at hok
      exact h.cow hp halloc hok
    · rw [if_neg hcow] at hok
      exact h.migrate hp halloc (hok hmigrate)
    · exact h

end Fault

section Regions
variable {s : Memory} {task vpn : ℕ} {region : AnonRegion}

theorem pageAt_inj {start i j : ℕ} (hi : i < vpnLimit) (hj : j < vpnLimit)
    (h : pageAt start i = pageAt start j) : i = j := by
  unfold pageAt pageShift at h
  unfold vpnLimit at hi hj
  omega

theorem pagesCount_lt (region : AnonRegion) : pagesCount region < vpnLimit := by
  have hlt := wsub_lt region.vmLimit region.vmStart
  unfold pagesCount pageShift vpnLimit
  omega

namespace FramesOk

theorem madvisePage (h : FramesOk s) (task vpn : ℕ) : FramesOk (madvisePage s task vpn) := by
  by_cases hpresent : (s.pmm task vpn).attr.present = true
  · have hp := h.ppn_ne_of_present hpresent
    simp only [Anon.madvisePage, hpresent, if_true]
    exact h.retag hp rfl (h.entry task vpn hp).rest
  · simpa [Anon.madvisePage, hpresent] using h

theorem madvise (h : FramesOk s) (task start len : ℕ) :
    FramesOk (vmmMadviseMigrate s task start len) :=
  List.foldlRecOn _ _ h fun _ ih i _ => ih.madvisePage task (pageAt start i)

theorem unmapPage (h : FramesOk s) (hlazy : region.isLazy = false) (task vpn : ℕ) :
    FramesOk (unmapPage s task region vpn) := by
  by_cases hpresent : (s.pmm task vpn).attr.present = true
  · have hp := h.ppn_ne_of_present hpresent
    obtain ⟨htask, hvpn, hrest, huser, hm⟩ := h.entry task vpn hp
    by_cases hlast : (s.pages (s.pmm task vpn).ppn).count = 1
    · simp only [Anon.unmapPage, hpresent, hlazy, hm, hlast, pmmSetPage, ppmFreePages, if_true,
        if_false, Bool.false_eq_true]
      refine h.remap noPte htask hvpn rfl hp ?_ ?_ (fun hne => absurd rfl hne) fun _ => rfl
      · intro p _ hpold _
        simp [hpold]
      · intro _
        exact ⟨Page.ppmFreePages, loses_dropped, by simp [up_down hlast]⟩
    · simp only [Anon.unmapPage, hpresent, hlazy, hm, hlast, pmmSetPage, if_true, if_false,
        Bool.false_eq_true]
      refine h.remap noPte htask hvpn rfl hp ?_ ?_ (fun hne => absurd rfl hne) fun _ => rfl
      · intro p _ hpold _
        simp [hpold]
      · intro _
        exact ⟨_, loses_down, by simp⟩
  · simpa [Anon.unmapPage, hpresent] using h

/-- A lazy region leaves its entries behind, so it must have none that is present. -/
theorem unmap (h : FramesOk s) (task : ℕ) (hlazy : region.isLazy = true →
      ∀ i, i < pagesCount region → (s.pmm task (pageAt region.vmStart i)).attr.present = false) :
    FramesOk (vmRegionUnmap s task region) := by
  unfold vmRegionUnmap
  cases hregion : region.isLazy with
  | false => exact List.foldlRecOn _ _ h fun _ ih i _ => ih.unmapPage hregion task _
  | true =>
    have hsame : (List.range (pagesCount region)).foldl
        (fun s i => Anon.unmapPage s task region (pageAt region.vmStart i)) s = s := by
      refine List.foldlRecOn (motive := (· = s)) _ _ rfl ?_
      rintro _ rfl i hi
      have habsent := hlazy hregion i (List.mem_range.1 hi)
      simp [Anon.unmapPage, habsent]
    rw [hsame]
    exact h

theorem dupPage {dst src : ℕ} (h : FramesOk s) (hdst : dst < taskMaxNr) (hne : dst ≠ src)
    (hempty : (s.pmm dst vpn).ppn = 0) (hpresent : (s.pmm src vpn).attr.present = true) :
    FramesOk (dupPage s dst src vpn) := by
  have hp := h.ppn_ne_of_present hpresent
  obtain ⟨hsrc, hvpn, hrest, huser, hm⟩ := h.entry src vpn hp
  obtain ⟨n, hn⟩ := Nat.exists_eq_add_one.2 (h.held_pos hp)
  have hle := h.held_le hp
  have hframe := h.frame_of_entry hp
  obtain ⟨info, hinfo⟩ : ∃ info : Pte, info = { s.pmm src vpn with
    attr := { (s.pmm src vpn).attr with cow := true, write := false } } := ⟨_, rfl⟩
  have hppn : info.ppn = (s.pmm src vpn).ppn := by rw [hinfo]
  -- the child gets its entry and the frame its reference; then the parent's entry is retagged
  have hchild : FramesOk (setPage (pmmSetPage s dst vpn info) info.ppn (·.pageRefcountUp)) := by
    refine h.remap info hdst hvpn rfl (by omega) ?_ (fun hold => absurd hempty hold) ?_
      (fun hzero => absurd hzero (by omega))
    · intro p _ _ hpnew
      simp [hpnew, pmmSetPage]
    · intro _
      rw [hppn]
      refine ⟨by rw [hinfo]; exact hrest, huser, ?_, ?_⟩
      · simpa [pmmSetPage, Page.pageRefcountUp] using hm
      · rw [hn] at hframe ⊢
        simpa [pmmSetPage] using hframe.up hm (by omega)
  have hkeep : (setPage (pmmSetPage s dst vpn info) info.ppn (·.pageRefcountUp)).pmm src vpn =
      s.pmm src vpn := pmmSetPage_ne (fun heq => hne (Prod.mk.inj heq).1.symm)
  have hparent : FramesOk (pmmSetPage (setPage (pmmSetPage s dst vpn info) info.ppn
      (·.pageRefcountUp)) src vpn info) :=
    hchild.retag (by rwa [hkeep]) (by rw [hkeep, hppn]) (by rw [hinfo]; exact hrest)
  have hstep : Anon.dupPage s dst src vpn = pmmSetPage (setPage (pmmSetPage s dst vpn info) info.ppn
      (·.pageRefcountUp)) src vpn info := by
    subst hinfo
    exact (if_pos hpresent).trans (if_pos hm)
  rw [hstep]
  exact hparent

end FramesOk

theorem dupPage_ne {dst src v : ℕ} (s : Memory) (t : ℕ) (hv : v ≠ vpn) :
    (dupPage s dst src vpn).pmm t v = s.pmm t v := by
  have hkeep : ∀ (m : Memory) (t' : ℕ) (info : Pte),
      (pmmSetPage m t' vpn info).pmm t v = m.pmm t v :=
    fun m t' info => pmmSetPage_ne fun heq => hv (Prod.mk.inj heq).2
  simp only [dupPage]
  split_ifs
  · exact (hkeep ..).trans (hkeep ..)
  · exact hkeep ..
  · rfl

/-- The invariant of the loop: the pages still to copy have no entry in the child. -/
theorem FramesOk.dupLoop {dst src start : ℕ} (hdst : dst < taskMaxNr) (hne : dst ≠ src)
    (h : FramesOk s) (todo i sets : ℕ) (hlimit : i + todo ≤ vpnLimit)
    (hempty : ∀ j, i ≤ j → j < i + todo → (s.pmm dst (pageAt start j)).ppn = 0) :
    FramesOk (dupLoop dst src start todo i sets s) := by
  induction todo generalizing i sets s with
  | zero => exact h
  | succ todo ih =>
    unfold Anon.dupLoop
    split_ifs with hpresent
    · cases sets with
      | zero => exact h
      | succ sets =>
        have hpage := h.dupPage hdst hne (hempty i le_rfl (by omega)) hpresent
        refine ih hpage (i + 1) sets (by omega) fun j hj hlt => ?_
        have hother : pageAt start j ≠ pageAt start i := fun heq => by
          have := pageAt_inj (by omega) (by omega) heq
          omega
        rw [dupPage_ne s dst hother]
        exact hempty j (by omega) (by omega)
    · exact ih h (i + 1) sets (by omega) fun j hj hlt => hempty j (by omega) (by omega)

theorem FramesOk.dup {dst src : ℕ} (h : FramesOk s) (hdst : dst < taskMaxNr) (hne : dst ≠ src)
    (hfresh : copiesFresh s dst region) (sets : ℕ) :
    FramesOk (vmRegionDup s dst src region sets) := by
  have hlt := pagesCount_lt region
  refine h.dupLoop hdst hne _ 0 sets (by omega) fun j _ hj => ?_
  have hall := List.all_eq_true.1 hfresh j (List.mem_range.2 (by omega))
  simpa using hall

end Regions

section Runs
variable {s : Memory}

theorem FramesOk.kernelAlloc {q : ℕ} (h : FramesOk s) (halloc : mayAlloc s (some q)) :
    FramesOk { kmemAlloc s q with kernel := Function.update s.kernel q true } := by
  obtain ⟨hq, hfree⟩ := mayAlloc_some halloc
  obtain ⟨-, hcount, hempty⟩ := h.fresh hq hfree
  refine h.setPage_unheld (fun _ => hempty) fun _ => ⟨?_, ?_, ?_⟩
  · intro hk
    simp at hk
  · intro hstate
    simp at hstate
  · intro _
    simp [count_up, hcount]

theorem FramesOk.kernelFree {q : ℕ} (h : FramesOk s) (hkernel : s.kernel q = true) :
    FramesOk { ppmFreePages s q with kernel := Function.update s.kernel q false } := by
  rw [ppmFreePages]
  refine h.setPage_unheld ?_ ?_
  · intro hq
    refine Set.eq_empty_of_forall_notMem ?_
    rintro ⟨t, v⟩ hx
    have hx : (s.pmm t v).ppn = q := hx
    have huser := (h.entry t v (hx ▸ hq)).user
    rw [hx, hkernel] at huser
    exact Bool.noConfusion huser
  · intro hq
    exact FrameOk.dropped_last ((h.frame q hq).kernelOne hkernel)

/-- Guard of the runs in which the counts stay right. -/
def EventOk (s : Memory) : Event → Prop
  | .fault task region vaddr isWrite cluster _ alloc =>
      FaultOk s task region (vaddr / 2 ^ pageShift) isWrite cluster alloc
  | .unmap task region => region.isLazy = true → ∀ i, i < pagesCount region →
      (s.pmm task (pageAt region.vmStart i)).attr.present = false
  | _ => True

theorem FramesOk.init (h : machine.init s) : FramesOk s := by
  obtain ⟨hblank, hpages⟩ := h
  have hppn : ∀ task vpn, (s.pmm task vpn).ppn = 0 := fun task vpn => by rw [hblank]; rfl
  refine ⟨?_, fun task vpn _ => hblank task vpn, fun task vpn hp => absurd (hppn task vpn) hp⟩
  intro p hp
  have hheld : held s p = 0 := by
    have hempty : entries s p = ∅ :=
      Set.eq_empty_of_forall_notMem fun x hx => hp (Eq.trans (Eq.symm hx) (hppn x.1 x.2))
    rw [held, hempty, Set.ncard_empty]
  have hpage := hpages p
  rw [hheld]
  cases hk : s.kernel p with
  | true =>
    rw [hk, if_pos rfl] at hpage
    exact ⟨fun h => Bool.noConfusion h, fun hfree => absurd hfree hpage.1, fun _ => hpage.2⟩
  | false =>
    rw [hk, if_neg Bool.false_ne_true] at hpage
    exact ⟨fun _ hm => hpage (.inl hm), fun hfree => ⟨rfl, hpage (.inr hfree)⟩,
      fun h => Bool.noConfusion h⟩

theorem FramesOk.step {t : Memory} {e : Event} (h : FramesOk s) (hok : EventOk s e)
    (hstep : machine.step s e = some t) : FramesOk t := by
  change Anon.step s e = some t at hstep
  cases e <;> simp only [Anon.step, Option.ite_none_right_eq_some, Option.some.injEq] at hstep
  case fault task region vaddr isWrite cluster ptOk alloc =>
    obtain ⟨⟨htask, hvaddr, halloc⟩, rfl⟩ := hstep
    exact h.fault htask (by unfold pageShift vpnLimit; omega) halloc ptOk hok
  case dup dst src region sets =>
    obtain ⟨⟨hdst, -, hne, hfresh⟩, rfl⟩ := hstep
    exact h.dup hdst hne hfresh sets
  case madvise task start len =>
    obtain ⟨-, rfl⟩ := hstep
    exact h.madvise task start len
  case unmap task region =>
    obtain ⟨-, rfl⟩ := hstep
    exact h.unmap task hok
  case kernelAlloc q =>
    obtain ⟨halloc, rfl⟩ := hstep
    exact h.kernelAlloc halloc
  case kernelFree q =>
    obtain ⟨hkernel, rfl⟩ := hstep
    exact h.kernelFree hkernel

/-- In every state of a run whose steps all meet the guard, the reference count of a private
frame is the number of entries that hold it, and no entry holds a frame that was given back. -/
theorem refcount_counts_entries {p : ℕ} (h : machine.Reach EventOk s) (hp : p ≠ 0)
    (huser : s.kernel p = false) (hm : (s.pages p).mapper = none) :
    ((s.pages p).count : ℕ∞) = (entries s p).encard ∧
      ((s.pages p).state = .pgFree → entries s p = ∅) := by
  have hinv : FramesOk s :=
    h.invariant (fun _ => FramesOk.init) (fun _ _ _ hi hok hstep => hi.step hok hstep)
  refine ⟨?_, fun hfree => (hinv.fresh hp hfree).2.2⟩
  rw [(hinv.frame p hp).counted huser hm]
  exact (hinv.entries_finite hp).cast_ncard_eq
def bootedMemory : Memory := ⟨fun _ => ⟨.pgFree, 0, 0, none, 0⟩, fun _ _ => noPte, fun _ => false⟩

theorem bootedMemory_init : machine.init bootedMemory :=
  ⟨fun _ _ => rfl, fun _ _ => rfl⟩

def onePageRegion : AnonRegion := ⟨0x1000, 0x2000, 3, false, false, false⟩

def touchedMemory : Memory :=
  vmmDefaultPagefault bootedMemory 0 onePageRegion 1 true 0 true (some 1)

theorem touchedMemory_step :
    machine.step bootedMemory (.fault 0 onePageRegion 0x1000 true 0 true (some 1)) =
      some touchedMemory := rfl

theorem refcount_counts_entries_first_page :
    machine.Reach EventOk touchedMemory ∧
      ((touchedMemory.pages 1).count : ℕ∞) = (entries touchedMemory 1).encard ∧
      ((touchedMemory.pages 1).state = .pgFree → entries touchedMemory 1 = ∅) := by
  have hguard : EventOk bootedMemory (.fault 0 onePageRegion 0x1000 true 0 true (some 1)) :=
    fun hp => absurd rfl hp
  have hreach : machine.Reach EventOk touchedMemory :=
    .step (.init bootedMemory_init) hguard touchedMemory_step
  exact ⟨hreach, refcount_counts_entries hreach (by decide) rfl rfl⟩

def forkedMemory : Memory := vmRegionDup touchedMemory 1 0 onePageRegion 1

def advisedMemory : Memory := vmmMadviseMigrate forkedMemory 1 0x1000 0x1000

def migratedMemory : Memory :=
  vmmDefaultPagefault advisedMemory 1 onePageRegion 1 false 1 true (some 2)

theorem migratedMemory_reachable : machine.Reachable migratedMemory := by
  have hfork : machine.step touchedMemory (.dup 1 0 onePageRegion 1) = some forkedMemory := rfl
  have hadvise : machine.step forkedMemory (.madvise 1 0x1000 0x1000) = some advisedMemory := rfl
  have hmigrate : machine.step advisedMemory
      (.fault 1 onePageRegion 0x1000 false 1 true (some 2)) = some migratedMemory := rfl
  exact .step (.step (.step (.step (.init bootedMemory_init) trivial touchedMemory_step) trivial
    hfork) trivial hadvise) trivial hmigrate

/-- A migration of a copy on write page drops two references: the frame goes back to its
`ppm` while the entry of the other task holds it. -/
theorem migration_frees_shared_frame :
    ¬∀ s : Memory, machine.Reachable s → ∀ p, p ≠ 0 → s.kernel p = false →
      (s.pages p).mapper = none → ((s.pages p).count : ℕ∞) = (entries s p).encard ∧
        ((s.pages p).state = .pgFree → entries s p = ∅) := by
  intro hall
  have hfreed := (hall _ migratedMemory_reachable 1 (by decide) rfl rfl).2 rfl
  have hmem : ((0, 1) : ℕ × ℕ) ∈ entries migratedMemory 1 := rfl
  rw [hfreed] at hmem
  exact hmem

end Runs

end Almos.Anon
