import Almos.VmRegionOrder
import Almos.Vmm

/-!
# The keys database and the tree

Every key bound in the database of an address space leads to an attached region that contains
the addresses of the key, so a lookup by key and a search of the tree return the same region.
-/
namespace Almos.Vm
open SearchTree Word Bits KeysDb

/-- `k` is the key of addresses in the region. -/
def HasKey (r : VmRegion) (k : ℕ) : Prop :=
  (regionKeys r).1 ≤ k ∧ k < (regionKeys r).1 + (regionKeys r).2

/-- A region as `vmm_mmap` makes it. -/
structure RegionGood (r : VmRegion) : Prop where
  nonempty : r.vmBegin < r.vmEnd
  bound : r.vmEnd < 2 ^ 32
  beginAligned : r.vmBegin % regsize = 0
  endAligned : r.vmEnd % regsize = 0
  startInside : r.vmBegin ≤ r.vmStart
  limitWord : r.vmLimit < 2 ^ 32
  notLazy : r.vmFlags.isLazy = false

structure SpaceOk (mem : RegionMem) (vmm : Vmm) : Prop where
  ordered : Ordered mem vmm
  good : ∀ p ∈ vmm.regionsRoot, RegionGood (mem p)
  lastAligned : vmm.lastMmap % regsize = 0
  keys : ∀ k p, vmm.regionsDb.get k = some p → p ∈ vmm.regionsRoot ∧ HasKey (mem p) k

structure KernelOk (s : Kernel) : Prop where
  intact : s.intact = true
  nodup : s.inUse.Nodup
  space : ∀ t vmm, s.vmms t = some vmm → SpaceOk s.mem vmm
  used : ∀ t vmm, s.vmms t = some vmm → ∀ p ∈ vmm.regionsRoot, p ∈ s.inUse
  apart : ∀ t vmm t' vmm', s.vmms t = some vmm → s.vmms t' = some vmm' → t ≠ t' →
    ∀ p ∈ vmm.regionsRoot, p ∉ vmm'.regionsRoot

variable {rb : RbOps} {mem mem' : RegionMem} {vmm vmm' : Vmm} {s s' t : Kernel}
  {task region : ℕ} {r : VmRegion}

theorem RegionGood.inRegion_iff (h : RegionGood r) (vaddr : ℕ) :
    HasKey r (vaddr / 2 ^ regionKeywidth) ↔ InRegion r vaddr := by
  obtain ⟨hlt, hbound, hbegin, hend, -, -, -⟩ := h
  unfold HasKey regionKeys InRegion
  rw [wsub_of_le hlt.le hbound]
  unfold regsize regionKeywidth at *
  constructor
  · rintro ⟨hlow, hhigh⟩
    constructor <;> omega
  · rintro ⟨hlow, hhigh⟩
    constructor <;> omega

theorem Ordered.find_of_inRegion (h : Ordered mem vmm) {p vaddr : ℕ} (hp : p ∈ vmm.regionsRoot)
    (hin : InRegion (mem p) vaddr) : vmRegionFind mem vmm vaddr = some p := by
  obtain ⟨lower, upper, hplace⟩ := h.place vaddr
  obtain ⟨hlow, hhigh⟩ := hin
  rw [vmRegionFind_eq, hplace.first]
  have hupper : p ∈ upper := by
    rw [hplace.split] at hp
    cases List.mem_append.mp hp with
    | inl hmem =>
      have := hplace.notAbove p hmem
      omega
    | inr hmem => exact hmem
  cases upper with
  | nil => simp at hupper
  | cons reg rest =>
    cases List.mem_cons.mp hupper with
    | inl heq => rw [heq, List.head?_cons]
    | inr hmem =>
      -- a region before `p` ends at or below the start of `p`
      have hbefore := h.before
      rw [hplace.split] at hbefore
      obtain ⟨hfirst, -⟩ := List.pairwise_cons.mp (List.pairwise_append.mp hbefore).2.1
      have := hfirst p hmem
      have := hplace.above reg (by simp)
      omega

theorem SpaceOk.lookup (h : SpaceOk mem vmm) {vaddr p : ℕ} (hvaddr : vaddr < 2 ^ 32)
    (hfound : keysdbLookup vmm.regionsDb (vaddr / 2 ^ regionKeywidth) = some (some p)) :
    p ∈ vmm.regionsRoot ∧ vmRegionFind mem vmm vaddr = some p := by
  have hkey : vaddr / 2 ^ regionKeywidth < keysLimit := by
    unfold regionKeywidth keysLimit recordsNr keysPerRecLog2
    omega
  rw [lookup_eq_get hkey, Option.some_inj] at hfound
  obtain ⟨hp, hhas⟩ := h.keys _ p hfound
  exact ⟨hp, h.ordered.find_of_inRegion hp (((h.good p hp).inRegion_iff vaddr).mp hhas)⟩

theorem SpaceOk.congr (h : SpaceOk mem vmm) (hsame : ∀ p ∈ vmm.regionsRoot, mem' p = mem p) :
    SpaceOk mem' vmm := by
  refine ⟨h.ordered.congr hsame, ?_, h.lastAligned, ?_⟩
  · intro p hp
    rw [hsame p hp]
    exact h.good p hp
  · intro k p hget
    obtain ⟨hp, hhas⟩ := h.keys k p hget
    exact ⟨hp, by rwa [hsame p hp]⟩

theorem spaceOk_init : SpaceOk mem vmmInit :=
  ⟨ordered_init, by simp [vmmInit], rfl, by simp [vmmInit, keysdbInit, KeysDb.get]⟩

theorem SpaceOk.update (h : SpaceOk mem vmm) (hp : region ∈ vmm.regionsRoot) (grants : ℕ) :
    ∃ vmm', vmmKeysdbUpdate mem vmm region grants = some vmm' ∧ SpaceOk mem vmm' ∧
      vmm'.regionsRoot = vmm.regionsRoot := by
  have hgood := h.good region hp
  obtain ⟨db, err, hbind, hget⟩ := bind_spec vmm.regionsDb region grants
    (keys_bound hgood.nonempty.le hgood.bound)
  refine ⟨{ vmm with regionsDb := db }, ?_, ⟨?_, h.good, h.lastAligned, ?_⟩, rfl⟩
  · simp only [vmmKeysdbUpdate, regionKeys, hbind]
  · exact ⟨h.ordered.before, h.ordered.valid, h.ordered.bound, h.ordered.tree, h.ordered.nodup⟩
  · intro k p hkp
    change db.get k = some p at hkp
    obtain hnew | hold := hget
    · rw [hnew k] at hkp
      split_ifs at hkp with hk
      · obtain rfl : region = p := by simpa using hkp
        exact ⟨hp, hk⟩
      · exact h.keys k p hkp
    · rw [hold k] at hkp
      exact h.keys k p hkp

theorem SpaceOk.detach (h : SpaceOk mem vmm) (rb : RbOps) (hp : region ∈ vmm.regionsRoot) :
    ∃ vmm', vmRegionDetach rb mem vmm region = some vmm' ∧ SpaceOk mem vmm' ∧
      vmm'.regionsRoot = vmm.regionsRoot.erase region := by
  obtain ⟨vmm', hdet, hdone⟩ := h.ordered.detach rb hp
  have hgood := h.good region hp
  have hsub : vmm'.regionsRoot ⊆ vmm.regionsRoot := by
    rw [hdone.root]
    exact List.erase_subset
  refine ⟨vmm', hdet, ⟨hdone.ordered, fun q hq => h.good q (hsub hq), ?_, ?_⟩, hdone.root⟩
  · obtain heq | heq := hdone.lastMmap
    · rw [heq]
      exact h.lastAligned
    · rw [heq]
      exact hgood.beginAligned
  · intro k q hkq
    rw [hdone.db k] at hkq
    split_ifs at hkq with hk
    obtain ⟨hq, hhas⟩ := h.keys k q hkq
    refine ⟨?_, hhas⟩
    rw [hdone.root, h.ordered.nodup.mem_erase_iff]
    refine ⟨?_, hq⟩
    rintro rfl
    exact hk ⟨hgood.notLazy, hhas⟩

theorem SpaceOk.attached (h : SpaceOk mem vmm) (hatt : Attached mem vmm region mem' vmm')
    (hfresh : region ∉ vmm.regionsRoot) (hgood : RegionGood (mem' region)) : SpaceOk mem' vmm' := by
  have hsame : ∀ p ∈ vmm.regionsRoot, mem' p = mem p :=
    fun p hp => hatt.same p fun heq => hfresh (heq ▸ hp)
  refine ⟨hatt.ordered, ?_, ?_, ?_⟩
  · intro p hp
    obtain heq | hold := (hatt.root p).mp hp
    · rwa [heq]
    · rw [hsame p hold]
      exact h.good p hold
  · rw [hatt.lastMmap]
    exact hgood.beginAligned
  · intro k p hget
    rw [hatt.db] at hget
    obtain ⟨hp, hhas⟩ := h.keys k p hget
    exact ⟨(hatt.root p).mpr (.inr hp), by rwa [hsame p hp]⟩

/-- One address space changes; the regions of the others keep their contents and stay in use. -/
theorem KernelOk.replace (h : KernelOk s) (task : ℕ) {vmm : Vmm}
    (hvmms : s'.vmms = Function.update s.vmms task (some vmm)) (hintact : s'.intact = true)
    (hnodup : s'.inUse.Nodup) (hspace : SpaceOk s'.mem vmm)
    (hused : ∀ p ∈ vmm.regionsRoot, p ∈ s'.inUse)
    (hothers : ∀ t vmm', t ≠ task → s.vmms t = some vmm' → ∀ p ∈ vmm'.regionsRoot,
      s'.mem p = s.mem p ∧ p ∈ s'.inUse ∧ p ∉ vmm.regionsRoot) : KernelOk s' := by
  have hcases : ∀ t v, s'.vmms t = some v → t = task ∧ v = vmm ∨ t ≠ task ∧ s.vmms t = some v := by
    intro t v ht
    rw [hvmms] at ht
    by_cases heq : t = task
    · subst heq
      rw [Function.update_self, Option.some_inj] at ht
      exact .inl ⟨rfl, ht.symm⟩
    · rw [Function.update_of_ne heq] at ht
      exact .inr ⟨heq, ht⟩
  refine ⟨hintact, hnodup, ?_, ?_, ?_⟩
  · intro t v ht
    obtain ⟨-, rfl⟩ | ⟨hne, hold⟩ := hcases t v ht
    · exact hspace
    · exact (h.space t v hold).congr fun p hp => (hothers t v hne hold p hp).1
  · intro t v ht
    obtain ⟨-, rfl⟩ | ⟨hne, hold⟩ := hcases t v ht
    · exact hused
    · exact fun p hp => (hothers t v hne hold p hp).2.1
  · intro t v t' v' ht ht' hne
    obtain ⟨rfl, rfl⟩ | ⟨hne₁, hold₁⟩ := hcases t v ht
    · obtain ⟨rfl, rfl⟩ | ⟨hne₂, hold₂⟩ := hcases t' v' ht'
      · exact absurd rfl hne
      · exact fun p hp hp' => (hothers t' v' hne₂ hold₂ p hp').2.2 hp
    · obtain ⟨rfl, rfl⟩ | ⟨hne₂, hold₂⟩ := hcases t' v' ht'
      · exact fun p hp => (hothers t v hne₁ hold₁ p hp).2.2
      · exact h.apart t v t' v' hold₁ hold₂ hne

theorem KernelOk.setVmm (h : KernelOk s) (htask : s.vmms task = some vmm)
    (hspace : SpaceOk s.mem vmm') (hroot : vmm'.regionsRoot ⊆ vmm.regionsRoot) :
    KernelOk (setVmm s task vmm') := by
  refine h.replace task rfl h.intact h.nodup hspace ?_ ?_
  · exact fun p hp => h.used task vmm htask p (hroot hp)
  · intro t v hne ht p hp
    exact ⟨rfl, h.used t v ht p hp, fun hmem => h.apart t v task vmm ht htask hne p hp (hroot hmem)⟩

theorem KernelOk.scratch (h : KernelOk s) (hfresh : region ∉ s.inUse)
    (hmem : ∀ p, p ≠ region → mem p = s.mem p) : KernelOk { s with mem := mem } := by
  refine ⟨h.intact, h.nodup, ?_, h.used, h.apart⟩
  intro t vmm ht
  refine (h.space t vmm ht).congr ?_
  intro p hp
  refine hmem p ?_
  rintro rfl
  exact hfresh (h.used t vmm ht p hp)

theorem kmemFree_of_mem (h : region ∈ s.inUse) :
    kmemFree s region = { s with inUse := s.inUse.erase region } := if_pos h

theorem KernelOk.not_mem_of_mayAlloc (h : KernelOk s) (halloc : mayAlloc s region = true) :
    region ∉ s.inUse := by
  simpa [mayAlloc, h.intact] using halloc

theorem KernelOk.init (h : KernelOk s) (task : ℕ) :
    KernelOk (Vm.setVmm s task vmmInit) := by
  refine h.replace task rfl h.intact h.nodup spaceOk_init (by simp [vmmInit]) ?_
  intro t v hne ht p hp
  exact ⟨rfl, h.used t v ht p hp, by simp [vmmInit]⟩

theorem regsize_dvd : regsize ∣ 2 ^ 32 := by decide

theorem roundUp_aligned (val : ℕ) : roundUp val % regsize = 0 := by
  unfold roundUp
  rw [Nat.mod_mod_of_dvd _ regsize_dvd]
  unfold arroundUp
  split_ifs with hzero
  · exact hzero
  · simp

def MmapArgs.asked (a : MmapArgs) : VmRegion :=
  vmRegionInit a.addr (wadd a.addr a.length) a.flags

theorem MmapArgs.asked_aligned (a : MmapArgs) :
    a.asked.vmBegin % regsize = 0 ∧ a.asked.vmEnd % regsize = 0 := by
  unfold MmapArgs.asked vmRegionInit
  refine ⟨by simp, ?_⟩
  simp only
  split_ifs
  · exact roundUp_aligned _
  · exact roundUp_aligned _

/-- The condition on a mapping: it is not lazy, it does not fail once its region is attached, and
the region is neither empty nor wraps around. -/
def MmapOk (mem : RegionMem) (vmm : Vmm) (a : MmapArgs) : Prop :=
  a.flags.isLazy = false ∧ a.mapped = true ∧
    (a.flags.fixed = true → a.asked.vmBegin < a.asked.vmEnd ∨
      ∃ p ∈ vmm.regionsRoot, InRegion (mem p) a.asked.vmBegin) ∧
    (a.flags.fixed = false → 0 < a.asked.vmEnd ∧ FloatOk mem vmm a.asked)

def RegionsDisjoint (s : Kernel) : Prop :=
  ∀ task vmm, s.vmms task = some vmm →
    vmm.regionsRoot.Pairwise fun p q => ∀ a, ¬(InRegion (s.mem p) a ∧ InRegion (s.mem q) a)

theorem SpaceOk.attach_float (h : SpaceOk mem vmm) (rb : RbOps) {a : MmapArgs}
    (hok : MmapOk mem vmm a) (hfloat : a.flags.fixed = false) (hfresh : region ∉ vmm.regionsRoot)
    (hold : ∀ p ∈ vmm.regionsRoot, mem' p = mem p) (hself : mem' region = a.asked) :
    (∃ err, vmRegionAttach rb mem' vmm region = some (.error err)) ∨
      ∃ mem'' vmm'', vmRegionAttach rb mem' vmm region = some (.ok (mem'', vmm'')) ∧
        Attached mem' vmm region mem'' vmm'' ∧ RegionGood (mem'' region) := by
  obtain ⟨hlazy, -, -, hfl⟩ := hok
  obtain ⟨hpos, hfloatOk⟩ := hfl hfloat
  have h' := h.congr hold
  have hfloatOk' : FloatOk mem' vmm (mem' region) := by
    rw [hself]
    intro start hstart
    refine hfloatOk start ?_
    obtain heq | ⟨p, hp, heq⟩ := hstart
    · exact .inl heq
    · exact .inr ⟨p, hp, by rwa [hold p hp] at heq⟩
  obtain herr | ⟨mem'', vmm'', hatt, hdone, hflags, hstart, hlimit, hend, hbegin⟩ :=
    h'.ordered.attach_float rb hfresh (by rw [hself]; exact hfloat) hfloatOk'
  · exact .inl ⟨_, herr⟩
  · right
    refine ⟨mem'', vmm'', hatt, hdone, ?_⟩
    have hbeginAligned : (mem'' region).vmBegin % regsize = 0 := by
      obtain heq | ⟨p, hp, heq⟩ := hbegin
      · rw [heq]
        exact h.lastAligned
      · rw [heq]
        exact (h'.good p hp).endAligned
    rw [hself] at hend hflags
    refine ⟨by omega, ?_, hbeginAligned, ?_, hstart.ge, hlimit, ?_⟩
    · exact hdone.ordered.bound region ((hdone.root region).mpr (.inl rfl))
    · rw [hend, Nat.add_mod, hbeginAligned, a.asked_aligned.2]
      rfl
    · rw [hflags]
      exact hlazy

theorem SpaceOk.attach_fixed (h : SpaceOk mem vmm) (rb : RbOps) {a : MmapArgs}
    (hok : MmapOk mem vmm a) (hfixed : a.flags.fixed = true) (hfresh : region ∉ vmm.regionsRoot)
    (hold : ∀ p ∈ vmm.regionsRoot, mem' p = mem p) (hself : mem' region = a.asked)
    (hdisjoint : ∀ vmm', vmRegionAttach rb mem' vmm region = some (.ok (mem', vmm')) →
      vmm'.regionsRoot.Pairwise fun p q => ∀ a, ¬(InRegion (mem' p) a ∧ InRegion (mem' q) a)) :
    (∃ err, vmRegionAttach rb mem' vmm region = some (.error err)) ∨
      ∃ mem'' vmm'', vmRegionAttach rb mem' vmm region = some (.ok (mem'', vmm'')) ∧
        Attached mem' vmm region mem'' vmm'' ∧ RegionGood (mem'' region) := by
  obtain ⟨hlazy, -, hfx, -⟩ := hok
  have h' := h.congr hold
  obtain ⟨herr, -⟩ | ⟨lower, upper, hplace, hupper, hatt⟩ :=
    h'.ordered.attach_fixed_cases rb (by rw [hself]; exact hfixed)
  · exact .inl ⟨_, herr⟩
  · right
    have hlt : (mem' region).vmBegin < (mem' region).vmEnd := by
      have hfx' := hfx hfixed
      rw [← hself] at hfx'
      obtain hlt | ⟨p, hp, hin⟩ := hfx'
      · exact hlt
      · refine absurd ⟨p, hp, ?_⟩ (hplace.not_inRegion hupper)
        rwa [hold p hp]
    have hbound : (mem' region).vmEnd < 2 ^ 32 := by
      rw [hself]
      exact vmRegionInit_bound _ _ _
    -- the start of a region above would be shared if the new one reached past it
    have hnext : ∀ p ∈ upper, (mem' region).vmEnd ≤ (mem' p).vmBegin := by
      intro p hp
      by_contra hover
      have hpairs := (List.pairwise_append.mp (hdisjoint _ hatt)).2.1
      have hroot : p ∈ vmm.regionsRoot := by
        rw [hplace.split]
        simp [hp]
      have hgood := h'.good p hroot
      have hbegin := hupper p hp
      refine (List.pairwise_cons.mp hpairs).1 p hp (mem' p).vmBegin ⟨⟨by omega, by omega⟩, ?_⟩
      exact ⟨le_rfl, hgood.nonempty⟩
    refine ⟨mem', _, hatt, h'.ordered.link rb hplace hfresh (fun _ _ => rfl) hlt.le hbound ?_, ?_⟩
    · exact fun p hp => ⟨hupper p hp, hnext p hp⟩
    · obtain ⟨hbeginAligned, hendAligned⟩ := a.asked_aligned
      rw [hself] at hlt hbound ⊢
      exact ⟨hlt, hbound, hbeginAligned, hendAligned, Nat.div_mul_le_self _ _, wadd_lt _ _, hlazy⟩

theorem vmmKeysdbUpdate_root {grants : ℕ} (h : vmmKeysdbUpdate mem vmm region grants = some vmm') :
    vmm'.regionsRoot = vmm.regionsRoot := by
  unfold vmmKeysdbUpdate at h
  split at h
  · simp at h
  · obtain rfl := Option.some_inj.mp h
    rfl

theorem vmmMmap_of_mapped {a : MmapArgs} (hmapped : a.mapped = true) (grants : ℕ) :
    vmmMmap rb (kmemAlloc s region) task vmm region a grants =
      match vmRegionAttach rb (Function.update s.mem region a.asked) vmm region with
      | none => none
      | some (.error _) => some { s with mem := Function.update s.mem region a.asked }
      | some (.ok (mem, vmm)) =>
          match vmmKeysdbUpdate mem vmm region grants with
          | none => none
          | some vmm =>
              some (Vm.setVmm { s with mem := mem, inUse := region :: s.inUse } task vmm) := by
  unfold vmmMmap
  have hmem : (setRegion (kmemAlloc s region) region
      (vmRegionInit a.addr (wadd a.addr a.length) a.flags)).mem =
        Function.update s.mem region a.asked := rfl
  simp only [hmem]
  cases vmRegionAttach rb (Function.update s.mem region a.asked) vmm region with
  | none => rfl
  | some result =>
    cases result with
    | error err => simp [kmemFree, kmemAlloc, setRegion, MmapArgs.asked]
    | ok attached =>
      obtain ⟨mem, vmm₁⟩ := attached
      simp only [hmapped, if_true]
      cases vmmKeysdbUpdate mem vmm₁ region grants with
      | none => rfl
      | some vmm₂ => simp [Vm.setVmm, kmemAlloc, setRegion]

theorem KernelOk.mmap (h : KernelOk s) (htask : s.vmms task = some vmm)
    (halloc : mayAlloc s region = true) {a : MmapArgs} {grants : ℕ} (hok : MmapOk s.mem vmm a)
    (hstep : vmmMmap rb (kmemAlloc s region) task vmm region a grants = some t)
    (hdisjoint : RegionsDisjoint t) : KernelOk t := by
  have hspace := h.space task vmm htask
  have hnew := h.not_mem_of_mayAlloc halloc
  have hfresh : region ∉ vmm.regionsRoot := fun hp => hnew (h.used task vmm htask region hp)
  obtain ⟨mem₁, hmem₁⟩ : ∃ mem₁, mem₁ = Function.update s.mem region a.asked := ⟨_, rfl⟩
  have hself : mem₁ region = a.asked := by simp [hmem₁]
  have hother : ∀ p, p ≠ region → mem₁ p = s.mem p := by
    intro p hp
    rw [hmem₁, Function.update_of_ne hp]
  have hold : ∀ p ∈ vmm.regionsRoot, mem₁ p = s.mem p :=
    fun p hp => hother p fun heq => hfresh (heq ▸ hp)
  rw [vmmMmap_of_mapped hok.2.1, ← hmem₁] at hstep
  have hcases : (∃ err, vmRegionAttach rb mem₁ vmm region = some (.error err)) ∨
      ∃ mem' vmm', vmRegionAttach rb mem₁ vmm region = some (.ok (mem', vmm')) ∧
        Attached mem₁ vmm region mem' vmm' ∧ RegionGood (mem' region) := by
    cases hfixed : a.flags.fixed with
    | false => exact hspace.attach_float rb hok hfixed hfresh hold hself
    | true =>
      refine hspace.attach_fixed rb hok hfixed hfresh hold hself ?_
      intro vmm' hatt
      rw [hatt] at hstep
      simp only at hstep
      split at hstep
      · simp at hstep
      · rename_i vmm'' hupdate
        obtain rfl := Option.some_inj.mp hstep
        rw [← vmmKeysdbUpdate_root hupdate]
        exact hdisjoint task vmm'' (by simp [Vm.setVmm])
  obtain ⟨err, herr⟩ | ⟨mem', vmm', hatt, hdone, hgood⟩ := hcases
  · rw [herr] at hstep
    obtain rfl := Option.some_inj.mp hstep
    exact h.scratch hnew hother
  · rw [hatt] at hstep
    have hspace' := (hspace.congr hold).attached hdone hfresh hgood
    obtain ⟨vmm'', hupdate, hspace'', hroot⟩ :=
      hspace'.update ((hdone.root region).mpr (.inl rfl)) grants
    simp only [hupdate] at hstep
    obtain rfl := Option.some_inj.mp hstep
    have hmem : ∀ p, p ∈ vmm''.regionsRoot ↔ p = region ∨ p ∈ vmm.regionsRoot := by
      rw [hroot]
      exact hdone.root
    refine h.replace task rfl h.intact (List.nodup_cons.mpr ⟨hnew, h.nodup⟩) hspace'' ?_ ?_
    · intro p hp
      obtain heq | hin := (hmem p).mp hp
      · simp [Vm.setVmm, heq]
      · simp [Vm.setVmm, h.used task vmm htask p hin]
    · intro t v hne ht p hp
      have hused := h.used t v ht p hp
      have hpr : p ≠ region := fun heq => hnew (heq ▸ hused)
      refine ⟨?_, by simp [Vm.setVmm, hused], ?_⟩
      · exact (hdone.same p hpr).trans (hother p hpr)
      · rw [hmem]
        rintro (heq | hin)
        · exact hpr heq
        · exact h.apart t v task vmm ht htask hne p hp hin

/-! ### `vmm_munmap` and the page fault -/

theorem KernelOk.detachAndFree (h : KernelOk s) (htask : s.vmms task = some vmm)
    (hp : region ∈ vmm.regionsRoot) (hstep : detachAndFree rb s task vmm region = some t) :
    KernelOk t := by
  obtain ⟨vmm', hdet, hspace, hroot⟩ := (h.space task vmm htask).detach rb hp
  have hin := h.used task vmm htask region hp
  have hnodup := (h.space task vmm htask).ordered.nodup
  have hfree : region ∈ (Vm.setVmm s task vmm').inUse := hin
  simp only [Vm.detachAndFree, hdet, kmemFree_of_mem hfree] at hstep
  obtain rfl := Option.some_inj.mp hstep
  refine h.replace task rfl h.intact (h.nodup.erase region) hspace ?_ ?_
  · intro q hq
    rw [hroot, hnodup.mem_erase_iff] at hq
    exact (List.mem_erase_of_ne hq.1).mpr (h.used task vmm htask q hq.2)
  · intro t v hne ht q hq
    have hqr : q ≠ region := by
      rintro rfl
      exact h.apart t v task vmm ht htask hne q hq hp
    refine ⟨rfl, (List.mem_erase_of_ne hqr).mpr (h.used t v ht q hq), ?_⟩
    intro hmem
    rw [hroot] at hmem
    exact h.apart t v task vmm ht htask hne q hq (List.mem_of_mem_erase hmem)

theorem KernelOk.munmap (h : KernelOk s) (htask : s.vmms task = some vmm) {vaddr length : ℕ}
    (hvaddr : vaddr < 2 ^ 32) (hstep : vmmMunmap rb s task vmm vaddr length = some t) :
    KernelOk t := by
  unfold vmmMunmap at hstep
  split at hstep
  · simp at hstep
  · obtain rfl := Option.some_inj.mp hstep
    exact h
  · rename_i region hfound
    obtain ⟨hp, -⟩ := (h.space task vmm htask).lookup hvaddr hfound
    split_ifs at hstep
    · obtain rfl := Option.some_inj.mp hstep
      exact h
    · unfold vmmDoMunmap at hstep
      simp only at hstep
      split_ifs at hstep
      · exact h.detachAndFree htask hp hstep
      · obtain rfl := Option.some_inj.mp hstep
        exact h

theorem Ordered.find_mem (h : Ordered mem vmm) {vaddr p : ℕ}
    (hfind : vmRegionFind mem vmm vaddr = some p) : p ∈ vmm.regionsRoot := by
  obtain ⟨lower, upper, hplace⟩ := h.place vaddr
  rw [vmRegionFind_eq, hplace.first] at hfind
  rw [hplace.split]
  exact List.mem_append_right _ (List.mem_of_mem_head? hfind)

theorem KernelOk.fault (h : KernelOk s) (htask : s.vmms task = some vmm) {vaddr grants : ℕ}
    (hstep : vmmFaultHandler s task vmm vaddr grants = some t) : KernelOk t := by
  have hspace := h.space task vmm htask
  unfold vmmFaultHandler at hstep
  split_ifs at hstep
  · obtain rfl := Option.some_inj.mp hstep
    exact h
  · split at hstep
    · simp at hstep
    · obtain rfl := Option.some_inj.mp hstep
      exact h
    · split at hstep
      · obtain rfl := Option.some_inj.mp hstep
        exact h
      · rename_i region hfind
        split_ifs at hstep
        · obtain rfl := Option.some_inj.mp hstep
          exact h
        · obtain ⟨vmm', hupdate, hspace', hroot⟩ :=
            hspace.update (hspace.ordered.find_mem hfind) grants
          simp only [hupdate] at hstep
          obtain rfl := Option.some_inj.mp hstep
          exact h.setVmm htask hspace' (by rw [hroot]; exact List.Subset.refl _)

theorem destroyLoop_spec : ∀ (l : List ℕ) (s : Kernel) (vmm : Vmm), l.Nodup →
    (∀ p ∈ l, p ∈ s.inUse) → s.inUse.Nodup → ∀ t, destroyLoop rb task l s vmm = some t →
      t.vmms = s.vmms ∧ t.intact = s.intact ∧ t.inUse.Nodup ∧
        (∀ p, p ∉ l → t.mem p = s.mem p) ∧ ∀ p, p ∈ s.inUse → p ∉ l → p ∈ t.inUse := by
  intro l
  induction l with
  | nil =>
    intro s vmm _ _ hnodup t hstep
    obtain rfl := Option.some_inj.mp hstep
    exact ⟨rfl, rfl, hnodup, fun _ _ => rfl, fun _ hp _ => hp⟩
  | cons q qs ih =>
    intro s vmm hl hin hnodup t hstep
    obtain ⟨hq, hqs⟩ := List.nodup_cons.mp hl
    unfold destroyLoop at hstep
    simp only at hstep
    split at hstep
    · simp at hstep
    · rename_i vmm' _
      rw [kmemFree_of_mem (show q ∈ (setRegion s q _).inUse from hin q (by simp))] at hstep
      obtain ⟨hvmms, hintact, hnodup', hmem, huse⟩ := ih _ vmm' hqs (by
        intro p hp
        have hpq : p ≠ q := fun heq => hq (heq ▸ hp)
        exact (List.mem_erase_of_ne hpq).mpr (hin p (by simp [hp]))) (hnodup.erase q) t hstep
      refine ⟨hvmms, hintact, hnodup', ?_, ?_⟩
      · intro p hp
        obtain ⟨hpq, hpqs⟩ : p ≠ q ∧ p ∉ qs := by simpa using hp
        rw [hmem p hpqs]
        exact Function.update_of_ne hpq _ _
      · intro p hp hpl
        obtain ⟨hpq, hpqs⟩ : p ≠ q ∧ p ∉ qs := by simpa using hpl
        exact huse p ((List.mem_erase_of_ne hpq).mpr hp) hpqs

theorem KernelOk.destroy (vmm : Vmm) (h : KernelOk (Vm.setVmm s task vmm))
    (hroot : vmm'.regionsRoot = vmm.regionsRoot)
    (hstep : vmmDestroy rb s task vmm' = some t) : KernelOk t := by
  have htask : (Vm.setVmm s task vmm).vmms task = some vmm := by simp [Vm.setVmm]
  have hspace := h.space task vmm htask
  have hused := h.used task vmm htask
  unfold vmmDestroy at hstep
  split at hstep
  · simp at hstep
  · rename_i u hloop
    obtain rfl := Option.some_inj.mp hstep
    rw [hroot] at hloop
    obtain ⟨hvmms, hintact, hnodup, hmem, huse⟩ :=
      destroyLoop_spec _ s vmm' hspace.ordered.nodup hused h.nodup u hloop
    have hcases : ∀ t' v, Function.update u.vmms task none t' = some v →
        t' ≠ task ∧ (Vm.setVmm s task vmm).vmms t' = some v := by
      intro t' v ht'
      by_cases heq : t' = task
      · simp [heq] at ht'
      · rw [Function.update_of_ne heq, hvmms] at ht'
        exact ⟨heq, by simp [Vm.setVmm, heq, ht']⟩
    refine ⟨by rw [hintact]; exact h.intact, hnodup, ?_, ?_, ?_⟩
    · intro t' v ht'
      obtain ⟨hne, hold⟩ := hcases t' v ht'
      refine (h.space t' v hold).congr ?_
      exact fun p hp => hmem p (h.apart t' v task vmm hold htask hne p hp)
    · intro t' v ht' p hp
      obtain ⟨hne, hold⟩ := hcases t' v ht'
      exact huse p (h.used t' v hold p hp) (h.apart t' v task vmm hold htask hne p hp)
    · intro t₁ v₁ t₂ v₂ ht₁ ht₂
      exact h.apart t₁ v₁ t₂ v₂ (hcases t₁ v₁ ht₁).2 (hcases t₂ v₂ ht₂).2

theorem SpaceOk.copy (h : SpaceOk mem vmm) (rb : RbOps) (hfresh : region ∉ vmm.regionsRoot)
    (hsame : ∀ p, p ≠ region → mem' p = mem p) (hgood : RegionGood (mem' region))
    (hafter : ∀ p ∈ vmm.regionsRoot, (mem p).vmEnd ≤ (mem' region).vmBegin) :
    SpaceOk mem' { dupLink rb mem' vmm region with
      regionsRoot := (dupLink rb mem' vmm region).regionsRoot ++ [region] } := by
  have hold : ∀ p ∈ vmm.regionsRoot, mem' p = mem p :=
    fun p hp => hsame p fun heq => hfresh (heq ▸ hp)
  have h' := h.congr hold
  obtain ⟨lower, upper, hplace⟩ := h'.ordered.place (mem' region).vmBegin
  have hupper : upper = [] := by
    cases upper with
    | nil => rfl
    | cons p ps =>
      have hp : p ∈ vmm.regionsRoot := by
        rw [hplace.split]
        simp
      have := hplace.above p (by simp)
      have := hafter p hp
      rw [hold p hp] at *
      omega
  subst hupper
  have hroot : vmm.regionsRoot = lower := by simpa using hplace.split
  have hlink : ∀ x, inorder ((vmRegionFindPrepare mem' vmm (mem' region).vmBegin).2 (leaf x)) =
      lower ++ [x] := hplace.link (by simp)
  refine ⟨?_, ?_, h.lastAligned, ?_⟩
  · refine h'.ordered.insert hplace.split hfresh (fun _ _ => rfl) hgood.nonempty.le hgood.bound
      hplace.notAbove (by simp) ?_ ?_
    · simp only [dupLink, vmaLinkRb, hroot]
    · simp only [dupLink, vmaLinkRb]
      rw [rb.inorder_insertColor, hlink]
  · intro p hp
    obtain hin | heq : p ∈ vmm.regionsRoot ∨ p = region := by
      simpa [dupLink, vmaLinkRb] using hp
    · exact h'.good p hin
    · rwa [heq]
  · intro k p hget
    obtain ⟨hp, hhas⟩ := h'.keys k p hget
    exact ⟨List.mem_append_left _ hp, hhas⟩

theorem KernelOk.copy (rb : RbOps) {dst q : ℕ} (h : KernelOk (Vm.setVmm s dst vmm))
    (hnew : region ∉ s.inUse) (hgood : RegionGood (s.mem q))
    (hafter : ∀ p ∈ vmm.regionsRoot, (s.mem p).vmEnd ≤ (s.mem q).vmBegin)
    (hs' : s' = setRegion (kmemAlloc s region) region (s.mem q)) :
    KernelOk (Vm.setVmm s' dst { dupLink rb s'.mem vmm region with
      regionsRoot := (dupLink rb s'.mem vmm region).regionsRoot ++ [region] }) := by
  have hdst : (Vm.setVmm s dst vmm).vmms dst = some vmm := by simp [Vm.setVmm]
  have hself : s'.mem region = s.mem q := by simp [hs', setRegion]
  have hother : ∀ p, p ≠ region → s'.mem p = s.mem p := by
    intro p hp
    simp [hs', setRegion, kmemAlloc, hp]
  have hinUse : s'.inUse = region :: s.inUse := by simp [hs', setRegion, kmemAlloc]
  have hvmms : s'.vmms = s.vmms := by simp [hs', setRegion, kmemAlloc]
  have hintact : s'.intact = s.intact := by simp [hs', setRegion, kmemAlloc]
  have hfresh : region ∉ vmm.regionsRoot := fun hp => hnew (h.used dst vmm hdst region hp)
  have hroot : ∀ p, p ∈ (dupLink rb s'.mem vmm region).regionsRoot ++ [region] →
      p ∈ vmm.regionsRoot ∨ p = region := by
    intro p hp
    simpa [dupLink, vmaLinkRb] using hp
  have hspace := (h.space dst vmm hdst).copy rb hfresh hother (by rw [hself]; exact hgood)
    (by rw [hself]; exact hafter)
  refine h.replace dst ?_ (hintact.trans h.intact) ?_ hspace ?_ ?_
  · simp [Vm.setVmm, hvmms]
  · change s'.inUse.Nodup
    rw [hinUse]
    exact List.nodup_cons.mpr ⟨hnew, h.nodup⟩
  · intro p hp
    change p ∈ s'.inUse
    rw [hinUse]
    obtain hin | heq := hroot p hp
    · exact List.mem_cons_of_mem _ (h.used dst vmm hdst p hin)
    · simp [heq]
  · intro t v hne ht p hp
    have hused := h.used t v ht p hp
    have hpr : p ≠ region := fun heq => hnew (heq ▸ hused)
    refine ⟨hother p hpr, ?_, ?_⟩
    · change p ∈ s'.inUse
      rw [hinUse]
      exact List.mem_cons_of_mem _ hused
    · intro hmem
      obtain hin | heq := hroot p hmem
      · exact h.apart t v dst vmm ht hdst hne p hp hin
      · exact hpr heq

theorem KernelOk.dupLoop (rb : RbOps) (dst : ℕ) : ∀ (srcs : List ℕ)
    (outcomes : List (Option (ℕ × Bool))) (s : Kernel) (vmm : Vmm),
    KernelOk (Vm.setVmm s dst vmm) → (∀ q ∈ srcs, q ∈ s.inUse ∧ RegionGood (s.mem q)) →
      (srcs.Pairwise fun p q => (s.mem p).vmEnd ≤ (s.mem q).vmBegin) →
      (∀ p ∈ vmm.regionsRoot, ∀ q ∈ srcs, (s.mem p).vmEnd ≤ (s.mem q).vmBegin) →
      ∀ t, dupLoop rb dst srcs outcomes s vmm = some t → KernelOk t := by
  intro srcs
  induction srcs with
  | nil =>
    intro outcomes s vmm h _ _ _ t hstep
    obtain rfl : Vm.setVmm s dst vmm = t := by simpa [Vm.dupLoop] using hstep
    exact h
  | cons q qs ih =>
    intro outcomes s vmm h hsrc hsorted hafter t hstep
    have hdst : (Vm.setVmm s dst vmm).vmms dst = some vmm := by simp [Vm.setVmm]
    cases outcomes with
    | nil => simp [Vm.dupLoop] at hstep
    | cons outcome outcomes =>
      cases outcome with
      | none => exact KernelOk.destroy vmm h rfl hstep
      | some copy =>
        obtain ⟨region, ok⟩ := copy
        obtain ⟨s', hs'⟩ : ∃ s', s' = setRegion (kmemAlloc s region) region (s.mem q) := ⟨_, rfl⟩
        have hother : ∀ p, p ≠ region → s'.mem p = s.mem p := by
          intro p hp
          simp [hs', setRegion, kmemAlloc, hp]
        simp only [Vm.dupLoop, ← hs'] at hstep
        split_ifs at hstep with halloc hok
        · have hnew : region ∉ s.inUse := h.not_mem_of_mayAlloc halloc
          have hself : s'.mem region = s.mem q := by simp [hs', setRegion]
          have hne : ∀ p, p ∈ s.inUse → p ≠ region := fun p hp heq => hnew (heq ▸ hp)
          obtain ⟨hqs, hsorted'⟩ := List.pairwise_cons.mp hsorted
          have hsrcs : ∀ p ∈ qs, p ≠ region := fun p hp => hne p (hsrc p (by simp [hp])).1
          have hcopy := h.copy rb hnew (hsrc q (by simp)).2 (fun p hp => hafter p hp q (by simp)) hs'
          refine ih outcomes s' _ hcopy ?_ ?_ ?_ t hstep
          · intro p hp
            obtain ⟨hin, hgood⟩ := hsrc p (by simp [hp])
            refine ⟨?_, ?_⟩
            · simp [hs', setRegion, kmemAlloc, hin]
            · rwa [hother p (hsrcs p hp)]
          · refine hsorted'.imp_of_mem ?_
            intro a b ha hb hab
            rwa [hother a (hsrcs a ha), hother b (hsrcs b hb)]
          · intro p hp b hb
            rw [hother b (hsrcs b hb)]
            obtain hin | heq : p ∈ vmm.regionsRoot ∨ p = region := by
              simpa [dupLink, vmaLinkRb] using hp
            · rw [hother p (hne p (h.used dst vmm hdst p hin))]
              exact hafter p hin b (by simp [hb])
            · rw [heq, hself]
              exact hqs b hb
        · have hnew : region ∉ s.inUse := h.not_mem_of_mayAlloc halloc
          rw [kmemFree_of_mem (show region ∈ s'.inUse by simp [hs', setRegion, kmemAlloc])] at hstep
          have hroot : (dupLink rb s'.mem vmm region).regionsRoot = vmm.regionsRoot := rfl
          refine KernelOk.destroy vmm ?_ hroot hstep
          have hscratch := h.scratch hnew hother
          simpa [Vm.setVmm, setRegion, kmemAlloc, hs'] using hscratch

def EventOk (s : Kernel) : Event → Prop
  | .mmap task _ args _ => ∀ vmm, s.vmms task = some vmm → MmapOk s.mem vmm args
  | _ => True

def StaysDisjoint (rb : RbOps) (s : Kernel) (e : Event) : Prop :=
  ∀ t, step rb s e = some t → RegionsDisjoint t

theorem KernelOk.step (h : KernelOk s) {e : Event} (hok : EventOk s e)
    (hdisjoint : StaysDisjoint rb s e) (hstep : step rb s e = some t) : KernelOk t := by
  have hdis := hdisjoint t hstep
  cases e with
  | init task =>
    simp only [Vm.step] at hstep
    split at hstep
    · obtain rfl := Option.some_inj.mp hstep
      exact h.init task
    · simp at hstep
  | mmap task region args grants =>
    simp only [Vm.step] at hstep
    split at hstep
    · simp at hstep
    · rename_i vmm htask
      split_ifs at hstep with hcall
      exact h.mmap htask hcall.1 (hok vmm htask) hstep hdis
  | munmap task vaddr length =>
    simp only [Vm.step] at hstep
    split at hstep
    · simp at hstep
    · rename_i vmm htask
      split_ifs at hstep with hvaddr
      exact h.munmap htask hvaddr hstep
  | fault task vaddr grants =>
    simp only [Vm.step] at hstep
    split at hstep
    · simp at hstep
    · rename_i vmm htask
      split_ifs at hstep with hvaddr
      exact h.fault htask hstep
  | dup dst src outcomes =>
    simp only [Vm.step] at hstep
    split at hstep
    · rename_i vmm hsrc hdst
      have hspace := h.space src vmm hsrc
      refine KernelOk.dupLoop rb dst _ outcomes s vmmInit (h.init dst) ?_ hspace.ordered.before
        (by simp [vmmInit]) t hstep
      exact fun q hq => ⟨h.used src vmm hsrc q hq, hspace.good q hq⟩
    · simp at hstep
  | destroy task =>
    simp only [Vm.step] at hstep
    split at hstep
    · simp at hstep
    · rename_i vmm htask
      have hsame : Vm.setVmm s task vmm = s := by
        simp [Vm.setVmm, ← htask, Function.update_eq_self]
      refine KernelOk.destroy vmm ?_ rfl hstep
      rwa [hsame]

theorem kernelOk_reach
    (h : (machine rb).Reach (fun s e => EventOk s e ∧ StaysDisjoint rb s e) s) : KernelOk s := by
  refine Machine.Reach.invariant (I := KernelOk) ?_ ?_ h
  · rintro s ⟨hvmms, hinUse, hintact⟩
    refine ⟨hintact, by simp [hinUse], ?_, ?_, ?_⟩
    · simp [hvmms]
    · simp [hvmms]
    · simp [hvmms]
  · intro s e t hinv hok hstep
    exact hinv.step hok.1 hok.2 hstep

/-- When no mapping is lazy, empty, wraps around or fails once attached, a key bound in the
database leads to the attached region that the tree search finds. -/
theorem lookups_agree (rb : RbOps) (s : Kernel)
    (hs : (machine rb).Reach (fun s e => EventOk s e ∧ StaysDisjoint rb s e) s)
    (task : ℕ) (vmm : Vmm) (htask : s.vmms task = some vmm) (vaddr : ℕ) (hvaddr : vaddr < 2 ^ 32)
    (r : ℕ) (hfound : keysdbLookup vmm.regionsDb (vaddr / 2 ^ regionKeywidth) = some (some r)) :
    r ∈ vmm.regionsRoot ∧ vmRegionFind s.mem vmm vaddr = some r :=
  ((kernelOk_reach hs).space task vmm htask).lookup hvaddr hfound

def pageArgs (isLazy : Bool) : MmapArgs :=
  ⟨0x10000, 0x1000, ⟨true, false, isLazy, false, true⟩, false, true⟩

def emptyKernel : Kernel :=
  ⟨fun _ => ⟨0, 0, 0, 0, ⟨false, false, false, false, false⟩⟩, fun _ => none, [], true⟩

theorem emptyKernel_init (rb : RbOps) : (machine rb).init emptyKernel := ⟨rfl, rfl, rfl⟩

theorem regionsDisjoint_of_single (hothers : ∀ task, task ≠ 0 → s.vmms task = none)
    (hroot : ∀ vmm, s.vmms 0 = some vmm → vmm.regionsRoot.length ≤ 1) : RegionsDisjoint s := by
  intro task vmm htask
  by_cases hzero : task = 0
  · subst hzero
    have hlen := hroot vmm htask
    cases hlist : vmm.regionsRoot with
    | nil => exact List.Pairwise.nil
    | cons p ps =>
      rw [hlist] at hlen
      have hps : ps = [] := List.length_eq_zero_iff.mp (by simpa using hlen)
      rw [hps]
      exact List.pairwise_singleton _ _
  · simp [hothers task hzero] at htask

def bootedKernel : Kernel := setVmm emptyKernel 0 vmmInit

theorem bootedKernel_step (rb : RbOps) :
    (machine rb).step emptyKernel (.init 0) = some bootedKernel := rfl

def mappedVmm : Vmm where
  regionsRoot := [1]
  regionsTree := leaf 1
  lastMmap := 0x10000
  regionsDb := keysdbInit.setRecord 0 (Function.update (fun _ => none) 1 (some 1))

def mappedKernel (isLazy : Bool) : Kernel where
  mem := Function.update emptyKernel.mem 1 (pageArgs isLazy).asked
  vmms := Function.update
    (Function.update bootedKernel.vmms 0 (some { mappedVmm with regionsDb := keysdbInit }))
    0 (some mappedVmm)
  inUse := [1]
  intact := true

theorem mappedKernel_step (isLazy : Bool) : (machine plainOps).step bootedKernel
    (.mmap 0 1 (pageArgs isLazy) 1) = some (mappedKernel isLazy) := by
  cases isLazy <;> rfl

theorem bootedKernel_disjoint : RegionsDisjoint bootedKernel := by
  refine regionsDisjoint_of_single (fun _ h => Function.update_of_ne h _ _) ?_
  intro vmm hvmm
  obtain rfl : vmmInit = vmm := by simpa [bootedKernel, setVmm] using hvmm
  decide

theorem mappedKernel_disjoint (isLazy : Bool) : RegionsDisjoint (mappedKernel isLazy) := by
  refine regionsDisjoint_of_single ?_ ?_
  · intro task htask
    simp [mappedKernel, bootedKernel, setVmm, emptyKernel, htask]
  · intro vmm hvmm
    obtain rfl : mappedVmm = vmm := by simpa [mappedKernel] using hvmm
    decide

theorem staysDisjoint_of_step {e : Event} (hstep : (machine rb).step s e = some t)
    (hdisjoint : RegionsDisjoint t) : StaysDisjoint rb s e := by
  intro t' ht'
  obtain rfl : t = t' := by
    have hboth : some t = some t' := hstep.symm.trans ht'
    simpa using hboth
  exact hdisjoint

theorem reach_mapped {args : MmapArgs} {t : Kernel} (hmap : MmapOk bootedKernel.mem vmmInit args)
    (hstep : (machine plainOps).step bootedKernel (.mmap 0 1 args 1) = some t)
    (hdisjoint : RegionsDisjoint t) :
    (machine plainOps).Reach (fun s e => EventOk s e ∧ StaysDisjoint plainOps s e) t := by
  have hinit : EventOk emptyKernel (.init 0) := trivial
  have hguard : EventOk bootedKernel (.mmap 0 1 args 1) := by
    intro vmm hvmm
    obtain rfl : vmmInit = vmm := by simpa [bootedKernel, setVmm] using hvmm
    exact hmap
  exact .step (.step (.init (emptyKernel_init plainOps))
    ⟨hinit, staysDisjoint_of_step (bootedKernel_step plainOps) bootedKernel_disjoint⟩
    (bootedKernel_step plainOps)) ⟨hguard, staysDisjoint_of_step hstep hdisjoint⟩ hstep

theorem lookups_agree_one_page : (mappedKernel false).vmms 0 = some mappedVmm ∧
    keysdbLookup mappedVmm.regionsDb 1 = some (some 1) ∧
      vmRegionFind (mappedKernel false).mem mappedVmm 0x10800 = some 1 := by
  have hzero : (mappedKernel false).vmms 0 = some mappedVmm := rfl
  have hkey : keysdbLookup mappedVmm.regionsDb 1 = some (some 1) := rfl
  have hmap : MmapOk bootedKernel.mem vmmInit (pageArgs false) :=
    ⟨rfl, rfl, fun _ => .inl (by decide), fun h => absurd h (by decide)⟩
  have hreach := reach_mapped hmap (mappedKernel_step false) (mappedKernel_disjoint false)
  exact ⟨hzero, hkey,
    (lookups_agree plainOps _ hreach 0 mappedVmm hzero 0x10800 (by decide) 1 hkey).2⟩

def unmappedKernel : Kernel where
  mem := (mappedKernel true).mem
  vmms := Function.update (mappedKernel true).vmms 0
    (some ⟨[], .nil, 0x10000, mappedVmm.regionsDb⟩)
  inUse := []
  intact := true

theorem unmappedKernel_step : (machine plainOps).step (mappedKernel true)
    (.munmap 0 0x10000 0x1000) = some unmappedKernel := rfl

/-- A page mapped lazily and unmapped: its key still leads to the freed region. -/
theorem lazy_key_stale : ¬∀ s, (machine plainOps).Reach (StaysDisjoint plainOps) s →
    ∀ task vmm vaddr r, s.vmms task = some vmm → vaddr < 2 ^ 32 →
      keysdbLookup vmm.regionsDb (vaddr / 2 ^ regionKeywidth) = some (some r) →
        r ∈ vmm.regionsRoot ∧ vmRegionFind s.mem vmm vaddr = some r := by
  intro h
  have hdisjoint : RegionsDisjoint unmappedKernel := by
    refine regionsDisjoint_of_single ?_ ?_
    · intro task htask
      simp [unmappedKernel, mappedKernel, bootedKernel, setVmm, emptyKernel, htask]
    · intro vmm hvmm
      obtain rfl : _ = vmm := Option.some_inj.mp hvmm
      decide
  have hreach : (machine plainOps).Reach (StaysDisjoint plainOps) unmappedKernel :=
    .step (.step (.step (.init (emptyKernel_init plainOps))
      (staysDisjoint_of_step (bootedKernel_step plainOps) bootedKernel_disjoint)
      (bootedKernel_step plainOps))
      (staysDisjoint_of_step (mappedKernel_step true) (mappedKernel_disjoint true))
      (mappedKernel_step true))
      (staysDisjoint_of_step unmappedKernel_step hdisjoint) unmappedKernel_step
  obtain ⟨hmem, -⟩ := h unmappedKernel hreach 0 _ 0x10800 1 rfl (by decide) rfl
  simp at hmem

end Almos.Vm
