import Almos.VmPlacement
import Almos.Vmm

/-!
# Requests for a mapping

`sys_mmap` tests the request and `vmm_mmap` makes a region of it. When the region cannot be given
what it maps, it is detached again. Locks, page tables and what the files count are left out.
-/
namespace Almos

/-- `mmap_attr_t`; the flags are those of the user. -/
structure MmapAttr where
  addr : ℕ
  length : ℕ
  prot : ℕ
  flags : ℕ
  fd : ℕ
  offset : ℕ

structure MmapFile where
  nSize : ℕ
  fFlags : ℕ

inductive MmapErrno
  | kernel (err : Errno)
  | ebadfd
  | erange
  | eacces
  | enodev
  deriving DecidableEq

/-- What a call meets: the structure of the region, the mapper and its initialisation, the operation
of the file, and how many records of the key database can be had. -/
structure MmapOutcomes where
  region : Option ℕ
  mapper : Bool
  mapperInit : Option MmapErrno
  fileMmap : Option MmapErrno
  grants : ℕ

namespace Mmap
open Word Vm KeysDb

def flagSet (flags mask : ℕ) : Bool := decide (flags &&& mask ≠ 0)

/-- `VM_REG_PVSH` -/
def vmRegPvsh : ℕ := 0x3

/-- `PMM_PAGE_MASK` -/
def pmmPageMask : ℕ := 0xFFF

/-- `CONFIG_TASK_FILE_MAX_NR` -/
def taskFileMaxNr : ℕ := 2048

/-- `VM_REG_FIXED`, `VM_REG_HEAP`, `VM_REG_LAZY`, `VM_REG_SHARED` and `VM_REG_ANON`. -/
def regionFlags (flags : ℕ) : RegionFlags where
  fixed := flagSet flags 0x40
  heap := flagSet flags 0x800
  isLazy := flagSet flags 0x200
  shared := flagSet flags 0x1
  anon := flagSet flags 0x4

/-- The access that a mapping asks for is not among those of the file: `VM_REG_RD` needs
`VFS_O_RDONLY`, `VM_REG_WR` needs `VFS_O_WRONLY` and no `VFS_O_APPEND`. -/
def accessDenied (prot fFlags : ℕ) : Bool :=
  flagSet prot 0x1 && !flagSet fFlags 0x100000 ||
    flagSet prot 0x2 && !flagSet fFlags 0x200000 ||
    flagSet prot 0x2 && flagSet fFlags 0x80000

/-- `sys_mmap` up to the call of `vmm_mmap`: the file and the attributes handed over. -/
def sysMmapArgs (files : ℕ → Option MmapFile) (attr : MmapAttr) :
    Except MmapErrno (Option MmapFile × MmapAttr) :=
  if (regionFlags attr.flags).heap ∨ attr.flags &&& vmRegPvsh = vmRegPvsh ∨
      attr.flags &&& vmRegPvsh = 0 ∨ attr.length = 0 ∨ attr.offset &&& pmmPageMask ≠ 0 ∨
      attr.addr ≠ 0 ∧
        (attr.addr &&& pmmPageMask ≠ 0 ∨ usrLimit < wadd attr.length attr.addr) then
    .error (.kernel .einval)
  else if (regionFlags attr.flags).anon then
    .ok (none, { attr with
      offset := 0
      addr := if (regionFlags attr.flags).fixed then attr.addr else 0 })
  else if taskFileMaxNr < attr.fd then .error .ebadfd
  else
    match files attr.fd with
    | none => .error .ebadfd
    | some file =>
        if file.nSize < wadd attr.offset attr.length then .error .erange
        else if accessDenied attr.prot file.fFlags then .error .eacces
        else .ok (some file, attr)

/-- `vmm_do_shared_anon_mapping` -/
def vmmDoSharedAnonMapping (o : MmapOutcomes) : Option MmapErrno :=
  if o.mapper then o.mapperInit else some (.kernel .enomem)

/-- The region is given what it maps, or the jump to `MMAP_ERR2` with the value of `err` then. -/
def mapStep (file : Option MmapFile) (flags : RegionFlags) (o : MmapOutcomes) :
    Except (Option MmapErrno) Unit :=
  if flags.shared && flags.anon then
    match vmmDoSharedAnonMapping o with
    | some err => .error (some err)
    | none => .ok ()
  else
    match file with
    | some _ =>
        match o.fileMmap with
        | some err => .error (some err)
        | none => .ok ()
    | none => if flags.shared then .error none else .ok ()

/-- How `vmm_mmap` returns: what it leaves, how often it passed the structure of the region to
`kmem_free`, and the address or the value it leaves in `errno`. -/
structure MmapResult where
  mem : RegionMem
  vmm : Vmm
  freed : ℕ
  ret : Except (Option MmapErrno) ℕ

inductive MmapEnd
  | returned (res : MmapResult)
  /-- `vm_region_detach` follows the mapper `NULL` or leaves the key database. -/
  | badDetach
  /-- `keysdb_bind` leaves the key database. -/
  | badBind

/-- The region that `vm_region_init` makes of a request. -/
def asked (attr : MmapAttr) : VmRegion :=
  vmRegionInit attr.addr (wadd attr.addr attr.length) (regionFlags attr.flags)

variable (rb : RbOps)

/-- `vmm_mmap` -/
def vmmMmap (mem : RegionMem) (vmm : Vmm) (file : Option MmapFile) (attr : MmapAttr)
    (o : MmapOutcomes) : Option MmapEnd :=
  let flags := regionFlags attr.flags
  match o.region with
  | none => some (.returned ⟨mem, vmm, 0, .error (some (.kernel .enomem))⟩)
  | some region =>
      let mem := Function.update mem region (asked attr)
      match vmRegionAttach rb mem vmm region with
      | none => none
      | some (.error err) => some (.returned ⟨mem, vmm, 1, .error (some (.kernel err))⟩)
      | some (.ok (mem, vmm)) =>
          match mapStep file flags o with
          | .error err =>
              -- a shared anonymous region has no mapper yet
              if flags.shared && flags.anon then some .badDetach
              else
                match vmRegionDetach rb mem vmm region with
                | none => some .badDetach
                -- freed by `vm_region_detach`, and again at `MMAP_ERR1`
                | some vmm => some (.returned ⟨mem, vmm, 1 + 1, .error err⟩)
          | .ok () =>
              let r := mem region
              match keysdbBind vmm.regionsDb (r.vmBegin / 2 ^ regionKeywidth)
                  (wsub r.vmEnd r.vmBegin / 2 ^ regionKeywidth) region o.grants with
              | none => some .badBind
              | some (db, _) =>
                  some (.returned ⟨mem, { vmm with regionsDb := db }, 0, .ok r.vmStart⟩)

variable {rb : RbOps} {mem : RegionMem} {vmm : Vmm} {file : Option MmapFile} {attr : MmapAttr}
  {o : MmapOutcomes} {region : ℕ}

/-- The mapping as the kernel of all address spaces makes it. -/
def mmapArgs (file : Option MmapFile) (attr : MmapAttr) (o : MmapOutcomes) : MmapArgs :=
  ⟨attr.addr, attr.length, regionFlags attr.flags, file.isSome,
    (mapStep file (regionFlags attr.flags) o).isOk⟩

/-- What a call leaves in the kernel; none where it goes astray. -/
def inKernel (s : Kernel) (task region : ℕ) : MmapEnd → Option Kernel
  | .returned res =>
      some ((fun s => kmemFree s region)^[res.freed] (setVmm { s with mem := res.mem } task res.vmm))
  | .badDetach => none
  | .badBind => none

lemma mapped_mmapArgs :
    (mmapArgs file attr o).mapped = (mapStep file (regionFlags attr.flags) o).isOk := by
  cases file with
  | some f => simp [mmapArgs, MmapArgs.mapped]
  | none =>
    simp only [mmapArgs, MmapArgs.mapped, mapStep, Option.isSome_none, Bool.or_false]
    split_ifs <;> simp_all [Except.isOk, Except.toBool]

/-- On the space of a task the call is the `vmm_mmap` of the kernel. -/
theorem vmmMmap_inKernel {s : Kernel} {task : ℕ} (hvmm : s.vmms task = some vmm)
    (hregion : o.region = some region) :
    Vm.vmmMmap rb s task vmm region (mmapArgs file attr o) o.grants =
      (vmmMmap rb s.mem vmm file attr o).bind (inKernel s task region) := by
  have hset : ∀ (mem : RegionMem) (v v' : Vmm), setVmm (setVmm { s with mem := mem } task v) task v' =
      setVmm { s with mem := mem } task v' := by
    intro mem v v'
    simp [setVmm]
  have hsame : ∀ mem : RegionMem, setVmm { s with mem := mem } task vmm = { s with mem := mem } := by
    intro mem
    simp [setVmm, ← hvmm]
  have hmem : setRegion s region (vmRegionInit attr.addr (wadd attr.addr attr.length)
      (regionFlags attr.flags)) = { s with mem := Function.update s.mem region (asked attr) } := rfl
  simp only [Vm.vmmMmap, vmmMmap, hregion, mapped_mmapArgs]
  simp only [mmapArgs, hmem]
  cases hatt : vmRegionAttach rb (Function.update s.mem region (asked attr)) vmm region with
  | none => rfl
  | some out =>
    cases out with
    | error err => simp [inKernel, hsame]
    | ok out =>
      obtain ⟨mem, vmm'⟩ := out
      cases hstep : mapStep file (regionFlags attr.flags) o with
      | ok _ =>
        simp only [Except.isOk, Except.toBool, if_true, vmmKeysdbUpdate, regionKeys]
        cases hbind : keysdbBind vmm'.regionsDb ((mem region).vmBegin / 2 ^ regionKeywidth)
            (wsub (mem region).vmEnd (mem region).vmBegin / 2 ^ regionKeywidth) region o.grants with
        | none => rfl
        | some bound => simp [inKernel, hset]
      | error err =>
        simp only [Except.isOk, Except.toBool, Bool.false_eq_true, if_false, detachAndFree]
        cases hanon : (regionFlags attr.flags).shared && (regionFlags attr.flags).anon with
        | true => rfl
        | false =>
          cases hdetach : vmRegionDetach rb mem vmm' region with
          | none => simp [hdetach, setVmm, inKernel]
          | some vmm'' => simp [hdetach, setVmm, inKernel, kmemFree]

/-! ### Where a failure leaves nothing behind -/

/-- What a call that returned `VM_FAILED` should leave. -/
structure Clean (vmm : Vmm) (o : MmapOutcomes) (res : MmapResult) (errno : Option MmapErrno) :
    Prop where
  regions : ∀ p, p ∈ res.vmm.regionsRoot ↔ p ∈ vmm.regionsRoot
  db : res.vmm.regionsDb = vmm.regionsDb
  errno : errno ≠ none
  freed : res.freed = if o.region.isSome then 1 else 0

/-- The call ends without following a mapper that is `NULL`, and if it fails, it fails cleanly. -/
def CleanFailure (vmm : Vmm) (o : MmapOutcomes) (fin : Option MmapEnd) : Prop :=
  ∃ e, fin = some e ∧ e ≠ .badDetach ∧
    ∀ res errno, e = .returned res → res.ret = .error errno → Clean vmm o res errno

/-- `vmm_mmap` fails cleanly where the region cannot be had or attached, or nothing fails after. -/
theorem vmm_mmap_failure_clean (rb : RbOps) (h : Ordered mem vmm) (file : Option MmapFile)
    (attr : MmapAttr) (o : MmapOutcomes)
    (hfresh : ∀ region, o.region = some region → region ∉ vmm.regionsRoot) :
    CleanFailure vmm o (vmmMmap rb mem vmm file attr o) ↔
      o.region = none ∨ Refused mem vmm (asked attr) ∨
        mapStep file (regionFlags attr.flags) o = .ok () := by
  cases hregion : o.region with
  | none =>
    refine iff_of_true ⟨_, by simp only [vmmMmap, hregion]; rfl, by simp, ?_⟩ (.inl rfl)
    rintro res errno ⟨⟩ ⟨⟩
    exact ⟨fun _ => Iff.rfl, rfl, Option.some_ne_none _, by simp [hregion]⟩
  | some region =>
    have hnew := hfresh region hregion
    have hself : Function.update mem region (asked attr) region = asked attr :=
      Function.update_self ..
    have hcases := (h.update hnew (asked attr)).attach_cases rb region
    rw [hself, refused_update hnew] at hcases
    obtain ⟨⟨err, herr⟩, hrefused⟩ | ⟨⟨⟨mem', vmm'⟩, hatt⟩, hrefused⟩ := hcases
    · refine iff_of_true ⟨_, by simp only [vmmMmap, hregion, herr]; rfl, by simp, ?_⟩
        (.inr (.inl hrefused))
      rintro res errno ⟨⟩ ⟨⟩
      exact ⟨fun _ => Iff.rfl, rfl, Option.some_ne_none _, by simp [hregion]⟩
    · cases hstep : mapStep file (regionFlags attr.flags) o with
      | ok u =>
        refine iff_of_true ?_ (.inr (.inr rfl))
        cases hbind : keysdbBind vmm'.regionsDb ((mem' region).vmBegin / 2 ^ regionKeywidth)
            (wsub (mem' region).vmEnd (mem' region).vmBegin / 2 ^ regionKeywidth) region
            o.grants with
        | none =>
          refine ⟨.badBind, by simp only [vmmMmap, hregion, hatt, hstep, hbind], by simp, ?_⟩
          rintro res errno ⟨⟩
        | some bound =>
          refine ⟨_, by simp only [vmmMmap, hregion, hatt, hstep, hbind]; rfl, by simp, ?_⟩
          rintro res errno ⟨⟩ ⟨⟩
      | error err =>
        refine iff_of_false ?_ ?_
        · rintro ⟨e, hrun, hgood, hclean⟩
          cases hanon : (regionFlags attr.flags).shared && (regionFlags attr.flags).anon with
          | true =>
            simp only [vmmMmap, hregion, hatt, hstep, hanon, if_true, Option.some.injEq] at hrun
            exact hgood hrun.symm
          | false =>
            cases hdetach : vmRegionDetach rb mem' vmm' region with
            | none =>
              simp only [vmmMmap, hregion, hatt, hstep, hanon, hdetach, Bool.false_eq_true,
                if_false, Option.some.injEq] at hrun
              exact hgood hrun.symm
            | some vmm'' =>
              simp only [vmmMmap, hregion, hatt, hstep, hanon, hdetach, Bool.false_eq_true,
                if_false, Option.some.injEq] at hrun
              have htwice := (hclean _ err hrun.symm rfl).freed
              simp [hregion] at htwice
        · rintro (hnone | href | hok)
          · cases hnone
          · exact hrefused href
          · cases hok

def pageRequest (addr : ℕ) : MmapAttr := ⟨addr, 0x1000, 0x1, 0x2, 0, 0⟩

def oneFile : ℕ → Option MmapFile := fun fd => if fd = 0 then some ⟨0x1000, 0x100000⟩ else none

lemma ordered_fresh : Ordered freshSpace.mem vmmInit := ordered_init

def fixedRequest (addr : ℕ) : MmapAttr := { pageRequest addr with flags := 0x42 }

/-- Beside two regions a page in the first one is refused. -/
theorem vmm_mmap_failure_clean_refused : ∃ res,
    vmmMmap plainOps gapMem gapVmm (oneFile 0) (fixedRequest 0x8000) ⟨some 3, true, none, none, 1⟩ =
      some (.returned res) ∧ res.ret = .error (some (.kernel .eexist)) ∧
    Clean gapVmm ⟨some 3, true, none, none, 1⟩ res (some (.kernel .eexist)) := by
  obtain ⟨res, hrun, hret⟩ : ∃ res, vmmMmap plainOps gapMem gapVmm (oneFile 0) (fixedRequest 0x8000)
      ⟨some 3, true, none, none, 1⟩ = some (.returned res) ∧
      res.ret = .error (some (.kernel .eexist)) := ⟨_, rfl, rfl⟩
  have hrefused : Refused gapMem gapVmm (asked (fixedRequest 0x8000)) :=
    ⟨1, by decide, by decide, by decide⟩
  obtain ⟨e, he, -, hclean⟩ := (vmm_mmap_failure_clean plainOps ordered_gap (oneFile 0)
    (fixedRequest 0x8000) ⟨some 3, true, none, none, 1⟩ (by rintro region ⟨⟩; decide)).mpr
    (.inr (.inl hrefused))
  rw [hrun, Option.some.injEq] at he
  exact ⟨res, hrun, hret, hclean res _ he.symm hret⟩

/-- When the operation of the file fails, the structure is freed twice. -/
theorem vmm_mmap_frees_twice : ¬∀ (files : ℕ → Option MmapFile) (attr args : MmapAttr)
    (file : Option MmapFile) (o : MmapOutcomes) (mem : RegionMem) (vmm : Vmm),
    sysMmapArgs files attr = .ok (file, args) → Ordered mem vmm →
      (∀ region, o.region = some region → region ∉ vmm.regionsRoot) →
        CleanFailure vmm o (vmmMmap plainOps mem vmm file args o) := by
  intro h
  obtain ⟨e, hrun, -, hclean⟩ := h oneFile (pageRequest 0) (pageRequest 0) (oneFile 0)
    ⟨some 1, true, none, some .enodev, 1⟩ freshSpace.mem vmmInit rfl ordered_fresh (by decide)
  obtain ⟨res, hres, hret, hfreed⟩ : ∃ res, vmmMmap plainOps freshSpace.mem vmmInit (oneFile 0)
      (pageRequest 0) ⟨some 1, true, none, some .enodev, 1⟩ = some (.returned res) ∧
      res.ret = .error (some .enodev) ∧ res.freed = 2 := ⟨_, rfl, rfl, rfl⟩
  rw [hres, Option.some.injEq] at hrun
  have honce := (hclean res _ hrun.symm hret).freed
  rw [hfreed] at honce
  exact absurd honce (by decide)

/-- The region of a mapping that succeeded should have the length asked for, at the address where it
is fixed, and lie in user space. -/
structure AsAsked (attr : MmapAttr) (r : VmRegion) : Prop where
  length : r.vmStart + attr.length = r.vmLimit
  begins : r.vmBegin ≤ r.vmStart
  ends : r.vmLimit ≤ r.vmEnd
  below : r.vmEnd ≤ usrLimit
  fixed : (regionFlags attr.flags).fixed = true → r.vmStart = attr.addr

/-- A fixed request ends in user space; another asks for no place, as far as it is heard, and no more
than user space holds. -/
def Asks (attr : MmapAttr) : Prop :=
  if (regionFlags attr.flags).fixed then attr.addr + attr.length ≤ usrLimit
  else ((regionFlags attr.flags).anon = true ∨ attr.addr = 0) ∧ attr.length ≤ usrLimit

/-- What passes the tests of `sys_mmap`. -/
structure Passed (attr args : MmapAttr) : Prop where
  heap : (regionFlags attr.flags).heap = false
  pos : 0 < attr.length
  length : args.length = attr.length
  flags : args.flags = attr.flags
  addr : args.addr = if (regionFlags attr.flags).anon ∧ (regionFlags attr.flags).fixed = false then 0
    else attr.addr

lemma sysMmapArgs_passed {files : ℕ → Option MmapFile} {args : MmapAttr}
    (h : sysMmapArgs files attr = .ok (file, args)) : Passed attr args := by
  unfold sysMmapArgs at h
  split_ifs at h with hrefused hanon hfixed hfd
  · simp only [not_or] at hrefused
    cases h
    exact ⟨by simpa using hrefused.1, Nat.pos_of_ne_zero hrefused.2.2.2.1, rfl, rfl,
      by simp [hanon, hfixed]⟩
  · simp only [not_or] at hrefused
    cases h
    exact ⟨by simpa using hrefused.1, Nat.pos_of_ne_zero hrefused.2.2.2.1, rfl, rfl,
      by simp [hanon, hfixed]⟩
  · cases hfile : files attr.fd with
    | none =>
      rw [hfile] at h
      cases h
    | some f =>
      rw [hfile] at h
      simp only at h
      simp only [not_or] at hrefused
      split_ifs at h
      cases h
      exact ⟨by simpa using hrefused.1, Nat.pos_of_ne_zero hrefused.2.2.2.1, rfl, rfl,
        by simp [hanon]⟩

lemma vmmMmap_ok {res : MmapResult} {addr : ℕ}
    (hrun : vmmMmap rb mem vmm file attr o = some (.returned res)) (hret : res.ret = .ok addr)
    (hregion : o.region = some region) :
    ∃ vmm', vmRegionAttach rb (Function.update mem region (asked attr)) vmm region =
      some (.ok (res.mem, vmm')) := by
  simp only [vmmMmap, hregion] at hrun
  cases hatt : vmRegionAttach rb (Function.update mem region (asked attr)) vmm region with
  | none =>
    rw [hatt] at hrun
    cases hrun
  | some out =>
    rw [hatt] at hrun
    cases out with
    | error err =>
      cases hrun
      cases hret
    | ok placed =>
      obtain ⟨mem', vmm'⟩ := placed
      simp only at hrun
      cases hstep : mapStep file (regionFlags attr.flags) o with
      | error err =>
        rw [hstep] at hrun
        simp only at hrun
        split_ifs at hrun
        · cases hrun
        · cases hdetach : vmRegionDetach rb mem' vmm' region with
          | none =>
            rw [hdetach] at hrun
            cases hrun
          | some vmm'' =>
            rw [hdetach] at hrun
            cases hrun
            cases hret
      | ok u =>
        rw [hstep] at hrun
        simp only at hrun
        cases hbind : keysdbBind vmm'.regionsDb ((mem' region).vmBegin / 2 ^ regionKeywidth)
            (wsub (mem' region).vmEnd (mem' region).vmBegin / 2 ^ regionKeywidth) region
            o.grants with
        | none =>
          rw [hbind] at hrun
          cases hrun
        | some bound =>
          rw [hbind] at hrun
          cases hrun
          exact ⟨vmm', rfl⟩

lemma roundUp_bounds {x : ℕ} (h : x ≤ usrLimit) : x ≤ roundUp x ∧ roundUp x ≤ usrLimit := by
  unfold roundUp Bits.arroundUp regsize regionKeywidth usrLimit at *
  split_ifs <;> omega

lemma asked_eq {args : MmapAttr} (hargs : Passed attr args) :
    (asked args).vmStart = args.addr ∧ (asked args).vmBegin ≤ args.addr ∧
      (asked args).vmLimit = wadd args.addr attr.length ∧
      (asked args).vmEnd = roundUp (wadd args.addr attr.length) ∧
      (asked args).vmFlags = regionFlags attr.flags := by
  have hheap : (regionFlags args.flags).heap = false := by rw [hargs.flags, hargs.heap]
  refine ⟨rfl, Nat.div_mul_le_self _ _, ?_, ?_, ?_⟩
  · rw [← hargs.length]
    rfl
  · rw [← hargs.length]
    simp only [asked, vmRegionInit, hheap, Bool.false_eq_true, if_false]
  · rw [← hargs.flags]
    rfl

lemma asAsked_fixed {args : MmapAttr} (hargs : Passed attr args) (hplace : args.addr = attr.addr) :
    AsAsked attr (asked args) ↔ attr.addr + attr.length ≤ usrLimit := by
  obtain ⟨hstart, hbegin, hlimit, hend, -⟩ := asked_eq hargs
  rw [hplace] at hstart hbegin hlimit hend
  have hword : usrLimit < 2 ^ 32 := by decide
  constructor
  · intro hasked
    have hsum := hasked.length
    have hends := hasked.ends
    have hbelow := hasked.below
    omega
  · intro hle
    have hsum : wadd attr.addr attr.length = attr.addr + attr.length := wadd_of_lt (by omega)
    rw [hsum] at hlimit hend
    have hround := roundUp_bounds hle
    exact ⟨by omega, by omega, by omega, by omega, fun _ => hstart⟩

/-- A floating region is as it was asked for where the address counts for nothing and the length is
that of a part of user space. -/
lemma asAsked_float {args : MmapAttr} (hargs : Passed attr args) (haddr : args.addr < 2 ^ 32)
    (hlength : attr.length < 2 ^ 32) (hfixed : (regionFlags attr.flags).fixed = false)
    {start : ℕ} (hstart : start ≤ wsub usrLimit (asked args).vmEnd) {r : VmRegion}
    (hr : r = { asked args with
      vmBegin := start
      vmStart := start
      vmLimit := wadd (asked args).vmLimit start
      vmEnd := wadd start (asked args).vmEnd }) :
    AsAsked attr r ↔ args.addr = 0 ∧ attr.length ≤ usrLimit := by
  obtain ⟨-, -, hlimit, hend, -⟩ := asked_eq hargs
  have hword : usrLimit < 2 ^ 32 := by decide
  have hbegin' : r.vmBegin = start ∧ r.vmStart = start := by rw [hr]; exact ⟨rfl, rfl⟩
  have hlimit' : r.vmLimit = wadd (wadd args.addr attr.length) start := by rw [hr, ← hlimit]
  have hend' : r.vmEnd = wadd start (roundUp (wadd args.addr attr.length)) := by rw [hr, ← hend]
  constructor
  · intro hasked
    have hsum := hasked.length
    have hends := hasked.ends
    have hbelow := hasked.below
    refine ⟨?_, by omega⟩
    have hwraps : start + attr.length =
        ((args.addr + attr.length) % 4294967296 + start) % 4294967296 := by
      rw [← hbegin'.2, hsum, hlimit', hbegin'.2]
      rfl
    omega
  · rintro ⟨hzero, hle⟩
    have hsum : wadd args.addr attr.length = attr.length := by
      rw [hzero, wadd_of_lt (by omega), zero_add]
    obtain ⟨hlow, hhigh⟩ := roundUp_bounds hle
    rw [hsum] at hlimit' hend'
    rw [hend, hsum, wsub_of_le hhigh hword] at hstart
    rw [wadd_of_lt (by omega)] at hlimit' hend'
    refine ⟨by omega, by omega, by omega, by omega, fun hset => ?_⟩
    rw [hfixed] at hset
    cases hset

/-- A mapping that succeeds is what was asked for exactly where the request is fixed and ends in user
space, or asks for no place and for no more than user space holds. -/
theorem mmap_as_asked (rb : RbOps) (h : Ordered mem vmm) (files : ℕ → Option MmapFile)
    (attr args : MmapAttr) (hpassed : sysMmapArgs files attr = .ok (file, args))
    (haddr : attr.addr < 2 ^ 32) (hlength : attr.length < 2 ^ 32) (hregion : o.region = some region)
    (hfresh : region ∉ vmm.regionsRoot) (res : MmapResult) (addr : ℕ)
    (hrun : vmmMmap rb mem vmm file args o = some (.returned res)) (hret : res.ret = .ok addr) :
    AsAsked attr (res.mem region) ↔ Asks attr := by
  have hargs := sysMmapArgs_passed hpassed
  obtain ⟨vmm', hatt⟩ := vmmMmap_ok hrun hret hregion
  have hself : Function.update mem region (asked args) region = asked args :=
    Function.update_self ..
  have hordered := h.update hfresh (asked args)
  have hflags : (Function.update mem region (asked args) region).vmFlags = regionFlags attr.flags := by
    rw [hself]
    exact (asked_eq hargs).2.2.2.2
  cases hfixed : (regionFlags attr.flags).fixed with
  | true =>
    have hplace : args.addr = attr.addr := by
      rw [hargs.addr, if_neg (by simp [hfixed])]
    obtain ⟨herr, -⟩ | ⟨lower, upper, -, -, hdone⟩ :=
      hordered.attach_fixed_cases rb (by rw [hflags, hfixed])
    · rw [herr] at hatt
      cases hatt
    · rw [hdone, Option.some.injEq, Except.ok.injEq, Prod.mk.injEq] at hatt
      rw [← hatt.1, hself, asAsked_fixed hargs hplace, Asks, if_pos hfixed]
  | false =>
    obtain ⟨start, hstart, hr⟩ :=
      hordered.attach_float_region (by rw [hflags, hfixed]) hatt
    rw [hself] at hstart hr
    have hword : args.addr < 2 ^ 32 := by
      rw [hargs.addr]
      split_ifs
      · decide
      · exact haddr
    have hheard : args.addr = 0 ↔ (regionFlags attr.flags).anon = true ∨ attr.addr = 0 := by
      rw [hargs.addr]
      cases (regionFlags attr.flags).anon <;> simp [hfixed]
    rw [asAsked_float hargs hword hlength hfixed hstart hr, Asks, if_neg (by simp [hfixed]), hheard]

lemma pageRequest_run (addr : ℕ) (h : addr = 0 ∨ addr = 0x10000) :
    ∃ res, vmmMmap plainOps freshSpace.mem vmmInit (oneFile 0) (pageRequest addr)
        ⟨some 1, true, none, none, 1⟩ = some (.returned res) ∧ res.ret = .ok 0 ∧
      (res.mem 1).vmStart = 0 ∧ (res.mem 1).vmLimit = addr + 0x1000 := by
  obtain rfl | rfl := h
  · exact ⟨_, rfl, rfl, rfl, rfl⟩
  · exact ⟨_, rfl, rfl, rfl, rfl⟩

theorem mmap_as_asked_page : ∃ res, vmmMmap plainOps freshSpace.mem vmmInit (oneFile 0)
    (pageRequest 0) ⟨some 1, true, none, none, 1⟩ = some (.returned res) ∧
      (AsAsked (pageRequest 0) (res.mem 1) ↔ Asks (pageRequest 0)) := by
  obtain ⟨res, hrun, hret, -, -⟩ := pageRequest_run 0 (.inl rfl)
  exact ⟨res, hrun, mmap_as_asked plainOps ordered_fresh oneFile (pageRequest 0) (pageRequest 0) rfl
    (by decide) (by decide) rfl (by decide) res 0 hrun hret⟩

/-- A place that is only liked is added to the limit. -/
theorem mmap_hint_lengthens : ¬∀ (files : ℕ → Option MmapFile) (attr args : MmapAttr)
    (file : Option MmapFile) (o : MmapOutcomes) (mem : RegionMem) (vmm : Vmm) (region : ℕ)
    (res : MmapResult) (addr : ℕ), Ordered mem vmm →
      sysMmapArgs files attr = .ok (file, args) → o.region = some region →
        region ∉ vmm.regionsRoot → vmmMmap plainOps mem vmm file args o = some (.returned res) →
          res.ret = .ok addr → AsAsked attr (res.mem region) := by
  intro h
  obtain ⟨res, hrun, hret, hstart, hlimit⟩ := pageRequest_run 0x10000 (.inr rfl)
  have hasked := h oneFile (pageRequest 0x10000) (pageRequest 0x10000) (oneFile 0)
    ⟨some 1, true, none, none, 1⟩ freshSpace.mem vmmInit 1 res 0 ordered_fresh rfl rfl (by decide)
    hrun hret
  have hlength := hasked.length
  rw [hstart, hlimit] at hlength
  exact absurd hlength (by decide)

end Mmap
end Almos
