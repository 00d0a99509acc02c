import Almos.VmRegion

/-!
# Address spaces

Mapping, unmapping, the lookup of a page fault, duplication and destruction. The page tables
and the locks are left out. `kmem_alloc` of a region returns a structure that is not in use,
as long as no structure was freed twice. A destroyed space is gone, its database page freed.
-/
namespace Almos
open SearchTree

structure Kernel where
  mem : RegionMem
  vmms : ℕ → Option Vmm
  /-- The region structures that `kmem` handed out. -/
  inUse : List ℕ
  intact : Bool

namespace Vm
open Word KeysDb

/-- `CONFIG_KERNEL_OFFSET` -/
def kernelOffset : ℕ := 0x80000000

def setVmm (s : Kernel) (task : ℕ) (vmm : Vmm) : Kernel :=
  { s with vmms := Function.update s.vmms task (some vmm) }

def setRegion (s : Kernel) (region : ℕ) (r : VmRegion) : Kernel :=
  { s with mem := Function.update s.mem region r }

/-- What `kmem_alloc` may return. -/
def mayAlloc (s : Kernel) (region : ℕ) : Bool := decide (region ∉ s.inUse) || !s.intact

def kmemAlloc (s : Kernel) (region : ℕ) : Kernel := { s with inUse := region :: s.inUse }

def kmemFree (s : Kernel) (region : ℕ) : Kernel :=
  if region ∈ s.inUse then { s with inUse := s.inUse.erase region } else { s with intact := false }

/-- `key_start` and `keys_nr` of a region. -/
def regionKeys (r : VmRegion) : ℕ × ℕ :=
  (r.vmBegin / 2 ^ regionKeywidth, wsub r.vmEnd r.vmBegin / 2 ^ regionKeywidth)

/-- `vmm_keysdb_update`. Its error is ignored. -/
def vmmKeysdbUpdate (mem : RegionMem) (vmm : Vmm) (region grants : ℕ) : Option Vmm :=
  match keysdbBind vmm.regionsDb (regionKeys (mem region)).1 (regionKeys (mem region)).2 region
    grants with
  | none => none
  | some (db, _) => some { vmm with regionsDb := db }

variable (rb : RbOps)

/-- `vm_region_detach` to its end. -/
def detachAndFree (s : Kernel) (task : ℕ) (vmm : Vmm) (region : ℕ) : Option Kernel :=
  match vmRegionDetach rb s.mem vmm region with
  | none => none
  | some vmm => some (kmemFree (setVmm s task vmm) region)

/-- What a mapping asks for: `file` when one is given, and whether giving the region its mapper
or mapping the file succeeds. -/
structure MmapArgs where
  addr : ℕ
  length : ℕ
  flags : RegionFlags
  file : Bool
  mapOk : Bool

/-- The mapping does not go to `MMAP_ERR2`. -/
def MmapArgs.mapped (a : MmapArgs) : Bool :=
  if (a.flags.shared && a.flags.anon) || a.file then a.mapOk else !a.flags.shared

/-- `vmm_mmap`, once `kmem_alloc` returned `region`. -/
def vmmMmap (s : Kernel) (task : ℕ) (vmm : Vmm) (region : ℕ) (a : MmapArgs) (grants : ℕ) :
    Option Kernel :=
  let s := setRegion s region (vmRegionInit a.addr (wadd a.addr a.length) a.flags)
  match vmRegionAttach rb s.mem vmm region with
  | none => none
  | some (.error _) => some (kmemFree s region)
  | some (.ok (mem, vmm)) =>
      let s := setVmm { s with mem := mem } task vmm
      if a.mapped then
        match vmmKeysdbUpdate mem vmm region grants with
        | none => none
        | some vmm => some (setVmm s task vmm)
      else if a.flags.shared && a.flags.anon then
        -- `vm_region_detach` follows the mapper, which is still `NULL`
        none
      else
        -- the region was already freed by `vm_region_detach`
        match detachAndFree rb s task vmm region with
        | none => none
        | some s => some (kmemFree s region)

/-- `vmm_do_munmap`. For a part of a region `vm_region_split` returns `ENOSYS` and
`vm_region_resize` does nothing. -/
def vmmDoMunmap (s : Kernel) (task : ℕ) (vmm : Vmm) (region addr length : ℕ) : Option Kernel :=
  let r := s.mem region
  if r.vmStart = addr ∧ r.vmLimit = wadd addr length then detachAndFree rb s task vmm region
  else some s

/-- `vmm_munmap` -/
def vmmMunmap (s : Kernel) (task : ℕ) (vmm : Vmm) (vaddr length : ℕ) : Option Kernel :=
  match keysdbLookup vmm.regionsDb (vaddr / 2 ^ regionKeywidth) with
  | none => none
  | some none => some s
  | some (some region) =>
      if (s.mem region).vmLimit < vaddr ∨ vaddr < (s.mem region).vmStart then some s
      else vmmDoMunmap rb s task vmm region vaddr length

/-- The lookup of `vmm_fault_handler`. -/
def vmmFaultHandler (s : Kernel) (task : ℕ) (vmm : Vmm) (vaddr grants : ℕ) : Option Kernel :=
  if kernelOffset ≤ vaddr then some s
  else
    match keysdbLookup vmm.regionsDb (vaddr / 2 ^ regionKeywidth) with
    | none => none
    | some (some _) => some s
    | some none =>
        match vmRegionFind s.mem vmm vaddr with
        | none => some s
        | some region =>
            if (s.mem region).vmLimit < vaddr ∨ vaddr < (s.mem region).vmStart then some s
            else
              match vmmKeysdbUpdate s.mem vmm region grants with
              | none => none
              | some vmm => some (setVmm s task vmm)

/-- The loop of `vmm_destroy`: each turn detaches the first region of the list. -/
def destroyLoop (task : ℕ) : List ℕ → Kernel → Vmm → Option Kernel
  | [], s, _ => some s
  | region :: regions, s, vmm =>
      let s := setRegion s region { s.mem region with
        vmFlags := { (s.mem region).vmFlags with isLazy := true } }
      match vmRegionDetach rb s.mem vmm region with
      | none => none
      | some vmm => destroyLoop task regions (kmemFree s region) vmm

/-- `vmm_destroy` -/
def vmmDestroy (s : Kernel) (task : ℕ) (vmm : Vmm) : Option Kernel :=
  match destroyLoop rb task vmm.regionsRoot s vmm with
  | none => none
  | some s => some { s with vmms := Function.update s.vmms task none }

/-- The tree link of `vm_region_dup`. -/
def dupLink (mem : RegionMem) (vmm : Vmm) (region : ℕ) : Vmm :=
  vmaLinkRb rb vmm region (vmRegionFindPrepare mem vmm (mem region).vmBegin).2

/-- The loop of `vmm_dup` over the regions left to copy. Each outcome is the structure that
`kmem_alloc` returns, if any, and whether `vm_region_dup` succeeds. -/
def dupLoop (dst : ℕ) : List ℕ → List (Option (ℕ × Bool)) → Kernel → Vmm → Option Kernel
  | [], _, s, vmm => some (setVmm s dst vmm)
  | _ :: _, [], _, _ => none
  | _ :: _, none :: _, s, vmm => vmmDestroy rb s dst vmm
  | src :: srcs, some (region, ok) :: outcomes, s, vmm =>
      if mayAlloc s region then
        let s := setRegion (kmemAlloc s region) region (s.mem src)
        let vmm := dupLink rb s.mem vmm region
        if ok then
          dupLoop dst srcs outcomes s { vmm with regionsRoot := vmm.regionsRoot ++ [region] }
        else vmmDestroy rb (kmemFree s region) dst vmm
      else none

inductive Event
  | init (task : ℕ)
  | mmap (task region : ℕ) (args : MmapArgs) (grants : ℕ)
  | munmap (task vaddr length : ℕ)
  | fault (task vaddr grants : ℕ)
  | dup (dst src : ℕ) (outcomes : List (Option (ℕ × Bool)))
  | destroy (task : ℕ)

def step (s : Kernel) : Event → Option Kernel
  | .init task =>
      match s.vmms task with
      | none => some (setVmm s task vmmInit)
      | some _ => none
  | .mmap task region args grants =>
      match s.vmms task with
      | none => none
      | some vmm =>
          if mayAlloc s region ∧ args.addr < 2 ^ 32 ∧ args.length < 2 ^ 32 then
            vmmMmap rb (kmemAlloc s region) task vmm region args grants
          else none
  | .munmap task vaddr length =>
      match s.vmms task with
      | none => none
      | some vmm => if vaddr < 2 ^ 32 then vmmMunmap rb s task vmm vaddr length else none
  | .fault task vaddr grants =>
      match s.vmms task with
      | none => none
      | some vmm => if vaddr < 2 ^ 32 then vmmFaultHandler s task vmm vaddr grants else none
  | .dup dst src outcomes =>
      match s.vmms src, s.vmms dst with
      | some vmm, none => dupLoop rb dst vmm.regionsRoot outcomes s vmmInit
      | _, _ => none
  | .destroy task =>
      match s.vmms task with
      | none => none
      | some vmm => vmmDestroy rb s task vmm

def machine : Machine Kernel Event where
  init s := s.vmms = (fun _ => none) ∧ s.inUse = [] ∧ s.intact = true
  step := step rb

end Vm
end Almos
