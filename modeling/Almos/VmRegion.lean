import Almos.Bits
import Almos.KeysDb
import Almos.Machine
import Almos.SearchTree
import Almos.Word

/-!
# Regions of virtual memory

The regions of an address space hang in a list and in a red-black tree, both of pointers;
`mem p` is the `vm_region_s` at address `p`. `RbOps` is any pair of tree operations
that keeps the in-order contents, as those of the tree in memory do (`vmaLinkRb_refines`).
-/
namespace Almos
open SearchTree

structure RegionFlags where
  fixed : Bool
  heap : Bool
  isLazy : Bool
  shared : Bool
  anon : Bool

/-- The fields of `vm_region_s` that placing and finding regions reads. -/
structure VmRegion where
  vmBegin : ℕ
  vmEnd : ℕ
  vmStart : ℕ
  vmLimit : ℕ
  vmFlags : RegionFlags

abbrev RegionMem : Type := ℕ → VmRegion

/-- `rb_insert_color` and `rb_erase`. -/
structure RbOps where
  insertColor : ℕ → BinaryTree ℕ → BinaryTree ℕ
  erase : ℕ → BinaryTree ℕ → BinaryTree ℕ
  inorder_insertColor : ∀ p t, inorder (insertColor p t) = inorder t
  inorder_erase : ∀ p t, inorder (erase p t) = (inorder t).erase p

structure Vmm where
  regionsRoot : List ℕ
  regionsTree : BinaryTree ℕ
  lastMmap : ℕ
  regionsDb : KeysDb

namespace Vm
open Word Bits KeysDb

/-- `CONFIG_VM_REGION_KEYWIDTH` -/
def regionKeywidth : ℕ := 16

def regsize : ℕ := 2 ^ regionKeywidth

/-- `CONFIG_USR_LIMIT` -/
def usrLimit : ℕ := 0x70000000

/-- `CONFIG_TASK_HEAP_MAX_SIZE` -/
def taskHeapMaxSize : ℕ := 0x30000000

/-- `ARROUND_UP` on machine words. -/
def roundUp (val : ℕ) : ℕ := arroundUp val regsize % 2 ^ 32

/-- `vm_region_init`, without the protection bits. -/
def vmRegionInit (vmaStart vmaEnd : ℕ) (flags : RegionFlags) : VmRegion where
  vmBegin := vmaStart / regsize * regsize
  vmEnd := if flags.heap then roundUp taskHeapMaxSize else roundUp vmaEnd
  vmStart := vmaStart
  vmLimit := vmaEnd
  vmFlags := flags

/-- `vmm_init` -/
def vmmInit : Vmm := ⟨[], .nil, 0, keysdbInit⟩

/-- `list_add_pred` -/
def listAddPred (reg region : ℕ) : List ℕ → List ℕ
  | [] => []
  | p :: ps => if p = reg then region :: p :: ps else p :: listAddPred reg region ps

/-- `list_add_next` -/
def listAddNext (reg region : ℕ) : List ℕ → List ℕ
  | [] => []
  | p :: ps => if p = reg then p :: region :: ps else p :: listAddNext reg region ps

/-- `vm_region_find_prepare`: the first region found to end above `addr`, and the link where the
walk ended. `pprev` is not used by any caller. -/
def vmRegionFindPrepare (mem : RegionMem) (vmm : Vmm) (addr : ℕ) :
    Option ℕ × (BinaryTree ℕ → BinaryTree ℕ) :=
  descend (fun p => decide (addr < (mem p).vmEnd)) (fun p => decide ((mem p).vmBegin ≤ addr))
    vmm.regionsTree

/-- `vm_region_find` has the same loop. -/
def vmRegionFind (mem : RegionMem) (vmm : Vmm) (vaddr : ℕ) : Option ℕ :=
  go vmm.regionsTree none
where
  go : BinaryTree ℕ → Option ℕ → Option ℕ
    | .nil, reg => reg
    | .node p l r, reg =>
        if vaddr < (mem p).vmEnd then
          if (mem p).vmBegin ≤ vaddr then some p else go l (some p)
        else go r reg

variable (rb : RbOps)

/-- `__vma_link_rb` -/
def vmaLinkRb (vmm : Vmm) (region : ℕ) (rbLink : BinaryTree ℕ → BinaryTree ℕ) : Vmm :=
  { vmm with regionsTree := rb.insertColor region (rbLink (leaf region)) }

/-- The loop of `vm_region_solve`: the start found with the region after it and the link, or
`ENOMEM`. -/
def solveLoop (mem : RegionMem) (vmm : Vmm) (size limit : ℕ) : ℕ → ℕ →
    Option (Except Errno (ℕ × Option ℕ × (BinaryTree ℕ → BinaryTree ℕ)))
  | 0, _ => none
  | fuel + 1, start =>
      if start ≤ limit then
        let found := vmRegionFindPrepare mem vmm start
        match found.1 with
        | none => some (.ok (start, none, found.2))
        | some reg =>
            if wadd start size < (mem reg).vmBegin then some (.ok (start, some reg, found.2))
            else solveLoop mem vmm size limit fuel (mem reg).vmEnd
      else some (.error .enomem)

/-- `vm_region_solve` -/
def vmRegionSolve (mem : RegionMem) (vmm : Vmm) (region : ℕ) :
    Option (Except Errno (RegionMem × Vmm)) :=
  let size := (mem region).vmEnd
  let limit := wsub usrLimit size
  match solveLoop mem vmm size limit (vmm.regionsTree.numNodes + 1) vmm.lastMmap with
  | none => none
  | some (.error err) => some (.error err)
  | some (.ok (start, reg, rbLink)) =>
      let mem := Function.update mem region { mem region with
        vmBegin := start
        vmStart := start
        vmLimit := wadd (mem region).vmLimit start
        vmEnd := wadd start size }
      let vmm := vmaLinkRb rb vmm region rbLink
      let root := match reg with
        | some reg =>
            if (mem region).vmBegin < (mem reg).vmBegin then listAddPred reg region vmm.regionsRoot
            else listAddNext reg region vmm.regionsRoot
        | none => vmm.regionsRoot ++ [region]
      some (.ok (mem, { vmm with regionsRoot := root }))

/-- `vm_region_attach_rbtree` -/
def vmRegionAttachRbtree (mem : RegionMem) (vmm : Vmm) (region : ℕ) :
    Option (Except Errno (RegionMem × Vmm)) :=
  if (mem region).vmFlags.fixed then
    let found := vmRegionFindPrepare mem vmm (mem region).vmBegin
    match found.1 with
    | none =>
        let vmm := { vmm with regionsRoot := vmm.regionsRoot ++ [region] }
        some (.ok (mem, vmaLinkRb rb vmm region found.2))
    | some reg =>
        if (mem reg).vmBegin ≤ (mem region).vmBegin then some (.error .eexist)
        else
          let vmm := { vmm with regionsRoot := listAddPred reg region vmm.regionsRoot }
          some (.ok (mem, vmaLinkRb rb vmm region found.2))
  else vmRegionSolve rb mem vmm region

/-- `vm_region_attach` -/
def vmRegionAttach (mem : RegionMem) (vmm : Vmm) (region : ℕ) :
    Option (Except Errno (RegionMem × Vmm)) :=
  match vmRegionAttachRbtree rb mem vmm region with
  | none => none
  | some (.error err) => some (.error err)
  | some (.ok (mem, vmm)) => some (.ok (mem, { vmm with lastMmap := (mem region).vmBegin }))

/-- `vm_region_detach`, up to the unlocking of the address space. -/
def vmRegionDetach (mem : RegionMem) (vmm : Vmm) (region : ℕ) : Option Vmm :=
  let reg := mem region
  let vmm := { vmm with
    regionsRoot := vmm.regionsRoot.erase region
    regionsTree := rb.erase region vmm.regionsTree
    lastMmap := if reg.vmEnd < vmm.lastMmap then reg.vmBegin else vmm.lastMmap }
  if reg.vmFlags.isLazy then some vmm
  else
    match keysdbUnbind vmm.regionsDb (reg.vmBegin / 2 ^ regionKeywidth)
      (wsub reg.vmEnd reg.vmBegin / 2 ^ regionKeywidth) with
    | none => none
    | some db => some { vmm with regionsDb := db }

structure Space where
  mem : RegionMem
  vmm : Vmm

inductive RegionEvent
  | attach (region vmaStart vmaEnd : ℕ) (flags : RegionFlags)
  | detach (region : ℕ)

/-- A region is initialised in memory that no attached region occupies. -/
def regionStep (s : Space) : RegionEvent → Option Space
  | .attach region vmaStart vmaEnd flags =>
      if region ∉ s.vmm.regionsRoot ∧ vmaStart < 2 ^ 32 ∧ vmaEnd < 2 ^ 32 then
        let mem := Function.update s.mem region (vmRegionInit vmaStart vmaEnd flags)
        match vmRegionAttach rb mem s.vmm region with
        | none => none
        | some (.error _) => some { s with mem := mem }
        | some (.ok (mem, vmm)) => some ⟨mem, vmm⟩
      else none
  | .detach region =>
      if region ∈ s.vmm.regionsRoot then
        match vmRegionDetach rb s.mem s.vmm region with
        | none => none
        | some vmm => some { s with vmm := vmm }
      else none

def regionMachine : Machine Space RegionEvent where
  init s := s.vmm = vmmInit
  step := regionStep rb

end Vm
end Almos
