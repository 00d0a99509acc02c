import Almos.Bits
import Almos.Machine
import Almos.Word

/-!
# The kernel cache manager

The slab allocator of fixed-size kernel objects. Pages are named by their address, a
list is the list of its pages in order, and the lock that makes each call atomic is
left out. Taking the first page of an empty list has no result. The outcomes of the
page allocator are given to a call as the pages it delivers before it fails.
-/
namespace Almos
open Word Bits

/-- The header of a page of blocks. The two flag bits are separate fields. -/
structure PageInfo where
  bitmap : Bitmap
  blkTbl : ℕ
  currentIndex : ℕ
  refcount : ℕ
  active : Bool
  busy : Bool

inductive KcmCall
  | objInit (ptr : ℕ)
  | objDestroy (ptr : ℕ)
  | pageFree (page : ℕ)

structure Kcm where
  size : ℕ
  blocksNr : ℕ
  aligne : ℕ
  activelist : List ℕ
  busylist : List ℕ
  freelist : List ℕ
  freePagesNr : ℕ
  freePagesMin : ℕ
  freePagesMax : ℕ
  busyPagesNr : ℕ
  activePagesNr : ℕ
  /-- Whether the constructor and the destructor are given. -/
  objInit : Bool
  objDestroy : Bool
  pages : ℕ → PageInfo
  /-- Latest call first. -/
  calls : List KcmCall

/-- A page from the page allocator, with what its bitmap words held before. -/
structure Delivery where
  page : ℕ
  bitmap : Bitmap

namespace Kcm

def kcmAligne : ℕ := 64

def kcmPageSize : ℕ := 4096

def sizeofPageInfo : ℕ := 40

def sizeofBitmap : ℕ := 16

def setPage (kcm : Kcm) (p : ℕ) (f : PageInfo → PageInfo) : Kcm :=
  { kcm with pages := Function.update kcm.pages p (f (kcm.pages p)) }

/-- `list_unlink`, whatever list holds the page. -/
def listUnlink (kcm : Kcm) (p : ℕ) : Kcm :=
  { kcm with
    freelist := kcm.freelist.erase p
    activelist := kcm.activelist.erase p
    busylist := kcm.busylist.erase p }

def owned (kcm : Kcm) : List ℕ := kcm.freelist ++ kcm.activelist ++ kcm.busylist

/-- `ptr & KCM_PAGE_MASK` -/
def pageOf (ptr : ℕ) : ℕ := ptr / kcmPageSize * kcmPageSize

def takeBlock (index : ℕ) (info : PageInfo) : PageInfo :=
  { info with
    bitmap := bitmapClear info.bitmap index
    currentIndex := (index + 1) % 2 ^ 8
    refcount := (info.refcount + 1) % 2 ^ 8 }

def giveBlock (index : ℕ) (info : PageInfo) : PageInfo :=
  { info with
    bitmap := bitmapSet info.bitmap index
    currentIndex := if index < info.currentIndex then index else info.currentIndex
    refcount := (info.refcount + (2 ^ 8 - 1)) % 2 ^ 8 }

def getBlock (kcm : Kcm) (pinfo : ℕ) : Kcm × Option ℕ :=
  let info := kcm.pages pinfo
  if kcm.blocksNr ≤ info.currentIndex then (kcm, none)
  else
    match bitmapFfs2 info.bitmap info.currentIndex sizeofBitmap with
    | none => (kcm, none)
    | some index =>
        (kcm.setPage pinfo (takeBlock index), some (wadd info.blkTbl (index * kcm.size)))

def putBlock (kcm : Kcm) (ptr : ℕ) : Kcm :=
  let pinfo := pageOf ptr
  let index := wsub ptr (kcm.pages pinfo).blkTbl / kcm.size
  let kcm := kcm.setPage pinfo (giveBlock index)
  let info := kcm.pages pinfo
  if info.busy then
    let kcm := (kcm.setPage pinfo ({ · with busy := false })).listUnlink pinfo
    { kcm with
      busyPagesNr := wsub kcm.busyPagesNr 1
      activelist := kcm.activelist ++ [pinfo]
      activePagesNr := wadd kcm.activePagesNr 1 }
  else if !info.active ∧ info.refcount = 0 then
    let kcm := kcm.listUnlink pinfo
    { kcm with
      freelist := pinfo :: kcm.freelist
      freePagesNr := wadd kcm.freePagesNr 1
      activePagesNr := wsub kcm.activePagesNr 1 }
  else kcm

def blocksFrom (kcm : Kcm) (blkTbl : ℕ) : List ℕ :=
  (List.range kcm.blocksNr).map fun i => wadd blkTbl (kcm.size * i)

/-- `freelist_populate` when the page allocator delivers a page. -/
def freelistPopulate (kcm : Kcm) (d : Delivery) : Kcm :=
  let blkTbl := wadd d.page (arroundUp sizeofPageInfo kcm.aligne)
  let info : PageInfo :=
    { bitmap := bitmapSetRange d.bitmap 0 kcm.blocksNr
      blkTbl := blkTbl, currentIndex := 0, refcount := 0, active := false, busy := false }
  let calls := if kcm.objInit then (kcm.blocksFrom blkTbl).map .objInit else []
  { kcm with
    pages := Function.update kcm.pages d.page info
    calls := calls.reverse ++ kcm.calls
    freelist := d.page :: kcm.freelist
    freePagesNr := wadd kcm.freePagesNr 1 }

/-- The loop of `freelist_get`: the end of the list is a failure of the page allocator. -/
def populateLoop (kcm : Kcm) : List Delivery → Kcm
  | [] => kcm
  | d :: ds =>
      if kcm.freePagesNr < wadd kcm.freePagesMin kcm.freePagesMax / 2 then
        populateLoop (freelistPopulate kcm d) ds
      else kcm

def freelistGet (kcm : Kcm) (ds : List Delivery) : Option (Kcm × Option ℕ) :=
  let kcm := if kcm.freePagesNr ≤ kcm.freePagesMin then populateLoop kcm ds else kcm
  if kcm.freePagesNr = 0 then some (kcm, none)
  else
    match kcm.freelist with
    | [] => none
    | ptr :: _ =>
        let kcm := kcm.listUnlink ptr
        some ({ kcm with freePagesNr := wsub kcm.freePagesNr 1 }, some ptr)

/-- The loop of `freelist_release` over the pages that were on the list when it began. -/
def releaseLoop (kcm : Kcm) : List ℕ → Kcm
  | [] => kcm
  | ptr :: rest =>
      if kcm.freePagesNr ≤ kcm.freePagesMin then kcm
      else
        let kcm := kcm.listUnlink ptr
        let calls :=
          if kcm.objDestroy then (kcm.blocksFrom (wadd ptr sizeofPageInfo)).map .objDestroy else []
        releaseLoop { kcm with
          freePagesNr := wsub kcm.freePagesNr 1
          calls := .pageFree ptr :: calls.reverse ++ kcm.calls } rest

def freelistRelease (kcm : Kcm) : Kcm := releaseLoop kcm kcm.freelist

/-- The end of `compute_active_page`: `pinfo` becomes busy and `pinfoNew` active. -/
def replaceActive (kcm : Kcm) (pinfo pinfoNew : ℕ) : Kcm :=
  let kcm := (kcm.setPage pinfo ({ · with active := false })).listUnlink pinfo
  let kcm := { kcm with activePagesNr := wsub kcm.activePagesNr 1 }
  let kcm := kcm.setPage pinfo ({ · with busy := true })
  let kcm := { kcm with
    busylist := pinfo :: kcm.busylist
    busyPagesNr := wadd kcm.busyPagesNr 1 }
  kcm.setPage pinfoNew ({ · with active := true })

/-- The cache and the page that is active afterwards. -/
def computeActivePage (kcm : Kcm) (ds : List Delivery) : Option (Kcm × ℕ) :=
  match kcm.activelist with
  | [] => none
  | [pinfo] =>
      match freelistGet kcm ds with
      | none => none
      | some (kcm, none) => some (kcm, pinfo)
      | some (kcm, some pinfoNew) =>
          let kcm := { kcm with
            activelist := kcm.activelist ++ [pinfoNew]
            activePagesNr := wadd kcm.activePagesNr 1 }
          some (replaceActive kcm pinfo pinfoNew, pinfoNew)
  | pinfo :: pinfoNew :: _ => some (replaceActive kcm pinfo pinfoNew, pinfoNew)

def kcmAlloc (kcm : Kcm) (ds : List Delivery) : Option (Kcm × Option ℕ) :=
  match kcm.activelist with
  | [] => none
  | pinfo :: _ =>
      match getBlock kcm pinfo with
      | (kcm, some ptr) => some (kcm, some ptr)
      | (kcm, none) =>
          match computeActivePage kcm ds with
          | none => none
          | some (kcm, pinfoNew) =>
              if pinfoNew ≠ pinfo then some (getBlock kcm pinfoNew) else some (kcm, none)

def kcmFree (kcm : Kcm) (ptr : ℕ) : Kcm := putBlock kcm ptr

def kcmRelease (kcm : Kcm) : Kcm := freelistRelease kcm

structure Config where
  size : ℕ
  aligne : ℕ
  freePagesMin : ℕ
  freePagesMax : ℕ
  objInit : Bool
  objDestroy : Bool

def blank (c : Config) : Kcm :=
  let aligne := if c.aligne ≠ 0 ∧ c.aligne < 33 then 32 else kcmAligne
  let size := arroundUp c.size aligne
  let blocksNr := kcmPageSize / size
  let remaining := kcmPageSize % size
  { size := size
    blocksNr := if sizeofPageInfo ≤ remaining then blocksNr else wsub blocksNr 1
    aligne := aligne
    activelist := [], busylist := [], freelist := []
    freePagesNr := 0, freePagesMin := c.freePagesMin, freePagesMax := c.freePagesMax
    busyPagesNr := 0, activePagesNr := 0
    objInit := c.objInit, objDestroy := c.objDestroy
    pages := fun _ => ⟨fun _ => 0, 0, 0, 0, false, false⟩
    calls := [] }

/-- The cache after a successful initialisation; no result when there is no first page. -/
def kcmInit (c : Config) (ds : List Delivery) : Option Kcm :=
  match freelistGet (blank c) ds with
  | some (kcm, some pinfo) =>
      let kcm := { kcm with activelist := pinfo :: kcm.activelist }
      let kcm := kcm.setPage pinfo ({ · with active := true })
      some { kcm with activePagesNr := wadd kcm.activePagesNr 1 }
  | _ => none

structure State where
  kcm : Kcm
  outstanding : List ℕ

inductive Event
  | alloc (ds : List Delivery)
  | free (ptr : ℕ)
  | release

/-- Pages the page allocator may deliver: distinct, aligned and not owned by the cache. -/
def Deliverable (kcm : Kcm) (ds : List Delivery) : Prop :=
  (ds.map Delivery.page).Nodup ∧
    ∀ d ∈ ds, d.page % kcmPageSize = 0 ∧ d.page < 2 ^ 32 ∧ d.page ∉ kcm.owned

instance (kcm : Kcm) (ds : List Delivery) : Decidable (Deliverable kcm ds) :=
  inferInstanceAs (Decidable (_ ∧ _))

def step (s : State) : Event → Option State
  | .alloc ds =>
      if Deliverable s.kcm ds then
        match kcmAlloc s.kcm ds with
        | some (kcm, some ptr) => some ⟨kcm, ptr :: s.outstanding⟩
        | some (kcm, none) => some ⟨kcm, s.outstanding⟩
        | none => none
      else none
  | .free ptr =>
      if ptr ∈ s.outstanding then some ⟨kcmFree s.kcm ptr, s.outstanding.erase ptr⟩ else none
  | .release => some ⟨kcmRelease s.kcm, s.outstanding⟩

/-- A cache whose pages, from the first on, are delivered with contents in `contents`. -/
def machine (c : Config) (contents : Bitmap → Prop) : Machine State Event where
  init s := ∃ ds kcm, Deliverable (blank c) ds ∧ (∀ d ∈ ds, contents d.bitmap) ∧
    kcmInit c ds = some kcm ∧ s = ⟨kcm, []⟩
  step := step

/-- The same restriction on the pages delivered later. -/
def Delivers (contents : Bitmap → Prop) (_ : State) : Event → Prop
  | .alloc ds => ∀ d ∈ ds, contents d.bitmap
  | _ => True

end Kcm
end Almos
