import Almos.DqdtTree

namespace Almos
namespace DqdtMem

inductive RequestErr
  | eagain
  | erange
  deriving DecidableEq

inductive Distance
  | notset
  | default
  | random
  deriving DecidableEq

structure PpmDqdtReq where
  order : ℕ
  threshold : ℕ

structure DqdtAttr where
  cluster : Option ℕ
  cpu : Option ℕ
  data : PpmDqdtReq
  flags : ℕ
  dType : Distance
  selectTbl : ℕ → ℕ
  origin : ℕ

def dqdtMaxM : ℤ := 0x1000

def dqdtMaxD : ℤ := 0x10000

/-- `DQDT_MEMORY_OP` -/
def dqdtMemoryOp : ℕ := 0x010

/-- The child index `-1` as an unsigned word. -/
def noIndex : ℕ := 2 ^ 32 - 1

/-- A test of a logical cluster, with the index of a child, that may write the request. -/
abbrev DqdtSelect := ℕ → DqdtAttr → ℕ → Bool × DqdtAttr

variable (heap : DqdtHeap) (homes : ℕ → DqdtHome) (rand : ℕ)

def swapEntries {α : Type} (t : ℕ → α) (i j : ℕ) : ℕ → α :=
  Function.update (Function.update t i (t j)) j (t i)

def dqdtPrimaryTableSort1 (count : ℕ) (values : ℕ → ℤ) (aux : ℕ → ℕ) : (ℕ → ℤ) × (ℕ → ℕ) :=
  (List.range count).foldl (fun s i =>
    (List.range' (i + 1) (count - (i + 1))).foldl (fun (s : (ℕ → ℤ) × (ℕ → ℕ)) j =>
      if s.1 j < s.1 i then (swapEntries s.1 i j, swapEntries s.2 i j) else s) s) (values, aux)

/-- The keys are not moved, only the auxiliary values and the selection are. -/
def dqdtSecondaryTableSort (count : ℕ) (key aux : ℕ → ℤ) (select : ℕ → ℕ) :
    (ℕ → ℤ) × (ℕ → ℕ) :=
  (List.range (count + 1)).foldl (fun s _ =>
    (List.range (count - 1)).foldl (fun (s : (ℕ → ℤ) × (ℕ → ℕ)) i =>
      if key i = key (i + 1) ∧ s.1 (i + 1) < s.1 i then
        (swapEntries s.1 i (i + 1), swapEntries s.2 i (i + 1)) else s) s) (aux, select)

def archDqdtDistance (c1 c2 : ℕ) (attr : DqdtAttr) : ℤ :=
  let home := fun c => homes ((heap c).home.getD 0)
  match attr.dType with
  | .default => |(home c1).xCoord - (home c2).xCoord| + |(home c1).yCoord - (home c2).yCoord|
  | .random => rand % 0xFFF
  | .notset => 1

def dqdtCheckMemIndicators (entry : DqdtIndicators) (attr : DqdtAttr) : Bool :=
  let found := (List.range' attr.data.order (Ppm.maxOrder - attr.data.order)).any
    fun i => entry.pagesTbl i != 0
  found && attr.data.threshold < entry.M

def dqdtSelectByM : DqdtSelect := fun logical attr _ =>
  (dqdtCheckMemIndicators (heap logical).info.summary attr, attr)

def excluded (n childIndex i : ℕ) : Bool :=
  ((heap n).children i).isNone || i == childIndex

/-- The table of the children's values, with the greatest value for the other slots. -/
def childTbl (n childIndex : ℕ) (most : ℤ) (value : ℕ → ℤ) : ℕ → ℤ := fun i =>
  if excluded heap n childIndex i then most else value i

/-- `dqdt_sort_by_M_D` with the distances that the calls of `arch_dqdt_distance` give. -/
def dqdtSortByMDAt (distance : ℕ → ℤ) : DqdtSelect := fun logical attr childIndex =>
  let check := fun i => dqdtCheckMemIndicators ((heap logical).info.tbl i) attr
  let foundTbl : ℕ → ℤ := fun i =>
    if !excluded heap logical childIndex i && check i then 0 else dqdtMaxM
  let distanceTbl := childTbl heap logical childIndex dqdtMaxD distance
  if (List.range 4).any fun i => !excluded heap logical childIndex i && check i then
    let primary := dqdtPrimaryTableSort1 4 foundTbl id
    let secondary := dqdtSecondaryTableSort 4 primary.1 distanceTbl primary.2
    (true, { attr with selectTbl := secondary.2 })
  else (false, { attr with selectTbl := id })

def dqdtSortByMD : DqdtSelect := fun logical attr childIndex =>
  dqdtSortByMDAt heap (fun i => archDqdtDistance heap homes rand attr.origin
    (((heap logical).children i).getD 0) attr) logical attr childIndex

def dqdtMemDoRequest : DqdtSelect := fun logical attr _ =>
  let ppm := ppmOf heap homes logical
  let found := (List.range' attr.data.order (Ppm.maxOrder - attr.data.order)).any
    fun i => (ppm.freePages i).pagesNr != 0
  if found && attr.data.threshold < ppm.freePagesNr then
    (true, { attr with cluster := (heap logical).home, cpu := none })
  else (false, attr)

/-- The loop over the sorted children, where `down` searches below one of them. -/
def childLoop (down : ℕ → DqdtAttr → Option (Bool × DqdtAttr)) (select : DqdtSelect)
    (logical index : ℕ) (selectTbl : ℕ → ℕ) : List ℕ → DqdtAttr → Option (Bool × DqdtAttr)
  | [], attr => some (false, attr)
  | i :: rest, attr =>
    match (heap logical).children (selectTbl i) with
    | none => childLoop down select logical index selectTbl rest attr
    | some child =>
      if selectTbl i = index then
        childLoop down select logical index selectTbl rest attr
      else
        match select child attr (selectTbl i) with
        | (false, attr) => childLoop down select logical index selectTbl rest attr
        | (true, attr) =>
          match down child attr with
          | none => none
          | some (true, attr) => some (true, attr)
          | some (false, attr) => childLoop down select logical index selectTbl rest attr

def dqdtDownTraversal (sort select request : DqdtSelect) :
    ℕ → ℕ → DqdtAttr → ℕ → Option (Bool × DqdtAttr)
  | 0, _, _, _ => none
  | fuel + 1, logical, attr, index =>
    if (heap logical).level = 0 then some (request logical attr noIndex)
    else
      match sort logical attr index with
      | (false, attr) => some (false, attr)
      | (true, attr) =>
        childLoop heap (fun child attr => dqdtDownTraversal sort select request fuel child attr 5)
          select logical index attr.selectTbl (List.range 4) attr

def dqdtUpTraversal (clstrSelect childSort childSelect request : DqdtSelect) (limit : ℕ) :
    ℕ → Option ℕ → DqdtAttr → ℕ → Option (Option RequestErr × DqdtAttr)
  | 0, _, _, _ => none
  | _ + 1, none, attr, _ => some (some .eagain, attr)
  | fuel + 1, some logical, attr, index =>
    if limit < (heap logical).level then some (some .erange, attr)
    else
      let (found, attr) := clstrSelect logical attr noIndex
      let searched := if found then
          dqdtDownTraversal heap childSort childSelect request fuel logical attr index
        else some (false, attr)
      match searched with
      | none => none
      | some (true, attr) => some (none, attr)
      | some (false, attr) =>
        if (heap logical).childsNr = 1 then some (some .eagain, attr)
        else
          dqdtUpTraversal clstrSelect childSort childSelect request limit fuel
            (heap logical).parent attr (heap logical).index

def dqdtMemRequest (fuel logical : ℕ) (attr : DqdtAttr) :
    Option (Option RequestErr × DqdtAttr) :=
  let attr := { attr with dType := .default, origin := logical, flags := dqdtMemoryOp }
  dqdtUpTraversal heap (dqdtSelectByM heap) (dqdtSortByMD heap homes rand) (dqdtSelectByM heap)
    (dqdtMemDoRequest heap homes) dqdtMaxDepth fuel (some logical) attr (heap logical).index

end DqdtMem
end Almos
