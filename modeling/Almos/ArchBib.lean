import Almos.CString
import Almos.PackedRecords

/-!
# The boot information block

What `info2bib` writes from the description of a platform, and what `bib2info` reads from it. A
description is taken as its tokens, with each number as its format stores it, on a host that puts the
low byte first.
-/
namespace Almos.ArchBib

/-- `struct arch_bib_header_s` -/
structure Header where
  bootstrapCpu : BitVec 32
  rsrvdLimit : BitVec 32
  cpuNr : BitVec 32
  rsrvdStart : BitVec 32
  signature : Vector (BitVec 8) 16
  revision : BitVec 16
  arch : Vector (BitVec 8) 16
  size : BitVec 16
  xMax : BitVec 16
  yMax : BitVec 16
  onlnClstrNr : BitVec 16
  onlnCpuNr : BitVec 16
  bootstrapTty : BitVec 32
  bootstrapDma : BitVec 32

/-- `struct arch_bib_cluster_s` -/
structure Cluster where
  cid : BitVec 16
  cpuNr : BitVec 8
  devNr : BitVec 8
  offset : BitVec 16

/-- `struct arch_bib_device_s` -/
structure Device where
  id : BitVec 8
  base : BitVec 32
  size : BitVec 32
  irq : BitVec 16

open Packed in
def header : Packed Header :=
  (word32.append <| word32.append <| word32.append <| word32.append <| (bytes 16).append <|
    word16.append <| (bytes 16).append <| word16.append <| word16.append <| word16.append <|
    word16.append <| word16.append <| word32.append word32).fields
  (fun h => (h.bootstrapCpu, h.rsrvdLimit, h.cpuNr, h.rsrvdStart, h.signature, h.revision, h.arch,
    h.size, h.xMax, h.yMax, h.onlnClstrNr, h.onlnCpuNr, h.bootstrapTty, h.bootstrapDma))
  (fun (bootstrapCpu, rsrvdLimit, cpuNr, rsrvdStart, signature, revision, arch, size, xMax, yMax,
      onlnClstrNr, onlnCpuNr, bootstrapTty, bootstrapDma) =>
    { bootstrapCpu, rsrvdLimit, cpuNr, rsrvdStart, signature, revision, arch, size, xMax, yMax,
      onlnClstrNr, onlnCpuNr, bootstrapTty, bootstrapDma })
  fun _ => rfl

open Packed in
def cluster : Packed Cluster :=
  (word16.append <| byte.append <| byte.append word16).fields
  (fun c => (c.cid, c.cpuNr, c.devNr, c.offset))
  (fun (cid, cpuNr, devNr, offset) => { cid, cpuNr, devNr, offset })
  fun _ => rfl

open Packed in
def device : Packed Device :=
  (byte.append <| word32.append <| word32.append word16).fields
  (fun d => (d.id, d.base, d.size, d.irq))
  (fun (id, base, size, irq) => { id, base, size, irq })
  fun _ => rfl

/-- `SOCLIB_RAM_ID` -/
def soclibRamId : BitVec 8 := 0

/-- `dev_db` -/
def devDb : List (String × BitVec 8) :=
  [("RAM", soclibRamId), ("XICU", 1), ("TTY", 2), ("DMA", 3), ("BLKDEV", 4), ("FB", 5), ("ICU", 6),
    ("TIMER", 7), ("MEMC", 8), ("MNIC", 9), ("CHDMA", 10)]

def devLocateByName (devid : String) : Option (BitVec 8) :=
  (devDb.find? fun record => devid = record.1).map Prod.snd

def devLocateById (id : BitVec 8) : Option String :=
  (devDb.find? fun record => record.2 = id).map Prod.fst

inductive ArchError
  | emarquer
  | etoken
  | edevid
deriving DecidableEq

structure DeviceInfo where
  devid : String
  base : BitVec 32
  size : BitVec 32
  irq : BitVec 16

structure ClusterInfo where
  cid : BitVec 16
  cpuNr : Fin 128
  devNr : Fin 128
  devices : List DeviceInfo

structure ArchInfo where
  revision : BitVec 16
  arch : CString
  xMax : Fin 128
  yMax : Fin 128
  cpuNr : BitVec 16
  bootstrapCpu : BitVec 16
  bootstrapTty : BitVec 32
  bootstrapDma : BitVec 32
  clusters : List ClusterInfo

/-- `TOKEN_ARCH_LEN` -/
def tokenArchLen : ℕ := 16

def archBibSignature : Vector (BitVec 8) 16 :=
  #v[64, 65, 76, 77, 79, 83, 32, 65, 82, 67, 72, 32, 66, 73, 66, 0]

/-- The loop over the devices of a cluster, from device `j` on. A first device other than memory ends
it without an error code. -/
def devTbl : ℕ → ℕ → List DeviceInfo → Except (Option ArchError) (List Device)
  | _, 0, _ => .ok []
  | _, _ + 1, [] => .error (some .etoken)
  | j, left + 1, devinfo :: rest =>
      match devLocateByName devinfo.devid with
      | none => .error (some .edevid)
      | some id =>
          if j = 0 ∧ id ≠ soclibRamId then .error none
          else do
            let tbl ← devTbl (j + 1) left rest
            pure ({ id, base := devinfo.base, size := devinfo.size, irq := devinfo.irq } :: tbl)

/-- The fields of the header that the loop over the clusters sets. -/
structure Totals where
  rsrvdStart : BitVec 32
  rsrvdLimit : BitVec 32
  onlnClstrNr : BitVec 16
  onlnCpuNr : BitVec 16

/-- The destination with its position, and the table of the clusters with where their devices went. -/
structure BibState where
  totals : Totals
  file : List (BitVec 8)
  pos : ℕ
  clustersTbl : List Cluster
  places : List ℕ

/-- What the devices of cluster `i` add to the header; the table of a cluster without devices has the
size `heap` in the place of a first one. -/
def addTotals (bootstrapCid : ℕ) (heap : ℕ → BitVec 32) (i : ℕ) (clstrinfo : ClusterInfo)
    (tbl : List Device) (t : Totals) : Totals :=
  let size := match tbl with
    | [] => heap i
    | first :: _ => first.size
  let t := match tbl with
    | [] => t
    | first :: _ =>
        if i = bootstrapCid then
          { t with rsrvdStart := first.base, rsrvdLimit := first.base + first.size }
        else t
  { t with
    onlnCpuNr := t.onlnCpuNr + BitVec.ofNat 16 clstrinfo.cpuNr
    onlnClstrNr := if size ≠ 0 ∨ clstrinfo.cpuNr ≠ 0 then t.onlnClstrNr + 1 else t.onlnClstrNr }

def addCluster (bootstrapCid : ℕ) (heap : ℕ → BitVec 32) (i : ℕ) (clstrinfo : ClusterInfo)
    (tbl : List Device) (s : BibState) : BibState where
  totals := addTotals bootstrapCid heap i clstrinfo tbl s.totals
  file := writeAt s.file s.pos (device.encodeList tbl)
  pos := s.pos + (device.encodeList tbl).length
  clustersTbl := s.clustersTbl ++ [{
    cid := clstrinfo.cid
    cpuNr := BitVec.ofNat 8 clstrinfo.cpuNr
    devNr := BitVec.ofNat 8 clstrinfo.devNr
    offset := BitVec.ofNat 16 s.pos }]
  places := s.places ++ [s.pos]

/-- The loop over the clusters, with what it returns if it does not come to its end. -/
def clusterLoop (bootstrapCid : ℕ) (heap : ℕ → BitVec 32) :
    ℕ → ℕ → List ClusterInfo → BibState → BibState × Option (Option ArchError)
  | 0, _, _, s => (s, none)
  | _ + 1, _, [], s => (s, some (some .emarquer))
  | left + 1, i, clstrinfo :: rest, s =>
      match devTbl 0 clstrinfo.devNr clstrinfo.devices with
      | .error retval => (s, some retval)
      | .ok tbl =>
          clusterLoop bootstrapCid heap left (i + 1) rest
            (addCluster bootstrapCid heap i clstrinfo tbl s)

/-- What a call returns, no error being 0, the file, and where the devices of each cluster went. -/
structure Output where
  retval : Option ArchError
  file : List (BitVec 8)
  places : List ℕ

def strcpy16 (s : CString) : Vector (BitVec 8) 16 := Vector.ofFn fun i => s.bytes.getD i 0

def ArchInfo.clusterNr (d : ArchInfo) : ℕ := d.xMax * d.yMax % 2 ^ 16

def ArchInfo.offset (d : ArchInfo) : ℕ :=
  (cluster.width * d.clusterNr + header.width) % 2 ^ 16

def ArchInfo.start (d : ArchInfo) : BibState where
  totals := { rsrvdStart := 0, rsrvdLimit := 0, onlnClstrNr := 0, onlnCpuNr := 0 }
  file := []
  pos := d.offset
  clustersTbl := []
  places := []

def ArchInfo.headerInfo (d : ArchInfo) (t : Totals) (size : ℕ) : Header where
  bootstrapCpu := d.bootstrapCpu.setWidth 32
  rsrvdLimit := t.rsrvdLimit
  cpuNr := d.cpuNr.setWidth 32
  rsrvdStart := t.rsrvdStart
  signature := archBibSignature
  revision := d.revision
  arch := strcpy16 d.arch
  size := BitVec.ofNat 16 size
  xMax := BitVec.ofNat 16 d.xMax
  yMax := BitVec.ofNat 16 d.yMax
  onlnClstrNr := t.onlnClstrNr
  onlnCpuNr := t.onlnCpuNr
  bootstrapTty := d.bootstrapTty
  bootstrapDma := d.bootstrapDma

/-- No result stands for the trap of a division by zero. -/
def info2bib (heap : ℕ → BitVec 32) (d : ArchInfo) : Option Output :=
  if tokenArchLen ≤ d.arch.bytes.length then some ⟨some .etoken, [], []⟩
  else if d.cpuNr = 0 then none
  else
    let bootstrapCid := d.bootstrapCpu.toNat / d.cpuNr.toNat % 2 ^ 16
    let (s, stop) := clusterLoop bootstrapCid heap d.clusterNr 0 d.clusters d.start
    match stop with
    | some retval => some ⟨retval, s.file, s.places⟩
    | none =>
        let file := writeAt s.file 0 (header.encode (d.headerInfo s.totals s.pos))
        some ⟨none, writeAt file header.width (cluster.encodeList s.clustersTbl), s.places⟩

structure BibCluster where
  cid : BitVec 16
  cpuNr : BitVec 8
  devNr : BitVec 8
  devices : List DeviceInfo

/-- What `bib2info` prints. -/
structure BibInfo where
  revision : BitVec 16
  arch : List (BitVec 8)
  xMax : BitVec 16
  yMax : BitVec 16
  cpuNr : BitVec 32
  bootstrapCpu : BitVec 32
  bootstrapTty : BitVec 32
  bootstrapDma : BitVec 32
  clusters : List BibCluster

def readDevice (d : Device) : Option DeviceInfo := do
  let devid ← devLocateById d.id
  pure { devid, base := d.base, size := d.size, irq := d.irq }

def readCluster (file : List (BitVec 8)) (c : Cluster) : Option BibCluster := do
  let tbl ← device.readAt file c.offset.toNat c.devNr.toNat
  let devices ← tbl.mapM readDevice
  pure { cid := c.cid, cpuNr := c.cpuNr, devNr := c.devNr, devices }

def readHeader (file : List (BitVec 8)) : Option Header := (header.readAt file 0 1).bind List.head?

def readClustersTbl (file : List (BitVec 8)) (h : Header) : Option (List Cluster) :=
  cluster.readAt file header.width (h.xMax.toNat * h.yMax.toNat)

def bib2info (file : List (BitVec 8)) : Option BibInfo := do
  let h ← readHeader file
  if h.signature = archBibSignature then
    let clustersTbl ← readClustersTbl file h
    let clusters ← clustersTbl.mapM (readCluster file)
    pure {
      revision := h.revision
      arch := h.arch.toList.takeWhile (· ≠ 0)
      xMax := h.xMax
      yMax := h.yMax
      cpuNr := h.cpuNr
      bootstrapCpu := h.bootstrapCpu
      bootstrapTty := h.bootstrapTty
      bootstrapDma := h.bootstrapDma
      clusters }
  else none

end Almos.ArchBib
