import Almos.ArchBib

/-!
# What the block tells of a description

The block gives back the description it was written from exactly when the devices of each cluster
start with memory and the whole file is short enough for a position in it to fit 16 bits.
-/
namespace Almos.ArchBib
open Packed

@[simp] lemma header_width : header.width = 68 := rfl

@[simp] lemma cluster_width : cluster.width = 6 := rfl

@[simp] lemma device_width : device.width = 11 := rfl

def ClusterInfo.listed (c : ClusterInfo) : List DeviceInfo := c.devices.take c.devNr

def ArchInfo.described (d : ArchInfo) : List ClusterInfo := d.clusters.take (d.xMax * d.yMax)

def ClusterInfo.told (c : ClusterInfo) : BibCluster where
  cid := c.cid
  cpuNr := BitVec.ofNat 8 c.cpuNr
  devNr := BitVec.ofNat 8 c.devNr
  devices := c.listed

/-- The description as `bib2info` would print it. -/
def ArchInfo.told (d : ArchInfo) : BibInfo where
  revision := d.revision
  arch := d.arch.bytes
  xMax := BitVec.ofNat 16 d.xMax
  yMax := BitVec.ofNat 16 d.yMax
  cpuNr := d.cpuNr.setWidth 32
  bootstrapCpu := d.bootstrapCpu.setWidth 32
  bootstrapTty := d.bootstrapTty
  bootstrapDma := d.bootstrapDma
  clusters := d.described.map ClusterInfo.told

def Cluster.range (c : Cluster) : Finset ℕ :=
  Finset.Ico c.offset.toNat (c.offset.toNat + device.width * c.devNr.toNat)

structure RoundTrips (d : ArchInfo) (o : Output) : Prop where
  told : bib2info o.file = some d.told
  layout : ∃ h tbl, readHeader o.file = some h ∧ readClustersTbl o.file h = some tbl ∧
    h.size.toNat = o.file.length ∧ tbl.map (fun c => c.offset.toNat) = o.places ∧
    tbl.Pairwise (fun a b => Disjoint a.range b.range) ∧ ∀ c ∈ tbl,
      Disjoint (Finset.Ico header.width (header.width + cluster.width * tbl.length)) c.range

def ArchInfo.total (d : ArchInfo) : ℕ :=
  header.width + cluster.width * (d.xMax * d.yMax) +
    device.width * (d.described.map fun c => c.devNr.val).sum

structure Fits (d : ArchInfo) : Prop where
  ram : ∀ c ∈ d.described, ∀ first ∈ c.listed.head?,
    devLocateByName first.devid = some soclibRamId
  size : d.total < 2 ^ 16

lemma devDb_of_name {devid : String} {id : BitVec 8} (h : devLocateByName devid = some id) :
    (devid, id) ∈ devDb := by
  obtain ⟨record, hfind, rfl⟩ := Option.map_eq_some_iff.mp h
  have hname : devid = record.1 := by simpa using List.find?_some hfind
  rw [hname]
  exact List.mem_of_find?_eq_some hfind

lemma devLocateById_of_name {devid : String} {id : BitVec 8} (h : devLocateByName devid = some id) :
    devLocateById id = some devid := by
  have hall : ∀ record ∈ devDb, devLocateById record.2 = some record.1 := by decide
  exact hall _ (devDb_of_name h)

lemma devDb_id_le {devid : String} {id : BitVec 8} (h : devLocateByName devid = some id) :
    id.toNat ≤ 10 := by
  have hall : ∀ record ∈ devDb, record.2.toNat ≤ 10 := by decide
  exact hall _ (devDb_of_name h)

def resolve (d : DeviceInfo) : Device where
  id := (devLocateByName d.devid).getD 0
  base := d.base
  size := d.size
  irq := d.irq

lemma readDevice_resolve {d : DeviceInfo} (h : (devLocateByName d.devid).isSome) :
    readDevice (resolve d) = some d := by
  obtain ⟨id, hid⟩ := Option.isSome_iff_exists.mp h
  have hname := devLocateById_of_name hid
  simp [readDevice, resolve, hid, hname]

lemma resolve_id_le (d : DeviceInfo) : (resolve d).id.toNat ≤ 10 := by
  cases hid : devLocateByName d.devid with
  | none => simp [resolve, hid]
  | some id => simpa [resolve, hid] using devDb_id_le hid

def ClusterInfo.table (c : ClusterInfo) : List Device := c.listed.map resolve

structure Listed (j left : ℕ) (devs : List DeviceInfo) : Prop where
  enough : left ≤ devs.length
  known : ∀ d ∈ devs.take left, (devLocateByName d.devid).isSome
  ram : j = 0 → ∀ first ∈ (devs.take left).head?, devLocateByName first.devid = some soclibRamId

lemma devTbl_ok {j left : ℕ} {devs : List DeviceInfo} {tbl : List Device}
    (h : devTbl j left devs = .ok tbl) :
    Listed j left devs ∧ tbl = (devs.take left).map resolve := by
  induction left generalizing j devs tbl with
  | zero =>
    cases h
    exact ⟨⟨Nat.zero_le _, by simp, by simp⟩, rfl⟩
  | succ left ih =>
    cases devs with
    | nil => cases h
    | cons d devs =>
      rw [devTbl] at h
      cases hid : devLocateByName d.devid with
      | none =>
        rw [hid] at h
        cases h
      | some id =>
        simp only [hid] at h
        split_ifs at h with hram
        cases hrest : devTbl (j + 1) left devs with
        | error retval =>
          rw [hrest] at h
          cases h
        | ok rest =>
          rw [hrest] at h
          cases h
          obtain ⟨⟨henough, hknown, -⟩, rfl⟩ := ih hrest
          refine ⟨⟨by simpa using henough, fun e he => ?_, fun hj first hfirst => ?_⟩, ?_⟩
          · obtain rfl | he := List.mem_cons.mp he
            · rw [hid]
              rfl
            · exact hknown e he
          · obtain rfl : d = first := by simpa using hfirst
            have heq : id = soclibRamId := by
              by_contra hne
              exact hram ⟨hj, hne⟩
            rw [hid, heq]
          · simp [resolve, hid]

lemma devTbl_of_listed {j left : ℕ} {devs : List DeviceInfo} (h : Listed j left devs) :
    devTbl j left devs = .ok ((devs.take left).map resolve) := by
  induction left generalizing j devs with
  | zero => rfl
  | succ left ih =>
    cases devs with
    | nil => exact absurd h.enough (Nat.not_succ_le_zero left)
    | cons d devs =>
      obtain ⟨henough, hknown, hram⟩ := h
      obtain ⟨id, hid⟩ := Option.isSome_iff_exists.mp (hknown d List.mem_cons_self)
      have hfirst : ¬(j = 0 ∧ id ≠ soclibRamId) := by
        rintro ⟨hj, hne⟩
        have hmem := hram hj d (by simp)
        rw [hid] at hmem
        exact hne (Option.some.inj hmem)
      have hrest : Listed (j + 1) left devs := ⟨by simpa using henough,
        fun e he => hknown e (List.mem_cons_of_mem _ he), fun hj => absurd hj (Nat.succ_ne_zero j)⟩
      rw [devTbl]
      simp only [hid, if_neg hfirst, ih hrest]
      simp [resolve, hid, bind, Except.bind, pure, Except.pure]

/-- The loop ends without an error code at a first device other than memory only. -/
lemma devTbl_stopped {j left : ℕ} {devs : List DeviceInfo} (h : devTbl j left devs = .error none) :
    j = 0 ∧ ∃ first ∈ (devs.take left).head?, devLocateByName first.devid ≠ some soclibRamId := by
  induction left generalizing j devs with
  | zero => cases h
  | succ left ih =>
    cases devs with
    | nil => cases h
    | cons d devs =>
      rw [devTbl] at h
      cases hid : devLocateByName d.devid with
      | none =>
        rw [hid] at h
        cases h
      | some id =>
        simp only [hid] at h
        split_ifs at h with hram
        · exact ⟨hram.1, d, rfl, by simpa [hid] using hram.2⟩
        · cases hrest : devTbl (j + 1) left devs with
          | error retval =>
            rw [hrest] at h
            cases h
            exact absurd (ih hrest).1 (Nat.succ_ne_zero j)
          | ok rest =>
            rw [hrest] at h
            cases h

structure Wrote (o : ℕ) (tbl : List Device) (s : BibState) : Prop where
  file : s.file = hole (device.encodeList tbl) o
  pos : s.pos = o + (device.encodeList tbl).length

def entries : ℕ → List ClusterInfo → List Cluster
  | _, [] => []
  | pos, c :: cs =>
      { cid := c.cid
        cpuNr := BitVec.ofNat 8 c.cpuNr
        devNr := BitVec.ofNat 8 c.devNr
        offset := BitVec.ofNat 16 pos } :: entries (pos + device.width * c.table.length) cs

def placesFrom : ℕ → List ClusterInfo → List ℕ
  | _, [] => []
  | pos, c :: cs => pos :: placesFrom (pos + device.width * c.table.length) cs

section Loop
variable {bootstrapCid : ℕ} {heap : ℕ → BitVec 32} {o left i : ℕ} {cs : List ClusterInfo}
  {tbl : List Device} {s s' : BibState}

lemma Wrote.addCluster (h : Wrote o tbl s) (c : ClusterInfo) (more : List Device) :
    Wrote o (tbl ++ more) (addCluster bootstrapCid heap i c more s) where
  file := by
    change writeAt s.file s.pos (device.encodeList more) = _
    rw [h.file, h.pos, writeAt_hole, encodeList_append]
  pos := by
    change s.pos + (device.encodeList more).length = _
    rw [h.pos, encodeList_append, List.length_append, Nat.add_assoc]

lemma clusterLoop_done (hs : clusterLoop bootstrapCid heap left i cs s = (s', none))
    (h : Wrote o tbl s) :
    left ≤ cs.length ∧ (∀ c ∈ cs.take left, Listed 0 c.devNr c.devices) ∧
      Wrote o (tbl ++ (cs.take left).flatMap ClusterInfo.table) s' ∧
      s'.clustersTbl = s.clustersTbl ++ entries s.pos (cs.take left) ∧
      s'.places = s.places ++ placesFrom s.pos (cs.take left) := by
  induction left generalizing i cs s tbl with
  | zero =>
    cases hs
    simpa [entries, placesFrom] using h
  | succ left ih =>
    cases cs with
    | nil => cases hs
    | cons c cs =>
      rw [clusterLoop] at hs
      cases htbl : devTbl 0 c.devNr c.devices with
      | error retval =>
        rw [htbl] at hs
        cases hs
      | ok more =>
        simp only [htbl] at hs
        obtain ⟨hlisted, hmore⟩ := devTbl_ok htbl
        change more = c.table at hmore
        subst hmore
        obtain ⟨henough, hall, hwrote, hclusters, hplaces⟩ := ih hs (h.addCluster c c.table)
        have hpos : s.pos + (device.encodeList c.table).length =
            s.pos + device.width * c.table.length := by rw [length_encodeList]
        refine ⟨by simpa using henough, fun e he => ?_, ?_, ?_, ?_⟩
        · obtain rfl | he := List.mem_cons.mp he
          · exact hlisted
          · exact hall e he
        · simpa using hwrote
        · rw [hclusters]
          simp only [ArchBib.addCluster, hpos, List.take_succ_cons, entries, List.append_assoc,
            List.singleton_append]
        · rw [hplaces]
          simp only [ArchBib.addCluster, hpos, List.take_succ_cons, placesFrom, List.append_assoc,
            List.singleton_append]

lemma clusterLoop_of_listed (bootstrapCid : ℕ) (heap : ℕ → BitVec 32) (i : ℕ) (s : BibState)
    (henough : left ≤ cs.length) (h : ∀ c ∈ cs.take left, Listed 0 c.devNr c.devices) :
    ∃ s', clusterLoop bootstrapCid heap left i cs s = (s', none) := by
  induction left generalizing i cs s with
  | zero => exact ⟨s, rfl⟩
  | succ left ih =>
    cases cs with
    | nil => exact absurd henough (Nat.not_succ_le_zero left)
    | cons c cs =>
      rw [clusterLoop, devTbl_of_listed (h c (by simp))]
      exact ih (i + 1) _ (by simpa using henough) fun e he => h e (List.mem_cons_of_mem _ he)

lemma clusterLoop_stopped (hs : clusterLoop bootstrapCid heap left i cs s = (s', some none))
    (h : Wrote o tbl s) (hids : ∀ d ∈ tbl, d.id.toNat ≤ 10) :
    (∃ c ∈ cs.take left, ∃ first ∈ c.listed.head?,
      devLocateByName first.devid ≠ some soclibRamId) ∧
      ∃ tbl', Wrote o tbl' s' ∧ ∀ d ∈ tbl', d.id.toNat ≤ 10 := by
  induction left generalizing i cs s tbl with
  | zero => cases hs
  | succ left ih =>
    cases cs with
    | nil => cases hs
    | cons c cs =>
      rw [clusterLoop] at hs
      cases htbl : devTbl 0 c.devNr c.devices with
      | error retval =>
        simp only [htbl] at hs
        cases hs
        obtain ⟨-, first, hfirst, hram⟩ := devTbl_stopped htbl
        exact ⟨⟨c, List.mem_cons_self, first, hfirst, hram⟩, tbl, h, hids⟩
      | ok more =>
        simp only [htbl] at hs
        obtain ⟨-, rfl⟩ := devTbl_ok htbl
        have hmore : ∀ d ∈ tbl ++ (c.devices.take c.devNr).map resolve, d.id.toNat ≤ 10 := by
          intro d hd
          obtain hd | hd := List.mem_append.mp hd
          · exact hids d hd
          · obtain ⟨e, -, rfl⟩ := List.mem_map.mp hd
            exact resolve_id_le e
        obtain ⟨⟨e, he, hram⟩, hrest⟩ := ih hs (h.addCluster c _) hmore
        exact ⟨⟨e, List.mem_cons_of_mem _ he, hram⟩, hrest⟩

end Loop

lemma length_encode_header (h : Header) : (header.encode h).length = 68 := header.length_encode h

lemma encodeList_id_le {tbl : List Device} (hids : ∀ d ∈ tbl, d.id.toNat ≤ 10) (k : ℕ) :
    ((device.encodeList tbl).getD (11 * k) 0).toNat ≤ 10 := by
  induction tbl generalizing k with
  | nil => simp
  | cons d tbl ih =>
    rw [encodeList_cons]
    cases k with
    | zero => exact hids d List.mem_cons_self
    | succ k =>
      have hlength : (device.encode d).length = 11 := device.length_encode d
      rw [List.getD_append_right _ _ _ _ (by omega), hlength,
        show 11 * (k + 1) - 11 = 11 * k by omega]
      exact ih (fun e he => hids e (List.mem_cons_of_mem _ he)) k

lemma readHeader_signature {file : List (BitVec 8)} {h : Header} (hread : readHeader file = some h)
    {i : ℕ} (hi : i < 16) : h.signature[i] = file.getD (16 + i) 0 := by
  unfold readHeader readAt at hread
  split_ifs at hread
  · cases hread
    change (Vector.ofFn fun i : Fin 16 => ((((file.drop 4).drop 4).drop 4).drop 4).getD i 0)[i] = _
    simp [List.drop_drop]
  · cases hread

lemma archBibSignature_ge {i : ℕ} (hi : i < 15) : 32 ≤ (archBibSignature[i]).toNat := by
  interval_cases i <;> simp [archBibSignature]

/-- Devices alone do not make up a signature: one of its letters would be an id. -/
lemma bib2info_hole {tbl : List Device} (hids : ∀ d ∈ tbl, d.id.toNat ≤ 10) (o : ℕ) :
    bib2info (hole (device.encodeList tbl) o) = none := by
  have hbyte : ∃ p, 16 ≤ p ∧ p ≤ 26 ∧
      ((hole (device.encodeList tbl) o).getD p 0).toNat ≤ 10 := by
    unfold hole
    split_ifs with hempty
    · exact ⟨16, by omega, by omega, by simp⟩
    · by_cases ho : 16 < o
      · refine ⟨16, by omega, by omega, ?_⟩
        rw [List.getD_append _ _ _ _ (by simpa using ho)]
        simp [ho]
      · refine ⟨o + 11 * ((26 - o) / 11), by omega, by omega, ?_⟩
        rw [List.getD_append_right _ _ _ _ (by simp), List.length_replicate,
          Nat.add_sub_cancel_left]
        exact encodeList_id_le hids _
  obtain ⟨p, hlo, hhi, hle⟩ := hbyte
  unfold bib2info
  cases hread : readHeader (hole (device.encodeList tbl) o) with
  | none => rfl
  | some h =>
    have hne : h.signature ≠ archBibSignature := by
      intro heq
      have hget := readHeader_signature hread (show p - 16 < 16 by omega)
      rw [show 16 + (p - 16) = p by omega] at hget
      have hge := archBibSignature_ge (show p - 16 < 15 by omega)
      rw [← hget] at hle
      simp only [heq] at hle
      omega
    simp [hne]

lemma ArchInfo.clusterNr_eq (d : ArchInfo) : d.clusterNr = d.xMax * d.yMax := by
  have hle : d.xMax.val * d.yMax.val ≤ 127 * 127 :=
    Nat.mul_le_mul (Nat.lt_succ_iff.mp d.xMax.isLt) (Nat.lt_succ_iff.mp d.yMax.isLt)
  exact Nat.mod_eq_of_lt (by omega)

structure Completed (d : ArchInfo) (o : Output) (s : BibState) : Prop where
  arch : d.arch.bytes.length < 16
  enough : d.xMax * d.yMax ≤ d.clusters.length
  listed : ∀ c ∈ d.described, Listed 0 c.devNr c.devices
  wrote : Wrote d.offset (d.described.flatMap ClusterInfo.table) s
  clusters : s.clustersTbl = entries d.offset d.described
  places : o.places = placesFrom d.offset d.described
  file : o.file = writeAt (writeAt s.file 0 (header.encode (d.headerInfo s.totals s.pos)))
    header.width (cluster.encodeList s.clustersTbl)

/-- A call that returns 0 has written a block, or has stopped at a first device other than memory. -/
lemma info2bib_outcome {heap : ℕ → BitVec 32} {d : ArchInfo} {o : Output}
    (h : info2bib heap d = some o) (hret : o.retval = none) :
    (∃ s, Completed d o s) ∨
      (∃ c ∈ d.described, ∃ first ∈ c.listed.head?,
        devLocateByName first.devid ≠ some soclibRamId) ∧ bib2info o.file = none := by
  unfold info2bib at h
  split_ifs at h with harch hcpu
  · cases h
    cases hret
  · have hinit : Wrote d.offset [] d.start := ⟨rfl, rfl⟩
    cases hloop : clusterLoop (d.bootstrapCpu.toNat / d.cpuNr.toNat % 2 ^ 16) heap d.clusterNr 0
        d.clusters d.start with
    | mk s stop =>
      simp only [hloop] at h
      cases stop with
      | none =>
        cases h
        obtain ⟨henough, hlisted, hwrote, hclusters, hplaces⟩ := clusterLoop_done hloop hinit
        rw [d.clusterNr_eq] at henough hlisted hwrote hclusters hplaces
        exact Or.inl ⟨s, Nat.lt_of_not_le harch, henough, hlisted, hwrote, hclusters, hplaces, rfl⟩
      | some retval =>
        cases h
        obtain rfl : retval = none := hret
        obtain ⟨hram, tbl, hwrote, hids⟩ := clusterLoop_stopped hloop hinit (by simp)
        rw [d.clusterNr_eq] at hram
        refine Or.inr ⟨hram, ?_⟩
        rw [hwrote.file]
        exact bib2info_hole hids _

lemma length_entries (pos : ℕ) (cs : List ClusterInfo) : (entries pos cs).length = cs.length := by
  induction cs generalizing pos with
  | nil => rfl
  | cons c cs ih => simp [entries, ih]

lemma Listed.length_table {c : ClusterInfo} (h : Listed 0 c.devNr c.devices) :
    c.table.length = c.devNr := by
  simp [ClusterInfo.table, ClusterInfo.listed, h.enough]

lemma length_tables {cs : List ClusterInfo} (h : ∀ c ∈ cs, Listed 0 c.devNr c.devices) :
    (cs.flatMap ClusterInfo.table).length = (cs.map fun c => c.devNr.val).sum := by
  rw [List.length_flatMap]
  exact congrArg List.sum (List.map_congr_left fun c hc => (h c hc).length_table)

namespace Completed
variable {d : ArchInfo} {o : Output} {s : BibState}

lemma length_described (h : Completed d o s) : d.described.length = d.xMax * d.yMax := by
  simp [ArchInfo.described, h.enough]

lemma length_clustersTbl (h : Completed d o s) : s.clustersTbl.length = d.xMax * d.yMax := by
  rw [h.clusters, length_entries, h.length_described]

lemma file_eq (h : Completed d o s) :
    o.file = header.encode (d.headerInfo s.totals s.pos) ++ cluster.encodeList s.clustersTbl ++
      s.file.drop (68 + 6 * (d.xMax * d.yMax)) := by
  have hlength := length_encode_header (d.headerInfo s.totals s.pos)
  rw [h.file, writeAt_zero, header_width, ← hlength, writeAt_length, List.drop_drop,
    length_encodeList, h.length_clustersTbl]
  rfl

lemma readHeader_eq (h : Completed d o s) :
    readHeader o.file = some (d.headerInfo s.totals s.pos) := by
  have hdrop : o.file.drop 0 = header.encodeList [d.headerInfo s.totals s.pos] ++
      (cluster.encodeList s.clustersTbl ++ s.file.drop (68 + 6 * (d.xMax * d.yMax))) := by
    rw [h.file_eq, List.append_assoc, encodeList_cons, encodeList_nil, List.append_nil]
    rfl
  have hread := header.readAt_eq hdrop
  unfold readHeader
  rw [show header.readAt o.file 0 1 = _ from hread]
  rfl

lemma readClustersTbl_eq (h : Completed d o s) :
    readClustersTbl o.file (d.headerInfo s.totals s.pos) = some s.clustersTbl := by
  have hx : (BitVec.ofNat 16 d.xMax).toNat = d.xMax := by
    rw [BitVec.toNat_ofNat]
    omega
  have hy : (BitVec.ofNat 16 d.yMax).toNat = d.yMax := by
    rw [BitVec.toNat_ofNat]
    omega
  have hcount : (BitVec.ofNat 16 d.xMax).toNat * (BitVec.ofNat 16 d.yMax).toNat =
      s.clustersTbl.length := by rw [hx, hy, h.length_clustersTbl]
  unfold readClustersTbl
  change cluster.readAt o.file header.width
    ((BitVec.ofNat 16 d.xMax).toNat * (BitVec.ofNat 16 d.yMax).toNat) = _
  rw [hcount]
  have hdrop : o.file.drop header.width = cluster.encodeList s.clustersTbl ++
      s.file.drop (68 + 6 * (d.xMax * d.yMax)) := by
    rw [h.file_eq, List.append_assoc, header_width]
    exact List.drop_left' (length_encode_header _)
  exact cluster.readAt_eq hdrop

lemma length_file_ge (h : Completed d o s) (htotal : 2 ^ 16 ≤ d.total) :
    2 ^ 16 ≤ o.file.length := by
  have hlength : o.file.length = 68 + 6 * (d.xMax * d.yMax) +
      (s.file.length - (68 + 6 * (d.xMax * d.yMax))) := by
    rw [h.file_eq, List.length_append, List.length_append, length_encode_header, length_encodeList,
      h.length_clustersTbl, List.length_drop, cluster_width]
  have hdevices := length_tables h.listed
  have hpos : d.offset = (6 * (d.xMax * d.yMax) + 68) % 2 ^ 16 := by
    rw [ArchInfo.offset, d.clusterNr_eq, cluster_width, header_width]
  have hfile : s.file.length = if device.encodeList (d.described.flatMap ClusterInfo.table) = []
      then 0 else d.offset + 11 * (d.described.map fun c => c.devNr.val).sum := by
    rw [h.wrote.file, hole, ← hdevices]
    split_ifs with hempty
    · rfl
    · simp
  have hnone : device.encodeList (d.described.flatMap ClusterInfo.table) = [] →
      (d.described.map fun c => c.devNr.val).sum = 0 := by
    intro hempty
    have hzero := congrArg List.length hempty
    rw [length_encodeList, hdevices, device_width, List.length_nil] at hzero
    omega
  unfold ArchInfo.total at htotal
  rw [header_width, cluster_width, device_width] at htotal
  split_ifs at hfile with hempty
  · have hzero := hnone hempty
    omega
  · omega

lemma not_roundTrips (h : Completed d o s) (htotal : 2 ^ 16 ≤ d.total) : ¬RoundTrips d o := by
  intro hround
  obtain ⟨header, tbl, hread, -, hsize, -⟩ := hround.layout
  have hge := h.length_file_ge htotal
  have hlt := header.size.isLt
  omega

end Completed

lemma takeWhile_strcpy16 {arch : CString} (h : arch.bytes.length < 16) :
    (strcpy16 arch).toList.takeWhile (· ≠ 0) = arch.bytes := by
  have hlist : (strcpy16 arch).toList =
      arch.bytes ++ List.replicate (16 - arch.bytes.length) 0 := by
    apply List.ext_getElem
    · simp
      omega
    · intro i hi hi'
      simp only [strcpy16, Vector.toList_ofFn, List.getElem_ofFn, List.getElem_append,
        List.getElem_replicate]
      split_ifs with hlt
      · simp [hlt]
      · simp [Nat.le_of_not_lt hlt]
  obtain ⟨zeros, hzeros⟩ : ∃ k, 16 - arch.bytes.length = k + 1 := ⟨15 - arch.bytes.length, by omega⟩
  have hnonzero : ∀ b ∈ arch.bytes, decide (b ≠ 0) = true := by
    intro b hb
    refine decide_eq_true fun heq => ?_
    rw [heq] at hb
    exact arch.nonzero hb
  rw [hlist, hzeros, List.replicate_succ, List.takeWhile_append_of_pos hnonzero]
  simp

lemma mapM_readDevice {devs : List DeviceInfo}
    (h : ∀ d ∈ devs, (devLocateByName d.devid).isSome) :
    (devs.map resolve).mapM readDevice = some devs := by
  induction devs with
  | nil => rfl
  | cons d devs ih =>
    rw [List.map_cons, List.mapM_cons, readDevice_resolve (h d List.mem_cons_self),
      ih fun e he => h e (List.mem_cons_of_mem _ he)]
    rfl

lemma toNat_devNr (c : ClusterInfo) : (BitVec.ofNat 8 c.devNr).toNat = c.devNr := by
  have hlt := c.devNr.isLt
  rw [BitVec.toNat_ofNat]
  omega

section Entries
variable {file rest : List (BitVec 8)} {pos : ℕ} {cs : List ClusterInfo}
  (hlisted : ∀ c ∈ cs, Listed 0 c.devNr c.devices)
  (hpos : pos + device.width * (cs.flatMap ClusterInfo.table).length < 2 ^ 16)
include hlisted hpos

lemma mapM_readCluster
    (hfile : file.drop pos = device.encodeList (cs.flatMap ClusterInfo.table) ++ rest) :
    (entries pos cs).mapM (readCluster file) = some (cs.map ClusterInfo.told) := by
  induction cs generalizing pos with
  | nil => rfl
  | cons c cs ih =>
    have hc := hlisted c List.mem_cons_self
    rw [List.flatMap_cons, encodeList_append, List.append_assoc] at hfile
    rw [List.flatMap_cons, List.length_append, Nat.mul_add] at hpos
    have hread : device.readAt file pos c.devNr = some c.table := by
      rw [← hc.length_table]
      exact device.readAt_eq hfile
    have hoffset : (BitVec.ofNat 16 pos).toNat = pos := Nat.mod_eq_of_lt (by omega)
    have hcluster : readCluster file ⟨c.cid, BitVec.ofNat 8 c.cpuNr, BitVec.ofNat 8 c.devNr,
        BitVec.ofNat 16 pos⟩ = some c.told := by
      have hdevices : c.table.mapM readDevice = some c.listed := mapM_readDevice hc.known
      unfold readCluster
      simp only [hoffset, toNat_devNr, hread, Option.bind_eq_bind, Option.bind_some, hdevices]
      rfl
    have hrest : file.drop (pos + device.width * c.table.length) =
        device.encodeList (cs.flatMap ClusterInfo.table) ++ rest := by
      rw [← List.drop_drop, hfile]
      exact List.drop_left' (length_encodeList ..)
    rw [entries, List.mapM_cons, hcluster,
      ih (fun e he => hlisted e (List.mem_cons_of_mem _ he)) (by omega) hrest]
    rfl

lemma places_entries : (entries pos cs).map (fun c => c.offset.toNat) = placesFrom pos cs := by
  induction cs generalizing pos with
  | nil => rfl
  | cons c cs ih =>
    rw [List.flatMap_cons, List.length_append, Nat.mul_add] at hpos
    have hoffset : (BitVec.ofNat 16 pos).toNat = pos := Nat.mod_eq_of_lt (by omega)
    rw [entries, List.map_cons, placesFrom, hoffset,
      ih (fun e he => hlisted e (List.mem_cons_of_mem _ he)) (by omega)]

lemma entries_ge : ∀ c ∈ entries pos cs, pos ≤ c.offset.toNat := by
  induction cs generalizing pos with
  | nil => simp [entries]
  | cons c cs ih =>
    rw [List.flatMap_cons, List.length_append, Nat.mul_add] at hpos
    have hoffset : (BitVec.ofNat 16 pos).toNat = pos := Nat.mod_eq_of_lt (by omega)
    intro e he
    obtain rfl | he := List.mem_cons.mp he
    · exact hoffset.ge
    · have hge := ih (fun e he => hlisted e (List.mem_cons_of_mem _ he)) (by omega) e he
      omega

lemma entries_disjoint : (entries pos cs).Pairwise fun a b => Disjoint a.range b.range := by
  induction cs generalizing pos with
  | nil => exact List.Pairwise.nil
  | cons c cs ih =>
    have hc := hlisted c List.mem_cons_self
    have htail : ∀ e ∈ cs, Listed 0 e.devNr e.devices := fun e he =>
      hlisted e (List.mem_cons_of_mem _ he)
    rw [List.flatMap_cons, List.length_append, Nat.mul_add] at hpos
    have hoffset : (BitVec.ofNat 16 pos).toNat = pos := Nat.mod_eq_of_lt (by omega)
    refine List.pairwise_cons.mpr ⟨fun e he => ?_, ih htail (by omega)⟩
    have hge : pos + device.width * c.table.length ≤ e.offset.toNat :=
      entries_ge htail (by omega) e he
    rw [hc.length_table] at hge
    refine Finset.disjoint_left.mpr fun x hx hx' => ?_
    simp only [Cluster.range, Finset.mem_Ico, hoffset, toNat_devNr] at hx hx'
    omega

end Entries

namespace Completed
variable {d : ArchInfo} {o : Output} {s : BibState}

lemma roundTrips (h : Completed d o s) (htotal : d.total < 2 ^ 16) : RoundTrips d o := by
  have hdevices := length_tables h.listed
  have htotal' : 68 + 6 * (d.xMax * d.yMax) +
      11 * (d.described.flatMap ClusterInfo.table).length < 2 ^ 16 := by
    rw [hdevices]
    exact htotal
  have hoffset : d.offset = 68 + 6 * (d.xMax * d.yMax) := by
    rw [ArchInfo.offset, d.clusterNr_eq, cluster_width, header_width]
    omega
  have hpos : d.offset + device.width * (d.described.flatMap ClusterInfo.table).length < 2 ^ 16 := by
    rw [hoffset]
    exact htotal'
  have hrest : s.file.drop (68 + 6 * (d.xMax * d.yMax)) =
      device.encodeList (d.described.flatMap ClusterInfo.table) := by
    rw [h.wrote.file, hoffset, drop_hole]
  have hfile := h.file_eq
  rw [hrest] at hfile
  have hlength : (header.encode (d.headerInfo s.totals s.pos) ++
      cluster.encodeList s.clustersTbl).length = d.offset := by
    rw [List.length_append, length_encode_header, length_encodeList, h.length_clustersTbl, hoffset,
      cluster_width]
  have hdrop : o.file.drop d.offset =
      device.encodeList (d.described.flatMap ClusterInfo.table) ++ [] := by
    rw [hfile, List.append_nil]
    exact List.drop_left' hlength
  refine ⟨?_, _, _, h.readHeader_eq, h.readClustersTbl_eq, ?_, ?_, ?_, ?_⟩
  · unfold bib2info
    rw [h.readHeader_eq]
    simp only [Option.bind_eq_bind, Option.bind_some]
    have hsignature : (d.headerInfo s.totals s.pos).signature = archBibSignature := rfl
    rw [if_pos hsignature, h.readClustersTbl_eq, Option.bind_some, h.clusters,
      mapM_readCluster h.listed hpos hdrop, Option.bind_some]
    have harch := takeWhile_strcpy16 h.arch
    simp only [ArchInfo.headerInfo, harch]
    rfl
  · rw [hfile, List.length_append, hlength]
    change (BitVec.ofNat 16 s.pos).toNat = _
    rw [h.wrote.pos, BitVec.toNat_ofNat, length_encodeList]
    exact Nat.mod_eq_of_lt hpos
  · rw [h.clusters, places_entries h.listed hpos, h.places]
  · rw [h.clusters]
    exact entries_disjoint h.listed hpos
  · intro c hc
    have hcount := h.length_clustersTbl
    rw [h.clusters] at hc
    have hge := entries_ge h.listed hpos c hc
    refine Finset.disjoint_left.mpr fun x hx hx' => ?_
    simp only [Cluster.range, Finset.mem_Ico, header_width, cluster_width, hcount] at hx hx'
    omega

end Completed

lemma info2bib_of_listed (heap : ℕ → BitVec 32) {d : ArchInfo} (harch : d.arch.bytes.length < 16)
    (hcpu : d.cpuNr ≠ 0) (henough : d.xMax * d.yMax ≤ d.clusters.length)
    (hlisted : ∀ c ∈ d.described, Listed 0 c.devNr c.devices) :
    ∃ o s, info2bib heap d = some o ∧ o.retval = none ∧ Completed d o s := by
  obtain ⟨o, ho, hret⟩ : ∃ o, info2bib heap d = some o ∧ o.retval = none := by
    rw [ArchInfo.described, ← d.clusterNr_eq] at hlisted
    obtain ⟨s, hs⟩ := clusterLoop_of_listed (d.bootstrapCpu.toNat / d.cpuNr.toNat % 2 ^ 16) heap 0
      d.start (d.clusterNr_eq.trans_le henough) hlisted
    have hshort : ¬tokenArchLen ≤ d.arch.bytes.length := Nat.not_le_of_lt harch
    unfold info2bib
    rw [if_neg hshort, if_neg hcpu]
    simp only [hs]
    exact ⟨_, rfl, rfl⟩
  obtain ⟨s, hs⟩ | ⟨⟨c, hc, first, hfirst, hram⟩, -⟩ := info2bib_outcome ho hret
  · exact ⟨o, s, ho, hret, hs⟩
  · exact absurd ((hlisted c hc).ram rfl first hfirst) hram

/-- The block gives back the description exactly when it fits. -/
theorem bib2info_info2bib_iff (heap : ℕ → BitVec 32) (d : ArchInfo) (o : Output)
    (h : info2bib heap d = some o) (hret : o.retval = none) : RoundTrips d o ↔ Fits d := by
  obtain ⟨s, hs⟩ | ⟨⟨c, hc, first, hfirst, hram⟩, hread⟩ := info2bib_outcome h hret
  · constructor
    · intro hround
      refine ⟨fun c hc => (hs.listed c hc).ram rfl, ?_⟩
      by_contra hge
      exact hs.not_roundTrips (Nat.le_of_not_lt hge) hround
    · exact fun hfits => hs.roundTrips hfits.size
  · constructor
    · intro hround
      have htold := hround.told
      rw [hread] at htold
      cases htold
    · exact fun hfits => absurd (hfits.ram c hc first hfirst) hram

lemma four_lt : 4 < 128 := by decide

def platform (side : Fin 128) (devNr : Fin 128) (devices : List DeviceInfo) : ArchInfo where
  revision := 1
  arch := ⟨[84, 83, 65, 82], by decide⟩
  xMax := side
  yMax := side
  cpuNr := 4
  bootstrapCpu := 0
  bootstrapTty := 0xBF200000
  bootstrapDma := 0
  clusters := List.replicate (side * side)
    { cid := 0, cpuNr := ⟨4, four_lt⟩, devNr := devNr, devices := devices }

lemma described_platform (side devNr : Fin 128) (devices : List DeviceInfo) :
    (platform side devNr devices).described = List.replicate (side * side)
      { cid := 0, cpuNr := ⟨4, four_lt⟩, devNr := devNr, devices := devices } := by
  simp [ArchInfo.described, platform]

def memoryDevice : DeviceInfo where
  devid := "RAM"
  base := 0
  size := 0x100000
  irq := -1

def ttyDevice : DeviceInfo where
  devid := "TTY"
  base := 0xBF200000
  size := 0x10
  irq := 0

lemma listed_memory (devNr : Fin 128) (devices : List DeviceInfo) (h : devNr ≤ devices.length + 1)
    (hdevices : ∀ d ∈ devices, d = ttyDevice) : Listed 0 devNr (memoryDevice :: devices) where
  enough := h
  known d hd := by
    obtain rfl | hd := List.mem_cons.mp (List.mem_of_mem_take hd)
    · decide
    · rw [hdevices d hd]
      decide
  ram _ first hfirst := by
    have hmem : first = memoryDevice := by
      cases hdev : devNr.val with
      | zero => simp [hdev] at hfirst
      | succ n => simpa [hdev] using hfirst.symm
    rw [hmem]
    decide

theorem bib2info_info2bib_small :
    ∃ o, info2bib (fun _ => 0) (platform 2 2 [memoryDevice, ttyDevice]) = some o ∧
      RoundTrips (platform 2 2 [memoryDevice, ttyDevice]) o := by
  have hlisted : ∀ c ∈ (platform 2 2 [memoryDevice, ttyDevice]).described,
      Listed 0 c.devNr c.devices := by
    intro c hc
    rw [described_platform] at hc
    obtain rfl := List.eq_of_mem_replicate hc
    exact listed_memory 2 [ttyDevice] (by decide) (by simp)
  obtain ⟨o, s, ho, hret, -⟩ := info2bib_of_listed (fun _ => 0) (by decide) (by decide)
    List.length_replicate.ge hlisted
  refine ⟨o, ho, (bib2info_info2bib_iff _ _ o ho hret).mpr
    ⟨fun c hc => (hlisted c hc).ram rfl, ?_⟩⟩
  unfold ArchInfo.total
  rw [described_platform]
  decide

/-- A mesh of 32 by 32 clusters of six devices is too long, and a cluster whose first device is no
memory makes no block, though the tool returns 0. -/
theorem info2bib_loses :
    (∃ o, info2bib (fun _ => 0) (platform 32 6 (memoryDevice :: List.replicate 5 ttyDevice)) =
        some o ∧ o.retval = none ∧
      ¬RoundTrips (platform 32 6 (memoryDevice :: List.replicate 5 ttyDevice)) o) ∧
    ∃ o, info2bib (fun _ => 0) (platform 1 1 [ttyDevice]) = some o ∧ o.retval = none ∧
      bib2info o.file = none := by
  constructor
  · have hlisted : ∀ c ∈ (platform 32 6 (memoryDevice :: List.replicate 5 ttyDevice)).described,
        Listed 0 c.devNr c.devices := by
      intro c hc
      rw [described_platform] at hc
      obtain rfl := List.eq_of_mem_replicate hc
      exact listed_memory 6 _ (by decide) fun d hd => List.eq_of_mem_replicate hd
    obtain ⟨o, s, ho, hret, hs⟩ := info2bib_of_listed (fun _ => 0) (by decide) (by decide)
      List.length_replicate.ge hlisted
    refine ⟨o, ho, hret, hs.not_roundTrips ?_⟩
    unfold ArchInfo.total
    rw [described_platform, List.map_replicate, List.sum_replicate]
    decide
  · exact ⟨_, rfl, rfl, rfl⟩

end Almos.ArchBib
