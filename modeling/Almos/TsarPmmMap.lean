import Mathlib
import Almos.TsarPmm

/-!
# The page table keeps a map

The entries of the directory are told apart by two of their bits, and an address is its directory
index, its place in a table and the offset in its page. Two tables never share a frame, so a call
changes what is found under one entry of the directory only.
-/
namespace Almos.Tsar

lemma and_bitOrder (x : BitVec 32) (i : ℕ) :
    x &&& pmmBitOrder i = 0 ↔ x.getLsbD i = false := by
  rw [pmmBitOrder, BitVec.and_twoPow]
  by_cases hbit : x.getLsbD i = true
  · have hi : i < 32 := BitVec.lt_of_getLsbD hbit
    have hne : BitVec.twoPow 32 i ≠ 0#32 := by
      intro hzero
      have hget := congrArg (fun v : BitVec 32 => v.getLsbD i) hzero
      simp [hi] at hget
    simp [hbit, hne]
  · simp [hbit]

lemma and_bitOrder_ne (x : BitVec 32) (i : ℕ) :
    x &&& pmmBitOrder i ≠ 0 ↔ x.getLsbD i = true := by
  rw [Ne, and_bitOrder, Bool.not_eq_false]

lemma mmuPdeAttrMask_eq : mmuPdeAttrMask = BitVec.allOnes 32 <<< 22 := by decide

lemma mmuPdePpnMask_eq : mmuPdePpnMask = BitVec.allOnes 32 >>> 13 := by decide

lemma mmuPpnMask_eq : mmuPpnMask = BitVec.allOnes 32 >>> 4 := by decide

lemma pmmHugePageMask_eq : pmmHugePageMask = BitVec.allOnes 32 >>> 11 := by decide

lemma mmuPteMask_eq : mmuPteMask = (BitVec.allOnes 32 >>> 23) <<< 12 := by decide

lemma getLsbD_of_toNat_lt {x : BitVec 32} {n i : ℕ} (hx : x.toNat < 2 ^ n) (hi : n ≤ i) :
    x.getLsbD i = false := by
  rw [BitVec.getLsbD]
  exact Nat.testBit_lt_two_pow (lt_of_lt_of_le hx (Nat.pow_le_pow_right (by decide) hi))

lemma and_mmuPpnMask {x : BitVec 32} (hx : x.toNat < 2 ^ 28) : x &&& mmuPpnMask = x := by
  apply BitVec.eq_of_getLsbD_eq
  intro i hi
  rw [mmuPpnMask_eq, BitVec.getLsbD_and, BitVec.getLsbD_ushiftRight, BitVec.getLsbD_allOnes]
  by_cases hlow : i < 28
  · have hlt : 4 + i < 32 := by omega
    simp [hlt]
  · rw [getLsbD_of_toNat_lt hx (by omega), Bool.false_and]

lemma mmuPde_eq (vaddr : BitVec 32) : mmuPde vaddr = pageOf vaddr / 512 := by
  rw [mmuPde, pageOf, BitVec.toNat_ushiftRight, Nat.shiftRight_eq_div_pow, Nat.div_div_eq_div_mul]

lemma mmuPte_eq (vaddr : BitVec 32) : mmuPte vaddr = pageOf vaddr % 512 * 8 := by
  have hshift : (vaddr &&& mmuPteMask) >>> 12 = (vaddr >>> 12) &&& BitVec.ofNat 32 511 := by
    have hones : BitVec.ofNat 32 511 = BitVec.allOnes 32 >>> 23 := by decide
    rw [mmuPteMask_eq, hones]
    apply BitVec.eq_of_getLsbD_eq
    intro i hi
    simp only [BitVec.getLsbD_ushiftRight, BitVec.getLsbD_and, BitVec.getLsbD_shiftLeft,
      BitVec.getLsbD_allOnes]
    by_cases hlow : i < 9
    · have h1 : 12 + i < 32 := by omega
      have h2 : ¬12 + i < 12 := by omega
      have h3 : 23 + i < 32 := by omega
      simp [h1, h2, h3]
    · have h3 : ¬23 + i < 32 := by omega
      simp [h3]
  have hmod : ((vaddr >>> 12) &&& BitVec.ofNat 32 511).toNat = pageOf vaddr % 512 := by
    rw [BitVec.toNat_and, BitVec.toNat_ushiftRight, Nat.shiftRight_eq_div_pow]
    exact Nat.and_two_pow_sub_one_eq_mod (vaddr.toNat / 2 ^ 12) 9
  have hlt : pageOf vaddr % 512 < 512 := Nat.mod_lt _ (by decide)
  rw [mmuPte, hshift, BitVec.toNat_shiftLeft, hmod, Nat.shiftLeft_eq]
  omega

lemma pageOf_eq_iff {v w : BitVec 32} (hpde : mmuPde v = mmuPde w) :
    pageOf v = pageOf w ↔ mmuPte v = mmuPte w := by
  rw [mmuPde_eq, mmuPde_eq] at hpde
  rw [mmuPte_eq, mmuPte_eq]
  omega

def tableEntry (frame : BitVec 32) : BitVec 32 := pmmPresent ||| mmuPtd1 ||| frame

def hugeEntry (info : PageInfo) : BitVec 32 := (info.attr ^^^ pmmHuge) ||| (info.ppn >>> 9)

section
variable {frame : BitVec 32}

lemma tableEntry_present : tableEntry frame &&& pmmPresent ≠ 0 := by
  rw [pmmPresent, and_bitOrder_ne]
  simp [tableEntry, pmmPresent, pmmBitOrder]

lemma tableEntry_huge : tableEntry frame &&& pmmHuge ≠ 0 := by
  rw [pmmHuge, and_bitOrder_ne]
  simp [tableEntry, mmuPtd1, pmmBitOrder]

lemma tableEntry_frame (h : frame.toNat < 2 ^ 28) : tableEntry frame &&& mmuPpnMask = frame := by
  apply BitVec.eq_of_getLsbD_eq
  intro i hi
  rw [mmuPpnMask_eq, BitVec.getLsbD_and, BitVec.getLsbD_ushiftRight, BitVec.getLsbD_allOnes,
    tableEntry, BitVec.getLsbD_or, BitVec.getLsbD_or, pmmPresent, mmuPtd1, pmmBitOrder, pmmBitOrder,
    BitVec.getLsbD_twoPow, BitVec.getLsbD_twoPow]
  by_cases hlow : i < 28
  · have hlt : 4 + i < 32 := by omega
    have h31 : ¬31 = i := by omega
    have h30 : ¬30 = i := by omega
    simp [hlt, h31, h30]
  · have hlt : ¬4 + i < 32 := by omega
    rw [getLsbD_of_toNat_lt h (by omega)]
    simp [hlt]

end

/-- What is asked of a page of 2 MiB. -/
structure HugeOk (info : PageInfo) : Prop where
  attr : info.attr &&& mmuPdeAttrMask = info.attr
  huge : info.attr &&& pmmHuge ≠ 0
  present : info.attr &&& pmmPresent ≠ 0
  aligned : info.ppn.toNat % 512 = 0
  lt : info.ppn.toNat < 2 ^ 20

namespace HugeOk
variable {info : PageInfo}

lemma attr_low (h : HugeOk info) {i : ℕ} (hi : i < 22) : info.attr.getLsbD i = false := by
  rw [← h.attr, mmuPdeAttrMask_eq, BitVec.getLsbD_and, BitVec.getLsbD_shiftLeft]
  simp [hi]

lemma ppn_low (h : HugeOk info) {i : ℕ} (hi : i < 9) : info.ppn.getLsbD i = false := by
  obtain ⟨q, hq⟩ := Nat.dvd_of_mod_eq_zero h.aligned
  have hpow : info.ppn.toNat = 2 ^ 9 * q := hq
  rw [BitVec.getLsbD, hpow, Nat.testBit_two_pow_mul]
  have hnot : ¬9 ≤ i := by omega
  simp [hnot]

lemma entry_present (h : HugeOk info) : hugeEntry info &&& pmmPresent ≠ 0 := by
  have hbit := (and_bitOrder_ne _ _).mp h.present
  rw [pmmPresent, and_bitOrder_ne]
  simp [hugeEntry, pmmHuge, pmmBitOrder, hbit]

lemma entry_huge (h : HugeOk info) : hugeEntry info &&& pmmHuge = 0 := by
  have hbit := (and_bitOrder_ne _ _).mp h.huge
  rw [pmmHuge, and_bitOrder]
  simp [hugeEntry, pmmHuge, pmmBitOrder, hbit]

lemma entry_attr (h : HugeOk info) : (hugeEntry info &&& mmuPdeAttrMask) ||| pmmHuge = info.attr := by
  have hbit := (and_bitOrder_ne _ _).mp h.huge
  apply BitVec.eq_of_getLsbD_eq
  intro i hi
  rw [BitVec.getLsbD_or, BitVec.getLsbD_and, hugeEntry, BitVec.getLsbD_or, BitVec.getLsbD_xor,
    BitVec.getLsbD_ushiftRight, mmuPdeAttrMask_eq, BitVec.getLsbD_shiftLeft, BitVec.getLsbD_allOnes,
    pmmHuge, pmmBitOrder, BitVec.getLsbD_twoPow]
  by_cases hlow : i < 22
  · have h30 : ¬30 = i := by omega
    rw [h.attr_low hlow]
    simp [hlow, h30]
  · have hppn : info.ppn.getLsbD (9 + i) = false := getLsbD_of_toNat_lt h.lt (by omega)
    have hin : i - 22 < 32 := by omega
    by_cases h30 : 30 = i
    · subst h30
      simp [hbit]
    · simp [h30, hlow, hppn, hi, hin]

lemma entry_ppn (h : HugeOk info) (vaddr : BitVec 32) :
    (((hugeEntry info &&& mmuPdePpnMask) <<< 21) ||| (vaddr &&& pmmHugePageMask)) >>> 12 =
      info.ppn + BitVec.ofNat 32 (pageOf vaddr % 512) := by
  have hoffset : BitVec.ofNat 32 (pageOf vaddr % 512) = (vaddr >>> 12) &&& (BitVec.allOnes 32 >>> 23) := by
    apply BitVec.eq_of_toNat_eq
    have hones : (BitVec.allOnes 32 >>> 23).toNat = 2 ^ 9 - 1 := by decide
    have hlt : pageOf vaddr % 512 < 512 := Nat.mod_lt _ (by decide)
    rw [BitVec.toNat_and, hones, Nat.and_two_pow_sub_one_eq_mod, BitVec.toNat_ushiftRight,
      Nat.shiftRight_eq_div_pow, BitVec.toNat_ofNat, Nat.mod_eq_of_lt (by omega)]
    rfl
  have hdisjoint : info.ppn &&& ((vaddr >>> 12) &&& (BitVec.allOnes 32 >>> 23)) = 0#32 := by
    apply BitVec.eq_of_getLsbD_eq
    intro i hi
    simp only [BitVec.getLsbD_and, BitVec.getLsbD_ushiftRight, BitVec.getLsbD_allOnes,
      BitVec.getLsbD_zero]
    by_cases hlow : i < 9
    · rw [h.ppn_low hlow, Bool.false_and]
    · have hout : ¬23 + i < 32 := by omega
      simp [hout]
  rw [hoffset, BitVec.add_eq_or_of_and_eq_zero _ _ hdisjoint]
  apply BitVec.eq_of_getLsbD_eq
  intro i hi
  simp only [hugeEntry, mmuPdePpnMask_eq, pmmHugePageMask_eq, BitVec.getLsbD_or,
    BitVec.getLsbD_and, BitVec.getLsbD_ushiftRight, BitVec.getLsbD_shiftLeft, BitVec.getLsbD_xor,
    BitVec.getLsbD_allOnes]
  by_cases hlow : i < 9
  · rw [h.ppn_low hlow]
    have h1 : 12 + i < 21 := by omega
    have h2 : 11 + (12 + i) < 32 := by omega
    have h3 : 23 + i < 32 := by omega
    simp [h1, h2, h3]
  · have h3 : ¬23 + i < 32 := by omega
    have h2 : ¬11 + (12 + i) < 32 := by omega
    by_cases hin : i < 20
    · have h1 : ¬12 + i < 21 := by omega
      have h4 : 12 + i < 32 := by omega
      have h5 : 13 + (12 + i - 21) < 32 := by omega
      have h6 : 9 + (12 + i - 21) = i := by omega
      have hattr : info.attr.getLsbD (12 + i - 21) = false := h.attr_low (by omega)
      have hnot : pmmHuge.getLsbD (12 + i - 21) = false := by
        have h30 : ¬30 = 12 + i - 21 := by omega
        rw [pmmHuge, pmmBitOrder, BitVec.getLsbD_twoPow]
        simp [h30]
      simp [h1, h2, h3, h4, h5, h6, hattr, hnot]
    · have h4 : ¬12 + i < 32 := by omega
      have hppn : info.ppn.getLsbD i = false := getLsbD_of_toNat_lt h.lt (by omega)
      simp [h2, h3, h4, hppn]

end HugeOk

variable {pmm pmm' : Pmm} {vaddr : BitVec 32}

lemma get_zero (h : pmm.pgdir (mmuPde vaddr) = 0) : pmmGetPage pmm vaddr = ⟨0, 0⟩ := by
  simp [pmmGetPage, h]

lemma get_huge {info : PageInfo} (hinfo : HugeOk info)
    (h : pmm.pgdir (mmuPde vaddr) = hugeEntry info) :
    pmmGetPage pmm vaddr = ⟨info.attr, info.ppn + BitVec.ofNat 32 (pageOf vaddr % 512)⟩ := by
  simp only [pmmGetPage]
  rw [h, if_neg hinfo.entry_present, if_pos hinfo.entry_huge, hinfo.entry_attr, hinfo.entry_ppn]

lemma get_table {frame : BitVec 32} (hframe : frame.toNat < 2 ^ 28)
    (h : pmm.pgdir (mmuPde vaddr) = tableEntry frame) :
    pmmGetPage pmm vaddr = ⟨pmm.frames frame (mmuPte vaddr),
      pmm.frames frame (mmuPte vaddr + 4) &&& mmuPpnMask⟩ := by
  simp only [pmmGetPage]
  rw [h, if_neg tableEntry_present, if_neg tableEntry_huge, tableEntry_frame hframe]

/-- An entry that was written is found, and the others of the table are as before. -/
lemma get_setPte {frame target : BitVec 32} {info : PageInfo} (hframe : frame.toNat < 2 ^ 28)
    (h : pmm.pgdir (mmuPde vaddr) = tableEntry frame) (hpde : mmuPde target = mmuPde vaddr)
    (hinfo : info.ppn.toNat < 2 ^ 28) :
    pmmGetPage (pmm.setPte frame (mmuPte target) info) vaddr =
      if pageOf vaddr = pageOf target then info else pmmGetPage pmm vaddr := by
  have hnew : (pmm.setPte frame (mmuPte target) info).pgdir (mmuPde vaddr) = tableEntry frame := h
  rw [get_table hframe h, get_table hframe hnew]
  simp only [Pmm.setPte, Function.update_self]
  by_cases hpage : pageOf vaddr = pageOf target
  · have hpte : mmuPte vaddr = mmuPte target := (pageOf_eq_iff hpde.symm).mp hpage
    have hne : mmuPte target ≠ mmuPte target + 4 := by omega
    rw [if_pos hpage, hpte, Function.update_of_ne hne, Function.update_self, Function.update_self,
      and_mmuPpnMask hinfo]
  · have hpte : mmuPte vaddr ≠ mmuPte target := fun heq => hpage ((pageOf_eq_iff hpde.symm).mpr heq)
    have hv := mmuPte_eq vaddr
    have ht := mmuPte_eq target
    rw [if_neg hpage, Function.update_of_ne (by omega), Function.update_of_ne (by omega),
      Function.update_of_ne (by omega), Function.update_of_ne (by omega)]

inductive EntryOk (s : PmmRun) (pde : ℕ) : Prop
  | zero (entry : s.pmm.pgdir pde = 0) (live : s.live pde = false)
  | huge (info : PageInfo) (ok : HugeOk info) (entry : s.pmm.pgdir pde = hugeEntry info)
      (live : s.live pde = true)
  | table (frame : BitVec 32) (used : frame ∈ s.used) (lt : frame.toNat < 2 ^ 28)
      (entry : s.pmm.pgdir pde = tableEntry frame) (live : s.live pde = false)

structure PmmOk (s : PmmRun) : Prop where
  get : ∀ vaddr, pmmGetPage s.pmm vaddr = s.map (pageOf vaddr)
  entry : ∀ pde, EntryOk s pde
  distinct : ∀ pde pde' frame, frame.toNat < 2 ^ 28 → s.pmm.pgdir pde = tableEntry frame →
    s.pmm.pgdir pde' = tableEntry frame → pde = pde'

lemma tableEntry_ne_zero {frame : BitVec 32} : tableEntry frame ≠ 0 := by
  intro hzero
  have hpresent : tableEntry frame &&& pmmPresent ≠ 0 := tableEntry_present
  rw [hzero] at hpresent
  exact hpresent (BitVec.zero_and)

lemma tableEntry_ne_huge {frame : BitVec 32} {info : PageInfo} (h : HugeOk info) :
    tableEntry frame ≠ hugeEntry info := by
  intro heq
  have hhuge : tableEntry frame &&& pmmHuge ≠ 0 := tableEntry_huge
  rw [heq] at hhuge
  exact hhuge h.entry_huge

lemma tableEntry_inj {frame frame' : BitVec 32} (h : frame.toNat < 2 ^ 28)
    (h' : frame'.toNat < 2 ^ 28) (heq : tableEntry frame = tableEntry frame') : frame = frame' := by
  rw [← tableEntry_frame h, heq, tableEntry_frame h']

lemma pmmSetPage_error {info : PageInfo} {frame : Option (BitVec 32)}
    (h : (pmmSetPage pmm vaddr info frame).2 ≠ none) :
    (pmmSetPage pmm vaddr info frame).1 = pmm := by
  simp only [pmmSetPage] at h ⊢
  generalize (if info.attr &&& pmmClear ≠ 0 then
    (⟨if info.attr &&& pmmHuge ≠ 0 then pmmHuge else 0, 0⟩ : PageInfo) else info) = new at h ⊢
  split_ifs at h ⊢
  · rfl
  · exact absurd rfl h
  · cases frame with
    | none => rfl
    | some ptePpn => exact absurd rfl h
  · exact absurd rfl h

def setDone (s : PmmRun) (c : SetCall) (pmm : Pmm) : PmmRun where
  pmm := pmm
  map := s.map.set c.vaddr c.info
  live :=
    if c.info.attr &&& pmmHuge ≠ 0 then
      Function.update s.live (mmuPde c.vaddr) (c.info.attr &&& pmmClear = 0)
    else s.live
  used :=
    if c.info.attr &&& pmmHuge = 0 ∧ s.pmm.pgdir (mmuPde c.vaddr) = 0 then
      c.frame.toList ++ s.used
    else s.used

lemma setStep_cases {s t : PmmRun} {c : SetCall} (h : setStep s c = some t) :
    Admissible s c ∧
      ((pmmSetPage s.pmm c.vaddr c.info c.frame).2 ≠ none ∧ t = s ∨
        ∃ pmm, pmmSetPage s.pmm c.vaddr c.info c.frame = (pmm, none) ∧ t = setDone s c pmm) := by
  by_cases hadm : Admissible s c
  · rw [setStep, if_pos hadm] at h
    refine ⟨hadm, ?_⟩
    cases hset : pmmSetPage s.pmm c.vaddr c.info c.frame with
    | mk pmm error =>
      rw [hset] at h
      cases error with
      | none => exact .inr ⟨pmm, rfl, (Option.some.inj h).symm⟩
      | some error =>
        have hpmm : (pmmSetPage s.pmm c.vaddr c.info c.frame).1 = s.pmm :=
          pmmSetPage_error (by simp [hset])
        rw [hset] at hpmm
        refine .inl ⟨by simp, ?_⟩
        rw [← Option.some.inj h, show pmm = s.pmm from hpmm]
  · rw [setStep, if_neg hadm] at h
    cases h

namespace PmmOk
variable {s t : PmmRun}

lemma get_same (h : PmmOk s) (hpde : pmm'.pgdir (mmuPde vaddr) = s.pmm.pgdir (mmuPde vaddr))
    (hframes : ∀ frame, frame.toNat < 2 ^ 28 → frame ∈ s.used →
      s.pmm.pgdir (mmuPde vaddr) = tableEntry frame → pmm'.frames frame = s.pmm.frames frame) :
    pmmGetPage pmm' vaddr = s.map (pageOf vaddr) := by
  rw [← h.get vaddr]
  cases h.entry (mmuPde vaddr) with
  | zero entry live => rw [get_zero entry, get_zero (hpde.trans entry)]
  | huge info ok entry live => rw [get_huge ok entry, get_huge ok (hpde.trans entry)]
  | table frame used lt entry live =>
    rw [get_table lt entry, get_table lt (hpde.trans entry), hframes frame lt used entry]

lemma setHuge (h : PmmOk s) {info : PageInfo} {val : BitVec 32} {live : Bool}
    (hhuge : info.attr &&& pmmHuge ≠ 0)
    (hval : val = 0 ∧ live = false ∧ info.attr &&& pmmClear ≠ 0 ∨
      HugeOk info ∧ val = hugeEntry info ∧ live = true ∧ info.attr &&& pmmClear = 0) :
    PmmOk
      { pmm := s.pmm.setPde (mmuPde vaddr) val
        map := s.map.set vaddr info
        live := Function.update s.live (mmuPde vaddr) live
        used := s.used } := by
  have hentry : (s.pmm.setPde (mmuPde vaddr) val).pgdir (mmuPde vaddr) = val :=
    Function.update_self _ _ _
  have hother : ∀ {pde : ℕ}, pde ≠ mmuPde vaddr →
      (s.pmm.setPde (mmuPde vaddr) val).pgdir pde = s.pmm.pgdir pde :=
    fun hne => Function.update_of_ne hne _ _
  have hnot : ∀ {frame : BitVec 32}, val ≠ tableEntry frame := by
    intro frame heq
    rcases hval with ⟨rfl, -, -⟩ | ⟨ok, rfl, -, -⟩
    · exact tableEntry_ne_zero heq.symm
    · exact tableEntry_ne_huge ok heq.symm
  constructor
  · intro v
    simp only [PageMap.set, if_pos hhuge]
    rw [← mmuPde_eq]
    by_cases hpde : mmuPde v = mmuPde vaddr
    · rw [if_pos hpde]
      rcases hval with ⟨rfl, -, hclear⟩ | ⟨ok, rfl, -, hclear⟩
      · rw [if_pos hclear]
        exact get_zero (by rw [hpde, hentry])
      · rw [if_neg (not_not.mpr hclear)]
        exact get_huge ok (by rw [hpde, hentry])
    · rw [if_neg hpde]
      exact h.get_same (hother hpde) fun _ _ _ _ => rfl
  · intro pde
    by_cases hpde : pde = mmuPde vaddr
    · subst hpde
      rcases hval with ⟨rfl, rfl, -⟩ | ⟨ok, rfl, rfl, -⟩
      · exact .zero hentry (Function.update_self _ _ _)
      · exact .huge info ok hentry (Function.update_self _ _ _)
    · cases h.entry pde with
      | zero entry live' =>
        exact .zero ((hother hpde).trans entry) ((Function.update_of_ne hpde _ _).trans live')
      | huge info' ok entry live' =>
        exact .huge info' ok ((hother hpde).trans entry)
          ((Function.update_of_ne hpde _ _).trans live')
      | table frame used lt entry live' =>
        exact .table frame used lt ((hother hpde).trans entry)
          ((Function.update_of_ne hpde _ _).trans live')
  · intro pde pde' frame lt hp hp'
    by_cases hpde : pde = mmuPde vaddr
    · subst hpde
      exact absurd (hentry.symm.trans hp) hnot
    · by_cases hpde' : pde' = mmuPde vaddr
      · subst hpde'
        exact absurd (hentry.symm.trans hp') hnot
      · exact h.distinct pde pde' frame lt ((hother hpde).symm.trans hp)
          ((hother hpde').symm.trans hp')

lemma setSmall (h : PmmOk s) {info new : PageInfo} {frame : BitVec 32}
    (hhuge : info.attr &&& pmmHuge = 0) (hlt : frame.toNat < 2 ^ 28)
    (hentry : s.pmm.pgdir (mmuPde vaddr) = tableEntry frame) (hinfo : info.ppn.toNat < 2 ^ 28)
    (hnew : new = if info.attr &&& pmmClear ≠ 0 then ⟨0, 0⟩ else info) :
    PmmOk
      { pmm := s.pmm.setPte frame (mmuPte vaddr) new
        map := s.map.set vaddr info
        live := s.live
        used := s.used } := by
  refine ⟨fun v => ?_, fun pde => ?_, h.distinct⟩
  · have hnot : ¬info.attr &&& pmmHuge ≠ 0 := not_not.mpr hhuge
    simp only [PageMap.set, if_neg hnot]
    rw [← hnew]
    by_cases hpde : mmuPde v = mmuPde vaddr
    · have hppn : new.ppn.toNat < 2 ^ 28 := by
        rw [hnew]
        split_ifs
        · decide
        · exact hinfo
      rw [get_setPte hlt (by rw [hpde, hentry]) hpde.symm hppn, h.get v]
    · have hpage : pageOf v ≠ pageOf vaddr := by
        intro heq
        apply hpde
        rw [mmuPde_eq, mmuPde_eq, heq]
      rw [if_neg hpage]
      refine h.get_same rfl fun table lt _ hp => ?_
      have hne : table ≠ frame := by
        rintro rfl
        exact hpde (h.distinct _ _ _ lt hp hentry)
      exact Function.update_of_ne hne _ _
  · cases h.entry pde with
    | zero entry live => exact .zero entry live
    | huge info' ok entry live => exact .huge info' ok entry live
    | table frame' used lt entry live => exact .table frame' used lt entry live

lemma allocTable (h : PmmOk s) {frame : BitVec 32} (hlive : s.live (mmuPde vaddr) = false)
    (hzero : s.pmm.pgdir (mmuPde vaddr) = 0) (hfresh : frame ∉ s.used) (hlt : frame.toNat < 2 ^ 28) :
    PmmOk
      { pmm := (s.pmm.allocTable frame).setPde (mmuPde vaddr) (tableEntry frame)
        map := s.map
        live := s.live
        used := frame :: s.used } := by
  have hentry : ((s.pmm.allocTable frame).setPde (mmuPde vaddr) (tableEntry frame)).pgdir
      (mmuPde vaddr) = tableEntry frame := Function.update_self _ _ _
  have hother : ∀ {pde : ℕ}, pde ≠ mmuPde vaddr →
      ((s.pmm.allocTable frame).setPde (mmuPde vaddr) (tableEntry frame)).pgdir pde =
        s.pmm.pgdir pde := fun hne => Function.update_of_ne hne _ _
  have hnew : ∀ {pde : ℕ}, s.pmm.pgdir pde ≠ tableEntry frame := by
    intro pde heq
    cases h.entry pde with
    | zero entry live => exact tableEntry_ne_zero (heq.symm.trans entry)
    | huge info ok entry live => exact tableEntry_ne_huge ok (heq.symm.trans entry)
    | table frame' used lt entry live =>
      obtain rfl := tableEntry_inj hlt lt (heq.symm.trans entry)
      exact hfresh used
  constructor
  · intro v
    by_cases hpde : mmuPde v = mmuPde vaddr
    · have hbefore : s.map (pageOf v) = ⟨0, 0⟩ := by
        rw [← h.get v]
        exact get_zero (by rw [hpde, hzero])
      have hframe : ((s.pmm.allocTable frame).setPde (mmuPde vaddr) (tableEntry frame)).frames frame =
          fun _ => 0 := Function.update_self _ _ _
      rw [hbefore, get_table hlt (by rw [hpde, hentry]), hframe]
      simp
    · refine h.get_same (hother hpde) fun table lt used hp => ?_
      have hne : table ≠ frame := by
        rintro rfl
        exact hfresh used
      exact Function.update_of_ne hne _ _
  · intro pde
    by_cases hpde : pde = mmuPde vaddr
    · subst hpde
      exact .table frame List.mem_cons_self hlt hentry hlive
    · cases h.entry pde with
      | zero entry live => exact .zero ((hother hpde).trans entry) live
      | huge info ok entry live => exact .huge info ok ((hother hpde).trans entry) live
      | table frame' used lt entry live =>
        exact .table frame' (List.mem_cons_of_mem _ used) lt ((hother hpde).trans entry) live
  · intro pde pde' frame' lt hp hp'
    by_cases hpde : pde = mmuPde vaddr
    · by_cases hpde' : pde' = mmuPde vaddr
      · rw [hpde, hpde']
      · subst hpde
        obtain rfl := tableEntry_inj hlt lt (hentry.symm.trans hp)
        exact absurd ((hother hpde').symm.trans hp') hnew
    · by_cases hpde' : pde' = mmuPde vaddr
      · subst hpde'
        obtain rfl := tableEntry_inj hlt lt (hentry.symm.trans hp')
        exact absurd ((hother hpde).symm.trans hp) hnew
      · exact h.distinct pde pde' frame' lt ((hother hpde).symm.trans hp)
          ((hother hpde').symm.trans hp')

lemma set_small (h : PmmOk s) {info : PageInfo} {frame : Option (BitVec 32)}
    (hhuge : info.attr &&& pmmHuge = 0) (hlive : s.live (mmuPde vaddr) = false)
    (hinfo : info.ppn.toNat < 2 ^ 28)
    (hframe : ∀ ptePpn, frame = some ptePpn → ptePpn ∉ s.used ∧ ptePpn.toNat < 2 ^ 28)
    (hset : pmmSetPage s.pmm vaddr info frame = (pmm', none)) :
    PmmOk
      { pmm := pmm'
        map := s.map.set vaddr info
        live := s.live
        used := if s.pmm.pgdir (mmuPde vaddr) = 0 then frame.toList ++ s.used else s.used } := by
  have hnot : ¬info.attr &&& pmmHuge ≠ 0 := not_not.mpr hhuge
  simp only [pmmSetPage, if_neg hnot] at hset
  cases h.entry (mmuPde vaddr) with
  | zero entry live =>
    cases frame with
    | none => simp [entry] at hset
    | some ptePpn =>
      obtain ⟨hfresh, hlt⟩ := hframe ptePpn rfl
      have htable := h.allocTable hlive entry hfresh hlt
      simp only [if_pos entry, Prod.mk.injEq, and_true] at hset ⊢
      rw [← hset]
      exact htable.setSmall hhuge hlt (Function.update_self _ _ _) hinfo rfl
  | huge info' ok entry live => simp [hlive] at live
  | table table used lt entry live =>
    have hne : s.pmm.pgdir (mmuPde vaddr) ≠ 0 := by
      rw [entry]
      exact tableEntry_ne_zero
    simp only [if_neg hne, Prod.mk.injEq, and_true] at hset ⊢
    rw [← hset, entry, tableEntry_frame lt]
    exact h.setSmall hhuge lt entry hinfo rfl

lemma set_huge (h : PmmOk s) {info : PageInfo} {frame : Option (BitVec 32)}
    (hhuge : info.attr &&& pmmHuge ≠ 0) (hinfo : info.attr &&& pmmClear ≠ 0 ∨ HugeOk info)
    (hset : pmmSetPage s.pmm vaddr info frame = (pmm', none)) :
    PmmOk
      { pmm := pmm'
        map := s.map.set vaddr info
        live := Function.update s.live (mmuPde vaddr) (info.attr &&& pmmClear = 0)
        used := s.used } := by
  simp only [pmmSetPage, if_pos hhuge] at hset
  by_cases hclear : info.attr &&& pmmClear = 0
  · have hok : HugeOk info := hinfo.resolve_left (not_not.mpr hclear)
    rw [if_neg (not_not.mpr hclear)] at hset
    split_ifs at hset with herror
    · cases hset
    rw [← (Prod.mk.inj hset).1]
    exact h.setHuge hhuge (.inr ⟨hok, rfl, decide_eq_true hclear, hclear⟩)
  · have hval : (pmmHuge ^^^ pmmHuge) ||| ((0 : BitVec 32) >>> 9) = 0 := by decide
    rw [if_pos hclear, if_neg (by simp), hval] at hset
    rw [← (Prod.mk.inj hset).1]
    exact h.setHuge hhuge (.inl ⟨rfl, decide_eq_false hclear, hclear⟩)

lemma start (h : pmmMachine.init s) : PmmOk s := by
  obtain ⟨hpgdir, hmap, hlive⟩ := h
  constructor
  · intro v
    rw [get_zero (hpgdir _), hmap]
  · intro pde
    exact .zero (hpgdir pde) (hlive pde)
  · intro pde pde' frame lt hp hp'
    exact absurd (hp.symm.trans (hpgdir pde)) tableEntry_ne_zero

lemma step (h : PmmOk s) {c : SetCall} (hstep : setStep s c = some t) : PmmOk t := by
  obtain ⟨⟨hframe, hcall⟩, ⟨-, rfl⟩ | ⟨pmm, hset, rfl⟩⟩ := setStep_cases hstep
  · exact h
  · by_cases hhuge : c.info.attr &&& pmmHuge = 0
    · rw [if_neg (not_not.mpr hhuge)] at hcall
      simpa [setDone, hhuge] using h.set_small hhuge hcall.1 hcall.2 hframe hset
    · rw [if_pos hhuge] at hcall
      have hinfo : c.info.attr &&& pmmClear ≠ 0 ∨ HugeOk c.info := by
        refine hcall.imp_right fun hok => ?_
        exact ⟨hok.1, hhuge, hok.2.1, hok.2.2.1, hok.2.2.2⟩
      rw [setDone, if_pos hhuge, if_neg fun hsmall => hhuge hsmall.1]
      exact h.set_huge hhuge hinfo hset

end PmmOk

/-- After every run of calls the table gives for each page what the successful calls have set last.
A call that fails changes nothing, and one that succeeds is seen in the pages it covers only. -/
theorem page_table_map {s : PmmRun} (h : pmmMachine.Reachable s) :
    (∀ vaddr, pmmGetPage s.pmm vaddr = s.map (pageOf vaddr)) ∧
      ∀ (c : SetCall) (t : PmmRun), pmmMachine.step s c = some t →
        ((pmmSetPage s.pmm c.vaddr c.info c.frame).2 ≠ none → t = s) ∧
          ((pmmSetPage s.pmm c.vaddr c.info c.frame).2 = none →
            t.map = s.map.set c.vaddr c.info ∧
              ∀ vaddr,
                (if c.info.attr &&& pmmHuge ≠ 0 then mmuPde vaddr ≠ mmuPde c.vaddr
                  else pageOf vaddr ≠ pageOf c.vaddr) →
                pmmGetPage t.pmm vaddr = pmmGetPage s.pmm vaddr) := by
  have hs : PmmOk s := h.invariant (fun _ => .start) fun _ _ _ hi hstep => hi.step hstep
  refine ⟨hs.get, fun c t hstep => ?_⟩
  obtain ⟨-, ⟨herror, rfl⟩ | ⟨pmm, hset, rfl⟩⟩ := setStep_cases hstep
  · exact ⟨fun _ => rfl, fun hsuccess => absurd hsuccess herror⟩
  · refine ⟨fun herror => absurd (by rw [hset]) herror, fun _ => ⟨rfl, fun vaddr hother => ?_⟩⟩
    rw [(hs.step hstep).get, hs.get]
    simp only [setDone, PageMap.set]
    by_cases hhuge : c.info.attr &&& pmmHuge = 0
    · rw [if_neg (not_not.mpr hhuge)] at hother ⊢
      rw [if_neg hother]
    · rw [if_pos hhuge] at hother ⊢
      rw [← mmuPde_eq, if_neg hother]

def pmmZero : PmmRun := ⟨⟨fun _ => 0, fun _ _ => 0⟩, fun _ => ⟨0, 0⟩, fun _ => false, [1]⟩

def pmmCalls : List SetCall :=
  [⟨0x00401000#32, ⟨pmmPresent, 7⟩, some 2⟩, ⟨0x00402000#32, ⟨pmmPresent, 8⟩, some 3⟩,
    ⟨0x00401000#32, ⟨pmmClear, 0⟩, none⟩, ⟨0x00800000#32, ⟨pmmPresent ||| pmmHuge, 512⟩, none⟩]

def pmmLast : PmmRun := (pmmMachine.run pmmZero pmmCalls).getD pmmZero

lemma pmmLast_reachable : pmmMachine.Reachable pmmLast := by
  have hsome : (pmmMachine.run pmmZero pmmCalls).isSome = true := by decide +kernel
  refine Machine.Reachable.run (.init ⟨fun _ => rfl, fun _ => rfl, fun _ => rfl⟩) pmmCalls
    (s := pmmZero) ?_
  rw [pmmLast, ← Option.some_get hsome, Option.getD_some]

theorem page_table_map_calls :
    pmmGetPage pmmLast.pmm 0x00401abc#32 = ⟨0, 0⟩ ∧
      pmmGetPage pmmLast.pmm 0x00402abc#32 = ⟨pmmPresent, 8⟩ ∧
      pmmGetPage pmmLast.pmm 0x00803abc#32 = ⟨pmmPresent ||| pmmHuge, 515⟩ := by
  obtain ⟨hget, -⟩ := page_table_map pmmLast_reachable
  rw [hget, hget, hget]
  decide +kernel

end Almos.Tsar
