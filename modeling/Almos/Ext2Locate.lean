import Mathlib
import Almos.Ext2Node
import Almos.Machine

/-!
# Where ext2 blocks are found

The format gives each logical index a slot and, behind it, the digits of the residual index. In
runs where no index needs a digit other than the last, and the chain of indirect blocks of a level
is first made for the first index of that level, `ext2_node_blks_locate` follows it. Beyond that the
upper digits are computed with a shift too many and a chain of new blocks repeats one digit.
-/
namespace Almos.Ext2

def firstBlk (log : ℕ) : ℕ → ℕ
  | 0 => 0
  | 1 => 12
  | level + 2 => firstBlk log (level + 1) + 2 ^ ((level + 1) * log)

/-- The last `n` digits of `r` in base `2 ^ log`, most significant first. -/
def digits (log : ℕ) : ℕ → ℕ → List ℕ
  | 0, _ => []
  | n + 1, r => digits log n (r / 2 ^ log) ++ [r % 2 ^ log]

/-- The slot of an index and the path behind it in the ext2 format: 12 direct blocks, then single,
double and triple indirect ones. -/
def slotPath (log b : ℕ) : ℕ × List ℕ :=
  if b < 12 then (b, [])
  else if b < firstBlk log 2 then (12, digits log 1 (b - firstBlk log 1))
  else if b < firstBlk log 3 then (13, digits log 2 (b - firstBlk log 2))
  else (14, digits log 3 (b - firstBlk log 3))

def slotDepth (slot : ℕ) : ℕ := slot - 11

def NodeState.tree (st : NodeState) : RefTree ℕ ℕ ℕ := ⟨st.iBlock, st.disk⟩

lemma digits_length (log n r : ℕ) : (digits log n r).length = n := by
  induction n generalizing r with
  | zero => rfl
  | succ n ih => simp [digits, ih]

lemma digits_injective {log n r r' : ℕ} (hr : r < 2 ^ (n * log)) (hr' : r' < 2 ^ (n * log))
    (h : digits log n r = digits log n r') : r = r' := by
  induction n generalizing r r' with
  | zero =>
    rw [Nat.zero_mul, pow_zero] at hr hr'
    omega
  | succ n ih =>
    rw [Nat.succ_mul, pow_add] at hr hr'
    have hhigh : digits log n (r / 2 ^ log) = digits log n (r' / 2 ^ log) :=
      List.append_inj_left' h rfl
    have hlow : r % 2 ^ log = r' % 2 ^ log := by
      simpa using List.append_inj_right' h rfl
    have hdiv := ih (Nat.div_lt_of_lt_mul (by rwa [mul_comm] at hr))
      (Nat.div_lt_of_lt_mul (by rwa [mul_comm] at hr')) hhigh
    rw [← Nat.div_add_mod r (2 ^ log), ← Nat.div_add_mod r' (2 ^ log), hdiv, hlow]

lemma digits_of_lt {log r : ℕ} (hr : r < 2 ^ log) (n : ℕ) :
    digits log (n + 1) r = List.replicate n 0 ++ [r] := by
  induction n generalizing r with
  | zero => simp [digits, Nat.mod_eq_of_lt hr]
  | succ n ih =>
    rw [digits, Nat.div_eq_of_lt hr, Nat.mod_eq_of_lt hr, ih (Nat.two_pow_pos log),
      ← List.replicate_succ']

lemma firstBlk_one (log : ℕ) : firstBlk log 1 = 12 := rfl

lemma firstBlk_succ {log level : ℕ} (h : 0 < level) :
    firstBlk log (level + 1) = firstBlk log level + 2 ^ (level * log) := by
  cases level with
  | zero => omega
  | succ level => rfl

lemma indirectLevelFrom_eq_some {log todo i b level : ℕ} (hi : 0 < i)
    (h : indirectLevelFrom log todo i (b - firstBlk log i) = some level)
    (hb : firstBlk log i ≤ b) :
    i ≤ level ∧ level < i + todo ∧ firstBlk log level ≤ b ∧ b < firstBlk log (level + 1) := by
  induction todo generalizing i with
  | zero => simp [indirectLevelFrom] at h
  | succ todo ih =>
    rw [indirectLevelFrom] at h
    have hsucc : firstBlk log (i + 1) = firstBlk log i + 2 ^ (i * log) := firstBlk_succ hi
    split_ifs at h with hlt
    · cases h
      exact ⟨le_rfl, by omega, hb, by omega⟩
    · rw [Nat.sub_sub, ← hsucc] at h
      have hrest := ih (by omega) h (by omega)
      exact ⟨by omega, by omega, hrest.2.2⟩

lemma indirectLevelFrom_isSome {log todo i b : ℕ} (hi : 0 < i) (hb : firstBlk log i ≤ b)
    (hlt : b < firstBlk log (i + todo)) :
    ∃ level, indirectLevelFrom log todo i (b - firstBlk log i) = some level := by
  induction todo generalizing i with
  | zero =>
    rw [Nat.add_zero] at hlt
    omega
  | succ todo ih =>
    rw [indirectLevelFrom]
    split_ifs with hcount
    · exact ⟨i, rfl⟩
    · have hsucc : firstBlk log (i + 1) = firstBlk log i + 2 ^ (i * log) := firstBlk_succ hi
      rw [Nat.sub_sub, ← hsucc]
      apply ih
      · omega
      · omega
      · rwa [Nat.add_right_comm, Nat.add_assoc]

variable {src : BlkSource} {ctx : BlkSize}

lemma ext2GetIndirectLevel_eq_some {b level : ℕ} (h : ext2GetIndirectLevel ctx b = some level) :
    level ≤ 3 ∧ firstBlk ctx.refLog level ≤ b ∧ b < firstBlk ctx.refLog (level + 1) := by
  unfold ext2GetIndirectLevel at h
  split_ifs at h with hlt
  · cases h
    exact ⟨by omega, Nat.zero_le b, hlt⟩
  · have hlevel := indirectLevelFrom_eq_some Nat.one_pos h (by rw [firstBlk_one]; omega)
    exact ⟨by omega, hlevel.2.2⟩

lemma ext2GetIndirectLevel_isSome {b : ℕ} (h : b < firstBlk ctx.refLog 4) :
    ∃ level, ext2GetIndirectLevel ctx b = some level := by
  unfold ext2GetIndirectLevel
  split_ifs with hlt
  · exact ⟨0, rfl⟩
  · exact indirectLevelFrom_isSome Nat.one_pos (by rw [firstBlk_one]; omega) h

lemma firstBlk_mono (log level : ℕ) : firstBlk log level ≤ firstBlk log (level + 1) := by
  cases level with
  | zero => exact Nat.zero_le _
  | succ level => exact Nat.le_add_right _ _

lemma slotPath_direct {log b : ℕ} (h : b < 12) : slotPath log b = (b, []) := if_pos h

lemma slotPath_indirect {log b level : ℕ} (hlevel : level + 1 ≤ 3)
    (hfirst : firstBlk log (level + 1) ≤ b) (hlast : b < firstBlk log (level + 2)) :
    slotPath log b = (11 + (level + 1), digits log (level + 1) (b - firstBlk log (level + 1))) := by
  have h12 : 12 ≤ firstBlk log 2 := firstBlk_mono log 1
  have h23 : firstBlk log 2 ≤ firstBlk log 3 := firstBlk_mono log 2
  unfold slotPath
  match level with
  | 0 =>
    have hdirect : ¬b < 12 := Nat.not_lt.mpr hfirst
    rw [if_neg hdirect, if_pos hlast]
  | 1 =>
    have hsingle : ¬b < firstBlk log 2 := Nat.not_lt.mpr hfirst
    rw [if_neg (by omega), if_neg hsingle, if_pos hlast]
  | 2 =>
    have hdouble : ¬b < firstBlk log 3 := Nat.not_lt.mpr hfirst
    rw [if_neg (by omega), if_neg (by omega), if_neg hdouble]

lemma slotPath_length {log b : ℕ} : (slotPath log b).2.length = slotDepth (slotPath log b).1 := by
  unfold slotPath
  split_ifs with hdirect
  · simp only [slotDepth, List.length_nil]
    omega
  · exact digits_length log 1 _
  · exact digits_length log 2 _
  · exact digits_length log 3 _

lemma slotPath_injective {b b' : ℕ} (hb : b < firstBlk ctx.refLog 4)
    (hb' : b' < firstBlk ctx.refLog 4) (h : slotPath ctx.refLog b = slotPath ctx.refLog b') :
    b = b' := by
  obtain ⟨level, hlevel⟩ := ext2GetIndirectLevel_isSome hb
  obtain ⟨level', hlevel'⟩ := ext2GetIndirectLevel_isSome hb'
  obtain ⟨hle, hfirst, hlast⟩ := ext2GetIndirectLevel_eq_some hlevel
  obtain ⟨hle', hfirst', hlast'⟩ := ext2GetIndirectLevel_eq_some hlevel'
  cases level with
  | zero =>
    rw [slotPath_direct hlast] at h
    cases level' with
    | zero =>
      rw [slotPath_direct hlast'] at h
      exact congrArg Prod.fst h
    | succ level' =>
      rw [slotPath_indirect hle' hfirst' hlast'] at h
      have hslot : b = 11 + (level' + 1) := congrArg Prod.fst h
      have hdirect : b < 12 := hlast
      omega
  | succ level =>
    rw [slotPath_indirect hle hfirst hlast] at h
    cases level' with
    | zero =>
      rw [slotPath_direct hlast'] at h
      have hslot : 11 + (level + 1) = b' := congrArg Prod.fst h
      have hdirect : b' < 12 := hlast'
      omega
    | succ level' =>
      rw [slotPath_indirect hle' hfirst' hlast'] at h
      obtain rfl : level = level' := by
        have hslot : 11 + (level + 1) = 11 + (level' + 1) := congrArg Prod.fst h
        omega
      rw [firstBlk_succ (show 0 < level + 1 from Nat.succ_pos level)] at hlast hlast'
      have hsame := digits_injective (by omega) (by omega) (congrArg Prod.snd h)
      omega

def NodeState.Linked (st : NodeState) : Prop := st.tree.Linked slotDepth {b | b ∈ st.used}

/-- No place shares its block with another, and places that had a block keep it. -/
structure Grown (st st' : NodeState) : Prop where
  linked : st'.Linked
  keeps : ∀ slot path, path.length ≤ slotDepth slot → st.tree.node slot path ≠ 0 →
    st'.tree.node slot path = st.tree.node slot path

variable {st st' st'' : NodeState}

lemma Grown.refl (h : st.Linked) : Grown st st := ⟨h, fun _ _ _ _ => rfl⟩

lemma Grown.trans (h : Grown st st') (h' : Grown st' st'') : Grown st st'' := by
  refine ⟨h'.linked, fun slot path hpath hne => ?_⟩
  have hkeep := h.keeps slot path hpath hne
  rw [h'.keeps slot path hpath (by rwa [hkeep]), hkeep]

lemma Grown.of_node_eq (h : st.Linked)
    (hnode : ∀ slot path, path.length ≤ slotDepth slot →
      st'.tree.node slot path = st.tree.node slot path)
    (hsub : ∀ b ∈ st.used, b ∈ st'.used) : Grown st st' :=
  ⟨RefTree.Linked.of_node_eq h hnode hsub, fun slot path hpath _ => hnode slot path hpath⟩

lemma Grown.of_attached {slot new : ℕ} {path : List ℕ} (h : st.Linked) (hnew : new ∉ st.used)
    (hatt : RefTree.Attached slotDepth st.tree st'.tree slot path new)
    (hused : ∀ b, b ∈ st'.used ↔ b = new ∨ b ∈ st.used) : Grown st st' := by
  have hset : {b | b ∈ st'.used} = insert new {b | b ∈ st.used} := Set.ext hused
  refine ⟨?_, fun slot path hpath hne => hatt.keeps hpath hne⟩
  rw [NodeState.Linked, hset]
  exact RefTree.Linked.attach h hnew hatt

/-- What `ext2_node_new` does: it fails and changes nothing in the tree, or it has a block that was
not in use and that holds no references unless it is a leaf. -/
structure NewBlk (st st' : NodeState) (isLeaf : Bool) (blk : ℕ) : Prop where
  fresh : blk ∉ st.used
  ne_zero : blk ≠ 0
  slots : st'.iBlock = st.iBlock
  used : st'.used = blk :: st.used
  other : ∀ b, b ≠ blk → st'.disk b = st.disk b
  empty : isLeaf = false → ∀ i, st'.disk blk i = 0

variable (src) in
lemma ext2NodeNew_cases (h : st.Linked) (isLeaf : Bool) :
    (∃ st' err, ext2NodeNew src st isLeaf = (st', .error err) ∧ Grown st st') ∨
      ∃ st' blk, ext2NodeNew src st isLeaf = (st', .ok blk) ∧ NewBlk st st' isLeaf blk := by
  have hfresh := src.balloc_notMem st.used
  have hzero := src.balloc_ne_zero st.used
  unfold ext2NodeNew
  cases isLeaf with
  | true => exact .inr ⟨_, _, rfl, hfresh, hzero, rfl, rfl, fun _ _ => rfl, by simp⟩
  | false =>
    cases hget : src.blkGet st.gets with
    | some err =>
      refine .inl ⟨{ st with gets := st.gets + 1 }, err, by simp [hget], ?_⟩
      exact Grown.of_node_eq h (fun _ _ _ => rfl) fun _ hb => hb
    | none =>
      simp only [hget]
      refine .inr ⟨_, _, rfl, hfresh, hzero, rfl, rfl, ?_, ?_⟩
      · intro b hb
        exact Function.update_of_ne hb _ _
      · simp

lemma NewBlk.grown {isLeaf : Bool} {blk : ℕ} (h : st.Linked) (hnew : NewBlk st st' isLeaf blk) :
    Grown st st' := by
  apply Grown.of_node_eq h
  · intro slot path hpath
    apply RefTree.Linked.node_eq h hnew.slots _ hpath
    intro b hb
    exact hnew.other b (ne_of_mem_of_not_mem hb hnew.fresh)
  · intro b hb
    rw [hnew.used]
    exact List.mem_cons_of_mem blk hb

lemma NewBlk.attach_slot {isLeaf : Bool} {blk slot : ℕ} (h : st.Linked)
    (hnew : NewBlk st st' isLeaf blk) (hempty : st.iBlock slot = 0)
    (hleaf : 0 < slotDepth slot → isLeaf = false) :
    RefTree.Attached slotDepth st.tree
      ({ st' with iBlock := Function.update st'.iBlock slot blk } : NodeState).tree slot [] blk := by
  apply RefTree.Linked.attach_root h hnew.fresh hempty
  · simp [NodeState.tree]
  · intro s hs
    change Function.update st'.iBlock slot blk s = st.iBlock s
    rw [Function.update_of_ne hs, hnew.slots]
  · exact hnew.other
  · exact fun hdepth => hnew.empty (hleaf hdepth)

lemma NewBlk.attach_entry {isLeaf : Bool} {blk slot parent index gets : ℕ} {path : List ℕ}
    (h : st.Linked) (hnew : NewBlk st st' isLeaf blk) (hpath : path.length < slotDepth slot)
    (hparent : st.tree.node slot path = parent) (hne : parent ≠ 0)
    (hempty : st.tree.node slot (path ++ [index]) = 0)
    (hleaf : path.length + 1 < slotDepth slot → isLeaf = false) :
    RefTree.Attached slotDepth st.tree
      ({ st' with
          gets := gets
          disk := Function.update st'.disk parent (Function.update (st'.disk parent) index blk) } :
        NodeState).tree slot (path ++ [index]) blk := by
  subst hparent
  have hused : st.tree.node slot path ∈ st.used := h.used slot path hpath.le hne
  have hblk : st.tree.node slot path ≠ blk := ne_of_mem_of_not_mem hused hnew.fresh
  apply RefTree.Linked.attach_child h hnew.fresh hnew.ne_zero hpath hne hempty
  · exact hnew.slots
  · intro b hb hbp
    change Function.update st'.disk _ _ b = st.disk b
    rw [Function.update_of_ne hbp, hnew.other b hb]
  · simp [NodeState.tree]
  · intro j hj
    change Function.update st'.disk _ _ _ j = st.disk _ j
    rw [Function.update_self, Function.update_of_ne hj, hnew.other _ hblk]
  · intro hdepth j
    change Function.update st'.disk _ _ blk j = 0
    rw [Function.update_of_ne hblk.symm]
    exact hnew.empty (hleaf hdepth) j

/-- The path to the block that is `j` levels above the data, for a residual index `r` that is a
single digit. -/
def pathTo (level r j : ℕ) : List ℕ :=
  if j = 0 then List.replicate (level - 1) 0 ++ [r] else List.replicate (level - j) 0

variable {level r j index current parent blkIndex : ℕ}

lemma pathTo_top (h : 0 < level) : pathTo level r level = [] := by
  rw [pathTo, if_neg h.ne', Nat.sub_self, List.replicate_zero]

lemma pathTo_pred (h : j < level) :
    pathTo level r j = pathTo level r (j + 1) ++ [if j = 0 then r else 0] := by
  cases j with
  | zero => rfl
  | succ j =>
    have hlevel : level - (j + 1) = level - (j + 2) + 1 := by omega
    rw [pathTo, pathTo, if_neg (by omega), if_neg (by omega), if_neg (by omega), hlevel,
      List.replicate_succ']

lemma pathTo_length (h : j ≤ level) (hlevel : 0 < level) :
    (pathTo level r j).length = level - j := by
  unfold pathTo
  split_ifs with hj
  · rw [List.length_append, List.length_replicate, List.length_singleton]
    omega
  · exact List.length_replicate

lemma slotDepth_indirect (level : ℕ) : slotDepth (11 + level) = level :=
  Nat.add_sub_cancel_left 11 level

/-- Right under the slot, or for the first index of the level, or once the last indirect block of
the chain is there, a chain of new blocks repeats the right digit. -/
def ChainReady (st : NodeState) (level r : ℕ) : Prop :=
  level = 1 ∨ r = 0 ∨ st.tree.node (11 + level) (pathTo level r 1) ≠ 0

lemma ChainReady.grown (h : ChainReady st level r) (hlevel : 0 < level) (hgrown : Grown st st') :
    ChainReady st' level r := by
  rcases h with hone | hzero | hlast
  · exact .inl hone
  · exact .inr (.inl hzero)
  · have hpath : (pathTo level r 1).length ≤ slotDepth (11 + level) := by
      rw [pathTo_length hlevel hlevel, slotDepth_indirect]
      omega
    exact .inr (.inr (by rwa [hgrown.keeps _ _ hpath hlast]))

/-- An indirect block of the chain is missing only for the first index of the level. -/
lemma ChainReady.eq_zero (h : ChainReady st level r) (hj : 0 < j) (hlt : j < level)
    (hmissing : st.tree.node (11 + level) (pathTo level r j) = 0) : r = 0 := by
  rcases h with hone | hzero | hlast
  · omega
  · exact hzero
  · have hsplit : pathTo level r 1 = pathTo level r j ++ List.replicate (j - 1) 0 := by
      rw [pathTo, pathTo, if_neg one_ne_zero, if_neg hj.ne', ← List.replicate_add]
      congr 1
      omega
    rw [hsplit] at hlast
    exact absurd (RefTree.node_append_eq_zero hmissing _) hlast

/-- What holds at the head of the loop over `current_blk` and `j`. -/
structure AtLoop (st : NodeState) (level r current parent j index : ℕ) : Prop where
  linked : st.Linked
  ready : ChainReady st level r
  le : j ≤ level
  here : current = st.tree.node (11 + level) (pathTo level r j)
  slot : current = 0 → parent = 0 → j = level
  entry : current = 0 → parent ≠ 0 → j < level ∧
    parent = st.tree.node (11 + level) (pathTo level r (j + 1)) ∧ index = if j = 0 then r else 0

structure Walked (st : NodeState) (level r : ℕ)
    (res : NodeState × Except Ext2Error (ℕ × Bool)) : Prop where
  grown : Grown st res.1
  found : ∀ blk isNew, res.2 = .ok (blk, isNew) → blk ≠ 0 ∧
    res.1.tree.node (11 + level) (pathTo level r 0) = blk

lemma Walked.after {res : NodeState × Except Ext2Error (ℕ × Bool)} (h : Walked st' level r res)
    (hgrown : Grown st st') : Walked st level r res := ⟨hgrown.trans h.grown, h.found⟩

lemma Walked.error {err : Ext2Error} (h : Grown st st') : Walked st level r (st', .error err) :=
  ⟨h, fun _ _ heq => by cases heq⟩

lemma Grown.get (h : st.Linked) (n : ℕ) : Grown st { st with gets := n } :=
  .of_node_eq h (fun _ _ _ => rfl) fun _ hb => hb

lemma AtLoop.created (h : AtLoop st level r 0 parent j index) (hlevel : 0 < level)
    (hparent : parent ≠ 0) {blk : ℕ} (hne : blk ≠ 0) (hgrown : Grown st st')
    (hatt : RefTree.Attached slotDepth st.tree st'.tree (11 + level) (pathTo level r j) blk)
    (hj : 0 < j) : AtLoop st' level r 0 blk (j - 1) index := by
  obtain ⟨hlt, -, hindex⟩ := h.entry rfl hparent
  have hr : r = 0 := h.ready.eq_zero hj hlt h.here.symm
  have hpath : pathTo level r (j - 1) = pathTo level r j ++ [if j - 1 = 0 then r else 0] := by
    rw [pathTo_pred (show j - 1 < level by omega), Nat.sub_add_cancel hj]
  have hlength : (pathTo level r (j - 1)).length ≤ slotDepth (11 + level) := by
    rw [pathTo_length (by omega) hlevel, slotDepth_indirect]
    omega
  refine ⟨hgrown.linked, h.ready.grown hlevel hgrown, by omega, ?_, fun _ hzero => absurd hzero hne,
    fun _ _ => ⟨by omega, ?_, ?_⟩⟩
  · rw [hatt.other _ _ hlength]
    · rw [hpath, RefTree.node_append_eq_zero h.here.symm]
    · intro hsame
      have hlengths := congrArg List.length hsame.2
      rw [hpath] at hlengths
      simp at hlengths
  · rw [Nat.sub_add_cancel hj, hatt.here]
  · rw [hindex, if_neg hj.ne', hr, ite_self]

lemma AtLoop.attach_entry (h : AtLoop st level r 0 parent j index) (hlevel : 0 < level)
    (hparent : parent ≠ 0) {blk : ℕ} (hnew : NewBlk st st' (parent != 0 && j == 0) blk)
    (gets : ℕ) :
    RefTree.Attached slotDepth st.tree
      ({ st' with
          gets := gets
          disk := Function.update st'.disk parent (Function.update (st'.disk parent) index blk) } :
        NodeState).tree (11 + level) (pathTo level r j) blk := by
  obtain ⟨hlt, hparentBlk, hindex⟩ := h.entry rfl hparent
  have hpath : pathTo level r j = pathTo level r (j + 1) ++ [index] := by
    rw [hindex, ← pathTo_pred hlt]
  have hlength : (pathTo level r (j + 1)).length = level - (j + 1) := pathTo_length hlt hlevel
  rw [hpath]
  apply hnew.attach_entry h.linked _ hparentBlk.symm hparent
  · rw [← hpath, ← h.here]
  · intro hinner
    rw [hlength, slotDepth_indirect] at hinner
    have hj : j ≠ 0 := by omega
    simp [hj]
  · rw [hlength, slotDepth_indirect]
    omega

lemma AtLoop.slot_created (h : AtLoop st level r 0 0 level index) (hlevel : 0 < level) {blk : ℕ}
    (hne : blk ≠ 0) (hgrown : Grown st st')
    (hatt : RefTree.Attached slotDepth st.tree st'.tree (11 + level) [] blk) :
    AtLoop st' level r blk blk level index := by
  refine ⟨hgrown.linked, h.ready.grown hlevel hgrown, le_rfl, ?_, fun hzero => absurd hzero hne,
    fun hzero => absurd hzero hne⟩
  rw [pathTo_top hlevel, hatt.here]

lemma AtLoop.read (h : AtLoop st level r current parent j index) (hlevel : 0 < level)
    (hne : current ≠ 0) (hj : 0 < j) (gets : ℕ) :
    AtLoop { st with gets := gets } level r (st.disk current (if j - 1 = 0 then r else 0)) current
      (j - 1) (if j - 1 = 0 then r else 0) := by
  have hle := h.le
  have hgrown := Grown.get h.linked gets
  refine ⟨hgrown.linked, h.ready.grown hlevel hgrown, by omega, ?_, fun _ hzero => absurd hzero hne,
    fun _ _ => ⟨by omega, ?_, rfl⟩⟩
  · rw [pathTo_pred (show j - 1 < level by omega), Nat.sub_add_cancel hj, RefTree.node_concat]
    change _ = if st.tree.node (11 + level) (pathTo level r j) = 0 then 0
      else st.disk (st.tree.node (11 + level) (pathTo level r j)) _
    rw [← h.here, if_neg hne]
  · rw [Nat.sub_add_cancel hj]
    exact h.here

section Walk
variable (hlevel : 0 < level) (hhigh : ∀ j, 1 < j → blkIndex / 2 ^ (j * ctx.refLog) = 0)
  (hlow : blkIndex % 2 ^ (1 * ctx.refLog) = r)
include hhigh hlow

/-- The index that is read, for a residual index with zeros for its upper digits. -/
lemma readIndex_eq (hj : 0 < j) :
    (if 1 < j then blkIndex / 2 ^ (j * ctx.refLog) else blkIndex % 2 ^ (j * ctx.refLog)) =
      if j - 1 = 0 then r else 0 := by
  split_ifs with hupper hlast
  · omega
  · exact hhigh j hupper
  · obtain rfl : j = 1 := by omega
    exact hlow
  · omega

include hlevel

theorem walk_spec {fuel : ℕ} (hfuel : j + 1 + (if current = 0 ∧ parent = 0 then 1 else 0) ≤ fuel)
    (h : AtLoop st level r current parent j index) :
    ∃ res, walk src ctx level blkIndex fuel st current parent j index = some res ∧
      Walked st level r res := by
  induction fuel generalizing st current parent j index with
  | zero => omega
  | succ fuel ih =>
    rw [walk]
    by_cases hcurrent : current = 0
    · subst hcurrent
      rw [if_pos rfl]
      rcases ext2NodeNew_cases src h.linked (parent != 0 && j == 0) with
        ⟨st', err, hnode, hgrown⟩ | ⟨st', blk, hnode, hnew⟩
      · rw [hnode]
        exact ⟨_, rfl, .error hgrown⟩
      have hblk := hnew.ne_zero
      rw [hnode]
      by_cases hparent : parent = 0
      · -- the slot is empty
        subst hparent
        obtain rfl : j = level := h.slot rfl rfl
        have hempty : 0 = st.iBlock (11 + j) := by
          have hhere := h.here
          rwa [pathTo_top hlevel] at hhere
        have hatt := hnew.attach_slot h.linked hempty.symm (by simp)
        have hgrown := Grown.of_attached h.linked hnew.fresh hatt (by simp [hnew.used])
        rw [if_pos ⟨rfl, rfl⟩] at hfuel
        have hless : j + 1 + (if blk = 0 ∧ blk = 0 then 1 else 0) ≤ fuel := by
          rw [if_neg fun hboth => hblk hboth.1]
          omega
        obtain ⟨res, hres, hwalked⟩ := ih hless (h.slot_created hlevel hblk hgrown hatt)
        exact ⟨res, hres, hwalked.after hgrown⟩
      · -- an entry is empty
        obtain ⟨hlt, hparentBlk, hindex⟩ := h.entry rfl hparent
        cases hget : src.blkGet st'.gets with
        | some err =>
          simp only [if_neg hparent]
          rw [hget]
          have hgrown := hnew.grown h.linked
          exact ⟨_, rfl, .error (hgrown.trans (.get hgrown.linked _))⟩
        | none =>
          simp only [if_neg hparent]
          rw [hget]
          have hatt := h.attach_entry hlevel hparent hnew (st'.gets + 1)
          have hgrown := Grown.of_attached h.linked hnew.fresh hatt (by simp [hnew.used])
          by_cases hj : j = 0
          · rw [if_pos hj]
            refine ⟨_, rfl, hgrown, ?_⟩
            intro found isNew heq
            cases heq
            exact ⟨hblk, hj ▸ hatt.here⟩
          · rw [if_neg hj]
            have hless : j - 1 + 1 + (if 0 = 0 ∧ blk = 0 then 1 else 0) ≤ fuel := by
              rw [if_neg fun hboth => hblk hboth.2]
              omega
            obtain ⟨res, hres, hwalked⟩ := ih hless
              (h.created hlevel hparent hblk hgrown hatt (Nat.pos_of_ne_zero hj))
            exact ⟨res, hres, hwalked.after hgrown⟩
    · rw [if_neg hcurrent]
      by_cases hj : 0 < j
      · rw [if_pos hj]
        cases hget : src.blkGet st.gets with
        | some err => exact ⟨_, rfl, .error (.get h.linked _)⟩
        | none =>
          have hnext := h.read hlevel hcurrent hj (st.gets + 1)
          rw [← readIndex_eq hhigh hlow hj] at hnext
          have hless : j - 1 + 1 + (if st.disk current (if 1 < j then
              blkIndex / 2 ^ (j * ctx.refLog) else blkIndex % 2 ^ (j * ctx.refLog)) = 0 ∧
              current = 0 then 1 else 0) ≤ fuel := by
            rw [if_neg fun hboth => hcurrent hboth.2]
            omega
          obtain ⟨res, hres, hwalked⟩ := ih hless hnext
          exact ⟨res, hres, hwalked.after (.get h.linked _)⟩
      · obtain rfl : j = 0 := by omega
        rw [if_neg hj]
        refine ⟨_, rfl, .refl h.linked, ?_⟩
        rintro blk isNew heq
        cases heq
        exact ⟨hcurrent, h.here.symm⟩

end Walk

/-! ### One index, and the blocks of a page -/

lemma refLog_pos (ctx : BlkSize) : 0 < ctx.refLog := by
  have hge := ctx.log_ge
  rw [BlkSize.refLog]
  omega

/-- The residual index of the source, which at the third level is too large by the capacity of the
first. -/
lemma residual_cases {b : ℕ} (hlevel : level + 1 ≤ 3)
    (hfirst : firstBlk ctx.refLog (level + 1) ≤ b) :
    (if 1 < level + 1 then b - 12 - 2 ^ (level * ctx.refLog) else b - 12) =
        b - firstBlk ctx.refLog (level + 1) ∨
      (if 1 < level + 1 then b - 12 - 2 ^ (level * ctx.refLog) else b - 12) =
        b - firstBlk ctx.refLog (level + 1) + 2 ^ ctx.refLog := by
  match level with
  | 0 => exact .inl rfl
  | 1 => exact .inl (Nat.sub_sub b 12 _)
  | 2 =>
    right
    have hthird : firstBlk ctx.refLog 3 = 12 + 2 ^ ctx.refLog + 2 ^ (2 * ctx.refLog) := by
      rw [firstBlk, firstBlk, firstBlk, Nat.zero_add, Nat.one_mul]
    have hge : firstBlk ctx.refLog 3 ≤ b := hfirst
    have hpos := Nat.two_pow_pos ctx.refLog
    rw [if_pos (by omega)]
    change _ = b - firstBlk ctx.refLog 3 + _
    omega

/-- What `ext2_node_blks_locate` needs for an index: a single digit behind the slot, and the chain
of its level begun by the first index. -/
def Direct (ctx : BlkSize) (st : NodeState) (b : ℕ) : Prop :=
  ∀ level, ext2GetIndirectLevel ctx b = some level → level ≤ 1 ∨
    b - firstBlk ctx.refLog level < 2 ^ ctx.refLog ∧
      ChainReady st level (b - firstBlk ctx.refLog level)

structure Placed (ctx : BlkSize) (st : NodeState) (b : ℕ)
    (res : NodeState × Except Ext2Error (ℕ × Bool)) : Prop where
  grown : Grown st res.1
  found : ∀ blk isNew, res.2 = .ok (blk, isNew) → blk ≠ 0 ∧
    res.1.tree.node (slotPath ctx.refLog b).1 (slotPath ctx.refLog b).2 = blk

lemma locateBlk_direct {b : ℕ} (h : st.Linked) (hb : b < 12) :
    ∃ res, locateBlk src ctx st b = some res ∧ Placed ctx st b res := by
  have hlevel : ext2GetIndirectLevel ctx b = some 0 := if_pos hb
  rw [locateBlk, hlevel]
  by_cases hslot : st.iBlock b = 0
  · simp only [hslot, ne_eq, not_true_eq_false, if_false]
    have hnew : NewBlk st { st with used := src.balloc st.used :: st.used } true
        (src.balloc st.used) :=
      ⟨src.balloc_notMem _, src.balloc_ne_zero _, rfl, rfl, fun _ _ => rfl, by simp⟩
    have hdepth : slotDepth b = 0 := by
      rw [slotDepth]
      omega
    have hatt := hnew.attach_slot h hslot (by simp [hdepth])
    refine ⟨_, rfl, Grown.of_attached h hnew.fresh hatt (by simp), ?_⟩
    intro blk isNew heq
    cases heq
    rw [slotPath_direct hb]
    exact ⟨hnew.ne_zero, hatt.here⟩
  · simp only [ne_eq, hslot, not_false_eq_true, if_true]
    refine ⟨_, rfl, .refl h, ?_⟩
    intro blk isNew heq
    cases heq
    rw [slotPath_direct hb]
    exact ⟨hslot, rfl⟩

lemma locateBlk_indirect {b : ℕ} (h : st.Linked)
    (hlevel : ext2GetIndirectLevel ctx b = some (level + 1))
    (hdigit : b - firstBlk ctx.refLog (level + 1) < 2 ^ ctx.refLog)
    (hready : ChainReady st (level + 1) (b - firstBlk ctx.refLog (level + 1))) :
    ∃ res, locateBlk src ctx st b = some res ∧ Placed ctx st b res := by
  obtain ⟨hle, hfirst, hlast⟩ := ext2GetIndirectLevel_eq_some hlevel
  obtain ⟨r, hr⟩ : ∃ r, r = b - firstBlk ctx.refLog (level + 1) := ⟨_, rfl⟩
  rw [← hr] at hdigit hready
  obtain ⟨residual, hresidual⟩ : ∃ residual, residual =
    if 1 < level + 1 then b - 12 - 2 ^ (level * ctx.refLog) else b - 12 := ⟨_, rfl⟩
  have hcases : residual = r ∨ residual = r + 2 ^ ctx.refLog := by
    rw [hresidual, hr]
    exact residual_cases hle hfirst
  have hhigh : ∀ j, 1 < j → residual / 2 ^ (j * ctx.refLog) = 0 := by
    intro j hj
    apply Nat.div_eq_of_lt
    have hexp : ctx.refLog + 1 ≤ j * ctx.refLog := by
      have hpos := refLog_pos ctx
      nlinarith
    have hpow : 2 ^ (ctx.refLog + 1) ≤ 2 ^ (j * ctx.refLog) := Nat.pow_le_pow_right (by omega) hexp
    rw [pow_succ] at hpow
    omega
  have hlow : residual % 2 ^ (1 * ctx.refLog) = r := by
    rw [Nat.one_mul]
    rcases hcases with heq | heq
    · rw [heq, Nat.mod_eq_of_lt hdigit]
    · rw [heq, Nat.add_mod_right, Nat.mod_eq_of_lt hdigit]
  have hpos : 0 < level + 1 := Nat.succ_pos level
  have hloop : AtLoop st (level + 1) r (st.iBlock (11 + (level + 1)))
      (st.iBlock (11 + (level + 1))) (level + 1) 0 := by
    refine ⟨h, hready, le_rfl, ?_, fun _ _ => rfl, fun hzero hne => absurd hzero hne⟩
    rw [pathTo_top hpos]
    rfl
  have hfuel : level + 1 + 1 + (if st.iBlock (11 + (level + 1)) = 0 ∧
      st.iBlock (11 + (level + 1)) = 0 then 1 else 0) ≤ level + 4 := by
    split_ifs <;> omega
  obtain ⟨res, hres, hwalked⟩ := walk_spec hpos hhigh hlow hfuel hloop
  refine ⟨res, ?_, hwalked.grown, ?_⟩
  · rw [locateBlk, hlevel, ← hres, hresidual]
  · intro blk isNew heq
    have hpath : pathTo (level + 1) r 0 = digits ctx.refLog (level + 1) r :=
      (digits_of_lt hdigit level).symm
    rw [slotPath_indirect hle hfirst hlast, ← hr, ← hpath]
    exact hwalked.found blk isNew heq

theorem locateBlk_spec {b : ℕ} (h : st.Linked) (hb : b < firstBlk ctx.refLog 4)
    (hdirect : Direct ctx st b) : ∃ res, locateBlk src ctx st b = some res ∧ Placed ctx st b res := by
  obtain ⟨level, hlevel⟩ := ext2GetIndirectLevel_isSome hb
  obtain ⟨-, -, hlast⟩ := ext2GetIndirectLevel_eq_some hlevel
  cases level with
  | zero => exact locateBlk_direct h hlast
  | succ level =>
    rcases hdirect _ hlevel with hone | ⟨hdigit, hready⟩
    · obtain rfl : level = 0 := by omega
      refine locateBlk_indirect h hlevel ?_ (.inl rfl)
      have hpos := Nat.two_pow_pos ctx.refLog
      rw [firstBlk, Nat.zero_add, Nat.one_mul] at hlast
      rw [Nat.zero_add]
      omega
    · exact locateBlk_indirect h hlevel hdigit hready

/-- What a call for `n` indexes from `b` on needs: past the first indirect block, a single digit
behind the slot, and the first index of the level in this call or its chain there already. -/
def Covered (ctx : BlkSize) (st : NodeState) (b n : ℕ) : Prop :=
  ∀ b', b ≤ b' → b' < b + n → ∀ level, ext2GetIndirectLevel ctx b' = some level → level ≤ 1 ∨
    b' - firstBlk ctx.refLog level < 2 ^ ctx.refLog ∧ (b ≤ firstBlk ctx.refLog level ∨
      st.tree.node (11 + level) (List.replicate (level - 1) 0) ≠ 0)

lemma Covered.direct {b n : ℕ} (h : Covered ctx st b (n + 1)) : Direct ctx st b := by
  intro level hlevel
  have hfirst := (ext2GetIndirectLevel_eq_some hlevel).2.1
  rcases h b le_rfl (by omega) level hlevel with hone | ⟨hdigit, hstart | hlast⟩
  · exact .inl hone
  · exact .inr ⟨hdigit, .inr (.inl (by omega))⟩
  · exact .inr ⟨hdigit, .inr (.inr hlast)⟩

lemma Placed.chain {b blk : ℕ} {isNew : Bool} (h : Placed ctx st b (st', .ok (blk, isNew)))
    (hle : level + 1 ≤ 3) (hb : b = firstBlk ctx.refLog (level + 1))
    (hlast : b < firstBlk ctx.refLog (level + 2)) :
    st'.tree.node (11 + (level + 1)) (List.replicate level 0) ≠ 0 := by
  obtain ⟨hne, hfound⟩ := h.found blk isNew rfl
  rw [slotPath_indirect hle hb.ge hlast, hb, Nat.sub_self,
    digits_of_lt (Nat.two_pow_pos ctx.refLog)] at hfound
  intro hzero
  apply hne
  rw [← hfound]
  exact RefTree.node_append_eq_zero hzero _

lemma Covered.next {b n blk : ℕ} {isNew : Bool} (h : Covered ctx st b (n + 1))
    (hplaced : Placed ctx st b (st', .ok (blk, isNew))) : Covered ctx st' (b + 1) n := by
  intro b' hle hlt level hlevel
  have hlast := (ext2GetIndirectLevel_eq_some hlevel).2.2
  have hthree := (ext2GetIndirectLevel_eq_some hlevel).1
  cases level with
  | zero => exact .inl (Nat.zero_le 1)
  | succ level =>
    rcases h b' (by omega) (by omega) _ hlevel with hone | ⟨hdigit, hstart | hchain⟩
    · exact .inl hone
    · rcases hstart.eq_or_lt with heq | hbefore
      · exact .inr ⟨hdigit, .inr (hplaced.chain hthree heq (lt_of_le_of_lt (by omega) hlast))⟩
      · exact .inr ⟨hdigit, .inl hbefore⟩
    · have hlength : (List.replicate (level + 1 - 1) 0).length ≤ slotDepth (11 + (level + 1)) := by
        rw [List.length_replicate, slotDepth_indirect]
        omega
      refine .inr ⟨hdigit, .inr ?_⟩
      rwa [hplaced.grown.keeps _ _ hlength hchain]

structure Filled (ctx : BlkSize) (st : NodeState) (b n : ℕ) (res : Located) : Prop where
  grown : Grown st res.node
  found : ∀ x ∈ res.blks.zipIdx b, x.2 < b + n ∧ x.1.1 ≠ 0 ∧
    res.node.tree.node (slotPath ctx.refLog x.2).1 (slotPath ctx.refLog x.2).2 = x.1.1
  all : res.err = none → res.blks.length = n

variable (src) in
theorem locateFrom_spec {b n : ℕ} (h : st.Linked) (hb : b + n ≤ firstBlk ctx.refLog 4)
    (hcover : Covered ctx st b n) :
    ∃ res, locateFrom src ctx n b st = some res ∧ Filled ctx st b n res := by
  induction n generalizing b st with
  | zero => exact ⟨⟨st, [], none⟩, rfl, .refl h, by simp, fun _ => rfl⟩
  | succ n ih =>
    obtain ⟨⟨st₁, out⟩, hblk, hplaced⟩ := locateBlk_spec h (by omega) hcover.direct
    rw [locateFrom, hblk]
    cases out with
    | error err => exact ⟨⟨st₁, [], some err⟩, rfl, hplaced.grown, by simp, by simp⟩
    | ok entry =>
      obtain ⟨rest, hrest, hfilled⟩ := ih hplaced.grown.linked (by omega) (hcover.next hplaced)
      refine ⟨{ rest with blks := entry :: rest.blks }, by simp [hrest],
        hplaced.grown.trans hfilled.grown, ?_, ?_⟩
      · intro x hx
        rw [List.zipIdx_cons] at hx
        rcases List.mem_cons.mp hx with rfl | hx
        · obtain ⟨hne, hfound⟩ := hplaced.found entry.1 entry.2 rfl
          refine ⟨by simp, hne, ?_⟩
          rw [← hfound]
          apply hfilled.grown.keeps _ _ slotPath_length.le
          rwa [hfound]
        · obtain ⟨hlt, hne, hfound⟩ := hfilled.found x hx
          exact ⟨by omega, hne, hfound⟩
      · intro herr
        rw [List.length_cons, hfilled.all herr]

section AllReadable
variable (hget : ∀ k, src.blkGet k = none)
include hget

lemma ext2NodeNew_ok (st : NodeState) (isLeaf : Bool) :
    ∃ st' blk, ext2NodeNew src st isLeaf = (st', .ok blk) := by
  simp only [ext2NodeNew, hget]
  cases isLeaf with
  | true => exact ⟨_, _, rfl⟩
  | false => exact ⟨_, _, rfl⟩

lemma walk_ok {fuel : ℕ} {res : NodeState × Except Ext2Error (ℕ × Bool)}
    (h : walk src ctx level blkIndex fuel st current parent j index = some res) :
    ∃ entry, res.2 = .ok entry := by
  induction fuel generalizing st current parent j index with
  | zero => simp [walk] at h
  | succ fuel ih =>
    obtain ⟨st', blk, hnew⟩ := ext2NodeNew_ok hget st (parent != 0 && j == 0)
    simp only [walk, hnew, hget] at h
    split_ifs at h
    · exact ih h
    · cases h
      exact ⟨_, rfl⟩
    · exact ih h
    · exact ih h
    · exact ih h
    · cases h
      exact ⟨_, rfl⟩

lemma locateBlk_ok {b : ℕ} {res : NodeState × Except Ext2Error (ℕ × Bool)}
    (h : locateBlk src ctx st b = some res) : ∃ entry, res.2 = .ok entry := by
  rw [locateBlk] at h
  split at h
  · cases h
  · split_ifs at h
    · cases h
      exact ⟨_, rfl⟩
    · cases h
      exact ⟨_, rfl⟩
  · exact walk_ok hget h

lemma locateFrom_ok {b n : ℕ} {res : Located} (h : locateFrom src ctx n b st = some res) :
    res.err = none := by
  induction n generalizing b st res with
  | zero =>
    cases h
    rfl
  | succ n ih =>
    rw [locateFrom] at h
    split at h
    · cases h
    · rename_i hblk
      obtain ⟨entry, hentry⟩ := locateBlk_ok hget hblk
      cases hentry
    · obtain ⟨rest, hrest, rfl⟩ := Option.map_eq_some_iff.mp h
      have herr : rest.err = none := ih hrest
      exact herr

end AllReadable

/-- The inode with the disk, and the indexes located so far with the blocks they were given. -/
structure NodeRun where
  node : NodeState
  located : List (ℕ × ℕ)

/-- The state after a call that filled its table as `res` says. -/
def NodeRun.after (s : NodeRun) (blkStart : ℕ) (res : Located) : NodeRun :=
  ⟨res.node, s.located ++ (res.blks.zipIdx blkStart).map fun x => (x.2, x.1.1)⟩

/-- Calls of `ext2_node_blks_locate` for one inode whose slots are all zero at first. -/
def nodeMachine (src : BlkSource) (ctx : BlkSize) : Machine NodeRun ℕ where
  init s := (∀ slot, s.node.iBlock slot = 0) ∧ s.located = []
  step s blkStart := (ext2NodeBlksLocate src ctx s.node blkStart).map (s.after blkStart)

/-- A call for indexes the format has, and that `ext2_node_blks_locate` gets right. -/
def Follows (ctx : BlkSize) (s : NodeRun) (blkStart : ℕ) : Prop :=
  blkStart + ctx.blksPerPage ≤ firstBlk ctx.refLog 4 ∧
    Covered ctx s.node blkStart ctx.blksPerPage

structure NodeRunOk (ctx : BlkSize) (s : NodeRun) : Prop where
  linked : s.node.Linked
  placed : ∀ b blk, (b, blk) ∈ s.located → b < firstBlk ctx.refLog 4 ∧ blk ≠ 0 ∧
    s.node.tree.node (slotPath ctx.refLog b).1 (slotPath ctx.refLog b).2 = blk

lemma NodeRunOk.init {s : NodeRun} (h : (nodeMachine src ctx).init s) : NodeRunOk ctx s := by
  have hzero : ∀ slot path, s.node.tree.node slot path = 0 := by
    intro slot path
    exact RefTree.node_append_eq_zero (show s.node.tree.node slot [] = 0 from h.1 slot) path
  refine ⟨⟨?_, ?_⟩, by simp [h.2]⟩
  · intro r p q s' _ _ hne
    exact absurd (hzero r p) hne
  · intro r p _ hne
    exact absurd (hzero r p) hne

variable (src) in
lemma NodeRunOk.step {s : NodeRun} {blkStart : ℕ} (h : NodeRunOk ctx s)
    (hguard : Follows ctx s blkStart) :
    ∃ res, ext2NodeBlksLocate src ctx s.node blkStart = some res ∧
      (nodeMachine src ctx).step s blkStart = some (s.after blkStart res) ∧
      Filled ctx s.node blkStart ctx.blksPerPage res ∧ NodeRunOk ctx (s.after blkStart res) := by
  obtain ⟨res, hres, hfilled⟩ := locateFrom_spec src h.linked hguard.1 hguard.2
  have hlocate : ext2NodeBlksLocate src ctx s.node blkStart = some res := hres
  refine ⟨res, hlocate, by simp [nodeMachine, hlocate], hfilled, hfilled.grown.linked, ?_⟩
  intro b blk hmem
  rcases List.mem_append.mp hmem with hold | hnew
  · obtain ⟨hb, hne, hfound⟩ := h.placed b blk hold
    refine ⟨hb, hne, ?_⟩
    rw [← hfound]
    apply hfilled.grown.keeps _ _ slotPath_length.le
    rwa [hfound]
  · obtain ⟨x, hx, hpair⟩ := List.mem_map.mp hnew
    cases hpair
    obtain ⟨hlt, hne, hfound⟩ := hfilled.found x hx
    exact ⟨lt_of_lt_of_le hlt hguard.1, hne, hfound⟩

/-- In every run whose calls meet the condition: no two indexes have the same block, an index that
is asked for again has the same block as before, no data block is an indirect block, and each index
is found behind the slot and the digits the format gives it. The next call returns, with blocks for
all its indexes unless an indirect block cannot be read. -/
theorem blks_located_by_format {s : NodeRun}
    (h : (nodeMachine src ctx).Reach (Follows ctx) s) :
    (∀ b b' blk, (b, blk) ∈ s.located → (b', blk) ∈ s.located → b = b') ∧
      (∀ b blk blk', (b, blk) ∈ s.located → (b, blk') ∈ s.located → blk = blk') ∧
      (∀ b blk, (b, blk) ∈ s.located → ∀ slot path, path.length < slotDepth slot →
        s.node.tree.node slot path ≠ blk) ∧
      (∀ b blk, (b, blk) ∈ s.located →
        s.node.tree.node (slotPath ctx.refLog b).1 (slotPath ctx.refLog b).2 = blk) ∧
      ∀ blkStart, Follows ctx s blkStart → ∃ t, (nodeMachine src ctx).step s blkStart = some t ∧
        ((∀ k, src.blkGet k = none) →
          ∀ i < ctx.blksPerPage, ∃ blk, (blkStart + i, blk) ∈ t.located) := by
  have hok : NodeRunOk ctx s := by
    refine h.invariant (fun s => NodeRunOk.init) ?_
    intro s blkStart t hs hguard hstep
    obtain ⟨res, -, hafter, -, hnext⟩ := hs.step src hguard
    obtain rfl : s.after blkStart res = t := Option.some_injective _ (hafter.symm.trans hstep)
    exact hnext
  have hfound : ∀ b blk, (b, blk) ∈ s.located →
      s.node.tree.node (slotPath ctx.refLog b).1 (slotPath ctx.refLog b).2 = blk :=
    fun b blk hb => (hok.placed b blk hb).2.2
  refine ⟨?_, ?_, ?_, hfound, ?_⟩
  · intro b b' blk hb hb'
    obtain ⟨hlt, hne, -⟩ := hok.placed b blk hb
    have hsame := hok.linked.inj _ _ _ _ slotPath_length.le slotPath_length.le
      (by rwa [hfound b blk hb]) ((hfound b blk hb).trans (hfound b' blk hb').symm)
    exact slotPath_injective hlt (hok.placed b' blk hb').1 (Prod.ext hsame.1 hsame.2)
  · intro b blk blk' hb hb'
    rw [← hfound b blk hb, hfound b blk' hb']
  · intro b blk hb slot path hpath heq
    have hne : s.node.tree.node slot path ≠ 0 := by
      rw [heq]
      exact (hok.placed b blk hb).2.1
    have hsame := hok.linked.inj _ _ _ _ hpath.le slotPath_length.le hne
      (heq.trans (hfound b blk hb).symm)
    have hlength : (slotPath ctx.refLog b).2.length = slotDepth (slotPath ctx.refLog b).1 :=
      slotPath_length
    rw [← hsame.1, ← hsame.2] at hlength
    omega
  · intro blkStart hguard
    obtain ⟨res, hres, hafter, hfilled, -⟩ := hok.step src hguard
    refine ⟨_, hafter, ?_⟩
    intro hget i hi
    have hlength := hfilled.all (locateFrom_ok hget hres)
    obtain ⟨entry, hentry⟩ : ∃ entry, res.blks[i]? = some entry :=
      ⟨_, List.getElem?_eq_getElem (by omega)⟩
    refine ⟨entry.1, List.mem_append_right _ (List.mem_map.mpr ⟨(entry, blkStart + i), ?_, rfl⟩)⟩
    rw [List.mk_mem_zipIdx_iff_le_and_getElem?_sub]
    exact ⟨by omega, by rwa [Nat.add_sub_cancel_left]⟩

def nextBlk : BlkSource where
  balloc used := used.foldr max 0 + 1
  balloc_notMem used hmem := by
    have hle : used.foldr max 0 + 1 ≤ used.foldr max 0 :=
      List.le_max_of_le' 0 hmem le_rfl
    omega
  balloc_ne_zero used := Nat.succ_ne_zero _
  blkGet _ := none

def emptyNode : NodeRun := ⟨⟨fun _ => 0, fun _ _ => 0, [], 0⟩, []⟩

lemma emptyNode_init : (nodeMachine nextBlk kiloBlks).init emptyNode := ⟨fun _ => rfl, rfl⟩

lemma emptyNode_follows : Follows kiloBlks emptyNode 268 := by
  refine ⟨by decide, fun b hle hlt level hlevel => .inr ?_⟩
  have hpage : b < 272 := hlt
  have htwo : ext2GetIndirectLevel kiloBlks b = some 2 := by
    interval_cases b <;> rfl
  cases htwo.symm.trans hlevel
  have hfirst : firstBlk kiloBlks.refLog 2 = 268 := rfl
  have hrefs : 2 ^ kiloBlks.refLog = 256 := rfl
  rw [hfirst, hrefs]
  exact ⟨by omega, .inl le_rfl⟩

theorem blks_located_by_format_double : ∃ s,
    (nodeMachine nextBlk kiloBlks).Reach (Follows kiloBlks) s ∧ (268, 3) ∈ s.located ∧
      s.node.tree.node 13 [0, 0] = 3 := by
  obtain ⟨s, hs⟩ : ∃ s, (nodeMachine nextBlk kiloBlks).step emptyNode 268 = some s := ⟨_, rfl⟩
  have hreach : (nodeMachine nextBlk kiloBlks).Reach (Follows kiloBlks) s :=
    .step (.init emptyNode_init) emptyNode_follows hs
  have hmap : ((nodeMachine nextBlk kiloBlks).step emptyNode 268).map NodeRun.located =
      some [(268, 3), (269, 4), (270, 5), (271, 6)] := by decide +kernel
  have hlocated : s.located = [(268, 3), (269, 4), (270, 5), (271, 6)] := by
    rw [hs] at hmap
    exact Option.some_injective _ hmap
  have hmem : (268, 3) ∈ s.located := by simp [hlocated]
  exact ⟨s, hreach, hmem, (blks_located_by_format hreach).2.2.2.1 268 3 hmem⟩

/-- Indexes 256 apart behind the double indirect slot are given the same block, and an index that
makes the chain of its level itself is given another block when it is asked for again. -/
theorem indirect_blks_shared :
    (∃ s, (nodeMachine nextBlk kiloBlks).Reachable s ∧ (268, 3) ∈ s.located ∧
      (524, 3) ∈ s.located) ∧
    ∃ s, (nodeMachine nextBlk kiloBlks).Reachable s ∧ (272, 3) ∈ s.located ∧
      (272, 7) ∈ s.located := by
  have hinit : (nodeMachine nextBlk kiloBlks).Reachable emptyNode := .init emptyNode_init
  have hrun : ∀ calls located,
      ((nodeMachine nextBlk kiloBlks).run emptyNode calls).map NodeRun.located = some located →
      ∃ s, (nodeMachine nextBlk kiloBlks).Reachable s ∧ s.located = located := by
    intro calls located hmap
    obtain ⟨s, hs, hlocated⟩ := Option.map_eq_some_iff.mp hmap
    exact ⟨s, hinit.run calls hs, hlocated⟩
  obtain ⟨s, hs, hshared⟩ := hrun [268, 524] [(268, 3), (269, 4), (270, 5), (271, 6), (524, 3),
    (525, 4), (526, 5), (527, 6)] (by decide +kernel)
  obtain ⟨t, ht, hmoved⟩ := hrun [272, 272] [(272, 3), (273, 4), (274, 5), (275, 6), (272, 7),
    (273, 4), (274, 5), (275, 6)] (by decide +kernel)
  exact ⟨⟨s, hs, by simp [hshared], by simp [hshared]⟩, t, ht, by simp [hmoved], by simp [hmoved]⟩

end Almos.Ext2
