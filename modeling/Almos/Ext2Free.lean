import Almos.Ext2Node

/-!
# Releasing the blocks of an inode

`ext2_node_free_blocks` goes through the slots of the inode, reading each indirect block sixteen
references at a time. The calls of `ext2_bfree` are listed in order; the bitmaps they change are not
among the blocks read.
-/
namespace Almos.Ext2

def batchSize : ℕ := 16

variable (ctx : BlkSize) (st : NodeState)

/-- `ext2_free_blks` -/
def ext2FreeBlks (blkTbl : List ℕ) : List ℕ := blkTbl.filter (· ≠ 0)

/-- The references of the `i`th batch of a block. -/
def batch (blk i : ℕ) : List ℕ := (List.range batchSize).map fun j => st.disk blk (i * batchSize + j)

/-- The rounds over a block, `ctx->blk_size / (count << 2)`. -/
def batches : ℕ := 2 ^ ctx.blkSizeLog / (batchSize * 4)

/-- `ext2_free_blks_rec`, where the first argument is `level - 1 - current_level`. -/
def ext2FreeBlksRec : ℕ → ℕ → List ℕ
  | 0, currentBlk =>
      if currentBlk = 0 then []
      else
        ((List.range (batches ctx)).flatMap fun i => ext2FreeBlks (batch st currentBlk i)) ++
          [currentBlk]
  | left + 1, currentBlk =>
      if currentBlk = 0 then []
      else
        ((List.range (batches ctx)).flatMap fun i =>
          (batch st currentBlk i).flatMap (ext2FreeBlksRec left)) ++ [currentBlk]

/-- `ext2_node_free_blocks` -/
def ext2NodeFreeBlocks : List ℕ :=
  ext2FreeBlks ((List.range 12).map st.iBlock) ++
    (List.range' 1 (3 - 1)).flatMap fun level =>
      ext2FreeBlksRec ctx st (level - 1) (st.iBlock (11 + level))

/-- The blocks below a reference with `depth` levels of indirect blocks, and the block itself. -/
def treeBlocks : ℕ → ℕ → List ℕ
  | 0, blk => if blk = 0 then [] else [blk]
  | depth + 1, blk =>
      if blk = 0 then []
      else
        blk :: (List.range (2 ^ ctx.refLog)).flatMap fun k => treeBlocks depth (st.disk blk k)

def inodeBlocks : List ℕ :=
  (List.range 15).flatMap fun slot => treeBlocks ctx st (slot - 11) (st.iBlock slot)

def ReleasesAll : Prop :=
  ∀ blk, (ext2NodeFreeBlocks ctx st).count blk = if blk ∈ inodeBlocks ctx st then 1 else 0

variable {ctx st}

lemma flatMap_range_mul {α : Type*} (m n : ℕ) (f : ℕ → List α) :
    (List.range (m * n)).flatMap f =
      (List.range m).flatMap fun i => (List.range n).flatMap fun j => f (i * n + j) := by
  induction m with
  | zero => simp
  | succ m ih =>
    rw [Nat.succ_mul, List.range_add, List.flatMap_append, ih, List.range_succ,
      List.flatMap_append, List.flatMap_singleton, List.flatMap_map]

lemma batches_mul (ctx : BlkSize) : batches ctx * batchSize = 2 ^ ctx.refLog := by
  obtain ⟨log, hge, hle⟩ := ctx
  simp only [batches, batchSize, BlkSize.refLog]
  interval_cases log <;> rfl

lemma flatMap_batches {α : Type*} (blk : ℕ) (f : ℕ → List α) :
    ((List.range (batches ctx)).flatMap fun i => (batch st blk i).flatMap f) =
      (List.range (2 ^ ctx.refLog)).flatMap fun k => f (st.disk blk k) := by
  rw [← batches_mul, flatMap_range_mul]
  simp only [batch, List.flatMap_map]

variable (ctx st) in
lemma ext2FreeBlks_eq (blkTbl : List ℕ) :
    ext2FreeBlks blkTbl = blkTbl.flatMap (treeBlocks ctx st 0) := by
  induction blkTbl with
  | nil => rfl
  | cons blk rest ih =>
    rw [List.flatMap_cons, ← ih, ext2FreeBlks, ext2FreeBlks, treeBlocks, List.filter_cons]
    by_cases hzero : blk = 0 <;> simp [hzero]

variable (ctx st) in
/-- The recursion releases the blocks of a tree, an indirect block after those below it. -/
lemma ext2FreeBlksRec_perm (left blk : ℕ) :
    (ext2FreeBlksRec ctx st left blk).Perm (treeBlocks ctx st (left + 1) blk) := by
  induction left generalizing blk with
  | zero =>
    rw [ext2FreeBlksRec, treeBlocks]
    split_ifs
    · exact .refl _
    · simp only [ext2FreeBlks_eq ctx st, flatMap_batches]
      exact List.perm_append_singleton blk _
  | succ left ih =>
    rw [ext2FreeBlksRec, treeBlocks]
    split_ifs
    · exact .refl _
    · rw [flatMap_batches]
      refine (List.perm_append_singleton blk _).trans (.cons blk ?_)
      exact List.Perm.flatMap_left _ fun k _ => ih (st.disk blk k)

variable (ctx st) in
lemma inodeBlocks_perm :
    (inodeBlocks ctx st).Perm
      (ext2NodeFreeBlocks ctx st ++ treeBlocks ctx st 3 (st.iBlock 14)) := by
  have hslots : inodeBlocks ctx st = ((List.range 12).map st.iBlock).flatMap (treeBlocks ctx st 0) ++
      (treeBlocks ctx st 1 (st.iBlock 12) ++ (treeBlocks ctx st 2 (st.iBlock 13) ++
        treeBlocks ctx st 3 (st.iBlock 14))) := by
    simp [inodeBlocks, List.range_succ]
  rw [hslots, ext2NodeFreeBlocks, ext2FreeBlks_eq ctx st, List.append_assoc]
  refine .append_left _ ?_
  have hone := ext2FreeBlksRec_perm ctx st 0 (st.iBlock 12)
  have htwo := ext2FreeBlksRec_perm ctx st 1 (st.iBlock 13)
  rw [← List.append_assoc]
  refine .append_right _ ?_
  simpa [List.range'] using (hone.append htwo).symm

/-- The release covers the inode if and only if it has no triple indirect block. -/
theorem ext2_release_covers (hdistinct : (inodeBlocks ctx st).Nodup) :
    ReleasesAll ctx st ↔ st.iBlock 14 = 0 := by
  have hperm := inodeBlocks_perm ctx st
  have hsplit := hperm.nodup_iff.1 hdistinct
  constructor
  · intro h
    by_contra hne
    have htriple : st.iBlock 14 ∈ treeBlocks ctx st 3 (st.iBlock 14) := by
      rw [treeBlocks, if_neg hne]
      exact List.mem_cons_self
    have hcount := h (st.iBlock 14)
    rw [if_pos (hperm.mem_iff.2 (List.mem_append_right _ htriple))] at hcount
    have hmem : st.iBlock 14 ∈ ext2NodeFreeBlocks ctx st :=
      List.count_pos_iff.1 (hcount ▸ Nat.one_pos)
    exact List.disjoint_of_nodup_append hsplit hmem htriple
  · intro hzero blk
    have htree : treeBlocks ctx st 3 (st.iBlock 14) = [] := by rw [treeBlocks, if_pos hzero]
    rw [htree, List.append_nil] at hperm
    rw [← hperm.count_eq]
    split_ifs with hmem
    · exact List.count_eq_one_of_mem hdistinct hmem
    · exact List.count_eq_zero_of_not_mem hmem

/-- An inode with the slots of `slots` and no reference in any of its blocks. -/
def smallInode (slots : ℕ → ℕ) : NodeState := ⟨slots, fun _ _ => 0, [], 0⟩

def smallBlk : BlkSize := kiloBlks

lemma treeBlocks_zero (depth : ℕ) : treeBlocks ctx st depth 0 = [] := by
  cases depth <;> rw [treeBlocks, if_pos rfl]

lemma smallInode_tree (slots : ℕ → ℕ) (depth blk : ℕ) :
    treeBlocks smallBlk (smallInode slots) depth blk = if blk = 0 then [] else [blk] := by
  cases depth with
  | zero => rw [treeBlocks]
  | succ depth =>
    have hempty : ((List.range (2 ^ smallBlk.refLog)).flatMap fun k =>
        treeBlocks smallBlk (smallInode slots) depth ((smallInode slots).disk blk k)) = [] := by
      rw [List.flatMap_eq_nil_iff]
      exact fun k _ => treeBlocks_zero depth
    rw [treeBlocks, hempty]

lemma smallInode_blocks (slots : ℕ → ℕ) : inodeBlocks smallBlk (smallInode slots) =
    (List.range 15).flatMap fun slot => if slots slot = 0 then [] else [slots slot] := by
  simp only [inodeBlocks, smallInode_tree]
  rfl

theorem ext2_release_covers_two :
    ReleasesAll smallBlk (smallInode fun slot => if slot = 0 ∨ slot = 12 then slot + 5 else 0) := by
  refine (ext2_release_covers ?_).2 rfl
  rw [smallInode_blocks]
  decide

/-- The triple indirect block of an inode that has nothing else is not released. -/
theorem ext2_release_misses_triple :
    (inodeBlocks smallBlk (smallInode fun slot => if slot = 14 then 7 else 0)).Nodup ∧
      ¬ReleasesAll smallBlk (smallInode fun slot => if slot = 14 then 7 else 0) := by
  have hblocks := smallInode_blocks fun slot => if slot = 14 then 7 else 0
  refine ⟨?_, fun h => ?_⟩
  · rw [hblocks]
    decide
  · have hcount := h 7
    rw [hblocks] at hcount
    exact absurd hcount (by decide)

end Almos.Ext2
