import Almos.Word
import Almos.Machine

/-!
# Radix tree

The dynamic radix tree of the page cache, with the nodes in an explicit heap. A
freed node keeps its contents, as the object cache leaves them, until it is
allocated again. Following a pointer that is null or is an item where the code
expects a node has no result.
-/
namespace Almos
open Word

/-- What a slot of a node points to: an inner node or a stored item. -/
inductive Ptr (ι : Type)
  | node (addr : ℕ)
  | item (value : ι)

structure RadixNode (ι : Type) where
  children : ℕ → Option (Ptr ι)
  tags : BitVec 64
  bitmap : BitVec 64
  parent : Option ℕ
  count : ℕ

structure Radix (ι : Type) where
  rootNode : Option (Ptr ι)
  height : ℕ
  maxKey : ℕ
  nodes : ℕ → RadixNode ι
  live : ℕ → Bool

structure RadixItemInfo where
  node : ℕ
  key : ℕ
  index : ℕ

namespace Radix
variable {ι : Type}

def eNOMEM : ℤ := 12

def eEXIST : ℤ := 17

/-- `memset` to zero. -/
def zeroNode : RadixNode ι := ⟨fun _ => none, 0, 0, none, 0⟩

/-- The slot taken by `key` in a node `level` steps above the leaves. -/
def nextChild (level key : ℕ) : ℕ := (0x3F <<< (level * 6) &&& key) >>> (level * 6)

def maxKeyId (height : ℕ) : ℕ := if height = 6 then 0xFFFFFFFF else 2 ^ (height * 6) - 1

/-- `1LLU << index` -/
def bit (index : ℕ) : BitVec 64 := BitVec.twoPow 64 index

def asNode : Option (Ptr ι) → Option ℕ
  | some (.node a) => some a
  | _ => none

def setNode (root : Radix ι) (a : ℕ) (f : RadixNode ι → RadixNode ι) : Radix ι :=
  { root with nodes := Function.update root.nodes a (f (root.nodes a)) }

def kmemAlloc (root : Radix ι) (a : ℕ) : Radix ι :=
  { root with
    nodes := Function.update root.nodes a zeroNode
    live := Function.update root.live a true }

def kmemFree (root : Radix ι) (a : ℕ) : Radix ι :=
  { root with live := Function.update root.live a false }

end Radix

namespace RadixNode
variable {ι : Type}

def addChild (node : RadixNode ι) (index : ℕ) (child : Ptr ι) : RadixNode ι :=
  { node with
    count := wadd node.count 1
    children := Function.update node.children index (some child)
    bitmap := node.bitmap ||| Radix.bit index }

def dropChild (node : RadixNode ι) (index : ℕ) : RadixNode ι :=
  { node with
    children := Function.update node.children index none
    bitmap := node.bitmap &&& ~~~Radix.bit index
    count := wsub node.count 1
    tags := node.tags &&& ~~~Radix.bit index }

def setItem (node : RadixNode ι) (index : ℕ) (item : ι) : RadixNode ι :=
  { node with children := Function.update node.children index (some (.item item)) }

def setTag (node : RadixNode ι) (index : ℕ) (tag : Bool) : RadixNode ι :=
  { node with
    tags := if tag then node.tags ||| Radix.bit index else node.tags &&& ~~~Radix.bit index }

end RadixNode

namespace Radix
variable {ι : Type}

def radixTreeInit (root : Radix ι) : Radix ι :=
  { root with rootNode := none, height := 0, maxKey := 0 }

/-- `expand_tree`, with the nodes that `kmem_alloc` will deliver. -/
def expandTree (root : Radix ι) (allocs : List ℕ) : Option (Radix ι × ℤ × List ℕ) :=
  match allocs with
  | [] => some (root, -eNOMEM, [])
  | a :: allocs => do
      let child := root.rootNode
      let root := (root.kmemAlloc a).setNode a fun n =>
        { n with children := Function.update n.children 0 child }
      let root ←
        if root.height ≠ 0 then do
          let old ← asNode child
          let tags := if (root.nodes old).tags ≠ 0 then bit 63 else 0
          let root := root.setNode a fun n =>
            { n with tags := tags, count := 1, bitmap := n.bitmap ||| bit 63 }
          some (root.setNode old fun n => { n with parent := some a })
        else some root
      let height := root.height + 1
      some ({ root with
        rootNode := some (.node a), height := height, maxKey := maxKeyId height }, 0, allocs)

/-- The loop of `shrink_tree`, with `height` as the bound on its rounds. -/
def shrinkLoop : ℕ → Radix ι → Option (Radix ι)
  | 0, root => some root
  | fuel + 1, root => do
      let currentNode ← asNode root.rootNode
      let node := root.nodes currentNode
      if node.count ≠ 1 then some root
      else match node.children 0 with
        | none => some root
        | some child =>
            let root := { root with rootNode := some child, height := root.height - 1 }
            shrinkLoop fuel (root.kmemFree currentNode)

def shrinkTree (root : Radix ι) : Option (Radix ι) := do
  let root ← shrinkLoop root.height root
  some { root with maxKey := maxKeyId root.height }

def createNode (root : Radix ι) (node index : ℕ) (allocs : List ℕ) : Radix ι × ℤ × List ℕ :=
  match allocs with
  | [] => (root, -eNOMEM, [])
  | a :: allocs =>
      let root := (root.kmemAlloc a).setNode a fun n => { n with parent := some node }
      (root.setNode node (·.addChild index (.node a)), 0, allocs)

/-- The walk from the parent of a leaf to the root: `level` is the distance of `currentNode`
from the leaves and `deleted` tells whether the child it comes from was freed. -/
def removeUp (key : ℕ) : ℕ → Radix ι → Option ℕ → ℕ → Bool → Option (Radix ι)
  | _, root, none, _, _ => some root
  | 0, _, some _, _, _ => none
  | fuel + 1, root, some currentNode, level, deleted => do
      let index := nextChild level key
      let currentParent := (root.nodes currentNode).parent
      let root ←
        if deleted then some (root.setNode currentNode (·.dropChild index))
        else do
          let temp ← asNode ((root.nodes currentNode).children index)
          some (root.setNode currentNode (·.setTag index ((root.nodes temp).tags ≠ 0)))
      if (root.nodes currentNode).count = 0 then
        removeUp key fuel (root.kmemFree currentNode) currentParent (level + 1) true
      else removeUp key fuel root currentParent (level + 1) false

def walkBound : ℕ := 16

/-- `deleted` is the value that the uninitialised local of that name happens to have. -/
def radixTreeRemoveItem (root : Radix ι) (info : RadixItemInfo) (deleted : Bool) :
    Option (Radix ι) := do
  let root := root.setNode info.node (·.dropChild info.index)
  let empty : Bool := (root.nodes info.node).count = 0
  let parent := (root.nodes info.node).parent
  let root := if empty then root.kmemFree info.node else root
  let root ← removeUp info.key walkBound root parent 1 (empty || deleted)
  shrinkTree root

/-- The way down from a node `level` steps above the leaves; the answer is the leaf, or
nothing when a node of the way is missing. -/
def descend (root : Radix ι) (key : ℕ) : ℕ → ℕ → Option (Option ℕ)
  | 0, currentNode => some (some currentNode)
  | level + 1, currentNode =>
      match (root.nodes currentNode).children (nextChild (level + 1) key) with
      | none => some none
      | some (.node a) => descend root key level a
      | some (.item _) => none

def radixItemInfoLookup (root : Radix ι) (key : ℕ) : Option (Option RadixItemInfo) :=
  if root.rootNode.isNone || root.maxKey < key then some none
  else do
    let top ← asNode root.rootNode
    let leaf ← descend root key (root.height - 1) top
    some (leaf.map fun node => ⟨node, key, nextChild 0 key⟩)

/-- `radix_item_info_apply` with `RADIX_INFO_SET`. -/
def radixItemInfoSet (root : Radix ι) (info : RadixItemInfo) (item : ι) : Radix ι :=
  root.setNode info.node (·.setItem info.index item)

def asItem : Option (Ptr ι) → Option (Option ι)
  | none => some none
  | some (.item x) => some (some x)
  | some (.node _) => none

def radixTreeLookup (root : Radix ι) (key : ℕ) : Option (Option ι) := do
  match ← radixItemInfoLookup root key with
  | none => some none
  | some info => asItem ((root.nodes info.node).children info.index)

/-- The first loop of `radix_tree_insert`. -/
def expandLoop (key : ℕ) : ℕ → Radix ι → List ℕ → Option (Radix ι × ℤ × List ℕ)
  | 0, _, _ => none
  | fuel + 1, root, allocs =>
      if root.height = 0 ∨ root.maxKey < key then do
        let (root, err, allocs) ← expandTree root allocs
        if err ≠ 0 then some (root, err, allocs) else expandLoop key fuel root allocs
      else some (root, 0, allocs)

/-- The second loop of `radix_tree_insert`: the way down with the missing nodes created. -/
def insertDown (key : ℕ) : ℕ → Radix ι → ℕ → List ℕ → Option (Radix ι × Except ℤ ℕ)
  | 0, root, currentNode, _ => some (root, .ok currentNode)
  | level + 1, root, currentNode, allocs => do
      let index := nextChild (level + 1) key
      let (root, err, allocs) :=
        if ((root.nodes currentNode).children index).isNone then
          createNode root currentNode index allocs
        else (root, 0, allocs)
      if err ≠ 0 then some (root, .error err)
      else do
        let next ← asNode ((root.nodes currentNode).children index)
        insertDown key level root next allocs

/-- Rounds enough for a tree of any height to reach the height of any key. -/
def expandBound : ℕ := 8

def radixTreeInsert (root : Radix ι) (key : ℕ) (item : ι) (allocs : List ℕ) :
    Option (Radix ι × ℤ) := do
  let (root, out, allocs) ← expandLoop key expandBound root allocs
  if out ≠ 0 then some (root, out)
  else do
    let top ← asNode root.rootNode
    match ← insertDown key (root.height - 1) root top allocs with
    | (root, .error err) => some (root, err)
    | (root, .ok leaf) =>
        let index := nextChild 0 key
        if ((root.nodes leaf).children index).isSome then some (root, -eEXIST)
        else some (root.setNode leaf (·.addChild index (.item item)), 0)

def radixTreeDelete (root : Radix ι) (key : ℕ) (deleted : Bool) :
    Option (Radix ι × Option ι) := do
  match ← radixItemInfoLookup root key with
  | none => some (root, none)
  | some info =>
      match ← asItem ((root.nodes info.node).children info.index) with
      | none => some (root, none)
      | some item => do
          let root ← radixTreeRemoveItem root info deleted
          some (root, some item)

end Radix
end Almos
