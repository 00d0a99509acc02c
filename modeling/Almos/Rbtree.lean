import Almos.RedBlack

/-!
# The red-black trees of the kernel

The nodes lie in memory, each with its children and with one word for its parent and its color. A
function gives `none` when it goes through a NULL pointer or makes more rounds than its fuel. Where
the source has one branch for each side, mirror images of each other, the model has the side as a
parameter.
-/
namespace Almos.Rb
open RedBlack

abbrev Ptr : Type := BitVec 32

/-- `struct rb_node` -/
structure RbNode where
  rbParentColor : BitVec 32
  rbRight : Ptr
  rbLeft : Ptr

namespace RbNode

def rbParent (r : RbNode) : Ptr := r.rbParentColor &&& ~~~3#32

/-- `RB_RED` is 0 and `RB_BLACK` is 1. -/
def rbColor (r : RbNode) : BitVec 32 := r.rbParentColor &&& 1#32

def rbSetRed (r : RbNode) : RbNode := { r with rbParentColor := r.rbParentColor &&& ~~~1#32 }

def rbSetBlack (r : RbNode) : RbNode := { r with rbParentColor := r.rbParentColor ||| 1#32 }

def rbSetParent (p : Ptr) (r : RbNode) : RbNode :=
  { r with rbParentColor := r.rbParentColor &&& 3#32 ||| p }

def rbSetColor (color : BitVec 32) (r : RbNode) : RbNode :=
  { r with rbParentColor := r.rbParentColor &&& ~~~1#32 ||| color }

def child (d : Side) (r : RbNode) : Ptr :=
  match d with
  | .left => r.rbLeft
  | .right => r.rbRight

def setChild (d : Side) (p : Ptr) (r : RbNode) : RbNode :=
  match d with
  | .left => { r with rbLeft := p }
  | .right => { r with rbRight := p }

end RbNode

/-- `struct rb_root` and the memory. -/
structure RbRoot where
  mem : Ptr → RbNode
  rbNode : Ptr

namespace RbRoot
variable (root : RbRoot)

/-- `*p` -/
def deref (p : Ptr) : Option RbNode := if p = 0#32 then none else some (root.mem p)

def modify (p : Ptr) (f : RbNode → RbNode) : Option RbRoot :=
  if p = 0#32 then none else some { root with mem := Function.update root.mem p (f (root.mem p)) }

/-- `if (p) rb_set_parent(p, parent)` -/
def setParentOf (p parent : Ptr) : Option RbRoot :=
  if p = 0#32 then some root else root.modify p (RbNode.rbSetParent parent)

/-- `new` takes the place of `node` below `parent`, which is looked at on side `d`. -/
def relink (d : Side) (parent node new : Ptr) : Option RbRoot :=
  if parent = 0#32 then some { root with rbNode := new }
  else do
    let p ← root.deref parent
    root.modify parent (RbNode.setChild (if p.child d = node then d else d.other) new)

def BlackAt (p : Ptr) : Prop := p = 0#32 ∨ (root.mem p).rbColor = 1#32

instance (p : Ptr) : Decidable (root.BlackAt p) := inferInstanceAs (Decidable (_ ∨ _))

end RbRoot

/-- A rotation that moves `node` to side `d`. -/
def rbRotate (d : Side) (root : RbRoot) (node : Ptr) : Option RbRoot := do
  let n ← root.deref node
  let right := n.child d.other
  let parent := n.rbParent
  let r ← root.deref right
  let root ← root.modify node (RbNode.setChild d.other (r.child d))
  let root ← root.setParentOf (r.child d) node
  let root ← root.modify right (RbNode.setChild d node)
  let root ← root.modify right (RbNode.rbSetParent parent)
  let root ← root.relink d parent node right
  root.modify node (RbNode.rbSetParent right)

def rbRotateLeft : RbRoot → Ptr → Option RbRoot := rbRotate .left

def rbRotateRight : RbRoot → Ptr → Option RbRoot := rbRotate .right

/-- `rb_link_node`, at the root or on a side of the parent. -/
def rbLinkNode (root : RbRoot) (node parent : Ptr) (side : Side) : Option RbRoot := do
  let root ← root.modify node fun _ => ⟨parent, 0#32, 0#32⟩
  if parent = 0#32 then some { root with rbNode := node }
  else root.modify parent (RbNode.setChild side node)

/-- The branch of `rb_insert_color` for a parent on side `d` of the grandparent. -/
def insertTurn (d : Side) (root : RbRoot) (node parent gparent : Ptr) : Option (RbRoot × Ptr) := do
  let g ← root.deref gparent
  let uncle := g.child d.other
  if ¬root.BlackAt uncle then
    let root ← root.modify uncle RbNode.rbSetBlack
    let root ← root.modify parent RbNode.rbSetBlack
    let root ← root.modify gparent RbNode.rbSetRed
    some (root, gparent)
  else
    let p ← root.deref parent
    let (root, node, parent) ←
      if p.child d.other = node then (rbRotate d root parent).map fun root => (root, parent, node)
      else some (root, node, parent)
    let root ← root.modify parent RbNode.rbSetBlack
    let root ← root.modify gparent RbNode.rbSetRed
    let root ← rbRotate d.other root gparent
    some (root, node)

def rbInsertColor (root : RbRoot) (node : Ptr) : ℕ → Option RbRoot
  | 0 => none
  | fuel + 1 => do
      let parent := (← root.deref node).rbParent
      if root.BlackAt parent then root.modify root.rbNode RbNode.rbSetBlack
      else
        let gparent := (← root.deref parent).rbParent
        let g ← root.deref gparent
        let (root, node) ←
          insertTurn (if parent = g.rbLeft then .left else .right) root node parent gparent
        rbInsertColor root node fuel

/-- The branch of `__rb_erase_color` for a red sibling: the sibling after it. -/
def eraseRedSibling (d : Side) (root : RbRoot) (parent other : Ptr) : Option (RbRoot × Ptr) := do
  let root ← root.modify other RbNode.rbSetBlack
  let root ← root.modify parent RbNode.rbSetRed
  let root ← rbRotate d root parent
  let p ← root.deref parent
  some (root, p.child d.other)

/-- The branch for a far nephew that is black: the sibling after it. -/
def eraseRedNephew (d : Side) (root : RbRoot) (parent other near : Ptr) :
    Option (RbRoot × Ptr) := do
  let root ← root.modify near RbNode.rbSetBlack
  let root ← root.modify other RbNode.rbSetRed
  let root ← rbRotate d.other root other
  let p ← root.deref parent
  some (root, p.child d.other)

/-- The colors and the rotation before the `break`. -/
def eraseLast (d : Side) (root : RbRoot) (parent other : Ptr) : Option RbRoot := do
  let p ← root.deref parent
  let root ← root.modify other (RbNode.rbSetColor p.rbColor)
  let root ← root.modify parent RbNode.rbSetBlack
  let o ← root.deref other
  let root ← root.modify (o.child d.other) RbNode.rbSetBlack
  rbRotate d root parent

/-- What follows when the sibling is black: the node to go on with and its parent, or none after the
`break`. -/
def eraseBlackSibling (d : Side) (root : RbRoot) (parent other : Ptr) :
    Option (RbRoot × Option (Ptr × Ptr)) := do
  let o ← root.deref other
  if root.BlackAt (o.child d) ∧ root.BlackAt (o.child d.other) then
    let root ← root.modify other RbNode.rbSetRed
    let p ← root.deref parent
    some (root, some (parent, p.rbParent))
  else
    let (root, other) ←
      if root.BlackAt (o.child d.other) then eraseRedNephew d root parent other (o.child d)
      else some (root, other)
    (eraseLast d root parent other).map fun root => (root, none)

/-- The branch of `__rb_erase_color` for a node on side `d` of its parent. -/
def eraseTurn (d : Side) (root : RbRoot) (parent : Ptr) : Option (RbRoot × Option (Ptr × Ptr)) := do
  let other := (← root.deref parent).child d.other
  let o ← root.deref other
  let (root, other) ←
    if o.rbColor = 0#32 then eraseRedSibling d root parent other else some (root, other)
  eraseBlackSibling d root parent other

/-- `if (node) rb_set_black(node)` -/
def setBlackOf (root : RbRoot) (node : Ptr) : Option RbRoot :=
  if node = 0#32 then some root else root.modify node RbNode.rbSetBlack

def rbEraseColor (root : RbRoot) (node parent : Ptr) : ℕ → Option RbRoot
  | 0 => none
  | fuel + 1 =>
      if root.BlackAt node ∧ node ≠ root.rbNode then do
        let p ← root.deref parent
        match ← eraseTurn (if p.rbLeft = node then .left else .right) root parent with
        | (root, some (node, parent)) => rbEraseColor root node parent fuel
        | (root, none) => setBlackOf root root.rbNode
      else setBlackOf root node

/-- The last node in direction `d`. -/
def furthest (d : Side) (root : RbRoot) : ℕ → Ptr → Option Ptr
  | 0, _ => none
  | fuel + 1, node => do
      let n ← root.deref node
      if n.child d = 0#32 then some node else furthest d root fuel (n.child d)

/-- The part of `rb_erase` for a node with at most one child. -/
def eraseOne (root : RbRoot) (node child : Ptr) (fuel : ℕ) : Option RbRoot := do
  let n ← root.deref node
  let parent := n.rbParent
  let color := n.rbColor
  let root ← root.setParentOf child parent
  let root ← root.relink .left parent node child
  if color = 1#32 then rbEraseColor root child parent fuel else some root

/-- `node`, which takes the place of `old`, leaves its own place: the parent of its child after that. -/
def leavePlace (root : RbRoot) (old node child parent : Ptr) : Option (RbRoot × Ptr) :=
  if parent = old then some (root, node)
  else do
    let root ← root.setParentOf child parent
    let root ← root.modify parent (RbNode.setChild .left child)
    let right := (← root.deref old).rbRight
    let root ← root.modify node (RbNode.setChild .right right)
    let root ← root.modify right (RbNode.rbSetParent node)
    some (root, parent)

/-- `node` takes over the parent, the color and the left child of `old`. -/
def takePlace (root : RbRoot) (old node : Ptr) : Option RbRoot := do
  let o ← root.deref old
  let root ← root.modify node fun n => ⟨o.rbParentColor, n.rbRight, o.rbLeft⟩
  root.modify o.rbLeft (RbNode.rbSetParent node)

/-- The part of `rb_erase` for a node with two children. -/
def eraseTwo (root : RbRoot) (old : Ptr) (fuel : ℕ) : Option RbRoot := do
  let o ← root.deref old
  let node ← furthest .left root fuel o.rbRight
  let root ← root.relink .left o.rbParent old node
  let n ← root.deref node
  let child := n.rbRight
  let color := n.rbColor
  let (root, parent) ← leavePlace root old node child n.rbParent
  let root ← takePlace root old node
  if color = 1#32 then rbEraseColor root child parent fuel else some root

def rbErase (root : RbRoot) (node : Ptr) (fuel : ℕ) : Option RbRoot := do
  let n ← root.deref node
  if n.rbLeft = 0#32 then eraseOne root node n.rbRight fuel
  else if n.rbRight = 0#32 then eraseOne root node n.rbLeft fuel
  else eraseTwo root node fuel

def rbReplaceNode (root : RbRoot) (victim new : Ptr) : Option RbRoot := do
  let v ← root.deref victim
  let root ← root.relink .left v.rbParent victim new
  let root ← root.setParentOf v.rbLeft new
  let root ← root.setParentOf v.rbRight new
  let v ← root.deref victim
  root.modify new fun _ => v

/-- The first node from side `d`, or NULL. -/
def rbEnd (d : Side) (root : RbRoot) (fuel : ℕ) : Option Ptr :=
  if root.rbNode = 0#32 then some 0#32 else furthest d root fuel root.rbNode

def rbFirst : RbRoot → ℕ → Option Ptr := rbEnd .left

def rbLast : RbRoot → ℕ → Option Ptr := rbEnd .right

/-- Up as long as the node is not on side `d` of its parent. -/
def climb (d : Side) (root : RbRoot) : ℕ → Ptr → Option Ptr
  | 0, _ => none
  | fuel + 1, node => do
      let parent := (← root.deref node).rbParent
      if parent = 0#32 then some 0#32
      else
        let p ← root.deref parent
        if node = p.child d.other then climb d root fuel parent else some parent

/-- The next node away from side `d`, or NULL. -/
def rbStep (d : Side) (root : RbRoot) (node : Ptr) (fuel : ℕ) : Option Ptr := do
  let n ← root.deref node
  if n.rbParent = node then some 0#32
  else if n.child d.other ≠ 0#32 then furthest d root fuel (n.child d.other)
  else climb d root fuel node

def rbNext : RbRoot → Ptr → ℕ → Option Ptr := rbStep .left

def rbPrev : RbRoot → Ptr → ℕ → Option Ptr := rbStep .right

/-- A loop of `browse_rb` over `rb_next` or `rb_prev`: the nodes that it comes to. -/
def browseLoop (d : Side) (root : RbRoot) (fuel : ℕ) : ℕ → Ptr → Option (List Ptr)
  | 0, _ => none
  | rounds + 1, node =>
      if node = 0#32 then some []
      else do
        let next ← rbStep d root node fuel
        let rest ← browseLoop d root fuel rounds next
        some (node :: rest)

end Almos.Rb
