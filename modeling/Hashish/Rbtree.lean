import Hashish.Types

/-!
# Red-black trees of pointers (`hi_rbtree.c`, first part)

The red-black tree of the kernel: `struct rb_node`s in memory that point to each
other and to their parents. The functions change the nodes and the root pointer
(`RbRoot`). The source writes each case of the fix-up loops twice, once for each
side; here a case is written once for a side `d`, on which `rb_left` is the
child.
-/

namespace Hashish

open Hashish.Lib

/-! ## Nodes and the root pointer -/

/-- The child of a node on side `d`. -/
def RbNode.child (n : RbNode) (d : Side) : Option Ptr :=
  match d with
  | .left => n.rbLeft
  | .right => n.rbRight

def RbNode.setChild (n : RbNode) (d : Side) (v : Option Ptr) : RbNode :=
  match d with
  | .left => { n with rbLeft := v }
  | .right => { n with rbRight := v }

/-- The nodes in memory, and the `rb_node` of a `struct rb_root`. -/
structure RbRoot where
  nodes : Heap RbNode
  rbNode : Option Ptr

namespace RbRoot

/-- Read the node a pointer designates. -/
def read (s : RbRoot) (p : Option Ptr) : Except Fault RbNode :=
  match p with
  | none => .error .nullDeref
  | some p =>
    match s.nodes p with
    | none => .error .badAddress
    | some n => .ok n

def write (s : RbRoot) (p : Ptr) (n : RbNode) : RbRoot :=
  { s with nodes := s.nodes.set p (some n) }

/-- Change the node a pointer designates. -/
def modify (s : RbRoot) (p : Option Ptr) (f : RbNode → RbNode) : Except Fault RbRoot :=
  match p with
  | none => .error .nullDeref
  | some p =>
    match s.nodes p with
    | none => .error .badAddress
    | some n => .ok (s.write p (f n))

def setParent (s : RbRoot) (p v : Option Ptr) : Except Fault RbRoot :=
  s.modify p fun n => { n with rbParent := v }

def setColor (s : RbRoot) (p : Option Ptr) (c : Color) : Except Fault RbRoot :=
  s.modify p fun n => { n with rbColor := c }

def setChild (s : RbRoot) (p : Option Ptr) (d : Side) (v : Option Ptr) : Except Fault RbRoot :=
  s.modify p fun n => n.setChild d v

/-- `rb_set_parent` of a child that may be missing. -/
def setParentIf (s : RbRoot) (p v : Option Ptr) : Except Fault RbRoot :=
  match p with
  | none => .ok s
  | some _ => s.setParent p v

/-- `rb_set_black` of a node that may be missing. -/
def setBlackIf (s : RbRoot) (p : Option Ptr) : Except Fault RbRoot :=
  match p with
  | none => .ok s
  | some _ => s.setColor p .black

/-- `!node || rb_is_black(node)`. -/
def isBlack (s : RbRoot) (p : Option Ptr) : Except Fault Bool :=
  match p with
  | none => .ok true
  | some _ => do
    let n ← s.read p
    .ok (n.rbColor = .black)

/-- Let the link from `parent` to `old` point to `new`. Without a parent it is the root pointer.
The source tests side `d` of the parent. -/
def relink (s : RbRoot) (parent : Option Ptr) (d : Side) (old : Ptr) (new : Option Ptr) :
    Except Fault RbRoot :=
  match parent with
  | none => .ok { s with rbNode := new }
  | some _ => do
    let n ← s.read parent
    if n.child d = some old then s.setChild parent d new else s.setChild parent d.flip new

end RbRoot

/-! ## Rotations -/

/-- `__rb_rotate_left` for `d = .left`, `__rb_rotate_right` for `d = .right`: `node` goes down
to side `d`, its child on the other side takes its place. -/
def rbRotate (d : Side) (s : RbRoot) (node : Option Ptr) : Except Fault RbRoot := do
  let n ← s.read node
  let right := n.child d.flip
  let parent := n.rbParent
  let r ← s.read right
  let s ← s.setChild node d.flip (r.child d)
  let s ← s.setParentIf (r.child d) node
  let s ← s.setChild right d node
  let s ← s.setParent right parent
  let s ← match node with
    | none => .error .nullDeref
    | some x => s.relink parent d x right
  s.setParent node right

def rbRotateLeft : RbRoot → Option Ptr → Except Fault RbRoot := rbRotate .left
def rbRotateRight : RbRoot → Option Ptr → Except Fault RbRoot := rbRotate .right

/-! ## Insertion -/

/-- Where the pointer lies that `rb_link_node` sets: the root pointer, or a child of a node. -/
inductive RbLink
  | root
  | child (p : Ptr) (d : Side)
deriving DecidableEq, Repr

/-- `rb_link_node`. The parent is stored as the whole of `rb_parent_color`, so the colour is red. -/
def rbLinkNode (s : RbRoot) (node : Ptr) (parent : Option Ptr) (link : RbLink) :
    Except Fault RbRoot := do
  let s := s.write node ⟨parent, .red, none, none⟩
  match link with
  | .root => .ok { s with rbNode := some node }
  | .child p d => s.setChild (some p) d (some node)

/-- The end of an iteration of `rb_insert_color`, when the uncle is black and `parent` is the
child of `gparent` on side `d`. The returned node is `node` of the next iteration. -/
def rbInsertRotate (d : Side) (s : RbRoot) (node parent gparent : Ptr) :
    Except Fault (RbRoot × Ptr) := do
  let p ← s.read (some parent)
  let (s, node, parent) ← if p.child d.flip = some node then do
      let s ← rbRotate d s (some parent)
      pure (s, parent, node)
    else pure (s, node, parent)
  let s ← s.setColor (some parent) .black
  let s ← s.setColor (some gparent) .red
  let s ← rbRotate d.flip s (some gparent)
  pure (s, node)

/-- The loop of `rb_insert_color`. -/
def rbInsertColorLoop : Nat → RbRoot → Ptr → Except Fault RbRoot
  | 0, _, _ => .error .nontermination
  | fuel + 1, s, node => do
    let n ← s.read (some node)
    match n.rbParent with
    | none => .ok s
    | some parent => do
      let p ← s.read (some parent)
      if p.rbColor = .black then .ok s
      else
        match p.rbParent with
        | none => .error .nullDeref
        | some gparent => do
          let g ← s.read (some gparent)
          let d := if g.child .left = some parent then Side.left else Side.right
          let uncle := g.child d.flip
          if ← s.isBlack uncle then do
            let (s, node) ← rbInsertRotate d s node parent gparent
            rbInsertColorLoop fuel s node
          else do
            let s ← s.setColor uncle .black
            let s ← s.setColor (some parent) .black
            let s ← s.setColor (some gparent) .red
            rbInsertColorLoop fuel s gparent

/-- `rb_insert_color`. -/
def rbInsertColor (fuel : Nat) (s : RbRoot) (node : Ptr) : Except Fault RbRoot := do
  let s ← rbInsertColorLoop fuel s node
  s.setColor s.rbNode .black

/-! ## Removal -/

/-- The last part of an iteration of `__rb_erase_color`: the child of `other` away from the hole is
red. -/
def rbEraseFar (d : Side) (s : RbRoot) (other parent : Option Ptr) : Except Fault RbRoot := do
  let p ← s.read parent
  let s ← s.setColor other p.rbColor
  let s ← s.setColor parent .black
  let o ← s.read other
  let s ← s.setBlackIf (o.child d.flip)
  rbRotate d s parent

/-- The case that `other` has a red child. A rotation at `other` moves it away from the hole. -/
def rbEraseRotate (d : Side) (s : RbRoot) (other parent : Option Ptr) : Except Fault RbRoot := do
  let o ← s.read other
  if ← s.isBlack (o.child d.flip) then do
    let s ← s.setBlackIf (o.child d)
    let s ← s.setColor other .red
    let s ← rbRotate d.flip s other
    let p ← s.read parent
    rbEraseFar d s (p.child d.flip) parent
  else rbEraseFar d s other parent

/-- The first part of an iteration of `__rb_erase_color`: a red sibling goes up, so that the
sibling of the hole is black. -/
def rbEraseSibling (d : Side) (s : RbRoot) (other parent : Option Ptr) :
    Except Fault (RbRoot × Option Ptr) := do
  let o ← s.read other
  if o.rbColor = .red then do
    let s ← s.setColor other .black
    let s ← s.setColor parent .red
    let s ← rbRotate d s parent
    let p ← s.read parent
    pure (s, p.child d.flip)
  else pure (s, other)

/-- The loop of `__rb_erase_color`. It returns the node that is coloured black at the end. -/
def rbEraseColorLoop : Nat → RbRoot → Option Ptr → Option Ptr →
    Except Fault (RbRoot × Option Ptr)
  | 0, _, _, _ => .error .nontermination
  | fuel + 1, s, node, parent => do
    if (← s.isBlack node) && node ≠ s.rbNode then do
      let p ← s.read parent
      let d := if p.child .left = node then Side.left else Side.right
      let (s, other) ← rbEraseSibling d s (p.child d.flip) parent
      let o ← s.read other
      if (← s.isBlack (o.child .left)) && (← s.isBlack (o.child .right)) then do
        let s ← s.setColor other .red
        let p ← s.read parent
        rbEraseColorLoop fuel s parent p.rbParent
      else do
        let s ← rbEraseRotate d s other parent
        pure (s, s.rbNode)
    else pure (s, node)

/-- `__rb_erase_color`. -/
def rbEraseColor (fuel : Nat) (s : RbRoot) (node parent : Option Ptr) : Except Fault RbRoot := do
  let (s, node) ← rbEraseColorLoop fuel s node parent
  s.setBlackIf node

/-- The walk to the leftmost node: `while ((left = node->rb_left) != NULL) node = left`. -/
def rbLeftmost : Nat → RbRoot → Ptr → Except Fault Ptr
  | 0, _, _ => .error .nontermination
  | fuel + 1, s, node => do
    let n ← s.read (some node)
    match n.rbLeft with
    | none => .ok node
    | some left => rbLeftmost fuel s left

/-- The successor `node` of `old` gives its place to its child. The second result is the parent
that the child has once `node` stands in the place of `old`. -/
def rbUnlinkSuccessor (s : RbRoot) (old node : Ptr) (parent child : Option Ptr) :
    Except Fault (RbRoot × Option Ptr) :=
  if parent = some old then do
    let s ← s.setChild parent .right child
    pure (s, some node)
  else do
    let s ← s.setChild parent .left child
    pure (s, parent)

/-- The removal of a node with two children: its successor `node` leaves its own place and takes
over the place and the colour of `old`. -/
def rbEraseTwo (fuel : Nat) (s : RbRoot) (old : Ptr) : Except Fault RbRoot := do
  let o ← s.read (some old)
  let first ← match o.rbRight with
    | none => .error .nullDeref
    | some r => .ok r
  let node ← rbLeftmost fuel s first
  let n ← s.read (some node)
  let child := n.rbRight
  let color := n.rbColor
  let s ← s.setParentIf child n.rbParent
  let (s, parent) ← rbUnlinkSuccessor s old node n.rbParent child
  let o ← s.read (some old)
  let s ← s.modify (some node) fun n => { n with
    rbParent := o.rbParent, rbColor := o.rbColor, rbRight := o.rbRight, rbLeft := o.rbLeft }
  let s ← s.relink o.rbParent .left old (some node)
  let s ← s.setParent o.rbLeft (some node)
  let s ← s.setParentIf o.rbRight (some node)
  if color = .black then rbEraseColor fuel s child parent else .ok s

/-- The removal of a node without child on one side; `child` is the one on the other. -/
def rbEraseOne (fuel : Nat) (s : RbRoot) (node : Ptr) (child : Option Ptr) :
    Except Fault RbRoot := do
  let n ← s.read (some node)
  let s ← s.setParentIf child n.rbParent
  let s ← s.relink n.rbParent .left node child
  if n.rbColor = .black then rbEraseColor fuel s child n.rbParent else .ok s

/-- `rb_erase`. -/
def rbErase (fuel : Nat) (s : RbRoot) (node : Ptr) : Except Fault RbRoot := do
  let n ← s.read (some node)
  match n.rbLeft, n.rbRight with
  | none, child => rbEraseOne fuel s node child
  | some left, none => rbEraseOne fuel s node (some left)
  | some _, some _ => rbEraseTwo fuel s node

end Hashish
