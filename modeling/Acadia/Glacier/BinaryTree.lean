import Acadia.Foundations.SearchTree

/-! # `glcr::BinaryTree`

The parent-linked search tree of `glacier/container/binary_tree.h`. A `RefPtr<BinaryNode>` is an index into the
list of all nodes ever allocated; a node whose last reference is dropped is never read again, so freeing it is
not modelled. Every loop runs with as much fuel as there are nodes, and `none` stands for a loop that does not
end or a null dereference. -/

namespace Acadia.Glacier

/-- A `BinaryNode`: key, value and the three links. -/
structure BinaryNode (K V : Type) where
  key : K
  value : V
  left : Option Nat := none
  right : Option Nat := none
  /-- The parent, null at the root. -/
  parent : Option Nat := none
  deriving DecidableEq

/-- A `BinaryTree`: the nodes allocated so far and the pointer `root_`. -/
structure BinaryTree (K V : Type) where
  /-- Every node that was ever allocated; a pointer is an index. -/
  nodes : List (BinaryNode K V) := []
  root : Option Nat := none
  deriving DecidableEq

variable {K V : Type} [LinearOrder K]

namespace BinaryTree

/-- The loop of `FindOrInsertionParent`, at the node `current`. -/
def findLoop (nodes : List (BinaryNode K V)) (key : K) : Nat → Nat → Option Nat
  | 0, _ => none
  | fuel + 1, current =>
    match nodes[current]? with
    | none => none
    | some node =>
      if key = node.key then some current
      else if key < node.key then
        match node.left with
        | none => some current
        | some left => findLoop nodes key fuel left
      else
        match node.right with
        | none => some current
        | some right => findLoop nodes key fuel right

/-- `FindOrInsertionParent`: the node with this key, or the node under which it would be
inserted; null in the empty tree. -/
def findOrInsertionParent (t : BinaryTree K V) (key : K) : Option (Option Nat) :=
  match t.root with
  | none => some none
  | some root => (findLoop t.nodes key t.nodes.length root).map some

/-- `Find`. -/
def find (t : BinaryTree K V) (key : K) : Option (Option V) := do
  match ← t.findOrInsertionParent key with
  | none => return none
  | some current =>
    let node ← t.nodes[current]?
    if node.key = key then return some node.value else return none

/-- `Insert`. A new node is linked below the insertion parent; the value of an existing key is
replaced. -/
def insert (t : BinaryTree K V) (key : K) (value : V) : Option (BinaryTree K V) := do
  match ← t.findOrInsertionParent key with
  | none => return { nodes := t.nodes ++ [{ key, value }], root := some t.nodes.length }
  | some parent =>
    let node ← t.nodes[parent]?
    let fresh := t.nodes.length
    if key < node.key then
      let nodes := t.nodes ++ [{ key, value, parent := some parent }]
      return { t with nodes := nodes.modify parent fun n => { n with left := some fresh } }
    else if node.key < key then
      let nodes := t.nodes ++ [{ key, value, parent := some parent }]
      return { t with nodes := nodes.modify parent fun n => { n with right := some fresh } }
    else
      return { t with nodes := t.nodes.modify parent fun n => { n with value := value } }

/-- The loop of the source that follows `left` links to the leftmost node. -/
def leftmost (nodes : List (BinaryNode K V)) : Nat → Nat → Option Nat
  | 0, _ => none
  | fuel + 1, current =>
    match nodes[current]? with
    | none => none
    | some node =>
      match node.left with
      | none => some current
      | some left => leftmost nodes fuel left

/-- The loop of the source that follows `right` links to the rightmost node. -/
def rightmost (nodes : List (BinaryNode K V)) : Nat → Nat → Option Nat
  | 0, _ => none
  | fuel + 1, current =>
    match nodes[current]? with
    | none => none
    | some node =>
      match node.right with
      | none => some current
      | some right => rightmost nodes fuel right

/-- The first half of `Delete`: the node `new_child` that takes the place of `node`, and the nodes
after a successor deeper than the right child has been unlinked from its parent. The successor's
own child links are left as they are. -/
def newChild (t : BinaryTree K V) (node : BinaryNode K V) :
    Option (Option Nat × List (BinaryNode K V)) :=
  match node.left, node.right with
  | none, right => some (right, t.nodes)
  | some left, none => some (some left, t.nodes)
  | some _, some right => do
    let successor ← leftmost t.nodes t.nodes.length right
    if successor = right then return (some successor, t.nodes)
    let succNode ← t.nodes[successor]?
    let succParent ← succNode.parent
    return (some successor, t.nodes.modify succParent fun n => { n with left := succNode.right })

/-- The second half of `Delete`: hang `child` in the place of the node at `current`. -/
def replaceNode (root : Option Nat) (nodes : List (BinaryNode K V)) (current : Nat)
    (node : BinaryNode K V) (child : Option Nat) : Option (BinaryTree K V) := do
  let linked ←
    if root = some current then some { nodes, root := child : BinaryTree K V }
    else do
      let parent ← node.parent
      let parentNode ← nodes[parent]?
      if parentNode.right = some current then
        some { nodes := nodes.modify parent fun n => { n with right := child }, root }
      else
        some { nodes := nodes.modify parent fun n => { n with left := child }, root }
  match child with
  | none => return linked
  | some c =>
    return { linked with nodes := linked.nodes.modify c fun n => { n with parent := node.parent } }

/-- `Delete`. -/
def delete (t : BinaryTree K V) (key : K) : Option (BinaryTree K V) := do
  match ← t.findOrInsertionParent key with
  | none => return t
  | some current =>
    let node ← t.nodes[current]?
    if node.key ≠ key then return t
    let (child, nodes) ← t.newChild node
    replaceNode t.root nodes current node child

/-- The loop of `Predecessor` that climbs while the current node is a left child. -/
def climbLeft (nodes : List (BinaryNode K V)) : Nat → Nat → Option Nat → Option (Option V)
  | 0, _, _ => none
  | _ + 1, _, none => some none
  | fuel + 1, current, some parent =>
    match nodes[parent]? with
    | none => none
    | some node =>
      if node.left = some current then climbLeft nodes fuel parent node.parent
      else some (some node.value)

/-- The loop of `Successor` that climbs while the current node is a right child. -/
def climbRight (nodes : List (BinaryNode K V)) : Nat → Nat → Option Nat → Option (Option V)
  | 0, _, _ => none
  | _ + 1, _, none => some none
  | fuel + 1, current, some parent =>
    match nodes[parent]? with
    | none => none
    | some node =>
      if node.right = some current then climbRight nodes fuel parent node.parent
      else some (some node.value)

/-- `Predecessor`. -/
def predecessor (t : BinaryTree K V) (key : K) : Option (Option V) := do
  match ← t.findOrInsertionParent key with
  | none => return none
  | some current =>
    let node ← t.nodes[current]?
    if node.key < key then return some node.value
    match node.left with
    | some left =>
      let last ← rightmost t.nodes t.nodes.length left
      let lastNode ← t.nodes[last]?
      return some lastNode.value
    | none => climbLeft t.nodes (t.nodes.length + 1) current node.parent

/-- `Successor`. -/
def successor (t : BinaryTree K V) (key : K) : Option (Option V) := do
  match ← t.findOrInsertionParent key with
  | none => return none
  | some current =>
    let node ← t.nodes[current]?
    if key < node.key then return some node.value
    match node.right with
    | some right =>
      let first ← leftmost t.nodes t.nodes.length right
      let firstNode ← t.nodes[first]?
      return some firstNode.value
    | none => climbRight t.nodes (t.nodes.length + 1) current node.parent

end BinaryTree

end Acadia.Glacier
