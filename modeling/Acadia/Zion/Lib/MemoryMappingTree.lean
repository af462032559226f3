import Acadia.Foundations.Word
import Acadia.Glacier.BinaryTreeRange
import Acadia.Glacier.ErrorCode
import Acadia.Zion.Object.MemoryObject

/-! # `MemoryMappingTree`

The tree of mappings of an address space, `lib/memory_mapping_tree.cpp`. All arithmetic is that of
64-bit words, so a range that reaches `2 ^ 64` gets a small `vaddr_limit`. The outer `none` of a
function stands for a loop of the tree that does not end. -/

namespace Acadia.Zion

open Glacier SearchTree

open scoped Word

/-- A `MemoryMapping`: the range and the object mapped there. -/
structure MemoryMapping where
  vaddrBase : UInt64
  /-- The first address after the range, modulo `2 ^ 64`. -/
  vaddrLimit : UInt64
  memObject : MemoryObject
  deriving DecidableEq

/-- The `MemoryMappingTree`. -/
structure MemoryMappingTree where
  mappingTree : BinaryTree UInt64 MemoryMapping := {}
  deriving DecidableEq

namespace MemoryMappingTree

/-- `AddInMemoryObject`. -/
def addInMemoryObject (m : MemoryMappingTree) (vaddr : UInt64) (object : MemoryObject) :
    Option (ErrorCode × MemoryMappingTree) := do
  let predecessor ← m.mappingTree.predecessor vaddr
  if predecessor.any fun p => p.vaddrLimit > vaddr then return (.alreadyExists, m)
  if (← m.mappingTree.find vaddr).isSome then return (.alreadyExists, m)
  let successor ← m.mappingTree.successor vaddr
  if successor.any fun s => s.vaddrBase < vaddr + object.size then return (.alreadyExists, m)
  let mappingTree ← m.mappingTree.insert vaddr ⟨vaddr, vaddr + object.size, object⟩
  return (.ok, { mappingTree })

/-- `Delete` on the mapping tree, with the mapping that it destroys. The node goes away with its last
reference; a node with two children stays referenced by the `parent` link of its left child, so its
mapping is never destroyed. -/
def deleteMapping (tree : BinaryTree UInt64 MemoryMapping) (vaddr : UInt64) :
    Option (BinaryTree UInt64 MemoryMapping × List MemoryMapping) := do
  let found ← tree.find vaddr
  let rest ← tree.delete vaddr
  return (rest, if tree.hasTwoChildren vaddr then [] else found.toList)

/-- The first deletion of `FreeMemoryRange`: a mapping that starts at `vaddr_base` itself. -/
def freeFirst (tree : BinaryTree UInt64 MemoryMapping) (vaddrBase : UInt64) :
    Option (BinaryTree UInt64 MemoryMapping × List MemoryMapping) := do
  if (← tree.find vaddrBase).isSome then deleteMapping tree vaddrBase else return (tree, [])

/-- The loop of `FreeMemoryRange`: delete the successor of `vaddr_base` while it lies below
`vaddr_limit`. The destroyed mappings are collected in order. -/
def freeLoop (vaddrBase vaddrLimit : UInt64) :
    Nat → BinaryTree UInt64 MemoryMapping →
      Option (BinaryTree UInt64 MemoryMapping × List MemoryMapping)
  | 0, _ => none
  | fuel + 1, tree => do
    match ← tree.successor vaddrBase with
    | none => return (tree, [])
    | some successor =>
      if successor.vaddrBase ≥ vaddrLimit then return (tree, [])
      let (tree, destroyed) ← deleteMapping tree successor.vaddrBase
      let (tree, more) ← freeLoop vaddrBase vaddrLimit fuel tree
      return (tree, destroyed ++ more)

/-- `FreeMemoryRange`, with the mappings whose reference to their object it drops. -/
def freeMemoryRange (m : MemoryMappingTree) (vaddrBase vaddrLimit : UInt64) :
    Option (ErrorCode × MemoryMappingTree × List MemoryMapping) := do
  if vaddrLimit ≤ vaddrBase then return (.invalidArgument, m, [])
  let predecessor ← m.mappingTree.predecessor vaddrBase
  if predecessor.any fun p => p.vaddrLimit > vaddrBase then return (.failedPrecondition, m, [])
  let lastPredecessor ← m.mappingTree.predecessor vaddrLimit
  if lastPredecessor.any fun p => p.vaddrLimit > vaddrLimit then
    return (.failedPrecondition, m, [])
  let (tree, destroyed) ← freeFirst m.mappingTree vaddrBase
  let (mappingTree, more) ← freeLoop vaddrBase vaddrLimit (tree.nodes.length + 1) tree
  return (.ok, { mappingTree }, destroyed ++ more)

/-- `GetMemoryMappingForAddr`: the mapping with the greatest base up to `vaddr`, unless it ends
before. -/
def getMemoryMappingForAddr (m : MemoryMappingTree) (vaddr : UInt64) :
    Option (Option MemoryMapping) := do
  match ← m.mappingTree.predecessor (vaddr + 1) with
  | none => return none
  | some mapping =>
    if mapping.vaddrBase + mapping.memObject.size ≤ vaddr then return none
    else return some mapping

end MemoryMappingTree

end Acadia.Zion
