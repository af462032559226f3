import Acadia.Zion.Memory.Constants

/-! # `MemoryObject`

The immutable part of the three memory objects of `object/memory_object.h`. A `RefPtr` to one is this record;
the page list of a `VariableMemoryObject` is kept in the state under the object's `id`. -/

namespace Acadia.Zion

/-- Which subclass an object is, with the field `physical_addr_` where there is one. -/
inductive MemoryObjectKind where
  /-- A `VariableMemoryObject`, whose pages are allocated one by one. -/
  | variable
  /-- A `FixedMemoryObject`, which owns a contiguous block. -/
  | fixed (physicalAddr : UInt64)
  /-- A `ViewMemoryObject`, which owns nothing. -/
  | view (physicalAddr : UInt64)
  deriving DecidableEq

/-- A reference to a memory object. -/
structure MemoryObject where
  /-- The identity of the object, as a pointer to it has. -/
  id : Nat
  kind : MemoryObjectKind
  size : UInt64
  deriving DecidableEq

namespace MemoryObject

/-- `num_pages()`. -/
def numPages (o : MemoryObject) : UInt64 := (o.size - 1) / kPageSize + 1

/-- The `size_` that the constructor of `VariableMemoryObject` stores: `size` rounded up to whole
pages, modulo `2 ^ 64`. -/
def variableSize (size : UInt64) : UInt64 :=
  if size &&& 0xFFF ≠ 0 then (size &&& ~~~0xFFF) + 0x1000 else size

end MemoryObject

end Acadia.Zion
