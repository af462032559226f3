/-! # The constants of the kernel's memory layout

`memory/constants.h`. -/

namespace Acadia.Zion

/-- The size of a page. -/
def kPageSize : UInt64 := 0x1000

/-- The region of the slab heap. -/
def kKernelSlabHeapStart : UInt64 := 0xFFFFFFFF40000000

/-- The end of the region of the slab heap. -/
def kKernelSlabHeapEnd : UInt64 := 0xFFFFFFFF60000000

/-- The region of large kernel allocations. -/
def kKernelBuddyHeapStart : UInt64 := 0xFFFFFFFF60000000

/-- The end of the region of large kernel allocations. -/
def kKernelBuddyHeapEnd : UInt64 := 0xFFFFFFFF80000000

/-- The region of kernel stacks. -/
def kKernelStackStart : UInt64 := 0xFFFFFFFF90000000

/-- The end of the region of kernel stacks. -/
def kKernelStackEnd : UInt64 := 0xFFFFFFFFA0000000

/-- The size of a kernel stack, three pages. -/
def kKernelStackSize : UInt64 := 0x3000

/-- The distance of kernel stacks, which leaves a page between two of them. -/
def kKernelStackOffset : UInt64 := 0x4000

/-- User stacks are placed above this address. -/
def kUserStackMin : UInt64 := 0x00007FF000000000

/-- User stacks are placed downwards from this address. -/
def kUserStackMax : UInt64 := 0x0000800000000000

/-- The size of a user stack, one MiB. -/
def kUserStackSize : UInt64 := 0x100000

/-- The end of user space. -/
def kUserSpaceMax : UInt64 := 0x0000800000000000

end Acadia.Zion
