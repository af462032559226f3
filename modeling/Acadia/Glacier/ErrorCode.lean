/-! # `glcr::ErrorCode`

The error codes of `glacier/status/error.h`. A function that returns an `ErrorCode` and changes an object
returns a pair here, so that what it leaves behind on an error can be stated. -/

namespace Acadia.Glacier

/-- The error codes, in the source's order. -/
inductive ErrorCode where
  | ok
  | invalidArgument
  | notFound
  | permissionDenied
  | nullPtr
  | empty
  | alreadyExists
  | bufferSize
  | failedPrecondition
  | internal
  | unimplemented
  | exhausted
  | invalidResponse
  | capNotFound
  | capWrongType
  | capPermissionDenied
  deriving DecidableEq

/-- The number that a code stands for in a syscall's return value. -/
def ErrorCode.toUInt64 : ErrorCode → UInt64
  | .ok => 0x0
  | .invalidArgument => 0x1
  | .notFound => 0x2
  | .permissionDenied => 0x3
  | .nullPtr => 0x4
  | .empty => 0x5
  | .alreadyExists => 0x6
  | .bufferSize => 0x7
  | .failedPrecondition => 0x8
  | .internal => 0x100
  | .unimplemented => 0x101
  | .exhausted => 0x102
  | .invalidResponse => 0x103
  | .capNotFound => 0x1000
  | .capWrongType => 0x1001
  | .capPermissionDenied => 0x1002

end Acadia.Glacier
