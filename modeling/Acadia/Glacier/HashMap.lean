import Acadia.Glacier.ErrorCode
import Mathlib.Data.List.Defs

/-! # `glcr::HashMap`

The hash map of `glacier/container/hash_map.h`: an array of buckets, each a linked list of pairs with
the pair that was pushed last in front. `none` stands for the division by the size of an empty
array. -/

namespace Acadia.Glacier

/-- `glcr::Hash`. -/
class Hash (K : Type) where
  hash : K → UInt64

/-- `kFnvOffset`. -/
def kFnvOffset : UInt64 := 0xcbf29ce484222325

/-- `kFnvPrime`. -/
def kFnvPrime : UInt64 := 0x100000001b3

/-- `Hash<uint64_t>`: the eight bytes of the value from the lowest on. -/
instance : Hash UInt64 where
  hash value := (List.range 8).foldl
    (fun hash i => hash * kFnvPrime ^^^ (value >>> UInt64.ofNat (8 * i) &&& 0xFF)) kFnvOffset

/-- A `HashMap`. -/
structure HashMap (K V : Type) where
  data : List (List (K × V)) := []
  size : Nat := 0
  deriving DecidableEq

namespace HashMap

variable {K V : Type} [DecidableEq K] [Hash K]

/-- The position of the bucket for a key among `n` buckets. -/
def index (n : Nat) (key : K) : Nat := (Hash.hash key).toNat % n

/-- The bucket for a key. -/
def bucket (m : HashMap K V) (key : K) : List (K × V) := (m.data[index m.data.length key]?).getD []

/-- `load`. -/
def load (m : HashMap K V) : Nat :=
  if m.data.length = 0 then 100 else m.size * 100 / m.data.length

/-- `Contains`. -/
def contains (m : HashMap K V) (key : K) : Bool :=
  if m.data.length = 0 then false else (m.bucket key).any (·.1 = key)

/-- What `at` returns for a key that is there. -/
def find (m : HashMap K V) (key : K) : Option V := ((m.bucket key).find? (·.1 = key)).map Prod.snd

/-- `Resize`: the pairs move one by one to the front of their new buckets. -/
def resize (m : HashMap K V) (newSize : Nat) : HashMap K V :=
  { m with
    data := m.data.flatten.foldl (fun data pair => data.modify (index newSize pair.1) (pair :: ·))
      (List.replicate newSize []) }

/-- `ResizeIfNecessary`. -/
def resizeIfNecessary (m : HashMap K V) : HashMap K V :=
  if m.data.length = 0 then m.resize 8
  else if m.load > 75 then m.resize (m.data.length * 2)
  else m

/-- `Insert`. -/
def insert (m : HashMap K V) (key : K) (value : V) : ErrorCode × HashMap K V :=
  let m := m.resizeIfNecessary
  if (m.bucket key).any (·.1 = key) then (.alreadyExists, m)
  else (.ok, {
    data := m.data.modify (index m.data.length key) ((key, value) :: ·)
    size := m.size + 1 })

/-- `Delete`. -/
def delete (m : HashMap K V) (key : K) : Option (ErrorCode × HashMap K V) :=
  if m.data.length = 0 then none
  else if (m.bucket key).any (·.1 = key) then
    some (.ok, {
      data := m.data.modify (index m.data.length key) (List.eraseP (·.1 = key))
      size := m.size - 1 })
  else some (.notFound, m)

/-- The assignment of `Update` to the value of the first pair with the key. -/
def assign (key : K) (value : V) : List (K × V) → List (K × V)
  | [] => []
  | pair :: pairs =>
    if pair.1 = key then (pair.1, value) :: pairs else pair :: assign key value pairs

/-- `Update`. -/
def update (m : HashMap K V) (key : K) (value : V) : ErrorCode × HashMap K V :=
  let m := m.resizeIfNecessary
  if (m.bucket key).any (·.1 = key) then
    (.ok, { m with data := m.data.modify (index m.data.length key) (assign key value) })
  else (.notFound, m)

/-- `at`: a key that is not there gets a pair, which `size_` does not count. -/
def atKey [Inhabited V] (m : HashMap K V) (key : K) : Option (V × HashMap K V) :=
  if m.data.length = 0 then none
  else
    match m.find key with
    | some value => some (value, m)
    | none => some (default,
      { m with data := m.data.modify (index m.data.length key) ((key, default) :: ·) })

/-- The pairs of the map. -/
def entries (m : HashMap K V) : List (K × V) := m.data.flatten

end HashMap

end Acadia.Glacier
