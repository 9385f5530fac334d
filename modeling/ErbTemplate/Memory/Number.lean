import ErbTemplate.Memory.ItemArray

/-!
# Arrays of bytes, and numbers kept in them

An array of items given as their bytes checks that each item has the right length. A number type
of `width` bytes is a second view of such an array: `encode` writes a number as its bytes, least
significant first, and `decode` reads it back. Signed numbers are kept in two's complement.

Every typed operation checks that the type is as wide as the items *before* it looks at anything
else. The only exceptions are the first and the last item, where an empty array has none of any
type.
-/

set_option autoImplicit false

namespace ErbTemplate

/-- The bytes of one item. -/
abbrev Bytes := List UInt8

/-! ## 1. Number types -/

/-- A type of whole numbers that take `width` bytes. -/
structure NumberType where
  signed : Bool
  width : Nat
  deriving DecidableEq, Repr

namespace NumberType

/-- The little-endian bytes of a natural number, `width` of them. -/
def littleEndian : Nat → Nat → Bytes
  | 0, _ => []
  | width + 1, n => UInt8.ofNat (n % 256) :: littleEndian width (n / 256)

/-- The natural number that little-endian bytes denote. -/
def ofLittleEndian : Bytes → Nat
  | [] => 0
  | byte :: bytes => byte.toNat + 256 * ofLittleEndian bytes

/-- The number of values of a type. -/
def modulus (type : NumberType) : Nat :=
  Nat.pow 256 type.width

/-- The bytes of a number. -/
def encode (type : NumberType) (value : Int) : Bytes :=
  littleEndian type.width (value % type.modulus).toNat

/-- The number that bytes denote: of a signed type, the upper half of the values is negative. -/
def decode (type : NumberType) (bytes : Bytes) : Int :=
  let value := ofLittleEndian bytes
  if type.signed && type.modulus ≤ 2 * value then
    (value : Int) - type.modulus
  else
    value

end NumberType

/-! ## 2. Items given as bytes -/

namespace ItemArray

/-- Adds an item given as its bytes. -/
def appendBytes (item : Bytes) : InPlace (ItemArray Bytes) Unit := do
  let array ← get
  if item.length = array.itemSize then
    append item
  else
    InPlace.violate (.itemLength item.length array.itemSize)

/-- Takes out the last item, for an output of so many bytes. -/
def popBytes? (length : Nat) : InPlace (ItemArray Bytes) (Option Bytes) := do
  let array ← get
  if length = array.itemSize then
    pop?
  else
    InPlace.violate (.outputLength length array.itemSize)

/-! ## 3. Items read as numbers -/

/-- A violation unless the items are as wide as the type. -/
def checkType (array : ItemArray Bytes) (type : NumberType) : Except Violation Unit :=
  if type.width = array.itemSize then .ok () else .error (.typeSize type.width array.itemSize)

/-- The check of `checkType` in front of an operation. -/
def requireType (type : NumberType) : InPlace (ItemArray Bytes) Unit := do
  match (← get).checkType type with
  | .ok () => return ()
  | .error cause => InPlace.violate cause

/-- A new array for numbers of a type. -/
def initFor (type : NumberType) (capacity : Nat) : Alloc (ItemArray Bytes) :=
  init type.width capacity

/-- Adds a number. -/
def appendNumber (type : NumberType) (value : Int) : InPlace (ItemArray Bytes) Unit := do
  requireType type
  append (type.encode value)

/-- The number at an index. -/
def nthNumber (array : ItemArray Bytes) (type : NumberType) (index : Nat) :
    Except Violation Int := do
  array.checkType type
  return type.decode (← array.nth index)

/-- The first number; an empty array has none of any type. -/
def firstNumber? (array : ItemArray Bytes) (type : NumberType) : Except Violation (Option Int) :=
  if array.isEmpty then .ok none else some <$> array.nthNumber type 0

/-- The last number; an empty array has none of any type. -/
def lastNumber? (array : ItemArray Bytes) (type : NumberType) : Except Violation (Option Int) :=
  if array.isEmpty then .ok none else some <$> array.nthNumber type (array.size - 1)

/-- Takes out the last number. -/
def popNumber? (type : NumberType) : InPlace (ItemArray Bytes) (Option Int) := do
  requireType type
  return (← pop?).map type.decode

/-- All numbers. -/
def numbers (array : ItemArray Bytes) (type : NumberType) : Except Violation (List Int) := do
  array.checkType type
  return array.items.toList.map type.decode

end ItemArray
end ErbTemplate
