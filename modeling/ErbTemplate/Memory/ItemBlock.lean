import ErbTemplate.Memory.Number

/-!
# Growable arrays in a block of memory

This is how a growable array is kept: one block of bytes, in which the item at `index` takes the
bytes from `index * itemSize` on, and no other bookkeeping than the size of an item, the number of
items and the number of items that fit. Adding copies bytes into the next slot, taking out moves
the bytes behind it to the left, growing asks for a longer block.

An access to a block is checked here: it is a `strayAccess` when it leaves the block or reads bytes
that nobody has written. The checks are not part of the program, which would go on with whatever it
finds. That none of them ever fails is a theorem.

`ErbTemplate.Memory.ItemArray` has the same arrays with their items as values.
-/

set_option autoImplicit false

namespace ErbTemplate

/-! ## 1. Blocks -/

/-- A block of memory: its length, and what stands in its bytes. A byte that nobody has written
holds nothing. -/
structure Block where
  length : Nat
  cell : Nat → Option UInt8

namespace Block

/-- A new block. -/
def fresh (length : Nat) : Block :=
  ⟨length, fun _ => none⟩

/-- So many bytes from an offset on, if they all lie in the block and have been written. -/
def read (block : Block) (offset count : Nat) : Option Bytes :=
  if offset + count ≤ block.length then
    (List.range count).mapM fun index => block.cell (offset + index)
  else
    none

/-- The block after bytes have been copied to an offset, if they fit. -/
def write (block : Block) (offset : Nat) (bytes : Bytes) : Option Block :=
  if offset + bytes.length ≤ block.length then
    some ⟨block.length, fun place =>
      if offset ≤ place ∧ place < offset + bytes.length then bytes[place - offset]?
      else block.cell place⟩
  else
    none

/-- The block after so many bytes have been moved, written or not. The bytes to be moved and the
place for them may overlap. -/
def move (block : Block) (source target count : Nat) : Option Block :=
  if source + count ≤ block.length ∧ target + count ≤ block.length then
    some ⟨block.length, fun place =>
      if target ≤ place ∧ place < target + count then block.cell (source + (place - target))
      else block.cell place⟩
  else
    none

/-- A block of another length, with the same bytes as far as both go. -/
def resize (block : Block) (length : Nat) : Block :=
  ⟨length, fun place => if place < block.length then block.cell place else none⟩

end Block

/-! ## 2. Arrays -/

/-- An array whose items stand one behind the other in a block. The array without room has no
block, which counts as a block of no bytes. -/
structure ItemBlock where
  itemSize : Nat
  capacity : Nat
  size : Nat
  block : Block

namespace ItemBlock

/-- The array without room. -/
def released : ItemBlock :=
  ⟨0, 0, 0, .fresh 0⟩

/-- Where the item at an index stands. -/
def slot (array : ItemBlock) (index : Nat) : Nat :=
  index * array.itemSize

/-- A new array with room for `capacity` items. -/
def init (itemSize capacity : Nat) : Alloc ItemBlock := do
  if itemSize = 0 then
    Alloc.violate .zeroItemSize
  else if capacity = 0 then
    Alloc.violate .zeroCapacity
  else
    ItemArray.requestRoom itemSize capacity
    return ⟨itemSize, capacity, 0, .fresh (itemSize * capacity)⟩

/-- Doubles the room until `needed` items fit. -/
def growTo (needed : Nat) : InPlace ItemBlock Unit := do
  let array ← get
  match ItemArray.doubleTo needed array.capacity with
  | none => InPlace.ofAlloc (Alloc.fail (.allocation Memory.maxWord))
  | some capacity =>
    InPlace.ofAlloc (ItemArray.requestRoom array.itemSize capacity)
    set { array with capacity, block := array.block.resize (array.itemSize * capacity) }

/-- Grows unless `needed` items fit already. -/
def makeRoom (needed : Nat) : InPlace ItemBlock Unit := do
  if (← get).capacity < needed then
    growTo needed

/-- Makes room for `additional` further items. -/
def reserve (additional : Nat) : InPlace ItemBlock Unit := do
  let array ← get
  if array.itemSize = 0 then
    InPlace.violate .released
  else if array.size + additional ≤ Memory.maxWord then
    makeRoom (array.size + additional)
  else
    InPlace.ofAlloc (Alloc.fail (.allocation Memory.maxWord))

/-- Gives up the block. -/
def release : InPlace ItemBlock Unit :=
  set released

/-! ## 3. Items -/

/-- Copies the bytes of an item into the slot behind the last one. -/
def store (item : Bytes) : InPlace ItemBlock Unit := do
  let array ← get
  match array.block.write (array.slot array.size) item with
  | some block => set { array with block, size := array.size + 1 }
  | none => InPlace.violate .strayAccess

/-- Adds an item, once there is room for it. -/
def appendRaw (item : Bytes) : InPlace ItemBlock Unit := do
  let array ← get
  if array.itemSize = 0 then
    InPlace.violate .released
  else
    makeRoom (array.size + 1)
    store item

/-- Adds an item given as its bytes. -/
def appendBytes (item : Bytes) : InPlace ItemBlock Unit := do
  let array ← get
  if item.length = array.itemSize then
    appendRaw item
  else
    InPlace.violate (.itemLength item.length array.itemSize)

/-- The bytes in a slot. -/
def load (array : ItemBlock) (index : Nat) : Except Violation Bytes :=
  match array.block.read (array.slot index) array.itemSize with
  | some item => .ok item
  | none => .error .strayAccess

/-- The item at an index. -/
def nth (array : ItemBlock) (index : Nat) : Except Violation Bytes :=
  if index < array.size then array.load index else .error (.outOfBounds index array.size)

/-- Takes out the item at an index. The bytes behind it, if there are any, move up by one slot. -/
def remove (index : Nat) : InPlace ItemBlock Unit := do
  let array ← get
  if index < array.size then
    let trailing := array.size - 1 - index
    if 0 < trailing then
      match array.block.move (array.slot (index + 1)) (array.slot index)
        (trailing * array.itemSize) with
      | some block => set { array with block, size := array.size - 1 }
      | none => InPlace.violate .strayAccess
    else
      set { array with size := array.size - 1 }
  else
    InPlace.violate (.outOfBounds index array.size)

/-- Copies the last item out and takes it from the array, if there is one. -/
def popRaw : InPlace ItemBlock (Option Bytes) := do
  let array ← get
  if array.size = 0 then
    return none
  else
    match array.load (array.size - 1) with
    | .ok item =>
      set { array with size := array.size - 1 }
      return some item
    | .error cause => InPlace.violate cause

/-- Takes out the last item, for an output of so many bytes. -/
def popBytes? (length : Nat) : InPlace ItemBlock (Option Bytes) := do
  let array ← get
  if length = array.itemSize then
    popRaw
  else
    InPlace.violate (.outputLength length array.itemSize)

/-! ## 4. Items read as numbers -/

/-- A violation unless the items are as wide as the type. -/
def checkType (array : ItemBlock) (type : NumberType) : Except Violation Unit :=
  if type.width = array.itemSize then .ok () else .error (.typeSize type.width array.itemSize)

/-- The check of `checkType` in front of an operation. -/
def requireType (type : NumberType) : InPlace ItemBlock Unit := do
  match (← get).checkType type with
  | .ok () => return ()
  | .error cause => InPlace.violate cause

/-- A new array for numbers of a type. -/
def initFor (type : NumberType) (capacity : Nat) : Alloc ItemBlock :=
  init type.width capacity

/-- Adds a number. -/
def appendNumber (type : NumberType) (value : Int) : InPlace ItemBlock Unit := do
  requireType type
  appendRaw (type.encode value)

/-- The number at an index. -/
def nthNumber (array : ItemBlock) (type : NumberType) (index : Nat) : Except Violation Int := do
  array.checkType type
  return type.decode (← array.nth index)

/-- The first number; an empty array has none of any type. -/
def firstNumber? (array : ItemBlock) (type : NumberType) : Except Violation (Option Int) :=
  if array.size = 0 then .ok none else some <$> array.nthNumber type 0

/-- The last number; an empty array has none of any type. -/
def lastNumber? (array : ItemBlock) (type : NumberType) : Except Violation (Option Int) :=
  if array.size = 0 then .ok none else some <$> array.nthNumber type (array.size - 1)

/-- Takes out the last number. -/
def popNumber? (type : NumberType) : InPlace ItemBlock (Option Int) := do
  requireType type
  return (← popRaw).map type.decode

/-- All numbers, slot by slot. -/
def numbers (array : ItemBlock) (type : NumberType) : Except Violation (List Int) := do
  array.checkType type
  (List.range array.size).mapM fun index => return type.decode (← array.load index)

end ItemBlock
end ErbTemplate
