import ErbTemplate.Memory.Basic

/-!
# Growable arrays of items of one size

An `ItemArray` holds items that take the same number of bytes each. It has room for `capacity`
items; when the room is used up it doubles until the items fit, and no further. An array without
room is *released*: it has item size zero, and adding to it is a violation.

Sizes are those of a 64-bit machine. Capacity and byte count are computed exactly, and what does
not fit in a word counts as a request for the largest word, which is refused. A request that is
refused leaves the array as it was, because room is made before anything is changed.

Items are of any type, and here they are values in a row. Arrays whose items are plain bytes, with
the checks that bytes need, follow in `ErbTemplate.Memory.Number`; how such an array keeps its items
in one block of memory is in `ErbTemplate.Memory.ItemBlock`.
-/

set_option autoImplicit false

namespace ErbTemplate

/-- An array of items that take `itemSize` bytes each, with room for `capacity` of them. -/
structure ItemArray (α : Type) where
  itemSize : Nat
  capacity : Nat
  items : Array α
  deriving Repr

namespace ItemArray

variable {α : Type}

/-- The array without room. -/
def released : ItemArray α :=
  ⟨0, 0, #[]⟩

/-- Whether an array is without room. -/
def isReleased (array : ItemArray α) : Bool :=
  array.itemSize == 0

/-- The number of items. -/
def size (array : ItemArray α) : Nat :=
  array.items.size

/-- Whether there is no item. -/
def isEmpty (array : ItemArray α) : Bool :=
  array.size == 0

/-! ## 1. Room -/

/-- Asks for the bytes of so many items. -/
def requestRoom (itemSize capacity : Nat) : Alloc Unit :=
  if itemSize * capacity ≤ Memory.maxWord then
    Alloc.request (itemSize * capacity)
  else
    Alloc.fail (.allocation Memory.maxWord)

/-- A new array with room for `capacity` items. -/
def init (itemSize capacity : Nat) : Alloc (ItemArray α) := do
  if itemSize = 0 then
    Alloc.violate .zeroItemSize
  else if capacity = 0 then
    Alloc.violate .zeroCapacity
  else
    requestRoom itemSize capacity
    return ⟨itemSize, capacity, #[]⟩

/-- The capacity doubled until `needed` items fit; `none` when that leaves the machine's words. An
array with room has a positive capacity; zero could double forever and has no answer. -/
def doubleTo (needed capacity : Nat) : Option Nat :=
  if needed ≤ capacity then
    some capacity
  else if capacity = 0 then
    none
  else if 2 * capacity ≤ Memory.maxWord then
    doubleTo needed (2 * capacity)
  else
    none
termination_by needed - capacity

/-- Makes room for `needed` items. -/
def growTo (needed : Nat) : InPlace (ItemArray α) Unit := do
  let array ← get
  if array.capacity < needed then
    match doubleTo needed array.capacity with
    | none => InPlace.ofAlloc (Alloc.fail (.allocation Memory.maxWord))
    | some capacity =>
      InPlace.ofAlloc (requestRoom array.itemSize capacity)
      modify ({ · with capacity })

/-- Makes room for `additional` further items. -/
def reserve (additional : Nat) : InPlace (ItemArray α) Unit := do
  let array ← get
  if array.isReleased then
    InPlace.violate .released
  else if array.size + additional ≤ Memory.maxWord then
    growTo (array.size + additional)
  else
    InPlace.ofAlloc (Alloc.fail (.allocation Memory.maxWord))

/-! ## 2. Items -/

/-- Adds an item at the end. -/
def append (item : α) : InPlace (ItemArray α) Unit := do
  let array ← get
  if array.isReleased then
    InPlace.violate .released
  else
    growTo (array.size + 1)
    modify fun array => { array with items := array.items.push item }

/-- Adds items one by one, up to the first that does not fit. -/
def appendAll : List α → InPlace (ItemArray α) Unit
  | [] => pure ()
  | item :: items => do
    append item
    appendAll items

/-- The item at an index. -/
def nth (array : ItemArray α) (index : Nat) : Except Violation α :=
  match array.items[index]? with
  | some item => .ok item
  | none => .error (.outOfBounds index array.size)

/-- The first item, if there is one. -/
def first? (array : ItemArray α) : Option α :=
  array.items[0]?

/-- The last item, if there is one. -/
def last? (array : ItemArray α) : Option α :=
  array.items.back?

/-- Takes out the item at an index; the later items move up. -/
def remove (index : Nat) : InPlace (ItemArray α) Unit := do
  let array ← get
  if index < array.size then
    modify fun array => { array with items := array.items.eraseIdxIfInBounds index }
  else
    InPlace.violate (.outOfBounds index array.size)

/-- Takes out the last item, if there is one. -/
def pop? : InPlace (ItemArray α) (Option α) := do
  let array ← get
  match array.last? with
  | none => return none
  | some item =>
    modify fun array => { array with items := array.items.pop }
    return some item

/-- Gives up the room and all items. -/
def release : InPlace (ItemArray α) Unit :=
  set (released : ItemArray α)

end ItemArray
end ErbTemplate
