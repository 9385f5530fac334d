import ErbTemplate.Text.Basic

/-!
# Places in a source

A place in a source has two descriptions: its byte offset, and its line and column. Reports give
both, so this library carries both together, as a `Point`, and lets a point move only by
`Point.advance`, which walks over a text. A point reached from `Point.origin` by walking over a
part of the source therefore cannot disagree with itself (`offset_advance`, `advance_append`).

Lines and columns are counted in words of 32 bits, which start again from zero when they are full.
A `Position` is such a pair of words, and it moves by the arithmetic of words (`Position.next`). A
point keeps the true numbers, its `Place`; its position is what is left of them in 32 bits, and to
count first and cut off then is to count in words (`Point.position_next`).

A `Span` is a stretch between two points. Tokens, tags and nodes hold spans; their byte range and
their line and column location are two projections of the same thing.
-/

set_option autoImplicit false

namespace ErbTemplate

/-! ## 1. Line and column, byte range -/

/-- A line, counted from one, and a column, counted from zero in characters. -/
structure Place where
  line : Nat
  column : Nat
  deriving DecidableEq, Repr

/-- A line and a column in words of 32 bits. -/
structure Position where
  line : UInt32
  column : UInt32
  deriving DecidableEq, Repr

/-- A word stands for a number. -/
instance instCoeUInt32Nat : Coe UInt32 Nat := ⟨UInt32.toNat⟩

/-- The numbers that a position stands for. -/
def Position.toPlace (position : Position) : Place :=
  ⟨position.line, position.column⟩

/-- Where a report starts and where it ends. -/
structure Location where
  start : Position
  stop : Position
  deriving DecidableEq, Repr

/-- A half-open range of byte offsets. -/
structure Range where
  start : Nat
  stop : Nat
  deriving DecidableEq, Repr

namespace Range

/-- The number of bytes. -/
def length (range : Range) : Nat :=
  range.stop - range.start

/-- Whether the range holds no byte. -/
def isEmpty (range : Range) : Bool :=
  range.start == range.stop

/-- The text a range covers; `none` when one of its ends is not a place in the text. -/
def slice? (range : Range) (text : List Char) : Option (List Char) :=
  Text.between? range.start range.stop text

/-- The text a range of this text covers. -/
def slice (range : Range) (text : List Char) : List Char :=
  (range.slice? text).getD []

end Range

/-! ## 2. Points -/

/-- The place after one more character: a newline begins a line. -/
def Place.next (place : Place) (c : Char) : Place :=
  if c = '\n' then ⟨place.line + 1, 0⟩ else ⟨place.line, place.column + 1⟩

/-- The position after one more character, counted in words. -/
def Position.next (position : Position) (c : Char) : Position :=
  if c = '\n' then ⟨position.line + 1, 0⟩ else ⟨position.line, position.column + 1⟩

/-- What is left of a place in words of 32 bits. -/
def Place.position (place : Place) : Position :=
  ⟨.ofNat place.line, .ofNat place.column⟩

theorem Place.position_next (place : Place) (c : Char) :
    (place.next c).position = place.position.next c := by
  unfold next Position.next position
  split
  · simp only [UInt32.ofNat_add]
    rfl
  · simp only [UInt32.ofNat_add]
    rfl

/-- A place in a source, by byte offset and by line and column. -/
structure Point where
  offset : Nat
  place : Place
  deriving DecidableEq, Repr

namespace Point

/-- The beginning of every source. -/
def origin : Point :=
  ⟨0, ⟨1, 0⟩⟩

/-- The line and the column of a point, as they are reported. -/
def position (point : Point) : Position :=
  point.place.position

/-- The place one character further. -/
def next (point : Point) (c : Char) : Point :=
  ⟨point.offset + c.utf8Size, point.place.next c⟩

/-- **A position moves by the arithmetic of words.** -/
theorem position_next (point : Point) (c : Char) :
    (point.next c).position = point.position.next c :=
  point.place.position_next c

/-- The place after walking over a text. -/
def advance (point : Point) (text : List Char) : Point :=
  text.foldl next point

@[simp] theorem advance_nil (point : Point) : point.advance [] = point := rfl

@[simp] theorem advance_append (point : Point) (front back : List Char) :
    point.advance (front ++ back) = (point.advance front).advance back := by
  simp [advance]

@[simp] theorem offset_advance (point : Point) (text : List Char) :
    (point.advance text).offset = point.offset + Text.byteLength text := by
  induction text generalizing point with
  | nil => rfl
  | cons c text ih =>
    have h := ih (point.next c)
    simp only [advance, List.foldl_cons, Text.byteLength_cons] at h ⊢
    rw [h]
    simp only [next]
    omega

end Point

/-! ## 3. Spans -/

/-- A stretch of a source. -/
structure Span where
  start : Point
  stop : Point
  deriving DecidableEq, Repr

namespace Span

/-- The bytes of a span. -/
def range (span : Span) : Range :=
  ⟨span.start.offset, span.stop.offset⟩

/-- The lines and columns of a span. -/
def location (span : Span) : Location :=
  ⟨span.start.position, span.stop.position⟩

/-- The text of a span of this source. -/
def text (span : Span) (source : List Char) : List Char :=
  span.range.slice source

end Span

end ErbTemplate
