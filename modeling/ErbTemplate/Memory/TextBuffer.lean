import ErbTemplate.Memory.ItemArray
import ErbTemplate.Text.Basic

/-!
# Text buffers

A text buffer is a growable array of bytes into which only whole texts and single ASCII characters
are written. Every write makes room for all of its bytes first. After that no single byte of it
can fail, so a write is done completely or not at all, and the bytes in a buffer are always the
UTF-8 form of some text.

`Write` is the list of the ways to write. An extraction is a list of writes; running it is a walk
over that list, and a refusal in the middle leaves the writes before it.
-/

set_option autoImplicit false

namespace ErbTemplate

/-- A growable buffer of UTF-8 bytes. -/
abbrev TextBuffer := ItemArray UInt8

/-- The bytes of a text in UTF-8. -/
def Text.toBytes (text : List Char) : List UInt8 :=
  text.flatMap String.utf8EncodeChar

/-- The text that bytes spell; `none` unless they are UTF-8. -/
def Text.ofBytes? (bytes : List UInt8) : Option String :=
  String.fromUTF8? bytes.toByteArray

namespace TextBuffer

/-- Whether a byte is an ASCII character. -/
def isAscii (byte : UInt8) : Bool :=
  byte < 128

/-- A new buffer with room for `capacity` bytes, and for at least one. -/
def init (capacity : Nat) : Alloc TextBuffer :=
  ItemArray.init 1 (max capacity 1)

/-- Adds a text. -/
def appendText (text : List Char) : InPlace TextBuffer Unit := do
  ItemArray.reserve (Text.byteLength text)
  ItemArray.appendAll (Text.toBytes text)

/-- Adds one ASCII character. A released buffer has items of no size, which one byte does not
match. -/
def appendByte (byte : UInt8) : InPlace TextBuffer Unit := do
  let buffer ← get
  if isAscii byte then
    if buffer.isReleased then
      InPlace.violate (.itemLength 1 0)
    else
      ItemArray.append byte
  else
    InPlace.violate .notAscii

/-- Adds an ASCII character `count` times. -/
def appendRepeated (byte : UInt8) (count : Nat) : InPlace TextBuffer Unit := do
  if isAscii byte then
    ItemArray.reserve count
    ItemArray.appendAll (List.replicate count byte)
  else
    InPlace.violate .notAscii

/-- The bytes in a buffer. -/
def bytes (buffer : TextBuffer) : List UInt8 :=
  buffer.items.toList

/-- The text in a buffer. -/
def text (buffer : TextBuffer) : String :=
  (Text.ofBytes? buffer.bytes).getD ""

/-! ## Writes -/

/-- One write into a buffer. -/
inductive Write where
  | text (characters : List Char)
  | byte (value : UInt8)
  | repeated (value : UInt8) (count : Nat)
  deriving DecidableEq, Repr

/-- The bytes of a write. -/
def Write.bytes : Write → List UInt8
  | .text characters => Text.toBytes characters
  | .byte value => [value]
  | .repeated value count => List.replicate count value

/-- Does one write. -/
def write : Write → InPlace TextBuffer Unit
  | .text characters => appendText characters
  | .byte value => appendByte value
  | .repeated value count => appendRepeated value count

/-- Does writes in order, up to the first that stops. -/
def writeAll : List Write → InPlace TextBuffer Unit
  | [] => pure ()
  | first :: others => do
    write first
    writeAll others

end TextBuffer
end ErbTemplate
