/-!
# Blank characters, trimming and lines

A character is blank when it has the Unicode property `White_Space`. The property is a fixed
table of twenty-five characters, which core's `Char.isWhitespace` covers only in part: form
feed, no-break space and the typographic spaces are blank too, the zero-width space is not.
-/

set_option autoImplicit false

namespace ErbTemplate
namespace Text

/-- The characters with the Unicode property `White_Space`, as closed ranges of code points. -/
def blankRanges : List (Nat × Nat) :=
  [(0x09, 0x0D), (0x20, 0x20), (0x85, 0x85), (0xA0, 0xA0), (0x1680, 0x1680), (0x2000, 0x200A),
   (0x2028, 0x2029), (0x202F, 0x202F), (0x205F, 0x205F), (0x3000, 0x3000)]

/-- Whether a character is white space. -/
def isBlank (c : Char) : Bool :=
  blankRanges.any fun (low, high) => low ≤ c.toNat && c.toNat ≤ high

/-- Drops the blanks at the end. -/
def trimEnd (text : List Char) : List Char :=
  (text.reverse.dropWhile isBlank).reverse

/-- Drops the blanks at both ends. -/
def trim (text : List Char) : List Char :=
  trimEnd (text.dropWhile isBlank)

/-- Whether a text has nothing but blanks. -/
def allBlank (text : List Char) : Bool :=
  text.all isBlank

/-- The lines of a text: each ends at a newline or at the end of the text, and loses its newline
and one carriage return before it. A newline at the very end begins no further line. -/
def lines : List Char → List (List Char)
  | [] => []
  | '\r' :: '\n' :: text => [] :: lines text
  | '\n' :: text => [] :: lines text
  | c :: text =>
    match lines text with
    | [] => [[c]]
    | line :: others => (c :: line) :: others

end Text
end ErbTemplate
