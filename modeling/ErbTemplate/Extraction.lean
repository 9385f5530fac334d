import ErbTemplate.Token.Lexing
import ErbTemplate.Memory.TextBuffer
import ErbTemplate.Text.Blank
import ErbTemplate.Options

/-!
# Extraction of code and of markup

Extraction takes a template apart: the code of its ERB tags, or the markup around them. What is
left out is usually *blanked*, one space for each byte with newlines kept, so that offsets and
lines in the result are those of the template. Code can also be extracted compactly, one tag after
the other.

An extraction is a list of writes into a buffer, found piece by piece (`codeInPlace`,
`codeCompact`, `markupOnly`). Even a write of nothing is listed, since it still needs a buffer that
has not been released.
-/

set_option autoImplicit false

namespace ErbTemplate
namespace Extraction

open Text TextBuffer

/-- The byte of an ASCII character. -/
def byteOf (c : Char) : UInt8 :=
  c.toNat.toUInt8

/-- Writes spaces in place of a text whose first `run` bytes are already counted. -/
def blankFrom (run : Nat) : List Char → List Write
  | [] => [.repeated (byteOf ' ') run]
  | c :: text =>
    if c = '\n' then
      .repeated (byteOf ' ') run :: .byte (byteOf '\n') :: blankFrom 0 text
    else
      blankFrom (run + c.utf8Size) text

/-- Writes one space for each byte of a text, and keeps its newlines. -/
def blank (text : List Char) : List Write :=
  blankFrom 0 text

/-! ## 1. Code at its place -/

/-- The opening delimiter: blank, or the mark of a comment that is kept. -/
def openingInPlace (options : ExtractOptions) (opening : Opening) (text : List Char) : List Write :=
  if opening = .comment ∧ options.comments then
    [.repeated (byteOf ' ') (byteLength text - 1), .byte (byteOf '#')]
  else
    blank text

/-- The content: code is kept, and so is the first line of a comment that is kept. -/
def contentInPlace (options : ExtractOptions) (opening : Opening) (text : List Char) : List Write :=
  if opening.isCode then
    [.text text]
  else if opening = .comment ∧ options.comments then
    let (line, rest) := spanUntil (startsWith ['\n']) text
    .text line :: blank rest
  else
    blank text

/-- The closing delimiter: blank, or a semicolon after code. -/
def closingInPlace (options : ExtractOptions) (opening : Opening) (content text : List Char) :
    List Write :=
  if options.semicolons ∧ opening.isCode ∧ ¬allBlank content then
    [.byte (byteOf ';'), .repeated (byteOf ' ') (byteLength text - 1)]
  else
    blank text

/-- A piece with its code in place and all else blank. -/
def codeInPlace (options : ExtractOptions) : Piece Lexeme → List Write
  | .markup lexeme => blank lexeme.text
  | .erb opening mark ending =>
    openingInPlace options opening mark.text ++
      match ending with
      | .bare => []
      | .running content => contentInPlace options opening content.text
      | .closed content closing =>
        contentInPlace options opening content.text
          ++ closingInPlace options opening content.text closing.text

/-! ## 2. Code alone -/

/-- The code of a piece on lines of its own, and comments that are kept line by line. -/
def codeCompact (options : ExtractOptions) : Piece Lexeme → List Write
  | .markup _ => []
  | .erb opening _ ending =>
    match ending.content? with
    | none => []
    | some content =>
      let code := trim content.text
      if opening.isCode then
        if code.isEmpty then []
        else
          .text code :: (if options.semicolons then [.byte (byteOf ';')] else [])
            ++ [.byte (byteOf '\n')]
      else if opening = .comment ∧ options.comments then
        (lines code).flatMap fun line =>
          [.text ['#', ' '], .text (trim line), .byte (byteOf '\n')]
      else
        []

/-! ## 3. Markup alone -/

/-- A piece with its markup in place and ERB tags blank. -/
def markupOnly : Piece Lexeme → List Write
  | .markup lexeme => [.text lexeme.text]
  | piece => piece.parts.flatMap fun part => blank part.text

/-! ## 4. Whole templates -/

/-- The writes that extract the code of a source. -/
def codeWrites (options : ExtractOptions) (source : List Char) : List Write :=
  if options.preservePositions then
    (pieces source).flatMap (codeInPlace options) ++ blank []
  else
    (pieces source).flatMap (codeCompact options)

/-- The writes that extract the markup of a source. -/
def markupWrites (source : List Char) : List Write :=
  (pieces source).flatMap markupOnly ++ [.text []]

end Extraction

/-- Appends the code of a source to a buffer. -/
def extractRuby (source : List Char) (options : ExtractOptions) : InPlace TextBuffer Unit := do
  let _ ← InPlace.ofAlloc (lex source)
  TextBuffer.writeAll (Extraction.codeWrites options source)

/-- Appends the markup of a source to a buffer. -/
def extractHtml (source : List Char) : InPlace TextBuffer Unit := do
  let _ ← InPlace.ofAlloc (lex source)
  TextBuffer.writeAll (Extraction.markupWrites source)

end ErbTemplate
