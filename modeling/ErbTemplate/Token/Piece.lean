import ErbTemplate.Token.Basic

/-!
# Pieces of a template

A template is a sequence of pieces: tokens of markup, and whole ERB tags. A tag is kept together
because its three parts have no meaning apart: whether the content is code is said by the opening,
and a closing delimiter exists only after a content. `Ending` lists the only three ways in which a
tag can end, so a closing without a content cannot be written down.

Pieces are generic in what they are made of. The lexer finds pieces of lexemes; `locate` walks
over them from a starting point and gives the pieces of tokens.
-/

set_option autoImplicit false

namespace ErbTemplate

/-! ## 1. Opening delimiters -/

/-- The opening delimiters of ERB tags. -/
inductive Opening where
  | rawOutput
  | escape
  | output
  | trimming
  | comment
  | plain
  deriving DecidableEq, Repr

namespace Opening

/-- Every opening; where two are possible, the one further left is meant. -/
def all : List Opening :=
  [rawOutput, escape, output, trimming, comment, plain]

/-- The text of an opening. -/
def text : Opening → List Char
  | rawOutput => ['<', '%', '=', '=']
  | escape => ['<', '%', '%']
  | output => ['<', '%', '=']
  | trimming => ['<', '%', '-']
  | comment => ['<', '%', '#']
  | plain => ['<', '%']

/-- The opening at the beginning of a text. -/
def of? (text : List Char) : Option Opening :=
  all.find? fun opening => Text.startsWith opening.text text

/-- Whether the content of such a tag is code: not a comment, and not an escaped tag. -/
def isCode : Opening → Bool
  | comment | escape => false
  | _ => true

/-- Whether such a tag prints the value of its code. -/
def isOutput : Opening → Bool
  | output | rawOutput => true
  | _ => false

end Opening

/-! ## 2. Pieces -/

/-- How an ERB tag goes on after its opening: the source ends right there, the content runs to the
end of the source, or the tag is closed. -/
inductive Ending (α : Type) where
  | bare
  | running (content : α)
  | closed (content closing : α)
  deriving DecidableEq, Repr

/-- A token of markup or a whole ERB tag. -/
inductive Piece (α : Type) where
  | markup (part : α)
  | erb (opening : Opening) (mark : α) (ending : Ending α)
  deriving DecidableEq, Repr

namespace Ending

/-- The parts of an ending, in source order. -/
def parts {α : Type} : Ending α → List α
  | bare => []
  | running content => [content]
  | closed content closing => [content, closing]

/-- The content, if the tag has one. -/
def content? {α : Type} : Ending α → Option α
  | bare => none
  | running content => some content
  | closed content _ => some content

/-- The closing delimiter, if the tag has one. -/
def closing? {α : Type} : Ending α → Option α
  | closed _ closing => some closing
  | _ => none

end Ending

namespace Piece

/-- The parts of a piece, in source order. -/
def parts {α : Type} : Piece α → List α
  | markup part => [part]
  | erb _ mark ending => mark :: ending.parts

/-- The text of a piece of lexemes. -/
def text (piece : Piece Lexeme) : List Char :=
  piece.parts.flatMap Lexeme.text

/-- Whether a piece is a markup token of the given kind. -/
def isMarkup (kind : TokenKind) : Piece Token → Bool
  | markup token => token.kind == kind
  | erb .. => false

/-! ## 3. Locating pieces -/

/-- The piece of tokens that a piece of lexemes becomes when it begins at a point. -/
def locate (start : Point) : Piece Lexeme → Piece Token
  | markup lexeme => markup (.ofLexeme start lexeme)
  | erb opening mark ending =>
    let inside := start.advance mark.text
    erb opening (.ofLexeme start mark) <|
      match ending with
      | .bare => .bare
      | .running content => .running (.ofLexeme inside content)
      | .closed content closing =>
        .closed (.ofLexeme inside content) (.ofLexeme (inside.advance content.text) closing)

/-- Locates pieces that stand one after the other. -/
def locateAll (start : Point) : List (Piece Lexeme) → List (Piece Token)
  | [] => []
  | piece :: pieces => piece.locate start :: locateAll (start.advance piece.text) pieces

/-- Where a piece begins. -/
def start : Piece Token → Point
  | markup token => token.span.start
  | erb _ mark _ => mark.span.start

/-- Where a piece ends. -/
def stop : Piece Token → Point
  | markup token => token.span.stop
  | erb _ mark .bare => mark.span.stop
  | erb _ _ (.running content) => content.span.stop
  | erb _ _ (.closed _ closing) => closing.span.stop

/-- Where a row of pieces that begins at a point ends. -/
def stopOfAll (start : Point) (pieces : List (Piece Token)) : Point :=
  (pieces.getLast?.map stop).getD start

end Piece
end ErbTemplate
