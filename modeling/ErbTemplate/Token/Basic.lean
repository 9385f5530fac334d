import ErbTemplate.Source.Span

/-!
# Tokens

The lexical vocabulary of a template: markup punctuation, names, white space, single characters,
and the three parts of an ERB tag. A `Lexeme` is a kind with its text; a `Token` also knows where
in the source it stands. Names and numbers of the kinds are part of the public contract, so both
tables are written out.
-/

set_option autoImplicit false

namespace ErbTemplate

/-- The kinds of tokens. -/
inductive TokenKind where
  | whitespace
  | newline
  | identifier
  | character
  | equals
  | quote
  | slash
  | tagStart
  | tagStartClose
  | tagEnd
  | tagSelfClose
  | commentStart
  | commentEnd
  | erbStart
  | erbContent
  | erbEnd
  | eof
  deriving DecidableEq, Repr

namespace TokenKind

/-- Every kind, in the order of their numbers. -/
def all : List TokenKind :=
  [.whitespace, .newline, .identifier, .character, .equals, .quote, .slash, .tagStart,
   .tagStartClose, .tagEnd, .tagSelfClose, .commentStart, .commentEnd, .erbStart, .erbContent,
   .erbEnd, .eof]

/-- The name under which a kind is reported. -/
def name : TokenKind → String
  | whitespace => "TOKEN_WHITESPACE"
  | newline => "TOKEN_NEWLINE"
  | identifier => "TOKEN_IDENTIFIER"
  | character => "TOKEN_CHARACTER"
  | equals => "TOKEN_EQUALS"
  | quote => "TOKEN_QUOTE"
  | slash => "TOKEN_SLASH"
  | tagStart => "TOKEN_HTML_TAG_START"
  | tagStartClose => "TOKEN_HTML_TAG_START_CLOSE"
  | tagEnd => "TOKEN_HTML_TAG_END"
  | tagSelfClose => "TOKEN_HTML_TAG_SELF_CLOSE"
  | commentStart => "TOKEN_HTML_COMMENT_START"
  | commentEnd => "TOKEN_HTML_COMMENT_END"
  | erbStart => "TOKEN_ERB_START"
  | erbContent => "TOKEN_ERB_CONTENT"
  | erbEnd => "TOKEN_ERB_END"
  | eof => "TOKEN_EOF"

/-- The number under which a kind is reported: its place in `all`. -/
def number (kind : TokenKind) : Nat :=
  all.idxOf kind

/-- Whether a token of this kind is part of an ERB tag. -/
def isErb : TokenKind → Bool
  | erbStart | erbContent | erbEnd => true
  | _ => false

end TokenKind

/-- A kind of token with its text. -/
structure Lexeme where
  kind : TokenKind
  text : List Char
  deriving DecidableEq, Repr

/-- A token: what it is, its text, and where it stands. -/
structure Token where
  kind : TokenKind
  text : List Char
  span : Span
  deriving DecidableEq, Repr

namespace Token

/-- The bytes of a token. -/
def range (token : Token) : Range :=
  token.span.range

/-- The lines and columns of a token. -/
def location (token : Token) : Location :=
  token.span.location

/-- The token of a lexeme that begins at a point. -/
def ofLexeme (start : Point) (lexeme : Lexeme) : Token :=
  ⟨lexeme.kind, lexeme.text, start, start.advance lexeme.text⟩

/-- The token that marks the end of a source. -/
def eofAt (point : Point) : Token :=
  ofLexeme point ⟨.eof, []⟩

end Token

end ErbTemplate
