import ErbTemplate.Tree.Builder
import ErbTemplate.Text.Blank
import ErbTemplate.Text.Word
import ErbTemplate.Token.Lexing

/-!
# Analysis of ERB tags

Analysis looks at the code of every ERB tag, says what the tag does, and matches the tags that need
an `end` with the tags that are one. The nesting of elements plays no part: the tags are taken in
source order, as a word of brackets.

A tag opens a bracket in two cases: its code ends with `do` and, perhaps, parameters between bars;
or its first word begins a conditional or a loop that the same code does not already end. A tag
whose first word is `end` closes one.

Analysing a document again gives every tag the same kind, and the same issue once more.
-/

set_option autoImplicit false

namespace ErbTemplate

open Text

/-! ## 1. Code -/

/-- The code of a tag, without the blanks around it. -/
def ErbTag.code (tag : ErbTag) (source : List Char) : List Char :=
  trim (tag.content.text source)

/-- The words that begin something with an `end`. -/
def openerWords : List String :=
  ["if", "unless", "case", "while", "until", "for", "begin"]

/-- The words that continue something with an `end`. -/
def branchWords : List String :=
  ["elsif", "else", "when", "in", "rescue", "ensure"]

/-- The letters, digits and underscores at the beginning of a code. -/
def firstWord (code : List Char) : List Char :=
  code.takeWhile fun c => c.isAlphanum || c == '_'

/-- Whether a word is in a list. -/
def isOneOf (words : List String) (word : List Char) : Bool :=
  words.any fun other => other.toList == word

/-- What may follow a `do` that ends a code: blanks, and perhaps parameters between two bars. -/
def isBlockTail (text : List Char) : Bool :=
  match text.dropWhile isBlank with
  | [] => true
  | c :: inside =>
    c == '|' &&
      match inside.dropWhile (· != '|') with
      | [] => false
      | _ :: after => allBlank after

/-- Whether a text, of which `previous` is the character before it, has a `do` that is a word of
its own on the left and ends the text. -/
def opensBlockAfter (previous : Option Char) : List Char → Bool
  | [] => false
  | c :: text =>
    (startsWith ['d', 'o'] (c :: text) && !previous.any isWordChar && isBlockTail (text.drop 1))
      || opensBlockAfter (some c) text

/-- Whether a code opens a `do` block. -/
def opensBlock (code : List Char) : Bool :=
  opensBlockAfter none code

/-- Whether a code ends with the word `end`, alone or after a blank or a semicolon. -/
def endsWithEnd (code : List Char) : Bool :=
  match (trimEnd code).reverse with
  | 'd' :: 'n' :: 'e' :: before => before.head?.all fun c => isBlank c || c == ';'
  | _ => false

/-! ## 2. Kinds -/

/-- What a tag does, from its opening and its code. -/
def ErbKind.classify (opening : Opening) (code : List Char) : ErbKind :=
  match opening with
  | .comment => comment
  | .escape => escaped
  | _ =>
    if opensBlock code then block
    else if opening.isOutput then output
    else
      let word := firstWord code
      if word = "end".toList then blockEnd
      else if isOneOf openerWords word || isOneOf branchWords word then control
      else statement

/-- What a tag does. -/
def ErbTag.classify (tag : ErbTag) (source : List Char) : ErbKind :=
  ErbKind.classify tag.opening (tag.code source)

/-- The part a tag plays in the matching of `end`. -/
inductive Bracket where
  | opens
  | closes
  | neutral
  deriving DecidableEq, Repr

/-- The bracket of a kind of tag with a code. -/
def Bracket.of (kind : ErbKind) (code : List Char) : Bracket :=
  match kind with
  | .block => opens
  | .blockEnd => closes
  | .control =>
    if isOneOf openerWords (firstWord code) && !endsWithEnd code then opens else neutral
  | _ => neutral

/-! ## 3. Matching -/

/-- A matching so far: the places of the opening brackets that wait for a partner, innermost first,
and of the closing brackets that have none. -/
structure Matching where
  waiting : List Nat
  orphans : List Nat
  deriving DecidableEq, Repr

namespace Matching

/-- Takes in the bracket at a place. -/
def step (matching : Matching) : Bracket × Nat → Matching
  | (.opens, place) => { matching with waiting := place :: matching.waiting }
  | (.closes, place) =>
    match matching.waiting with
    | [] => { matching with orphans := place :: matching.orphans }
    | _ :: waiting => { matching with waiting }
  | (.neutral, _) => matching

/-- The matching of a word of brackets. -/
def ofWord (word : List Bracket) : Matching :=
  word.zipIdx.foldl step ⟨[], []⟩

/-- The issues that a matching finds with the tag at a place. -/
def issuesAt (matching : Matching) (tag : ErbTag) (code : List Char) (place : Nat) : List Issue :=
  (if place ∈ matching.orphans then [⟨.unmatchedEnd, tag.span⟩] else [])
    ++ (if place ∈ matching.waiting then [⟨.missingEnd code, tag.span⟩] else [])

end Matching

namespace Document

/-- The brackets of the ERB tags of a document, in source order. -/
def brackets (document : Document) (source : List Char) : List Bracket :=
  document.erbTags.map fun tag => Bracket.of (tag.classify source) (tag.code source)

/-- Gives every ERB tag its kind, and adds what is wrong with the matching of `end`. -/
def analyze (source : List Char) (document : Document) : Document :=
  let matching := Matching.ofWord (document.brackets source)
  let tags := document.erbTags.zipIdx.map fun (tag, place) =>
    { tag with
      kind := some (tag.classify source)
      issues := tag.issues ++ matching.issuesAt tag (tag.code source) place }
  { document.withErbTags tags with analyzed := true }

end Document

/-! ## 4. Parsing -/

/-- The document of a source. -/
def parsed (source : List Char) (options : ParserOptions) : Document :=
  let document := Document.ofSource options source
  if options.analyze then document.analyze source else document

/-- Parses a source. Only collecting the tokens asks for memory; once they are there, nothing can
fail. -/
def parse (source : List Char) (options : ParserOptions) : Alloc Document := do
  let _ ← lex source
  return parsed source options

end ErbTemplate
