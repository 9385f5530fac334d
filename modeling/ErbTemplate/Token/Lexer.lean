import ErbTemplate.Token.Piece

/-!
# The pieces of a text

`pieces` cuts a text into pieces from left to right. At each place the first of these that applies
is taken:

1. an ERB opening, together with the content up to the first closing delimiter;
2. a fixed mark of markup, in the order of `marks`;
3. a run of white space, or of name characters;
4. a single character.

Every step takes at least one character, which is why the recursion ends (`length_next_lt`), and
gives back what it did not take, which is why nothing is lost (`text_next`, `flatMap_text_pieces`).
-/

set_option autoImplicit false

namespace ErbTemplate
namespace Lexer

open Text

/-! ## 1. ERB tags -/

/-- The two characters that close every ERB tag. -/
def closeMark : List Char := ['%', '>']

/-- Splits off a `-` or `=` at the end of a content: it belongs to the closing delimiter. -/
def splitTrim (content : List Char) : List Char × List Char :=
  match content.getLast? with
  | some c => if c = '-' ∨ c = '=' then (content.dropLast, [c]) else (content, [])
  | none => (content, [])

/-- What follows an opening, and the text after the tag. -/
def erbEnding (text : List Char) : Ending Lexeme × List Char :=
  match text with
  | [] => (.bare, [])
  | _ =>
    let (content, back) := spanUntil (startsWith closeMark) text
    match back with
    | [] => (.running ⟨.erbContent, content⟩, [])
    | _ =>
      let (code, trim) := splitTrim content
      (.closed ⟨.erbContent, code⟩ ⟨.erbEnd, trim ++ closeMark⟩, back.drop closeMark.length)

/-! ## 2. Markup -/

/-- The fixed marks of markup; where two are possible, the one further left is meant. -/
def marks : List Lexeme :=
  [⟨.commentStart, ['<', '!', '-', '-']⟩,
   ⟨.commentEnd, ['-', '-', '>']⟩,
   ⟨.tagStartClose, ['<', '/']⟩,
   ⟨.tagSelfClose, ['/', '>']⟩,
   ⟨.newline, ['\r', '\n']⟩,
   ⟨.tagStart, ['<']⟩,
   ⟨.tagEnd, ['>']⟩,
   ⟨.equals, ['=']⟩,
   ⟨.quote, ['"']⟩,
   ⟨.quote, ['\'']⟩,
   ⟨.slash, ['/']⟩,
   ⟨.newline, ['\n']⟩]

/-- The mark at the beginning of a text. -/
def markOf? (text : List Char) : Option Lexeme :=
  marks.find? fun mark => startsWith mark.text text

/-- White space inside a line. -/
def isGapChar (c : Char) : Bool :=
  c == ' ' || c == '\t' || c == '\r'

/-- The characters of names. -/
def isNameChar (c : Char) : Bool :=
  c.isAlphanum || c == '_' || c == '-' || c == ':'

/-- Where a run of white space ends: at any other character, and before a carriage return that
belongs to a line break. -/
def endsGap (text : List Char) : Bool :=
  !(text.head?.any isGapChar) || startsWith ['\r', '\n'] text

/-- Where a name ends: at any other character, and before a dash that belongs to the end of a
comment or of an ERB tag. -/
def endsName (text : List Char) : Bool :=
  !(text.head?.any isNameChar) || startsWith ['-', '-', '>'] text || startsWith ['-', '%', '>'] text

/-- The lexeme of markup at the beginning of a text that is not empty, and the rest. -/
def markup (c : Char) (text : List Char) : Lexeme × List Char :=
  match markOf? (c :: text) with
  | some mark => (mark, (c :: text).drop mark.text.length)
  | none =>
    if isGapChar c then
      let (run, back) := spanUntil endsGap text
      (⟨.whitespace, c :: run⟩, back)
    else if isNameChar c then
      let (run, back) := spanUntil endsName text
      (⟨.identifier, c :: run⟩, back)
    else
      (⟨.character, [c]⟩, text)

/-! ## 3. Pieces -/

/-- The first piece of a text that is not empty, and the rest. -/
def next (c : Char) (text : List Char) : Piece Lexeme × List Char :=
  match Opening.of? (c :: text) with
  | some opening =>
    let (ending, back) := erbEnding ((c :: text).drop opening.text.length)
    (.erb opening ⟨.erbStart, opening.text⟩ ending, back)
  | none =>
    let (lexeme, back) := markup c text
    (.markup lexeme, back)

/-! ## 4. Nothing is lost -/

theorem splitTrim_append (content : List Char) :
    (splitTrim content).1 ++ (splitTrim content).2 = content := by
  unfold splitTrim
  split
  next c h =>
    split
    · rw [List.getLast?_eq_some_iff] at h
      obtain ⟨front, rfl⟩ := h
      simp
    · simp
  next => simp

/-- A text that starts with a mark is the mark and the rest. -/
theorem append_drop_of_startsWith {mark text : List Char} (h : startsWith mark text = true) :
    mark ++ text.drop mark.length = text := by
  obtain ⟨back, rfl⟩ := List.isPrefixOf_iff_prefix.1 h
  simp

/-- A scan that leaves something stops where its condition holds. -/
theorem stop_of_spanUntil {stop : List Char → Bool} {text : List Char}
    (h : (spanUntil stop text).2 ≠ []) : stop (spanUntil stop text).2 = true := by
  induction text with
  | nil => simp [spanUntil] at h
  | cons c text ih =>
    by_cases hc : stop (c :: text)
    · simp [spanUntil, hc]
    · simp only [spanUntil, hc, Bool.false_eq_true, ↓reduceIte] at h ⊢
      exact ih h

/-- The parts of an ending and the text after it are the text it was read from. -/
theorem text_erbEnding (text : List Char) :
    (erbEnding text).1.parts.flatMap Lexeme.text ++ (erbEnding text).2 = text := by
  cases text with
  | nil => rfl
  | cons c text =>
    have happ := spanUntil_append (startsWith closeMark) (c :: text)
    have hstop := @stop_of_spanUntil (startsWith closeMark) (c :: text)
    simp only [erbEnding]
    generalize spanUntil (startsWith closeMark) (c :: text) = found at happ hstop
    obtain ⟨content, back⟩ := found
    cases back with
    | nil => simpa [Ending.parts] using happ
    | cons d back =>
      have hclose := append_drop_of_startsWith (hstop (by simp))
      have htrim := splitTrim_append content
      simp only at happ hclose
      simp only [Ending.parts, List.flatMap_cons, List.flatMap_nil, List.append_nil]
      rw [← happ, List.append_assoc, List.append_assoc, hclose, ← List.append_assoc, htrim]

/-- A mark is found where the text begins with it. -/
theorem startsWith_of_markOf? {text : List Char} {mark : Lexeme} (h : markOf? text = some mark) :
    startsWith mark.text text = true :=
  @List.find?_some Lexeme (fun mark => startsWith mark.text text) mark marks h

/-- An opening is found where the text begins with it. -/
theorem startsWith_of_opening {text : List Char} {opening : Opening}
    (h : Opening.of? text = some opening) : startsWith opening.text text = true :=
  @List.find?_some Opening (fun opening => startsWith opening.text text) opening Opening.all h

/-- The lexeme of markup and the rest are the text they were read from. -/
theorem text_markup (c : Char) (text : List Char) :
    (markup c text).1.text ++ (markup c text).2 = c :: text := by
  unfold markup
  split
  next mark h => exact append_drop_of_startsWith (startsWith_of_markOf? h)
  next =>
    split
    · simpa using spanUntil_append endsGap text
    · split
      · simpa using spanUntil_append endsName text
      · rfl

/-- The first piece and the rest are the text they were read from. -/
theorem text_next (c : Char) (text : List Char) :
    (next c text).1.text ++ (next c text).2 = c :: text := by
  unfold next
  split
  next opening h =>
    have hopen := append_drop_of_startsWith (startsWith_of_opening h)
    have hend := text_erbEnding ((c :: text).drop opening.text.length)
    simp only [Piece.text, Piece.parts, List.flatMap_cons, List.append_assoc]
    rw [hend, hopen]
  next => simpa [Piece.text, Piece.parts] using text_markup c text

/-- A mark has at least one character. -/
theorem text_ne_nil_of_mem_marks {mark : Lexeme} (h : mark ∈ marks) : mark.text ≠ [] := by
  revert mark
  decide

/-- A lexeme of markup has at least one character. -/
theorem text_markup_ne_nil (c : Char) (text : List Char) : (markup c text).1.text ≠ [] := by
  unfold markup
  split
  next mark h => exact text_ne_nil_of_mem_marks (List.mem_of_find?_eq_some h)
  next => split <;> try split
          all_goals simp

/-- A piece has at least one character. -/
theorem text_next_ne_nil (c : Char) (text : List Char) : (next c text).1.text ≠ [] := by
  unfold next
  split
  next opening h => cases opening <;> simp [Piece.text, Piece.parts, Opening.text]
  next => simpa [Piece.text, Piece.parts] using text_markup_ne_nil c text

/-- The rest is shorter than the text. -/
theorem length_next_lt (c : Char) (text : List Char) :
    (next c text).2.length < (c :: text).length := by
  have hlen := congrArg List.length (text_next c text)
  have hpos := List.length_pos_iff.2 (text_next_ne_nil c text)
  simp only [List.length_append] at hlen
  omega

end Lexer

/-! ## 5. The pieces and the tokens of a text -/

/-- The pieces of a text, in source order. -/
def pieces : List Char → List (Piece Lexeme)
  | [] => []
  | c :: text => (Lexer.next c text).1 :: pieces (Lexer.next c text).2
termination_by text => text.length
decreasing_by exact Lexer.length_next_lt c text

/-- The pieces of a text with their places. -/
def locatedPieces (text : List Char) : List (Piece Token) :=
  Piece.locateAll .origin (pieces text)

/-- The tokens of a text, the last of which marks its end. -/
def tokens (text : List Char) : List Token :=
  (locatedPieces text).flatMap Piece.parts ++ [.eofAt (Point.origin.advance text)]

/-- Put together again, the pieces of a text are the text. -/
theorem flatMap_text_pieces (text : List Char) : (pieces text).flatMap Piece.text = text := by
  fun_induction pieces text with
  | case1 => rfl
  | case2 c text ih => rw [List.flatMap_cons, ih, Lexer.text_next]

end ErbTemplate
