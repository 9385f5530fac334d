import ErbTemplate.Proofs.Token.Pieces
import ErbTemplate.Proofs.Tree.Readers

/-!
# Reading tokens by their index

Segments are read from pieces, which come apart by themselves. Here the same reading is done the
hard way: with an index into the tokens, moved by hand. A `Cursor` is an index and the loop that the
reader is in, and `Cursor.step` is one round of that loop. Everything that can go wrong with an
index is a `Stop`: a token is asked for where there is none, a span is made backwards, a text is cut
inside of a character.

A row of tokens has lost the borders of its pieces. §2 finds them again: a token that is not part of
an ERB tag is a piece of its own (`exists_markup_of_split`), and no piece begins in the middle of an
ERB tag (`exists_head_rowOf`).
-/

set_option autoImplicit false

namespace ErbTemplate

open Text

/-! ## 1. The cursor -/

/-- Why a reader by index would break off. -/
inductive Cursor.Stop where
  | outOfBounds (index : Nat)
  | backwards (start stop : Nat)
  | insideCharacter (range : Range)
  deriving DecidableEq, Repr

/-- An opening tag that is being read: its name in small letters, its items so far, newest first,
    and where it ends so far. -/
structure Cursor.Tag where
  mark : Token
  name : Token
  label : List Char
  items : List TagItem
  stop : Point
  deriving DecidableEq, Repr

/-- The loops of the reader. Each that is not the outermost keeps what it has read so far, and where
    that ends. -/
inductive Cursor.Loop where
  | document
  | comment (mark : Token) (stop : Point)
  | tag (tag : Tag)
  | quoted (tag : Tag) (name quote : Token) (mark : List Char) (stop : Point)
  | bare (tag : Tag) (name equals first : Token) (stop : Point)
  | finished
  deriving DecidableEq, Repr

/-- A reader: the index of its token, its loop, and the segments it has found, newest first. -/
structure Cursor where
  position : Nat
  loop : Cursor.Loop
  found : List Segment
  deriving DecidableEq, Repr

namespace Cursor

/-- The number of loops that a reader is inside of. -/
def Loop.depth : Loop → Nat
  | finished => 0
  | document => 1
  | comment .. | tag _ => 2
  | quoted .. | bare .. => 3

/-- The token at an index. -/
def tokenAt (row : List Token) (index : Nat) : Except Stop Token :=
  match row[index]? with
  | some token => .ok token
  | none => .error (.outOfBounds index)

/-- The kind of the token at an index; there is nothing behind the end. -/
def kindAt (row : List Token) (index : Nat) : TokenKind :=
  (row[index]?.map Token.kind).getD .eof

/-- The span between two points. -/
def spanOf (start stop : Point) : Except Stop Span :=
  if start.offset ≤ stop.offset then .ok ⟨start, stop⟩
  else .error (.backwards start.offset stop.offset)

/-- The text of a token, cut out of the source. -/
def valueOf (source : List Char) (token : Token) : Except Stop (List Char) :=
  match token.range.slice? source with
  | some text => .ok text
  | none => .error (.insideCharacter token.range)

/-- Before the first token. -/
def start : Cursor :=
  ⟨0, .document, []⟩

/-- Adds a segment and goes on with the document. -/
def emit (cursor : Cursor) (segment : Segment) (position : Nat) : Cursor :=
  ⟨position, .document, segment :: cursor.found⟩

/-- The tag with one more item. -/
def Tag.add (tag : Tag) (item : TagItem) (stop : Point) : Tag :=
  { tag with items := item :: tag.items, stop }

/-- The tag behind white space, which is an item if it is tracked. -/
def Tag.addSpace (track : Bool) (tag : Tag) (span : Span) : Tag :=
  match track with
  | true => tag.add (.whitespace span) span.stop
  | false => { tag with stop := span.stop }

/-- The opening tag of which all items have been read. -/
def Tag.close (tag : Tag) (selfClosing terminated : Bool) (stop : Point) : Segment :=
  .openTag tag.label
    ⟨tag.name.span, tag.items.reverse, selfClosing, ⟨tag.mark.span.start, stop⟩⟩ terminated

variable (track : Bool) (source : List Char) (row : List Token)

/-- Reads the ERB tag that begins at an index, and says where it goes on. -/
def readErb (position : Nat) : Except Stop (ErbTag × Nat) := do
  let mark ← tokenAt row position
  let opening := (Opening.of? (← valueOf source mark)).getD .plain
  let next ← tokenAt row (position + 1)
  let (content, after) ←
    if next.kind = .erbContent then pure (next.span, position + 2)
    else do pure (← spanOf mark.span.stop mark.span.stop, position + 1)
  let closing ← tokenAt row after
  if closing.kind = .erbEnd then
    return (⟨opening, mark.span, content, some closing.span, none, []⟩, after + 1)
  else
    let issue : Issue := ⟨.unclosedErbTag opening, ⟨mark.span.start, content.stop⟩⟩
    return (⟨opening, mark.span, content, none, none, [issue]⟩, after)

/-- One round of the document loop. -/
def stepDocument (cursor : Cursor) : Except Stop Cursor := do
  let position := cursor.position
  let token ← tokenAt row position
  match token.kind with
  | .eof => return { cursor with loop := .finished }
  | .erbStart =>
    let (tag, after) ← readErb source row position
    return cursor.emit (.erb tag) after
  | .commentStart =>
    return { cursor with position := position + 1, loop := .comment token token.span.stop }
  | .tagStart =>
    if kindAt row (position + 1) = .identifier then
      let name ← tokenAt row (position + 1)
      let label := lower (← valueOf source name)
      return { cursor with
        position := position + 2, loop := .tag ⟨token, name, label, [], name.span.stop⟩ }
    else
      return cursor.emit (.text token) (position + 1)
  | .tagStartClose =>
    if kindAt row (position + 1) = .identifier ∧ kindAt row (position + 2) = .tagEnd then
      let name ← tokenAt row (position + 1)
      let stop ← tokenAt row (position + 2)
      let label := lower (← valueOf source name)
      let tag : CloseTag := ⟨name.span, token.span.start, stop.span.stop⟩
      return cursor.emit (.closeTag label tag) (position + 3)
    else
      return cursor.emit (.text token) (position + 1)
  | _ => return cursor.emit (.text token) (position + 1)

/-- One round of the loop inside of a comment. -/
def stepComment (cursor : Cursor) (mark : Token) (stop : Point) : Except Stop Cursor := do
  let token ← tokenAt row cursor.position
  if token.kind = .commentEnd then
    let content ← spanOf mark.span.stop stop
    let value : Comment := ⟨content, ⟨mark.span.start, token.span.stop⟩, []⟩
    return cursor.emit (.comment value) (cursor.position + 1)
  else if token.kind = .eof then
    let content ← spanOf mark.span.stop stop
    let span : Span := ⟨mark.span.start, stop⟩
    return cursor.emit (.comment ⟨content, span, [⟨.unclosedComment, span⟩]⟩) cursor.position
  else
    return { cursor with position := cursor.position + 1, loop := .comment mark token.span.stop }

/-- Goes on inside of an opening tag. -/
def inTag (cursor : Cursor) (tag : Tag) (position : Nat) : Cursor :=
  { cursor with position, loop := .tag tag }

/-- One round of the loop inside of an opening tag. An attribute with a value leads into a loop of
    its own. -/
def stepTag (cursor : Cursor) (tag : Tag) : Except Stop Cursor := do
  let position := cursor.position
  let token ← tokenAt row position
  match token.kind with
  | .tagEnd => return cursor.emit (tag.close false true token.span.stop) (position + 1)
  | .tagSelfClose => return cursor.emit (tag.close true true token.span.stop) (position + 1)
  | .eof => return cursor.emit (tag.close false false tag.stop) position
  | .whitespace | .newline =>
    return cursor.inTag (tag.addSpace track token.span) (position + 1)
  | .erbStart =>
    let (erb, after) ← readErb source row position
    return cursor.inTag (tag.add (.erb erb) erb.span.stop) after
  | .identifier =>
    let equals ← tokenAt row (position + 1)
    if equals.kind = .equals then
      let first ← tokenAt row (position + 2)
      if first.kind = .quote then
        let mark ← valueOf source first
        return { cursor with
          position := position + 3, loop := .quoted tag token first mark first.span.stop }
      else
        return { cursor with
          position := position + 2, loop := .bare tag token equals first first.span.start }
    else
      return cursor.inTag (tag.add (.attr ⟨token.span, none, token.span⟩) token.span.stop)
        (position + 1)
  | _ => return cursor.inTag { tag with stop := token.span.stop } (position + 1)

/-- Adds an attribute that ends at a point and goes on inside of its tag. -/
def addAttr (cursor : Cursor) (tag : Tag) (name : Token) (value : Option AttributeValue)
    (stop : Point) (position : Nat) : Cursor :=
  cursor.inTag (tag.add (.attr ⟨name.span, value, ⟨name.span.start, stop⟩⟩) stop) position

/-- One round of the loop inside of a quoted value. -/
def stepQuoted (cursor : Cursor) (tag : Tag) (name quote : Token) (mark : List Char)
    (stop : Point) : Except Stop Cursor := do
  let position := cursor.position
  let token ← tokenAt row position
  let text ← valueOf source token
  if token.kind = .eof then
    let content ← spanOf quote.span.stop stop
    let value : AttributeValue := ⟨content, true, ⟨quote.span.start, stop⟩⟩
    return cursor.addAttr tag name (some value) stop position
  else if token.kind = .quote ∧ text = mark then
    let content ← spanOf quote.span.stop stop
    let value : AttributeValue := ⟨content, true, ⟨quote.span.start, token.span.stop⟩⟩
    return cursor.addAttr tag name (some value) token.span.stop (position + 1)
  else
    return { cursor with
      position := position + 1, loop := .quoted tag name quote mark token.span.stop }

/-- One round of the loop inside of a value without quotes, which may be empty. -/
def stepBare (cursor : Cursor) (tag : Tag) (name equals first : Token) (stop : Point) :
    Except Stop Cursor := do
  let position := cursor.position
  let token ← tokenAt row position
  if token.kind = .identifier ∨ token.kind = .character ∨ token.kind = .slash then
    return { cursor with
      position := position + 1, loop := .bare tag name equals first token.span.stop }
  else if first.span.start.offset < stop.offset then
    let content ← spanOf first.span.start stop
    return cursor.addAttr tag name (some ⟨content, false, content⟩) stop position
  else
    return cursor.addAttr tag name none equals.span.stop position

/-- One round of the loop that the reader is in. -/
def step (cursor : Cursor) : Except Stop Cursor :=
  match cursor.loop with
  | .document => stepDocument source row cursor
  | .comment mark stop => stepComment row cursor mark stop
  | .tag tag => stepTag track source row cursor tag
  | .quoted tag name quote mark stop => stepQuoted source row cursor tag name quote mark stop
  | .bare tag name equals first stop => stepBare row cursor tag name equals first stop
  | .finished => return cursor

/-- So many rounds. -/
def run : Nat → Cursor → Except Stop Cursor
  | 0, cursor => .ok cursor
  | count + 1, cursor => do run count (← cursor.step track source row)

end Cursor

/-! ## 2. Rows of tokens -/

theorem kind_ne_eof_of_mem_parts {source : List Char} {piece : Piece Token} {token : Token}
    (hpiece : piece ∈ locatedPieces source) (htoken : token ∈ piece.parts) :
    token.kind ≠ .eof := by
  obtain ⟨others, last, hrow, -, -, hkinds⟩ := (tiling_tokens source).ending
  obtain ⟨hothers, -⟩ := List.append_inj' hrow rfl
  exact hkinds token (hothers ▸ List.mem_flatMap.2 ⟨piece, hpiece, htoken⟩)

theorem isErb_of_mem_parts {opening : Opening} {mark token : Token} {ending : Ending Token}
    (h : (Piece.erb opening mark ending).Typed)
    (htoken : token ∈ (Piece.erb opening mark ending).parts) : token.kind.isErb = true := by
  obtain ⟨hmark, hcontent, hclosing⟩ := h
  rcases List.mem_cons.1 htoken with rfl | htoken
  · rw [hmark]
    rfl
  · cases ending with
    | bare => cases htoken
    | running content =>
      rw [List.mem_singleton.1 htoken, hcontent content rfl]
      rfl
    | closed content closing =>
      rcases List.mem_cons.1 htoken with rfl | htoken
      · rw [hcontent token rfl]
        rfl
      · rw [List.mem_singleton.1 htoken, hclosing closing rfl]
        rfl

theorem text_mark_of_mem {source : List Char} {opening : Opening} {mark : Token}
    {ending : Ending Token} (h : .erb opening mark ending ∈ locatedPieces source) :
    mark.text = opening.text := by
  have hall : ∀ piece ∈ pieces source, ∀ start opening mark ending,
      Piece.locate start piece = .erb opening mark ending → mark.text = opening.text := by
    apply forall_mem_pieces
    · intro c text start opening mark ending heq
      cases heq
    · intro opening rest start other mark ending heq
      cases heq
      rfl
  obtain ⟨before, first, after, hrow, heq⟩ := exists_of_mem_locateAll h
  exact hall first (by rw [hrow]; simp) _ _ _ _ heq.symm

/-- The tokens of pieces that stand at the end of a source. -/
def rowOf (source : List Char) (pieces : List (Piece Token)) : List Token :=
  pieces.flatMap Piece.parts ++ [.eofAt (Point.origin.advance source)]

section Rows

variable {source : List Char} {pieces : List (Piece Token)} {passed more : List Token}
variable {token : Token}

theorem rowOf_cons (source : List Char) (piece : Piece Token) (pieces : List (Piece Token)) :
    rowOf source (piece :: pieces) = piece.parts ++ rowOf source pieces := by
  simp [rowOf]

theorem rowOf_markup (source : List Char) (token : Token) (pieces : List (Piece Token)) :
    rowOf source (.markup token :: pieces) = token :: rowOf source pieces :=
  rowOf_cons source (.markup token) pieces

/-- A token that is not part of an ERB tag is a piece of its own. -/
theorem exists_markup_of_split (hsuffix : pieces <:+ locatedPieces source)
    (hsplit : rowOf source pieces = passed ++ token :: more) (herb : token.kind.isErb = false)
    (heof : token.kind ≠ .eof) :
    ∃ inside rest, pieces = inside ++ .markup token :: rest
      ∧ passed = inside.flatMap Piece.parts ∧ more = rowOf source rest := by
  induction pieces generalizing passed with
  | nil =>
    rcases List.cons_eq_append_iff.1 hsplit with ⟨-, htoken⟩ | ⟨_, -, htail⟩
    · cases htoken
      exact absurd rfl heof
    · simp at htail
  | cons piece pieces ih =>
    have hpiece : piece ∈ locatedPieces source := hsuffix.subset List.mem_cons_self
    rw [rowOf_cons] at hsplit
    rcases List.append_eq_append_iff.1 hsplit with ⟨passed, rfl, hrest⟩ | ⟨front, hparts, hrest⟩
    · obtain ⟨inside, rest, rfl, rfl, hmore⟩ :=
        ih ((List.suffix_cons _ _).trans hsuffix) hrest
      exact ⟨piece :: inside, rest, rfl, by simp, hmore⟩
    · cases front with
      | nil =>
        -- the piece has been passed and the token is the next one
        obtain ⟨inside, rest, rfl, hpassed, hmore⟩ :=
          @ih [] ((List.suffix_cons _ _).trans hsuffix) hrest.symm
        refine ⟨piece :: inside, rest, rfl, ?_, hmore⟩
        rw [List.flatMap_cons, ← hpassed, hparts, List.append_nil, List.append_nil]
      | cons first front =>
        obtain ⟨rfl, rfl⟩ := List.cons.inj hrest
        have hmem : token ∈ piece.parts := hparts ▸ (by simp)
        cases piece with
        | erb opening mark ending =>
          rw [isErb_of_mem_parts (typed_of_mem_locatedPieces hpiece) hmem] at herb
          cases herb
        | markup other =>
          rcases List.cons_eq_append_iff.1 hparts with ⟨rfl, hother⟩ | ⟨_, -, htail⟩
          · cases hother
            exact ⟨[], pieces, rfl, rfl, rfl⟩
          · simp at htail

theorem eq_of_split_eof (hsuffix : pieces <:+ locatedPieces source)
    (hsplit : rowOf source pieces = passed ++ token :: more) (heof : token.kind = .eof) :
    passed = pieces.flatMap Piece.parts ∧ token :: more = rowOf source [] := by
  rcases List.append_eq_append_iff.1 hsplit with ⟨front, rfl, hrest⟩ | ⟨front, hparts, hrest⟩
  · rcases List.cons_eq_append_iff.1 hrest with ⟨rfl, htoken⟩ | ⟨_, -, htail⟩
    · exact ⟨by simp, htoken⟩
    · simp at htail
  · cases front with
    | nil => exact ⟨by simpa using hparts.symm, hrest⟩
    | cons first front =>
      obtain ⟨rfl, -⟩ := List.cons.inj hrest
      have hmem : token ∈ pieces.flatMap Piece.parts := hparts ▸ (by simp)
      obtain ⟨piece, hpiece, htoken⟩ := List.mem_flatMap.1 hmem
      exact absurd heof (kind_ne_eof_of_mem_parts (hsuffix.subset hpiece) htoken)

/-- What comes next is never in the middle of an ERB tag. -/
theorem exists_head_rowOf (hsuffix : pieces <:+ locatedPieces source) :
    ∃ token more, rowOf source pieces = token :: more
      ∧ token.kind ≠ .erbContent ∧ token.kind ≠ .erbEnd := by
  cases pieces with
  | nil =>
    refine ⟨_, _, rfl, ?_, ?_⟩
    · simp [Token.eofAt, Token.ofLexeme]
    · simp [Token.eofAt, Token.ofLexeme]
  | cons piece pieces =>
    have htyped := typed_of_mem_locatedPieces (hsuffix.subset List.mem_cons_self)
    cases piece with
    | markup token =>
      refine ⟨token, _, rowOf_markup source token pieces, ?_, ?_⟩
      · intro hkind
        rw [Piece.Typed, hkind] at htyped
        cases htyped
      · intro hkind
        rw [Piece.Typed, hkind] at htyped
        cases htyped
    | erb opening mark ending =>
      refine ⟨mark, _, rowOf_cons source (.erb opening mark ending) pieces, ?_, ?_⟩
      · rw [htyped.1]; simp
      · rw [htyped.1]; simp

theorem exists_markup_of_kindAt {kind : TokenKind} (hsuffix : pieces <:+ locatedPieces source)
    (h : Cursor.kindAt (rowOf source pieces) 0 = kind) (herb : kind.isErb = false)
    (heof : kind ≠ .eof) : ∃ token more, pieces = .markup token :: more ∧ token.kind = kind := by
  match pieces with
  | [] => exact absurd h.symm heof
  | .markup token :: more => exact ⟨token, more, rfl, h⟩
  | .erb opening mark ending :: more =>
    have hmark : mark.kind = .erbStart :=
      (typed_of_mem_locatedPieces (hsuffix.subset List.mem_cons_self)).1
    have hkind : mark.kind = kind := h
    rw [← hkind, hmark] at herb
    cases herb

end Rows

namespace Cursor

/-! ## 3. Indices -/

section Indices

variable {source : List Char} {row ahead : List Token} {position index : Nat} {token : Token}

theorem tokenAt_add (h : row.drop position = ahead) (hget : ahead[index]? = some token) :
    tokenAt row (position + index) = .ok token := by
  rw [← h, List.getElem?_drop] at hget
  rw [tokenAt, hget]

theorem tokenAt_head (h : row.drop position = token :: ahead) :
    tokenAt row position = .ok token :=
  @tokenAt_add row _ position 0 token h rfl

theorem kindAt_add (h : row.drop position = ahead) (index : Nat) :
    kindAt row (position + index) = kindAt ahead index := by
  rw [kindAt, kindAt, ← h, List.getElem?_drop]

theorem drop_add {front back : List Token} (h : row.drop position = front ++ back) :
    row.drop (position + front.length) = back := by
  rw [← List.drop_drop, h, List.drop_left]

theorem drop_succ (h : row.drop position = token :: ahead) :
    row.drop (position + 1) = ahead := by
  rw [← List.drop_drop, h]
  rfl

theorem valueOf_of_mem (h : token ∈ tokens source) : valueOf source token = .ok token.text := by
  rw [valueOf, slice?_of_mem_tokens h]

theorem spanOf_of_leadsTo {start stop : Point} (h : start.LeadsTo stop) :
    spanOf start stop = .ok ⟨start, stop⟩ :=
  if_pos h.offset_le

end Indices

end Cursor
end ErbTemplate
