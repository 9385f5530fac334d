import ErbTemplate.Token.Lexer
import ErbTemplate.Tree.Node

/-!
# Segments of a template

Before elements are nested, the pieces of a template are grouped into segments: a token of text, an
ERB tag, a comment, an opening tag with everything inside of it, a closing tag. Grouping never
looks at the elements that are open; which closing tag belongs to which opening tag is decided
afterwards, from the segments alone.

Three rules fix where a segment ends.

* A comment ends at the first end mark that is a token, so never inside of an ERB tag.
* A quoted value ends at the first token that is the same quote.
* An opening tag ends at the first `>` or `/>` that is a token outside of a quoted value.

White space inside of an opening tag is passed over, and becomes an item of the tag where it is
tracked.
-/

set_option autoImplicit false

namespace ErbTemplate

/-- A row of pieces that belong together. -/
inductive Segment where
  | text (token : Token)
  | erb (tag : ErbTag)
  | comment (value : Comment)
  /-- An opening tag with its name in small letters; `terminated` unless the source ends in it. -/
  | openTag (name : List Char) (tag : OpenTag) (terminated : Bool)
  /-- A closing tag with its name in small letters. -/
  | closeTag (name : List Char) (tag : CloseTag)
  deriving DecidableEq, Repr

namespace Segment

/-! ## 1. ERB tags -/

/-- The ERB tag of a piece. -/
def erbTag (opening : Opening) (mark : Token) (ending : Ending Token) : ErbTag :=
  let content : Span :=
    match ending.content? with
    | some token => token.span
    | none => ⟨mark.span.stop, mark.span.stop⟩
  let issues : List Issue :=
    match ending.closing? with
    | some _ => []
    | none => [⟨.unclosedErbTag opening, ⟨mark.span.start, content.stop⟩⟩]
  { opening, mark := mark.span, content, closing := ending.closing?.map Token.span,
    kind := none, issues }

/-! ## 2. Comments -/

/-- The comment that begins with `mark`, and the pieces after it. -/
def readComment (mark : Token) (pieces : List (Piece Token)) : Comment × List (Piece Token) :=
  let inside := pieces.takeWhile fun piece => !piece.isMarkup .commentEnd
  let stop := Piece.stopOfAll mark.span.stop inside
  let content : Span := ⟨mark.span.stop, stop⟩
  match pieces.dropWhile fun piece => !piece.isMarkup .commentEnd with
  | closing :: rest => (⟨content, ⟨mark.span.start, closing.stop⟩, []⟩, rest)
  | [] =>
    let span : Span := ⟨mark.span.start, stop⟩
    (⟨content, span, [⟨.unclosedComment, span⟩]⟩, [])

/-! ## 3. Attributes -/

/-- Whether a piece is the same quote as `quote`. -/
def closesQuote (quote : Token) : Piece Token → Bool
  | .markup token => token.kind == .quote && token.text == quote.text
  | .erb .. => false

/-- Whether a piece can be part of a value without quotes. -/
def isBareValue : Piece Token → Bool
  | .markup token => token.kind == .identifier || token.kind == .character || token.kind == .slash
  | .erb .. => false

/-- The value that begins with a quote, and the pieces after it. -/
def readQuoted (quote : Token) (pieces : List (Piece Token)) :
    AttributeValue × List (Piece Token) :=
  let inside := pieces.takeWhile fun piece => !closesQuote quote piece
  let stop := Piece.stopOfAll quote.span.stop inside
  let content : Span := ⟨quote.span.stop, stop⟩
  match pieces.dropWhile fun piece => !closesQuote quote piece with
  | closing :: rest => (⟨content, true, ⟨quote.span.start, closing.stop⟩⟩, rest)
  | [] => (⟨content, true, ⟨quote.span.start, stop⟩⟩, [])

/-- The value after an equals sign, if there is one, and the pieces after it. -/
def readValue : List (Piece Token) → Option AttributeValue × List (Piece Token)
  | [] => (none, [])
  | first :: pieces =>
    match first with
    | .markup token =>
      if token.kind = .quote then
        let (value, rest) := readQuoted token pieces
        (some value, rest)
      else
        let inside := (first :: pieces).takeWhile isBareValue
        let span : Span := ⟨first.start, Piece.stopOfAll first.start inside⟩
        (if inside.isEmpty then none else some ⟨span, false, span⟩,
          (first :: pieces).dropWhile isBareValue)
    | .erb .. => (none, first :: pieces)

/-- The attribute with a name, and the pieces after it. -/
def readAttribute (name : Token) (pieces : List (Piece Token)) : Attribute × List (Piece Token) :=
  match pieces with
  | .markup equals :: more =>
    if equals.kind = .equals then
      let (value, rest) := readValue more
      let stop := (value.map fun value => value.span.stop).getD equals.span.stop
      (⟨name.span, value, ⟨name.span.start, stop⟩⟩, rest)
    else
      (⟨name.span, none, name.span⟩, pieces)
  | _ => (⟨name.span, none, name.span⟩, pieces)

/-! ## 4. Opening tags -/

/-- What follows the name of an opening tag. -/
structure TagBody where
  items : List TagItem
  selfClosing : Bool
  terminated : Bool
  stop : Point
  rest : List (Piece Token)

/-- The body with one more item in front. -/
def TagBody.cons (item : TagItem) (body : TagBody) : TagBody :=
  { body with items := item :: body.items }

/-- The body with white space in front, if white space is tracked. -/
def TagBody.consSpace (track : Bool) (span : Span) (body : TagBody) : TagBody :=
  match track with
  | true => body.cons (.whitespace span)
  | false => body

namespace TagBody

variable (track : Bool) (span : Span) (body : TagBody)

@[simp] theorem consSpace_true : consSpace true span body = body.cons (.whitespace span) := rfl

@[simp] theorem consSpace_false : consSpace false span body = body := rfl

@[simp] theorem selfClosing_consSpace :
    (body.consSpace track span).selfClosing = body.selfClosing := by
  cases track <;> rfl

@[simp] theorem terminated_consSpace :
    (body.consSpace track span).terminated = body.terminated := by
  cases track <;> rfl

@[simp] theorem stop_consSpace : (body.consSpace track span).stop = body.stop := by
  cases track <;> rfl

@[simp] theorem rest_consSpace : (body.consSpace track span).rest = body.rest := by
  cases track <;> rfl

end TagBody

theorem length_readQuoted_le (quote : Token) (pieces : List (Piece Token)) :
    (readQuoted quote pieces).2.length ≤ pieces.length := by
  unfold readQuoted
  have hdrop :=
    (List.dropWhile_sublist (l := pieces) fun piece => !closesQuote quote piece).length_le
  simp only
  split
  next closing rest h =>
    rw [h] at hdrop
    simp only [List.length_cons] at hdrop
    exact Nat.le_of_succ_le hdrop
  next => simp

theorem length_readValue_le (pieces : List (Piece Token)) :
    (readValue pieces).2.length ≤ pieces.length := by
  unfold readValue
  split
  next => simp
  next first pieces =>
    split
    next token =>
      split
      · have h := length_readQuoted_le token pieces
        simp only [List.length_cons]
        omega
      · exact (List.dropWhile_sublist isBareValue).length_le
    next => simp

theorem length_readAttribute_le (name : Token) (pieces : List (Piece Token)) :
    (readAttribute name pieces).2.length ≤ pieces.length := by
  unfold readAttribute
  split
  next equals more =>
    split
    · have h := length_readValue_le more
      simp only [List.length_cons]
      omega
    · simp
  next => simp

/-- Reads an opening tag from behind its name, which ends at `stop`. Tokens that are no part of an
attribute are passed over, white space too unless it is tracked. -/
def readTagBody (track : Bool) (stop : Point) : List (Piece Token) → TagBody
  | [] => ⟨[], false, false, stop, []⟩
  | .erb opening mark ending :: pieces =>
    let tag := erbTag opening mark ending
    (readTagBody track tag.span.stop pieces).cons (.erb tag)
  | .markup token :: pieces =>
    match token.kind with
    | .tagEnd => ⟨[], false, true, token.span.stop, pieces⟩
    | .tagSelfClose => ⟨[], true, true, token.span.stop, pieces⟩
    | .whitespace | .newline =>
      (readTagBody track token.span.stop pieces).consSpace track token.span
    | .identifier =>
      let attr := (readAttribute token pieces).1
      (readTagBody track attr.span.stop (readAttribute token pieces).2).cons (.attr attr)
    | _ => readTagBody track token.span.stop pieces
termination_by pieces => pieces.length
decreasing_by
  all_goals simp only [List.length_cons]
  all_goals try omega
  have h := length_readAttribute_le token pieces
  omega

theorem length_rest_readTagBody_le (track : Bool) (stop : Point) (pieces : List (Piece Token)) :
    (readTagBody track stop pieces).rest.length ≤ pieces.length := by
  fun_induction readTagBody track stop pieces with
  | case1 => simp
  | case2 _ _ _ _ _ _ ih => simp only [TagBody.cons, List.length_cons]; omega
  | case3 => simp
  | case4 => simp
  | case5 _ _ _ _ ih | case6 _ _ _ _ ih =>
    simp only [TagBody.rest_consSpace, List.length_cons]
    omega
  | case7 _ token pieces _ _ ih =>
    have h := length_readAttribute_le token pieces
    simp only [TagBody.cons, List.length_cons]
    omega
  | case8 _ _ _ _ _ _ _ _ ih => simp only [List.length_cons]; omega

/-- The opening tag of a name, and the pieces after it. -/
def readOpenTag (track : Bool) (mark name : Token) (pieces : List (Piece Token)) :
    Segment × List (Piece Token) :=
  let body := readTagBody track name.span.stop pieces
  let tag : OpenTag :=
    ⟨name.span, body.items, body.selfClosing, ⟨mark.span.start, body.stop⟩⟩
  (.openTag (Text.lower name.text) tag body.terminated, body.rest)

/-! ## 5. Segments -/

/-- The segment that begins with a markup token, and the pieces after it. -/
def next (track : Bool) (token : Token) (pieces : List (Piece Token)) :
    Segment × List (Piece Token) :=
  match token.kind, pieces with
  | .commentStart, pieces =>
    let (value, rest) := readComment token pieces
    (.comment value, rest)
  | .tagStart, .markup name :: more =>
    if name.kind = .identifier then readOpenTag track token name more else (.text token, pieces)
  | .tagStartClose, .markup name :: .markup stop :: more =>
    if name.kind = .identifier ∧ stop.kind = .tagEnd then
      let tag : CloseTag := ⟨name.span, token.span.start, stop.span.stop⟩
      (.closeTag (Text.lower name.text) tag, more)
    else
      (.text token, pieces)
  | _, _ => (.text token, pieces)

theorem length_readComment_le (mark : Token) (pieces : List (Piece Token)) :
    (readComment mark pieces).2.length ≤ pieces.length := by
  unfold readComment
  have hdrop :=
    (List.dropWhile_sublist (l := pieces) fun piece => !piece.isMarkup .commentEnd).length_le
  simp only
  split
  next closing rest h =>
    rw [h] at hdrop
    simp only [List.length_cons] at hdrop
    exact Nat.le_of_succ_le hdrop
  next => simp

theorem length_next_le (track : Bool) (token : Token) (pieces : List (Piece Token)) :
    (next track token pieces).2.length ≤ pieces.length := by
  unfold next
  split
  next => exact length_readComment_le _ _
  next name more _ =>
    split
    · have h := length_rest_readTagBody_le track name.span.stop more
      simp only [readOpenTag, List.length_cons]
      omega
    · simp
  next =>
    split
    · simp only [List.length_cons]
      omega
    · simp
  next => simp

end Segment

/-- The segments of a row of pieces, with the white space in opening tags if it is tracked. -/
def segments (track : Bool) : List (Piece Token) → List Segment
  | [] => []
  | .erb opening mark ending :: pieces =>
    .erb (Segment.erbTag opening mark ending) :: segments track pieces
  | .markup token :: pieces =>
    (Segment.next track token pieces).1 :: segments track (Segment.next track token pieces).2
termination_by pieces => pieces.length
decreasing_by
  · simp
  · have h := Segment.length_next_le track token pieces
    simp only [List.length_cons]
    omega

end ErbTemplate
