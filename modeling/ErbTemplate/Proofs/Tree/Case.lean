import ErbTemplate.Proofs.Token.Case
import ErbTemplate.Proofs.Tree.Nesting

/-!
# Trees and the case of letters

A tree holds places and never text. Text enters at three points only, while segments are read: the
names of opening and closing tags, which are made small before anything looks at them, and quotes,
which have no letters. So every reader comes to the same from pieces in small letters, and leaves
the rest in small letters (§1); the segments differ in the tokens of texts alone, of which the
builder takes the places (§2).

Two sources that differ in the case of letters have the same source in small letters. Each is
compared with that one.
-/

set_option autoImplicit false

namespace ErbTemplate

open Text

/-! ## 1. Readers -/

namespace Token

@[simp] theorem kind_lower (token : Token) : token.lower.kind = token.kind := by
  unfold lower
  split <;> rfl

@[simp] theorem span_lower (token : Token) : token.lower.span = token.span := by
  unfold lower
  split <;> rfl

@[simp] theorem lower_text_lower (token : Token) :
    Text.lower token.lower.text = Text.lower token.text := by
  unfold lower
  split
  · rfl
  · exact Text.lower_lower token.text

theorem text_lower_of_quote {token : Token} (h : token.kind = .quote) :
    token.lower.text = token.text := by
  rw [lower, if_pos h]

end Token

namespace Piece

/-- The piece with all of its tokens in small letters. -/
def lower (piece : Piece Token) : Piece Token :=
  piece.map Token.lower

@[simp] theorem lower_markup (token : Token) : (markup token).lower = markup token.lower := rfl

theorem lower_erb (opening : Opening) (mark : Token) (ending : Ending Token) :
    (erb opening mark ending).lower = erb opening mark.lower (ending.map Token.lower) := rfl

@[simp] theorem start_lower (piece : Piece Token) : piece.lower.start = piece.start := by
  cases piece <;> simp [lower_erb, start]

@[simp] theorem stop_lower (piece : Piece Token) : piece.lower.stop = piece.stop := by
  cases piece with
  | markup token => simp [stop]
  | erb opening mark ending => cases ending <;> simp [lower_erb, Ending.map, stop]

@[simp] theorem stopOfAll_lower (start : Point) (pieces : List (Piece Token)) :
    stopOfAll start (pieces.map lower) = stopOfAll start pieces := by
  cases h : pieces.getLast? <;> simp [stopOfAll, h]

@[simp] theorem isMarkup_lower (kind : TokenKind) (piece : Piece Token) :
    piece.lower.isMarkup kind = piece.isMarkup kind := by
  cases piece <;> simp [lower_erb, isMarkup]

end Piece

namespace Segment

@[simp] theorem erbTag_lower (opening : Opening) (mark : Token) (ending : Ending Token) :
    erbTag opening mark.lower (ending.map Token.lower) = erbTag opening mark ending := by
  cases ending <;> simp [erbTag, Ending.map, Ending.content?, Ending.closing?]

theorem readComment_lower (mark : Token) (pieces : List (Piece Token)) :
    readComment mark.lower (pieces.map Piece.lower)
      = (readComment mark pieces).map id (List.map Piece.lower) := by
  have htest : (fun piece : Piece Token => !piece.isMarkup .commentEnd) ∘ Piece.lower
      = fun piece => !piece.isMarkup .commentEnd := by
    funext piece
    simp
  unfold readComment
  simp only [List.takeWhile_map, List.dropWhile_map, htest, Piece.stopOfAll_lower, Token.span_lower]
  cases pieces.dropWhile fun piece => !piece.isMarkup .commentEnd <;> simp

theorem closesQuote_lower {quote : Token} (hquote : quote.kind = .quote) (piece : Piece Token) :
    closesQuote quote.lower piece.lower = closesQuote quote piece := by
  cases piece with
  | erb opening mark ending => rfl
  | markup token =>
    rw [Piece.lower_markup, closesQuote, closesQuote, Token.kind_lower,
      Token.text_lower_of_quote hquote]
    by_cases htoken : token.kind = .quote
    · rw [Token.text_lower_of_quote htoken]
    · rw [beq_eq_false_iff_ne.2 htoken, Bool.false_and, Bool.false_and]

theorem isBareValue_lower (piece : Piece Token) : isBareValue piece.lower = isBareValue piece := by
  cases piece with
  | erb opening mark ending => rfl
  | markup token => simp [isBareValue]

theorem readQuoted_lower {quote : Token} (hquote : quote.kind = .quote)
    (pieces : List (Piece Token)) :
    readQuoted quote.lower (pieces.map Piece.lower)
      = (readQuoted quote pieces).map id (List.map Piece.lower) := by
  have htest : (fun piece => !closesQuote quote.lower piece) ∘ Piece.lower
      = fun piece => !closesQuote quote piece := by
    funext piece
    simp [closesQuote_lower hquote]
  unfold readQuoted
  simp only [List.takeWhile_map, List.dropWhile_map, htest, Piece.stopOfAll_lower, Token.span_lower]
  cases pieces.dropWhile fun piece => !closesQuote quote piece <;> simp

theorem readValue_lower (pieces : List (Piece Token)) :
    readValue (pieces.map Piece.lower) = (readValue pieces).map id (List.map Piece.lower) := by
  cases pieces with
  | nil => rfl
  | cons first pieces =>
    cases first with
    | erb opening mark ending => rfl
    | markup token =>
      by_cases hquote : token.kind = .quote
      · simp [readValue, hquote, readQuoted_lower hquote]
      · have htest : isBareValue ∘ Piece.lower = isBareValue := funext isBareValue_lower
        have hinside : ((.markup token :: pieces).map Piece.lower).takeWhile isBareValue
            = ((.markup token :: pieces).takeWhile isBareValue).map Piece.lower := by
          rw [List.takeWhile_map, htest]
        have hrest : ((.markup token :: pieces).map Piece.lower).dropWhile isBareValue
            = ((.markup token :: pieces).dropWhile isBareValue).map Piece.lower := by
          rw [List.dropWhile_map, htest]
        rw [List.map_cons, Piece.lower_markup] at hinside hrest ⊢
        simp only [readValue, Token.kind_lower, if_neg hquote, hinside, hrest, Prod.map,
          Piece.stopOfAll_lower, List.isEmpty_map, Piece.start, Token.span_lower, id_eq]

theorem readAttribute_lower (name : Token) (pieces : List (Piece Token)) :
    readAttribute name.lower (pieces.map Piece.lower)
      = (readAttribute name pieces).map id (List.map Piece.lower) := by
  cases pieces with
  | nil => simp [readAttribute]
  | cons first pieces =>
    cases first with
    | erb opening mark ending => simp [readAttribute, Piece.lower_erb]
    | markup equals =>
      rw [List.map_cons, Piece.lower_markup]
      by_cases hequals : equals.kind = .equals
      · simp [readAttribute, hequals, readValue_lower]
      · simp [readAttribute, hequals]

theorem readTagBody_lower (track : Bool) (stop : Point) (pieces : List (Piece Token)) :
    readTagBody track stop (pieces.map Piece.lower)
      = { readTagBody track stop pieces with
          rest := (readTagBody track stop pieces).rest.map Piece.lower } := by
  fun_induction readTagBody track stop pieces with
  | case1 stop => simp [readTagBody]
  | case2 stop opening mark ending pieces tag ih =>
    rw [List.map_cons, Piece.lower_erb, readTagBody]
    simp only [erbTag_lower]
    exact congrArg (TagBody.cons (.erb tag)) ih
  | case3 stop token pieces hkind => simp [readTagBody, hkind]
  | case4 stop token pieces hkind => simp [readTagBody, hkind]
  | case5 stop token pieces hkind ih | case6 stop token pieces hkind ih =>
    rw [List.map_cons, Piece.lower_markup, readTagBody]
    simp only [Token.kind_lower, Token.span_lower, hkind, ih]
    cases track <;> rfl
  | case7 stop token pieces hkind attr ih =>
    simp [readTagBody, hkind, readAttribute_lower, ih, TagBody.cons, attr]
  | case8 stop token pieces hend hself hspace hline hname ih =>
    rw [List.map_cons, Piece.lower_markup, readTagBody]
    simp only [Token.kind_lower, Token.span_lower]
    exact ih

/-! ## 2. Segments and trees -/

/-- The segment with the token of a text in small letters; a tag has its name in small letters
    already. -/
def lower : Segment → Segment
  | text token => text token.lower
  | segment => segment

theorem readOpenTag_lower (track : Bool) (mark name : Token) (pieces : List (Piece Token)) :
    readOpenTag track mark.lower name.lower (pieces.map Piece.lower)
      = (readOpenTag track mark name pieces).map lower (List.map Piece.lower) := by
  simp only [readOpenTag, readTagBody_lower, Token.span_lower, Token.lower_text_lower]
  rfl

theorem next_lower (track : Bool) (token : Token) (pieces : List (Piece Token)) :
    next track token.lower (pieces.map Piece.lower)
      = (next track token pieces).map lower (List.map Piece.lower) := by
  cases hkind : token.kind
  case commentStart => simp [next, hkind, readComment_lower, lower]
  case tagStart =>
    match pieces with
    | [] => simp [next, hkind, lower]
    | .erb opening mark ending :: more => simp [next, hkind, lower, Piece.lower_erb]
    | .markup name :: more =>
      by_cases hname : name.kind = .identifier
      · simp [next, hkind, hname, readOpenTag_lower]
      · simp [next, hkind, hname, lower]
  case tagStartClose =>
    match pieces with
    | [] | .markup _ :: [] => simp [next, hkind, lower]
    | .erb opening mark ending :: more | .markup _ :: .erb opening mark ending :: more =>
      simp [next, hkind, lower, Piece.lower_erb]
    | .markup name :: .markup stop :: more =>
      by_cases hends : name.kind = .identifier ∧ stop.kind = .tagEnd
      · simp [next, hkind, hends, lower]
      · simp [next, hkind, hends, lower]
  all_goals simp [next, hkind, lower]

end Segment

theorem segments_lower (track : Bool) (pieces : List (Piece Token)) :
    segments track (pieces.map Piece.lower) = (segments track pieces).map Segment.lower := by
  fun_induction segments track pieces with
  | case1 => simp [segments]
  | case2 opening mark ending pieces ih =>
    rw [List.map_cons, Piece.lower_erb, segments, ih, Segment.erbTag_lower]
    rfl
  | case3 token pieces ih =>
    rw [List.map_cons, Piece.lower_markup, segments, Segment.next_lower, List.map_cons, ← ih]
    rfl

theorem Builder.step_lower (options : ParserOptions) (builder : Builder) (segment : Segment) :
    step options builder segment.lower = step options builder segment := by
  cases segment with
  | text token => simp [step, Segment.lower]
  | erb | comment | openTag | closeTag => rfl

theorem Builder.build_lower (options : ParserOptions) (row : List Segment) :
    build options (row.map Segment.lower) = build options row := by
  have hstep : (fun builder segment => step options builder (Segment.lower segment))
      = step options := by
    funext builder segment
    exact step_lower options builder segment
  rw [build, build, List.foldl_map, hstep]

/-- **The tree of a source in small letters is the tree of the source.** -/
theorem Document.ofSource_lower (options : ParserOptions) (source : List Char) :
    ofSource options (lower source) = ofSource options source := by
  have hpieces : locatedPieces (lower source) = (locatedPieces source).map Piece.lower :=
    locatedPieces_lower source
  unfold ofSource ParserOptions.segments
  rw [hpieces, segments_lower, Builder.build_lower, Point.advance_lower]

/-! ## 3. The contract -/

/-- What of a token does not depend on letters: its kind, and where it stands. -/
def Token.outline (token : Token) : TokenKind × Range × Location :=
  (token.kind, token.range, token.location)

theorem map_outline_tokens_lower (source : List Char) :
    (tokens (lower source)).map Token.outline = (tokens source).map Token.outline := by
  rw [tokens_lower, List.map_map]
  apply List.map_congr_left
  intro token _
  simp [Token.outline, Token.range, Token.location]

/-- **Markup does not see the case of letters.** Two sources that are the same in small letters have
    tokens of the same kinds in the same places; and where analysis is off, they have the same
    document, down to the wording of its issues. -/
theorem markup_ignores_case (source other : List Char) (h : lower source = lower other) :
    (∃ row : List (TokenKind × Range × Location),
      (lex source).Yields (2 * TokenList.tokenSize * (byteLength source + 1))
        (fun list => list.toList.map Token.outline = row)
      ∧ (lex other).Yields (2 * TokenList.tokenSize * (byteLength other + 1))
        fun list => list.toList.map Token.outline = row)
    ∧ ∀ options : ParserOptions, options.analyze = false → ∃ document : Document,
      (parse source options).Yields (2 * TokenList.tokenSize * (byteLength source + 1))
        (· = document)
      ∧ (parse other options).Yields (2 * TokenList.tokenSize * (byteLength other + 1))
        (· = document) := by
  constructor
  · have hrow : (tokens other).map Token.outline = (tokens source).map Token.outline := by
      rw [← map_outline_tokens_lower, ← h, map_outline_tokens_lower]
    refine ⟨(tokens source).map Token.outline, ?_, ?_⟩
    · apply (yields_lex source).imp
      intro list hlist
      rw [hlist]
    · apply (yields_lex other).imp
      intro list hlist
      rw [hlist, hrow]
  · intro options hoff
    have hplain : ∀ text, parsed text options = Document.ofSource options text := by
      intro text
      simp [parsed, hoff]
    have htree : parsed other options = parsed source options := by
      rw [hplain, hplain, ← Document.ofSource_lower, ← h, Document.ofSource_lower]
    refine ⟨parsed source options, yields_parse source options, ?_⟩
    rw [← htree]
    exact yields_parse other options

/-- Elements whose opening and closing tags are written in different cases, the other way round in
    the second source. -/
theorem markup_ignores_case_mixed :
    lower ['<', 'P', '>', 'é', '<', '/', 'p', '>'] = lower ['<', 'p', '>', 'é', '<', '/', 'P', '>']
      ∧ ∃ first second document,
        (lex ['<', 'P', '>', 'é', '<', '/', 'p', '>']).outcome .standard = .ok first
        ∧ (lex ['<', 'p', '>', 'é', '<', '/', 'P', '>']).outcome .standard = .ok second
        ∧ first.toList.map Token.outline = second.toList.map Token.outline
        ∧ (parse ['<', 'P', '>', 'é', '<', '/', 'p', '>'] ⟨true, false, true⟩).outcome .standard
          = .ok document
        ∧ (parse ['<', 'p', '>', 'é', '<', '/', 'P', '>'] ⟨true, false, true⟩).outcome .standard
          = .ok document := by
  have hsame : lower ['<', 'P', '>', 'é', '<', '/', 'p', '>']
      = lower ['<', 'p', '>', 'é', '<', '/', 'P', '>'] := by
    simp [lower]
  obtain ⟨⟨_, hfirst, hsecond⟩, htrees⟩ := markup_ignores_case _ _ hsame
  obtain ⟨_, hone, htwo⟩ := htrees ⟨true, false, true⟩ rfl
  obtain ⟨first, hlex⟩ := (hfirst .standard).2 (by decide) (Memory.grantsUpTo_standard (by decide))
  obtain ⟨second, hlex'⟩ :=
    (hsecond .standard).2 (by decide) (Memory.grantsUpTo_standard (by decide))
  obtain ⟨document, hparse⟩ :=
    (hone .standard).2 (by decide) (Memory.grantsUpTo_standard (by decide))
  obtain ⟨document', hparse'⟩ :=
    (htwo .standard).2 (by decide) (Memory.grantsUpTo_standard (by decide))
  have hdocuments : document' = document :=
    ((htwo .standard).1 document' hparse').trans ((hone .standard).1 document hparse).symm
  refine ⟨hsame, first, second, document, hlex, hlex', ?_, hparse, hdocuments ▸ hparse'⟩
  rw [(hfirst .standard).1 first hlex, (hsecond .standard).1 second hlex']

end ErbTemplate
