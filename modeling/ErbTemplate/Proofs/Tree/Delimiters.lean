import ErbTemplate.Proofs.Tree.Marks
import ErbTemplate.Proofs.Tree.Ranges

/-!
# Where comments and quoted values end

A comment and a quoted value are read by the same loop: it goes from piece to piece until one of
them is the token that ends it. What the loop has found is said here without tokens, by the bytes of
the source and the ERB tags in it:

* a quoted value ends at the first quote of its own kind outside of ERB, whatever else stands in it
  (`quoted_values_end_at_quote`);
* a comment ends at the first `-->` outside of ERB that is not bitten by a `<!--`
  (`comments_end_at_mark`).

The exception is real. Tokens are cut without regard to where they stand, so a `<!--` inside of a
comment is a token there, too, and the dashes at its end are lost for the `-->` that they may be
part of (`comment_end_hidden_by_opening`).

Both are instances of one lemma, `Segment.scan_cases`, which needs to know nothing of the mark but
that it is found exactly where a token stops the loop.
-/

set_option autoImplicit false

namespace ErbTemplate

open Text

/-! ## 1. The rules -/

/-- How a comment is delimited. -/
structure Comment.Delimited (row : List Token) (source : List Char) (value : Comment) : Prop where
  opening : FreeMark row source commentOpen value.span.range.start
  start : value.content.range.start = value.span.range.start + 4
  ending : FirstOrEnd source (CommentEnd row source) value.content.range.start
    value.content.range.stop
  /-- It is reported as unclosed if there is no end, and then only it goes to the end of the
      source. -/
  unclosed : (∃ issue ∈ value.issues, issue.kind = .unclosedComment)
    ↔ ∀ place, value.content.range.start ≤ place → ¬ CommentEnd row source place
  toEnd : value.content.range.stop = byteLength source
    ↔ ∀ place, value.content.range.start ≤ place → ¬ CommentEnd row source place

/-- How a value between two of these quotes is delimited. -/
structure Attribute.QuotedBy (row : List Token) (source : List Char) (attr : Attribute)
    (value : AttributeValue) (quote : Char) : Prop where
  isQuote : quote = '"' ∨ quote = '\''
  equals : FreeByte row source '=' attr.name.range.stop
  opening : FreeByte row source quote (attr.name.range.stop + 1)
  start : value.content.range.start = attr.name.range.stop + 2
  ending : FirstOrEnd source (FreeByte row source quote) value.content.range.start
    value.content.range.stop

/-- If an entry is a comment or an attribute with a quoted value, it is delimited by its marks. -/
def Entry.Delimited (row : List Token) (source : List Char) : Entry → Prop
  | comment value => value.Delimited row source
  | attr owner => ∀ value, owner.value = some value → value.quoted = true →
    ∃ quote, owner.QuotedBy row source value quote
  | text _ | whitespace _ | element .. | erb _ => True

/-! ## 2. Places in a row of pieces -/

theorem Tiles.of_mem {start stop : Point} {row : List Span} {span : Span}
    (h : Tiles start row stop) (hmem : span ∈ row) :
    start.LeadsTo span.start ∧ span.start.Reaches span.stop ∧ span.stop.LeadsTo stop := by
  obtain ⟨front, back, rfl⟩ := List.append_of_mem hmem
  obtain ⟨middle, hfront, rfl, hforward, hback⟩ := tiles_append_iff.1 h
  exact ⟨hfront.leadsTo, hforward, hback.leadsTo⟩

theorem Tiles.start_unique {start other stop : Point} {row : List Span} (h : Tiles start row stop)
    (h' : Tiles other row stop) : start = other := by
  cases row with
  | nil => exact Eq.trans h (Eq.symm h')
  | cons span row => exact h.1.symm.trans h'.1

/-- A piece that ends behind the place where the rest begins is one of the rest. -/
theorem Piece.mem_of_suffix {all rest : List (Piece Token)} {piece : Piece Token}
    {first start last : Point} (hall : Tiles first (all.map span) last)
    (hrest : Tiles start (rest.map span) last) (hsuffix : rest <:+ all) (hmem : piece ∈ all)
    (hlt : start.offset < piece.stop.offset) : piece ∈ rest := by
  obtain ⟨front, rfl⟩ := hsuffix
  rw [List.map_append] at hall
  obtain ⟨middle, hfront, hback⟩ := tiles_append_iff.1 hall
  rcases List.mem_append.1 hmem with hbefore | hbehind
  · obtain ⟨-, -, hleads⟩ := hfront.of_mem (List.mem_map_of_mem hbefore)
    have hle : piece.stop.offset ≤ middle.offset := hleads.offset_le
    rw [hback.start_unique hrest] at hle
    omega
  · exact hbehind

/-! ## 3. Looking for a mark -/

namespace Segment

open Piece

variable {source : List Char} {mark name quote : Token} {rest : List (Piece Token)}

/-- **A loop that stops at tokens of one kind has come to the first of them, or to the end.** -/
theorem scan_cases {stops : Piece Token → Bool} {found : Nat → Prop}
    (hsuffix : (.markup mark :: rest) <:+ locatedPieces source)
    (herb : ∀ opening mark ending, stops (.erb opening mark ending) = false)
    (hfound : ∀ place, found place ↔ ∃ token, .markup token ∈ locatedPieces source
      ∧ stops (.markup token) = true ∧ token.span.start.offset = place) :
    (∃ closing more, rest.dropWhile (fun piece => !stops piece) = closing :: more
        ∧ IsLeast { place | mark.span.stop.offset ≤ place ∧ found place }
          (stopOfAll mark.span.stop (rest.takeWhile fun piece => !stops piece)).offset)
      ∨ rest.dropWhile (fun piece => !stops piece) = []
        ∧ (∀ place, mark.span.stop.offset ≤ place → ¬ found place)
        ∧ (stopOfAll mark.span.stop (rest.takeWhile fun piece => !stops piece)).offset
          = byteLength source := by
  have hall := tiles_locatedPieces source
  obtain ⟨_, -, -, htiles⟩ := exists_tiles_of_suffix hall hsuffix
  have hrest : rest <:+ locatedPieces source := (List.suffix_cons _ _).trans hsuffix
  obtain ⟨hleads, hbehind⟩ :=
    (Passes.dropWhile mark.span.stop (fun piece => !stops piece) rest).tiles htiles
  -- whatever can be found is a token that the loop has not passed
  have hlater : ∀ place, mark.span.stop.offset ≤ place → found place →
      ∃ token, .markup token ∈ rest.dropWhile (fun piece => !stops piece)
        ∧ token.span.start.offset = place := by
    intro place hle hplace
    obtain ⟨token, hmem, hstops, rfl⟩ := (hfound place).1 hplace
    have hlong : token.span.start.Reaches token.span.stop :=
      (hall.of_mem (List.mem_map_of_mem hmem)).2.1
    have hin := mem_of_suffix hall htiles hrest hmem (Nat.lt_of_le_of_lt hle hlong.offset_lt)
    rw [← List.takeWhile_append_dropWhile (p := fun piece => !stops piece) (l := rest)] at hin
    rcases List.mem_append.1 hin with hpassed | hleft
    · have hgoes := List.mem_takeWhile_imp hpassed
      simp [hstops] at hgoes
    · exact ⟨token, hleft, rfl⟩
  cases hdrop : rest.dropWhile (fun piece => !stops piece) with
  | nil =>
    rw [hdrop] at hbehind hlater
    refine Or.inr ⟨rfl, fun place hle hplace => ?_, ?_⟩
    · obtain ⟨token, hmem, -⟩ := hlater place hle hplace
      cases hmem
    · rw [show stopOfAll _ _ = Point.origin.advance source from hbehind, Point.offset_advance]
      exact Nat.zero_add _
  | cons closing more =>
    have hstop := List.head?_dropWhile_not (fun piece => !stops piece) rest
    rw [hdrop] at hbehind hlater hstop
    simp only [List.head?_cons, Bool.not_eq_false'] at hstop
    have hclosing : closing ∈ locatedPieces source :=
      hrest.subset ((List.dropWhile_suffix _).subset (hdrop ▸ List.mem_cons_self))
    refine Or.inl ⟨closing, more, rfl, ⟨hleads.offset_le, (hfound _).2 ?_⟩, ?_⟩
    · cases closing with
      | erb opening other ending => exact absurd hstop (by simp [herb])
      | markup token =>
        exact ⟨token, hclosing, by simpa using hstop, congrArg Point.offset hbehind.1⟩
    · rintro place ⟨hle, hplace⟩
      obtain ⟨token, hmem, rfl⟩ := hlater place hle hplace
      exact (hbehind.of_mem (List.mem_map_of_mem hmem)).1.offset_le

/-! ## 4. Comments -/

theorem start_readComment (mark : Token) (rest : List (Piece Token)) :
    (readComment mark rest).1.span.start = mark.span.start := by
  unfold readComment
  simp only
  split <;> rfl

theorem unclosed_readComment_iff (mark : Token) (rest : List (Piece Token)) :
    (∃ issue ∈ (readComment mark rest).1.issues, issue.kind = .unclosedComment)
      ↔ rest.dropWhile (fun piece => !piece.isMarkup .commentEnd) = [] := by
  unfold readComment
  simp only
  split
  next hdrop => simp [hdrop]
  next hdrop => simp [hdrop, Issue.kind, IssueCause.kind]

theorem commentEnd_iff_isMarkup (place : Nat) :
    CommentEnd (tokens source) source place
      ↔ ∃ token, .markup token ∈ locatedPieces source
        ∧ (Piece.markup token).isMarkup .commentEnd = true
        ∧ token.span.start.offset = place := by
  simp only [commentEnd_iff, isMarkup, beq_iff_eq]

/-- **A comment is delimited by its marks.** -/
theorem delimited_readComment (hsuffix : (.markup mark :: rest) <:+ locatedPieces source)
    (hkind : mark.kind = .commentStart) :
    (readComment mark rest).1.Delimited (tokens source) source := by
  have hmem := hsuffix.subset List.mem_cons_self
  have hstart : (readComment mark rest).1.content.range.start = mark.span.stop.offset := by
    rw [content_readComment]
    rfl
  have hstop : (readComment mark rest).1.content.range.stop = (stopOfAll mark.span.stop
      (rest.takeWhile fun piece => !piece.isMarkup .commentEnd)).offset := by
    rw [content_readComment]
    rfl
  have hspan : (readComment mark rest).1.span.range.start = mark.span.start.offset :=
    congrArg Point.offset (start_readComment mark rest)
  have hwidth := offset_stop_of_width? (mem_tokens_of_markup hmem) (by rw [hkind]; rfl)
  have hscan := scan_cases hsuffix (fun _ _ _ => rfl) commentEnd_iff_isMarkup
  rw [← hstart, ← hstop] at hscan
  have hinside : ∀ place, CommentEnd (tokens source) source place → place < byteLength source := by
    intro place hplace
    have hle := hplace.mark.occurs.add_le
    have hthree : byteLength commentClose = 3 := by decide
    omega
  refine ⟨?_, by rw [hstart, hspan, hwidth], ?_, ?_, ?_⟩
  · rw [hspan]
    exact freeMark_commentOpen_iff.2 ⟨mark, hmem, hkind, rfl⟩
  · rcases hscan with ⟨closing, more, -, hleast⟩ | ⟨-, hnone, hend⟩
    · exact Or.inl hleast
    · exact Or.inr ⟨hnone, hend⟩
  · rw [unclosed_readComment_iff]
    rcases hscan with ⟨closing, more, hdrop, hleast⟩ | ⟨hdrop, hnone, -⟩
    · exact iff_of_false (by simp [hdrop]) fun hnone => hnone _ hleast.1.1 hleast.1.2
    · exact iff_of_true hdrop hnone
  · rcases hscan with ⟨closing, more, -, hleast⟩ | ⟨-, hnone, hend⟩
    · exact iff_of_false (hinside _ hleast.1.2).ne fun hnone => hnone _ hleast.1.1 hleast.1.2
    · exact iff_of_true hend hnone

/-! ## 5. Quoted values -/

/-- What a value can be: a quoted one, or all that can be part of one without quotes. -/
theorem readValue_inv (pieces : List (Piece Token)) :
    (∃ quote more, pieces = .markup quote :: more ∧ quote.kind = .quote
        ∧ readValue pieces = (some (readQuoted quote more).1, (readQuoted quote more).2))
      ∨ (∀ value, (readValue pieces).1 = some value → value.quoted = false)
        ∧ (readValue pieces).2 = pieces.dropWhile isBareValue := by
  unfold readValue
  split
  next => exact Or.inr ⟨fun value h => (by cases h), rfl⟩
  next first more =>
    split
    next quote =>
      split
      next hquote => exact Or.inl ⟨quote, more, rfl, hquote, rfl⟩
      next =>
        refine Or.inr ⟨fun value h => ?_, rfl⟩
        simp only at h
        split at h
        · cases h
        · cases h
          rfl
    next => exact Or.inr ⟨fun value h => (by cases h), rfl⟩

/-- What an attribute can be: a name alone, or one with an equals sign and a value. -/
theorem readAttribute_inv (name : Token) (pieces : List (Piece Token)) :
    ((readAttribute name pieces).1.value = none ∧ (readAttribute name pieces).2 = pieces)
      ∨ ∃ equals more, pieces = .markup equals :: more ∧ equals.kind = .equals
        ∧ (readAttribute name pieces).1.value = (readValue more).1
        ∧ (readAttribute name pieces).2 = (readValue more).2 := by
  unfold readAttribute
  split
  next equals more =>
    split
    next hequals => exact Or.inr ⟨equals, more, rfl, hequals, rfl, rfl⟩
    next => exact Or.inl ⟨rfl, rfl⟩
  next => exact Or.inl ⟨rfl, rfl⟩

theorem quoted_readQuoted (quote : Token) (rest : List (Piece Token)) :
    (readQuoted quote rest).1.quoted = true := by
  unfold readQuoted
  simp only
  split <;> rfl

/-- A quote is one of two characters. -/
theorem exists_text_of_quote (h : .markup quote ∈ locatedPieces source)
    (hkind : quote.kind = .quote) : ∃ c, quote.text = [c] ∧ (c = '"' ∨ c = '\'') := by
  have hmarks : ∀ mark ∈ Lexer.marks, mark.kind = .quote →
      mark.text = ['"'] ∨ mark.text = ['\''] := by decide
  rcases hmarks _ (mem_marks_of_markup h (by rw [hkind]; decide)) hkind with htext | htext
  · exact ⟨_, htext, Or.inl rfl⟩
  · exact ⟨_, htext, Or.inr rfl⟩

theorem freeByte_iff_closesQuote {c : Char} (htext : quote.text = [c]) (hc : c = '"' ∨ c = '\'')
    (place : Nat) :
    FreeByte (tokens source) source c place
      ↔ ∃ token, .markup token ∈ locatedPieces source
        ∧ closesQuote quote (.markup token) = true ∧ token.span.start.offset = place := by
  simp only [freeByte_quote_iff hc, closesQuote, htext, Bool.and_eq_true, beq_iff_eq, and_assoc]

theorem firstOrEnd_readQuoted (hsuffix : (.markup quote :: rest) <:+ locatedPieces source)
    {c : Char} (htext : quote.text = [c]) (hc : c = '"' ∨ c = '\'') :
    FirstOrEnd source (FreeByte (tokens source) source c)
      (readQuoted quote rest).1.content.range.start (readQuoted quote rest).1.content.range.stop
    := by
  rw [content_readQuoted]
  rcases scan_cases hsuffix (fun _ _ _ => rfl) (freeByte_iff_closesQuote htext hc) with
    ⟨closing, more, -, hleast⟩ | ⟨-, hnone, hend⟩
  · exact Or.inl hleast
  · exact Or.inr ⟨hnone, hend⟩

/-- **A quoted value is delimited by its quotes.** -/
theorem quotedBy_readAttribute (hsuffix : (.markup name :: rest) <:+ locatedPieces source)
    {value : AttributeValue} (hvalue : (readAttribute name rest).1.value = some value)
    (hquoted : value.quoted = true) :
    ∃ quote, (readAttribute name rest).1.QuotedBy (tokens source) source value quote := by
  rcases readAttribute_inv name rest with ⟨hnone, -⟩ | ⟨equals, more, rfl, hequals, hread, -⟩
  · rw [hnone] at hvalue
    cases hvalue
  rw [hread] at hvalue
  rcases readValue_inv more with ⟨quote, inside, rfl, hquote, hcases⟩ | ⟨hbare, -⟩
  · rw [hcases] at hvalue
    obtain rfl := Option.some.inj hvalue
    have hsign : .markup equals ∈ locatedPieces source := hsuffix.subset (by simp)
    have hmark : .markup quote ∈ locatedPieces source := hsuffix.subset (by simp)
    have hmarks : ∀ mark ∈ Lexer.marks, mark.kind = .equals → mark.text = ['='] := by decide
    have hequalsText : equals.text = ['='] :=
      hmarks _ (mem_marks_of_markup hsign (by rw [hequals]; decide)) hequals
    obtain ⟨c, htext, hc⟩ := exists_text_of_quote hmark hquote
    have hascii : c.toNat ≤ 127 := by rcases hc with rfl | rfl <;> decide
    have hone : byteLength ['='] = 1 := by decide
    -- name, equals sign and quote stand one behind the other
    obtain ⟨_, -, -, hafterName, -, hafterSign, -, -⟩ :=
      exists_tiles_of_suffix (tiles_locatedPieces source) hsuffix
    have hname : (readAttribute name (.markup equals :: .markup quote :: inside)).1.name.range.stop
        = equals.span.start.offset := by
      rw [(start_readAttribute _ _).1]
      exact (congrArg Point.offset hafterName).symm
    have hquoteStart : quote.span.start.offset = equals.span.start.offset + 1 := by
      rw [← hone, ← hequalsText, ← offset_stop_of_mem_tokens (mem_tokens_of_markup hsign)]
      exact congrArg Point.offset hafterSign
    have hquoteStop := offset_stop_of_width? (mem_tokens_of_markup hmark) (by rw [hquote]; rfl)
    refine ⟨c, hc, ?_, ?_, ?_, ?_⟩
    · rw [hname]
      exact freeByte_of_markup (by decide) hsign hequalsText
    · rw [hname, ← hquoteStart]
      exact freeByte_of_markup hascii hmark htext
    · rw [content_readQuoted, hname, Span.range, hquoteStop, hquoteStart]
    · have htail : (.markup quote :: inside) <:+ locatedPieces source :=
        ((List.suffix_cons _ _).trans (List.suffix_cons _ _)).trans hsuffix
      exact firstOrEnd_readQuoted htail htext hc
  · rw [hbare value hvalue] at hquoted
    cases hquoted

theorem delimited_of_mem_segments (source : List Char) (options : ParserOptions) :
    ∀ segment ∈ options.segments source, ∀ entry ∈ segment.leaves,
      entry.Delimited (tokens source) source := by
  refine forall_mem_segments ?_ ?_ ?_ ?_ ?_ (List.suffix_refl _)
  · intro token _
    exact List.forall_mem_singleton.2 trivial
  · intro opening mark ending _
    exact List.forall_mem_singleton.2 trivial
  · intro mark rest hsuffix hkind
    exact List.forall_mem_singleton.2 (delimited_readComment hsuffix hkind)
  · intro mark name rest hsuffix _ _ entry hentry
    obtain ⟨item, hitem, rfl⟩ := List.mem_map.1 hentry
    have htail : rest <:+ locatedPieces source :=
      ((List.suffix_cons _ _).trans (List.suffix_cons _ _)).trans hsuffix
    have hitems : ∀ item ∈ (readTagBody options.trackWhitespace name.span.stop rest).items,
        (Entry.ofItem item).Delimited (tokens source) source :=
      forall_mem_items (fun _ _ _ _ => trivial) (fun _ _ => trivial)
        (fun _ _ hattr _ _ hvalue hquoted => quotedBy_readAttribute hattr hvalue hquoted)
        name.span.stop htail
    exact hitems item hitem
  · intro mark name stop rest _ _ _ entry hentry
    cases hentry

end Segment

/-! ## 6. Documents -/

theorem Entry.delimited_plain_iff {row : List Token} {source : List Char} {entry : Entry} :
    entry.plain.Delimited row source ↔ entry.Delimited row source := by
  cases entry <;> exact Iff.rfl

theorem delimited_of_mem_entries {source : List Char} {options : ParserOptions} {entry : Entry}
    (h : entry ∈ (parsed source options).entries) : entry.Delimited (tokens source) source := by
  obtain ⟨other, hother, hplain⟩ := exists_plain_of_mem_entries h
  have hall := Document.forall_mem_entries_ofSource
    (P := fun entry => entry.Delimited (tokens source) source) (fun _ _ _ _ => trivial)
    (Segment.delimited_of_mem_segments source options) (fun _ _ _ => trivial)
  rw [← Entry.delimited_plain_iff, ← hplain, Entry.delimited_plain_iff]
  exact hall other hother

/-- **A quoted value ends at the first quote of its own kind outside of ERB,** or at the end of the
    source if there is none. -/
theorem quoted_values_end_at_quote (source : List Char) (options : ParserOptions) :
    (lex source).Yields (2 * TokenList.tokenSize * (byteLength source + 1)) fun list =>
      (parse source options).Yields (2 * TokenList.tokenSize * (byteLength source + 1))
        fun document => ∀ attr value, .attr attr ∈ document.entries → attr.value = some value →
          value.quoted = true → ∃ quote, attr.QuotedBy list.toList source value quote := by
  refine (yields_lex source).imp fun list hlist => (yields_parse source options).imp ?_
  rintro document rfl attr value hmem hvalue hquoted
  rw [hlist]
  exact delimited_of_mem_entries hmem value hvalue hquoted

/-- **A comment ends at the first `-->` outside of ERB that no `<!--` outside of ERB has bitten,**
    and is reported as unclosed if there is none. -/
theorem comments_end_at_mark (source : List Char) (options : ParserOptions) :
    (lex source).Yields (2 * TokenList.tokenSize * (byteLength source + 1)) fun list =>
      (parse source options).Yields (2 * TokenList.tokenSize * (byteLength source + 1))
        fun document => ∀ value, .comment value ∈ document.entries →
          value.Delimited list.toList source := by
  refine (yields_lex source).imp fun list hlist => (yields_parse source options).imp ?_
  rintro document rfl value hmem
  rw [hlist]
  exact delimited_of_mem_entries hmem

/-- Without that exception it would not be true: here a `-->` stands outside of ERB behind the
    beginning of the comment, and the comment is unclosed. -/
theorem comment_end_hidden_by_opening :
    ∃ list document value, (lex "<!--<!-->".toList).outcome .standard = .ok list
      ∧ (parse "<!--<!-->".toList {}).outcome .standard = .ok document
      ∧ .comment value ∈ document.entries ∧ value.content.range = ⟨4, 9⟩
      ∧ (∃ issue ∈ value.issues, issue.kind = .unclosedComment)
      ∧ FreeMark list.toList "<!--<!-->".toList commentClose 6 := by
  have hlex : ∃ list, (lex "<!--<!-->".toList).outcome .standard = .ok list :=
    exists_lex (by decide) (Memory.grantsUpTo_standard (by decide))
  obtain ⟨list, hlist⟩ := hlex
  have hnone : ∀ token ∈ tokens "<!--<!-->".toList, token.kind.isErb = false := by decide +kernel
  let content : Span := ⟨⟨4, ⟨1, 4⟩⟩, ⟨9, ⟨1, 9⟩⟩⟩
  let span : Span := ⟨.origin, ⟨9, ⟨1, 9⟩⟩⟩
  refine ⟨list, _, ⟨content, span, [⟨.unclosedComment, span⟩]⟩, hlist, outcome_parse {} hlist,
    by decide +kernel, rfl, ⟨_, List.mem_cons_self, rfl⟩,
    ⟨"<!--<!".toList, [], by decide, by decide⟩, ?_⟩
  rintro place - - ⟨token, hmem, herb, -⟩
  rw [toList_of_lex hlist] at hmem
  rw [hnone token hmem] at herb
  cases herb

end ErbTemplate
