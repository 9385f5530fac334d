import ErbTemplate.Proofs.Tree.Locations
import ErbTemplate.Proofs.Tree.Places
import ErbTemplate.Proofs.Tree.Progress

/-!
# Parsing never breaks off

A node holds no text, only stretches of the source (`Entry.stretches`), and whoever wants the text
cuts it out. That works for all of them: both ends of a stretch are places of the source, and the
first is not behind the second (`Span.Cuttable`). The ends are those of tokens, so they are places.
The order of the two has three reasons. A name or a mark has it from its token, a content from the
tiling of the pieces, and a text, which may be joined from many tokens, from the picture of the
whole tree.

Reading by index and cutting out are all that could break off. A source may be as broken as it
likes: no token is read that is not there, no loop stays where it is, and what is stored can be used
(`parsing_never_breaks_off`).
-/

set_option autoImplicit false

namespace ErbTemplate

open Text

/-! ## 1. Stretches -/

/-- A span can be cut out of a source. -/
structure Span.Cuttable (source : List Char) (span : Span) : Prop where
  start : span.start.LiesIn source
  stop : span.stop.LiesIn source
  forward : span.start.LeadsTo span.stop

theorem Span.Cuttable.exists_split {source : List Char} {span : Span} (h : span.Cuttable source) :
    ∃ front text back, source = front ++ text ++ back
      ∧ span.range = ⟨byteLength front, byteLength front + byteLength text⟩ := by
  obtain ⟨front, back, rfl, hstart⟩ := h.start
  obtain ⟨longer, rest, hsplit, hstop⟩ := h.stop
  have hfirst : span.range.start = byteLength front := by
    simp [range, hstart, Point.origin]
  have hlast : span.range.stop = byteLength longer := by
    simp [range, hstop, Point.origin]
  have hle : byteLength front ≤ byteLength longer := by
    rw [← hfirst, ← hlast]
    exact h.forward.offset_le
  obtain ⟨middle, rfl, rfl⟩ := exists_append_of_byteLength_le hsplit hle
  refine ⟨front, middle, rest, by rw [List.append_assoc], ?_⟩
  rw [← byteLength_append, ← hlast, ← hfirst]

theorem Span.Cuttable.exists_slice? {source : List Char} {span : Span}
    (h : span.Cuttable source) : ∃ text, span.range.slice? source = some text := by
  obtain ⟨front, text, back, rfl, hrange⟩ := h.exists_split
  refine ⟨text, ?_⟩
  rw [hrange]
  exact between?_append front text back

/-- The stretches of the source that a node holds. -/
def Entry.stretches : Entry → List Span
  | text span | whitespace span => [span]
  | element info _ => info.openTag.name :: (info.closeTag.map CloseTag.name).toList
  | attr value => value.name :: (value.value.map AttributeValue.content).toList
  | comment value => [value.content]
  | erb tag => tag.mark :: tag.content :: tag.closing.toList

theorem Entry.stretches_plain (entry : Entry) : entry.plain.stretches = entry.stretches := by
  cases entry <;> rfl

/-! ## 2. Readers -/

namespace Segment

variable {source : List Char} {rest : List (Piece Token)}

theorem cuttable_of_mem_tokens {token : Token} (h : token ∈ tokens source) :
    token.span.Cuttable source := by
  refine ⟨(liesIn_of_mem_tokens h).1, (liesIn_of_mem_tokens h).2, ?_⟩
  obtain ⟨before, lexeme, after, -, rfl, -⟩ := exists_split_of_mem_tokens h
  exact ⟨lexeme.text, rfl⟩

theorem cuttable_erbTag {opening : Opening} {mark : Token} {ending : Ending Token}
    (h : .erb opening mark ending ∈ locatedPieces source) :
    ∀ span ∈ (Entry.erb (erbTag opening mark ending)).stretches, span.Cuttable source := by
  have hparts : ∀ token ∈ (Piece.erb opening mark ending).parts, token.span.Cuttable source :=
    fun token hmem => cuttable_of_mem_tokens (mem_tokens_of_mem_parts h hmem)
  have hmark : mark.span.Cuttable source := hparts mark List.mem_cons_self
  cases ending with
  | bare =>
    have hempty : Span.Cuttable source ⟨mark.span.stop, mark.span.stop⟩ :=
      ⟨hmark.stop, hmark.stop, .refl _⟩
    simpa [Entry.stretches, erbTag, Ending.content?, Ending.closing?] using ⟨hmark, hempty⟩
  | running content =>
    have hcontent := hparts content (by simp [Piece.parts, Ending.parts])
    simpa [Entry.stretches, erbTag, Ending.content?, Ending.closing?] using ⟨hmark, hcontent⟩
  | closed content closing =>
    have hcontent := hparts content (by simp [Piece.parts, Ending.parts])
    have hclosing := hparts closing (by simp [Piece.parts, Ending.parts])
    simpa [Entry.stretches, erbTag, Ending.content?, Ending.closing?]
      using ⟨hmark, hcontent, hclosing⟩

/-- What a loop has passed behind a token can be cut out. -/
theorem cuttable_passed {mark : Token} (h : (.markup mark :: rest) <:+ locatedPieces source)
    (takes : Piece Token → Bool) :
    Span.Cuttable source
      ⟨mark.span.stop, Piece.stopOfAll mark.span.stop (rest.takeWhile takes)⟩ := by
  have hmark := mem_tokens_of_markup (h.subset List.mem_cons_self)
  have hstop := (liesIn_of_mem_tokens hmark).2
  refine ⟨hstop, liesIn_stopOfAll hstop ?_, ?_⟩
  · intro piece hpiece
    exact h.subset (List.mem_cons_of_mem _ (List.takeWhile_subset _ hpiece))
  · exact Cursor.leadsTo_stopOfAll h takes

theorem content_readComment (mark : Token) (rest : List (Piece Token)) :
    (readComment mark rest).1.content = ⟨mark.span.stop, Piece.stopOfAll mark.span.stop
      (rest.takeWhile fun piece => !piece.isMarkup .commentEnd)⟩ := by
  simp only [readComment]
  split <;> rfl

theorem content_readQuoted (quote : Token) (rest : List (Piece Token)) :
    (readQuoted quote rest).1.content = ⟨quote.span.stop,
      Piece.stopOfAll quote.span.stop (rest.takeWhile fun piece => !closesQuote quote piece)⟩ := by
  simp only [readQuoted]
  split <;> rfl

theorem cuttable_readValue {equals : Token} {value : AttributeValue}
    (h : (.markup equals :: rest) <:+ locatedPieces source)
    (hvalue : (readValue rest).1 = some value) : value.content.Cuttable source := by
  match rest with
  | [] => cases hvalue
  | .erb opening mark ending :: more => cases hvalue
  | .markup first :: more =>
    by_cases hquote : first.kind = .quote
    · simp only [readValue, if_pos hquote, Option.some.injEq] at hvalue
      rw [← hvalue, content_readQuoted]
      exact cuttable_passed ((List.suffix_cons _ _).trans h) _
    · -- a value without quotes begins where the equals sign ends
      obtain ⟨_, -, -, hbegin, -⟩ := Piece.exists_tiles_of_suffix (tiles_locatedPieces source) h
      have hpassed := cuttable_passed h isBareValue
      rw [← show first.span.start = equals.span.stop from hbegin] at hpassed
      simp only [readValue, if_neg hquote] at hvalue
      split at hvalue
      · cases hvalue
      · cases hvalue
        exact hpassed

theorem cuttable_readAttribute {name : Token}
    (h : (.markup name :: rest) <:+ locatedPieces source) :
    ∀ span ∈ (Entry.attr (readAttribute name rest).1).stretches, span.Cuttable source := by
  have hname : (readAttribute name rest).1.name.Cuttable source := by
    rw [(start_readAttribute name rest).1]
    exact cuttable_of_mem_tokens (mem_tokens_of_markup (h.subset List.mem_cons_self))
  have hvalue : ∀ value, (readAttribute name rest).1.value = some value →
      value.content.Cuttable source := by
    intro value hvalue
    match rest with
    | [] => cases hvalue
    | .erb opening mark ending :: more => cases hvalue
    | .markup equals :: more =>
      by_cases hkind : equals.kind = .equals
      · simp only [readAttribute, if_pos hkind] at hvalue
        exact cuttable_readValue ((List.suffix_cons _ _).trans h) hvalue
      · simp [readAttribute, hkind] at hvalue
  refine List.forall_mem_cons.2 ⟨hname, ?_⟩
  intro span hmem
  obtain ⟨value, hsome, rfl⟩ := Option.map_eq_some_iff.1 (Option.mem_toList.1 hmem)
  exact hvalue value hsome

/-- The name of a tag, if a segment is one. -/
def tagName? : Segment → Option Span
  | openTag _ tag _ => some tag.name
  | closeTag _ tag => some tag.name
  | text _ | erb _ | comment _ => none

theorem cuttable_tagName (options : ParserOptions) (source : List Char) :
    ∀ segment ∈ options.segments source, ∀ span, segment.tagName? = some span →
      span.Cuttable source := by
  refine forall_mem_segments ?_ ?_ ?_ ?_ ?_ (List.suffix_refl (locatedPieces source))
  · intro token _ span hspan
    cases hspan
  · intro opening mark ending _ span hspan
    cases hspan
  · intro mark rest _ _ span hspan
    cases hspan
  · intro mark name rest hsuffix _ _ span hspan
    cases hspan
    exact cuttable_of_mem_tokens (mem_tokens_of_markup (hsuffix.subset (by simp)))
  · intro mark name stop rest hsuffix _ _ span hspan
    cases hspan
    exact cuttable_of_mem_tokens (mem_tokens_of_markup (hsuffix.subset (by simp)))

end Segment

/-! ## 3. Nodes -/

/-- All stretches of a node can be cut out. Of a text only the ends are known, because a text may be
    joined from two. -/
def Entry.Cuttable (source : List Char) : Entry → Prop
  | text span => span.start.LiesIn source ∧ span.stop.LiesIn source
  | entry => ∀ span ∈ entry.stretches, span.Cuttable source

theorem ElementInfo.Made.cuttable {source : List Char} {options : ParserOptions}
    {info : ElementInfo} (h : info.Made options (options.segments source)) (count : Nat) :
    (Entry.element info count).Cuttable source := by
  have hnames := Segment.cuttable_tagName options source
  cases h with
  | atOnce hopen => exact List.forall_mem_singleton.2 (hnames _ hopen _ rfl)
  | ended hopen => exact List.forall_mem_singleton.2 (hnames _ hopen _ rfl)
  | closed hopen hclose =>
    exact List.forall_mem_cons.2
      ⟨hnames _ hopen _ rfl, List.forall_mem_singleton.2 (hnames _ hclose _ rfl)⟩

theorem cuttable_ofSource {source : List Char} {options : ParserOptions} :
    ∀ entry ∈ (Document.ofSource options source).entries, entry.Cuttable source := by
  refine Document.forall_mem_entries_ofSource ?_ ?_ fun info count hmade => hmade.cuttable count
  · intro first second hfirst hsecond
    exact ⟨hfirst.1, hsecond.2⟩
  · refine Segment.forall_mem_leaves options.trackWhitespace ?_ ?_
      (fun _ _ _ hmem => Segment.cuttable_erbTag hmem) ?_
      (fun _ _ hsuffix => Segment.cuttable_readAttribute hsuffix)
    · intro token hmem
      exact liesIn_of_mem_tokens (mem_tokens_of_markup hmem)
    · intro token hmem
      exact List.forall_mem_singleton.2
        (Segment.cuttable_of_mem_tokens (mem_tokens_of_markup hmem))
    · intro mark rest hsuffix
      refine List.forall_mem_singleton.2 ?_
      rw [Segment.content_readComment]
      exact Segment.cuttable_passed hsuffix _

/-- **Every stretch that a node holds can be cut out of the source.** -/
theorem cuttable_of_mem_stretches {source : List Char} {options : ParserOptions} {entry : Entry}
    {span : Span} (h : entry ∈ (parsed source options).entries) (hspan : span ∈ entry.stretches) :
    span.Cuttable source := by
  obtain ⟨other, hother, hplain⟩ := exists_plain_of_mem_entries h
  have hcuttable := cuttable_ofSource other hother
  rw [← Entry.stretches_plain, ← hplain, Entry.stretches_plain] at hspan
  cases other with
  | text whole =>
    obtain rfl := List.mem_singleton.1 hspan
    have hsame : entry.span = span := by
      rw [← Entry.span_plain, ← hplain]
      rfl
    have hforward := ((upTo_parsed options source).1 entry h).forward.leadsTo
    rw [hsame] at hforward
    exact ⟨hcuttable.1, hcuttable.2, hforward⟩
  | whitespace | element | attr | comment | erb => exact hcuttable span hspan

/-! ## 4. Parsing -/

/-- **Parsing never breaks off.** Given the memory for its tokens, a source below the limit is
    parsed, and every stretch in the tree can be cut out. A reader by index takes any number of
    rounds without an error. It is never behind the last token, and as long as it has not finished,
    a round passes a token or leaves its loop. It finishes after four rounds for each token at most,
    at the end, and has then found the segments of which the tree is made. -/
theorem parsing_never_breaks_off {source : List Char} (hlength : byteLength source < 2 ^ 32)
    (options : ParserOptions) :
    (∀ memory : Memory, memory.GrantsUpTo (2 * TokenList.tokenSize * (byteLength source + 1)) →
        ∃ document, (parse source options).outcome memory = .ok document
          ∧ ∀ entry ∈ document.entries, ∀ span ∈ entry.stretches,
            span.range.start ≤ span.range.stop ∧ ∃ text, span.range.slice? source = some text)
      ∧ (∀ count, ∃ cursor,
          Cursor.start.run options.trackWhitespace source (tokens source) count = .ok cursor
          ∧ cursor.position ≤ Cursor.endIndex (tokens source)
          ∧ (cursor.loop ≠ .finished →
            ∃ next, cursor.step options.trackWhitespace source (tokens source) = .ok next
              ∧ cursor.Advances next))
      ∧ ∃ count ≤ 4 * (tokens source).length, ∃ cursor,
          Cursor.start.run options.trackWhitespace source (tokens source) count = .ok cursor
            ∧ cursor.loop = .finished ∧ cursor.position = Cursor.endIndex (tokens source)
            ∧ cursor.found.reverse = options.segments source := by
  have hstart := Cursor.stands_start options.trackWhitespace source
  refine ⟨?_, ?_, ?_⟩
  · intro memory hgrants
    obtain ⟨list, hlist⟩ := exists_lex hlength hgrants
    refine ⟨parsed source options, outcome_parse options hlist, ?_⟩
    intro entry hentry span hspan
    have hcuttable := cuttable_of_mem_stretches hentry hspan
    exact ⟨hcuttable.forward.offset_le, hcuttable.exists_slice?⟩
  · intro count
    obtain ⟨cursor, hrun, hstands⟩ := hstart.run count
    refine ⟨cursor, hrun, hstands.position_le, ?_⟩
    intro hloop
    obtain ⟨next, hstep, -, hadvance⟩ := hstands.goes hloop
    exact ⟨next, hstep, hadvance⟩
  · obtain ⟨count, hcount, cursor, hrun, hstands, hloop⟩ := hstart.exists_finished
    obtain ⟨hposition, hfound⟩ := hstands.finished hloop
    refine ⟨count, ?_, cursor, hrun, hloop, hposition, hfound⟩
    have hrounds : Cursor.start.roundsLeft (tokens source)
        = 4 * Cursor.endIndex (tokens source) + 1 := rfl
    have hend := Cursor.endIndex_tokens source
    omega

/-- An opening tag, a quoted value in it and an ERB tag in the value, all of them cut off. -/
theorem parsing_never_breaks_off_cut_off :
    ∃ source : List Char, source = ['<', 'a', ' ', 'b', '=', '"', 'é', '<', '%']
      ∧ byteLength source < 2 ^ 32
      ∧ (∃ document, (parse source {}).outcome .standard = .ok document
        ∧ document.entries.length = 2
        ∧ ∀ entry ∈ document.entries, ∀ span ∈ entry.stretches,
          span.range.start ≤ span.range.stop ∧ ∃ text, span.range.slice? source = some text)
      ∧ (∃ cursor, Cursor.start.run false source (tokens source) 5 = .ok cursor
        ∧ cursor.position ≤ 8)
      ∧ ∃ count ≤ 36, ∃ cursor, Cursor.start.run false source (tokens source) count = .ok cursor
        ∧ cursor.loop = .finished ∧ cursor.position = 8 ∧ cursor.found.reverse.length = 1 := by
  obtain ⟨hparse, hrounds, count, hcount, last, hlast, hloop, hposition, hfound⟩ :=
    @parsing_never_breaks_off ['<', 'a', ' ', 'b', '=', '"', 'é', '<', '%'] (by decide) {}
  have hend : Cursor.endIndex (tokens ['<', 'a', ' ', 'b', '=', '"', 'é', '<', '%']) = 8 := by
    decide +kernel
  obtain ⟨document, hdocument, hstretches⟩ :=
    hparse .standard (Memory.grantsUpTo_standard (by decide))
  obtain ⟨cursor, hcursor, hle, -⟩ := hrounds 5
  refine ⟨_, rfl, by decide, ⟨document, hdocument, ?_, hstretches⟩, ⟨cursor, hcursor, hend ▸ hle⟩,
    count, ?_, last, hlast, hloop, hend ▸ hposition, ?_⟩
  · rw [eq_parsed_of_parse hdocument]
    decide +kernel
  · rw [← Cursor.endIndex_tokens, hend] at hcount
    exact hcount
  · rw [hfound]
    decide +kernel

end ErbTemplate
