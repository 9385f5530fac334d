import ErbTemplate.Proofs.Token.Pieces
import ErbTemplate.Proofs.Tree.Annotation
import ErbTemplate.Proofs.Tree.Unclosed

/-!
# Every ERB tag is in the tree once

A row of tokens shows an ERB tag as an opening with, perhaps, a content and a closing behind it
(`TagTokens`). A tree shows it in one of three ways: as an ERB tag made of just these tokens, or
inside of a comment, or inside of a quoted value. `Entry.takes` says so of one entry, and the
account is that for every opening exactly one entry of the tree does (`ErbAccount`).

One entry at least: no reader stops or starts in the middle of a tag, because readers go from piece
to piece and a tag is one piece (`Segment.exists_takes`). One at most: an entry that takes a tag
covers it, and leaves do not overlap.
-/

set_option autoImplicit false

namespace ErbTemplate

/-! ## 1. Tags in a row of tokens -/

/-- The tokens of an ERB tag. -/
structure TagTokens where
  mark : Token
  content : Option Token
  closing : Option Token

namespace TagTokens

/-- The tag of an opening before a row: the content, if the next token is one, and the closing, if
    the token behind these is one. -/
def before (mark : Token) (row : List Token) : TagTokens :=
  let content := row.head?.filter fun token => token.kind == .erbContent
  let behind := row.drop content.toList.length
  ⟨mark, content, behind.head?.filter fun token => token.kind == .erbEnd⟩

/-- The tags of a row of tokens, one for every opening. -/
def ofRow : List Token → List TagTokens
  | [] => []
  | token :: row =>
    if token.kind = .erbStart then before token row :: ofRow row else ofRow row

def all (tag : TagTokens) : List Token :=
  tag.mark :: (tag.content.toList ++ tag.closing.toList)

/-- Where the content is: empty, right behind the opening, if no token is one. -/
def contentSpan (tag : TagTokens) : Span :=
  (tag.content.map Token.span).getD ⟨tag.mark.span.stop, tag.mark.span.stop⟩

/-- Whether all tokens of a tag stand inside of a span. -/
def isInside (span : Span) (tag : TagTokens) : Bool :=
  tag.all.all fun token =>
    decide (span.range.start ≤ token.range.start ∧ token.range.stop ≤ span.range.stop)

end TagTokens

/-- Whether an ERB tag of a tree is made of these tokens. -/
def ErbTag.isMadeOf (tokens : TagTokens) (tag : ErbTag) : Bool :=
  tag.mark == tokens.mark.span && tag.content == tokens.contentSpan
    && tag.closing == tokens.closing.map Token.span

/-- Whether an entry is an ERB tag made of these tokens, or a comment or an attribute with a quoted
    value that has them inside. -/
def Entry.takes (tokens : TagTokens) : Entry → Bool
  | erb tag => tag.isMadeOf tokens
  | comment value => tokens.isInside value.content
  | attr owner => owner.value.any fun value => value.quoted && tokens.isInside value.content
  | text _ | whitespace _ | element .. => false

/-- The account of the ERB tags of a row of tokens in a document. -/
structure ErbAccount (row : List Token) (document : Document) : Prop where
  /-- Every tag is taken by exactly one entry. -/
  once : ∀ tokens ∈ TagTokens.ofRow row, document.entries.countP (Entry.takes tokens) = 1
  /-- No ERB tag of the tree comes from anywhere else. -/
  origin : ∀ tag ∈ document.erbTags, ∃ tokens ∈ TagTokens.ofRow row, tag.isMadeOf tokens = true
  /-- No token of an ERB tag is part of a text. -/
  apart : ∀ token ∈ row, token.kind.isErb = true → ∀ span, .text span ∈ document.entries →
    token.range.stop ≤ span.range.start ∨ span.range.stop ≤ token.range.start
  /-- A tag is reported as unclosed if it has no closing. -/
  unclosed : ∀ tag ∈ document.erbTags,
    (∃ issue ∈ tag.issues, issue.kind = .unclosedErbTag) ↔ tag.closing = none
  /-- Only the last tag can be without one. -/
  last : ∀ tag ∈ document.erbTags.dropLast, tag.closing ≠ none

/-- The tokens of a piece, if it is an ERB tag. -/
def Piece.tagTokens? : Piece Token → Option TagTokens
  | markup _ => none
  | erb _ mark ending => some ⟨mark, ending.content?, ending.closing?⟩

theorem TagTokens.ofRow_cons_of_ne {token : Token} {row : List Token}
    (h : token.kind ≠ .erbStart) : ofRow (token :: row) = ofRow row := by
  simp [ofRow, h]

/-- **The tags of a row of tokens are the ERB pieces that the row is made of.** -/
theorem ofRow_flatMap_parts {pieces : List (Piece Token)} (htyped : ∀ piece ∈ pieces, piece.Typed)
    (hopen : Piece.OpenLast pieces) (point : Point) :
    TagTokens.ofRow (pieces.flatMap Piece.parts ++ [.eofAt point])
      = pieces.filterMap Piece.tagTokens? := by
  induction pieces with
  | nil => simp [TagTokens.ofRow, Token.eofAt, Token.ofLexeme]
  | cons piece pieces ih =>
    obtain ⟨hpiece, hothers⟩ := List.forall_mem_cons.1 htyped
    have hrest := ih hothers hopen.2
    cases piece with
    | markup token =>
      have hkind : token.kind ≠ .erbStart := by
        intro heq
        rw [Piece.Typed, heq] at hpiece
        cases hpiece
      exact (TagTokens.ofRow_cons_of_ne hkind).trans hrest
    | erb opening mark ending =>
      obtain ⟨hmark, hcontent, hclosing⟩ := hpiece
      have hown : ∀ content : Token, content.kind = .erbContent →
          (some content).filter (fun token => token.kind == .erbContent) = some content := by
        intro content hkind
        simp [hkind]
      cases ending with
      | bare =>
        obtain rfl := hopen.1 rfl
        simp [TagTokens.ofRow, TagTokens.before, Piece.parts, Ending.parts, Piece.tagTokens?,
          Ending.content?, Ending.closing?, hmark, Token.eofAt, Token.ofLexeme]
      | running content =>
        obtain rfl := hopen.1 rfl
        have hkind := hcontent content rfl
        simp [TagTokens.ofRow, TagTokens.before, Piece.parts, Ending.parts, Piece.tagTokens?,
          Ending.content?, Ending.closing?, hmark, hkind, hown content hkind, Token.eofAt,
          Token.ofLexeme]
      | closed content closing =>
        have hkind := hcontent content rfl
        have hend := hclosing closing rfl
        simp [TagTokens.ofRow, TagTokens.before, Piece.parts, Ending.parts, Piece.tagTokens?,
          Ending.content?, Ending.closing?, hmark, hkind, hend, hown content hkind, hrest]

theorem mem_ofRow_tokens_iff {source : List Char} {tokens : TagTokens} :
    tokens ∈ TagTokens.ofRow (ErbTemplate.tokens source)
      ↔ ∃ opening mark ending, .erb opening mark ending ∈ locatedPieces source
        ∧ tokens = ⟨mark, ending.content?, ending.closing?⟩ := by
  rw [ErbTemplate.tokens, ofRow_flatMap_parts (fun _ hmem => typed_of_mem_locatedPieces hmem)
    (openLast_locatedPieces source), List.mem_filterMap]
  constructor
  · rintro ⟨piece, hpiece, htokens⟩
    cases piece with
    | markup token => cases htokens
    | erb opening mark ending =>
      cases htokens
      exact ⟨opening, mark, ending, hpiece, rfl⟩
  · rintro ⟨opening, mark, ending, hpiece, rfl⟩
    exact ⟨_, hpiece, rfl⟩

/-! ## 2. Somebody takes every tag -/

namespace Piece

variable {source : List Char} {opening : Opening} {mark : Token} {ending : Ending Token}

theorem isInside_iff (h : .erb opening mark ending ∈ locatedPieces source) (span : Span) :
    TagTokens.isInside span ⟨mark, ending.content?, ending.closing?⟩ = true
      ↔ span.start.offset ≤ (Piece.erb opening mark ending).start.offset
        ∧ (Piece.erb opening mark ending).stop.offset ≤ span.stop.offset := by
  have hall : TagTokens.all ⟨mark, ending.content?, ending.closing?⟩
      = (Piece.erb opening mark ending).parts := by
    cases ending <;> rfl
  have hparts : ∀ token ∈ (Piece.erb opening mark ending).parts, _ :=
    fun token hmem => offset_of_mem_parts h hmem
  simp only [TagTokens.isInside, hall, List.all_eq_true, decide_eq_true_eq]
  constructor
  · intro hinside
    refine ⟨(hinside mark List.mem_cons_self).1, ?_⟩
    cases ending with
    | bare => exact (hinside mark List.mem_cons_self).2
    | running content => exact (hinside content (by simp [parts, Ending.parts])).2
    | closed content closing => exact (hinside closing (by simp [parts, Ending.parts])).2
  · rintro ⟨hstart, hstop⟩ token hmem
    obtain ⟨hfirst, hlast⟩ := hparts token hmem
    exact ⟨hstart.trans hfirst, hlast.trans hstop⟩

/-- A piece stands between the ends of every part of a tiled row that it is in. -/
theorem between_of_mem {used rest : List (Piece Token)} {piece : Piece Token} {start last : Point}
    (h : Tiles start ((used ++ rest).map span) last) (hmem : piece ∈ used) :
    start.LeadsTo piece.start ∧ piece.stop.LeadsTo (stopOfAll start used) := by
  induction used generalizing start with
  | nil => cases hmem
  | cons first used ih =>
    obtain ⟨hstart, hforward, hrest⟩ := h
    rw [stopOfAll_cons]
    rcases List.mem_cons.1 hmem with rfl | hmem
    · have hpasses : Passes piece.stop (used ++ rest) (stopOfAll piece.stop used) rest :=
        ⟨used, rfl, rfl⟩
      exact ⟨hstart ▸ .refl _, (hpasses.tiles hrest).1⟩
    · obtain ⟨hfirst, hlast⟩ := ih hrest hmem
      exact ⟨hstart ▸ hforward.leadsTo.trans hfirst, hlast⟩

/-- A tag that a loop passed over is inside of what the loop took. -/
theorem isInside_takeWhile {takes : Piece Token → Bool} {pieces : List (Piece Token)}
    {start last : Point} (h : .erb opening mark ending ∈ locatedPieces source)
    (htiles : Tiles start (pieces.map span) last)
    (hmem : .erb opening mark ending ∈ pieces.takeWhile takes) :
    TagTokens.isInside ⟨start, stopOfAll start (pieces.takeWhile takes)⟩
      ⟨mark, ending.content?, ending.closing?⟩ = true := by
  rw [← List.takeWhile_append_dropWhile (p := takes) (l := pieces)] at htiles
  obtain ⟨hstart, hstop⟩ := between_of_mem htiles hmem
  exact (isInside_iff h _).2 ⟨hstart.offset_le, hstop.offset_le⟩

/-- The loops that look for a token of markup take an ERB tag or leave it behind. -/
theorem mem_takeWhile_or_mem_tail (takes : Piece Token → Bool) {pieces : List (Piece Token)}
    (htakes : takes (.erb opening mark ending) = true) (hmem : .erb opening mark ending ∈ pieces) :
    .erb opening mark ending ∈ pieces.takeWhile takes
      ∨ .erb opening mark ending ∈ (pieces.dropWhile takes).tail := by
  rw [← List.takeWhile_append_dropWhile (p := takes) (l := pieces)] at hmem
  rcases List.mem_append.1 hmem with hmem | hmem
  · exact Or.inl hmem
  · cases hdrop : pieces.dropWhile takes with
    | nil =>
      rw [hdrop] at hmem
      cases hmem
    | cons closing rest =>
      -- the token that the loop stopped at is none it would have taken
      have hstop := List.head?_dropWhile_not takes pieces
      rw [hdrop] at hmem hstop
      rcases List.mem_cons.1 hmem with rfl | hmem
      · rw [List.head?_cons] at hstop
        simp only at hstop
        rw [htakes] at hstop
        cases hstop
      · exact Or.inr hmem

end Piece

namespace Segment

open Piece

variable {source : List Char} {opening : Opening} {mark : Token} {ending : Ending Token}
variable {pieces : List (Piece Token)} {start last : Point}

theorem isMadeOf_erbTag (opening : Opening) (mark : Token) (ending : Ending Token) :
    (erbTag opening mark ending).isMadeOf ⟨mark, ending.content?, ending.closing?⟩ = true := by
  cases ending <;>
    simp [erbTag, ErbTag.isMadeOf, TagTokens.contentSpan, Ending.content?, Ending.closing?]

theorem takes_readComment (h : .erb opening mark ending ∈ locatedPieces source) {token : Token}
    (htiles : Tiles token.span.stop (pieces.map Piece.span) last)
    (hmem : .erb opening mark ending ∈ pieces) :
    .erb opening mark ending ∈ (readComment token pieces).2
      ∨ (Entry.comment (readComment token pieces).1).takes
          ⟨mark, ending.content?, ending.closing?⟩ = true := by
  have hcontent : (readComment token pieces).1.content = ⟨token.span.stop,
      stopOfAll token.span.stop (pieces.takeWhile fun piece => !piece.isMarkup .commentEnd)⟩ := by
    unfold readComment
    simp only
    split <;> rfl
  have hrest : (readComment token pieces).2
      = (pieces.dropWhile fun piece => !piece.isMarkup .commentEnd).tail := by
    unfold readComment
    simp only
    split
    next heq => rw [heq]; rfl
    next heq => rw [heq]; rfl
  rw [hrest, Entry.takes, hcontent]
  rcases mem_takeWhile_or_mem_tail (fun piece => !piece.isMarkup .commentEnd) rfl hmem
    with hinside | htail
  · exact Or.inr (isInside_takeWhile h htiles hinside)
  · exact Or.inl htail

theorem isInside_readQuoted (h : .erb opening mark ending ∈ locatedPieces source) {quote : Token}
    (htiles : Tiles quote.span.stop (pieces.map Piece.span) last)
    (hmem : .erb opening mark ending ∈ pieces) :
    .erb opening mark ending ∈ (readQuoted quote pieces).2
      ∨ (readQuoted quote pieces).1.quoted = true
        ∧ TagTokens.isInside (readQuoted quote pieces).1.content
            ⟨mark, ending.content?, ending.closing?⟩ = true := by
  have hvalue : (readQuoted quote pieces).1.quoted = true
      ∧ (readQuoted quote pieces).1.content = ⟨quote.span.stop,
        stopOfAll quote.span.stop (pieces.takeWhile fun piece => !closesQuote quote piece)⟩ := by
    unfold readQuoted
    simp only
    split <;> exact ⟨rfl, rfl⟩
  have hrest : (readQuoted quote pieces).2
      = (pieces.dropWhile fun piece => !closesQuote quote piece).tail := by
    unfold readQuoted
    simp only
    split
    next heq => rw [heq]; rfl
    next heq => rw [heq]; rfl
  rw [hrest, hvalue.2]
  rcases mem_takeWhile_or_mem_tail (fun piece => !closesQuote quote piece) rfl hmem
    with hinside | htail
  · exact Or.inr ⟨hvalue.1, isInside_takeWhile h htiles hinside⟩
  · exact Or.inl htail

theorem takes_readAttribute (h : .erb opening mark ending ∈ locatedPieces source) {name : Token}
    (htiles : Tiles name.span.stop (pieces.map Piece.span) last)
    (hmem : .erb opening mark ending ∈ pieces) :
    .erb opening mark ending ∈ (readAttribute name pieces).2
      ∨ (Entry.attr (readAttribute name pieces).1).takes
          ⟨mark, ending.content?, ending.closing?⟩ = true := by
  rcases readAttribute_cases name pieces with ⟨equals, quote, more, rfl, -, hvalue, -, hrest⟩
    | ⟨-, hkeeps⟩
  · have hmore : .erb opening mark ending ∈ more := by simpa using hmem
    obtain ⟨-, -, -, -, htail⟩ := htiles
    rw [hrest, Entry.takes, hvalue]
    rcases isInside_readQuoted h htail hmore with hbehind | ⟨hquoted, hinside⟩
    · exact Or.inl hbehind
    · right
      rw [Option.any_some, hquoted, hinside]
      rfl
  · exact Or.inl (hkeeps opening mark ending hmem)

/-- **An opening tag takes an ERB tag with one of its items, or leaves it behind.** -/
theorem exists_item_takes {track : Bool} (h : .erb opening mark ending ∈ locatedPieces source)
    (htiles : Tiles start (pieces.map Piece.span) last)
    (hmem : .erb opening mark ending ∈ pieces) :
    .erb opening mark ending ∈ (readTagBody track start pieces).rest
      ∨ ∃ item ∈ (readTagBody track start pieces).items,
        (Entry.ofItem item).takes ⟨mark, ending.content?, ending.closing?⟩ = true := by
  fun_induction readTagBody track start pieces with
  | case1 => cases hmem
  | case2 start opening' mark' ending' pieces tag ih =>
    have hspan : tag.span = (Piece.erb opening' mark' ending').span :=
      span_erbTag opening' mark' ending'
    obtain ⟨-, -, hrest⟩ := htiles
    rw [← hspan] at hrest
    rcases List.mem_cons.1 hmem with heq | hmem
    · cases heq
      exact Or.inr ⟨_, List.mem_cons_self, isMadeOf_erbTag opening mark ending⟩
    · exact (ih hrest hmem).imp_right List.exists_mem_cons_of_exists
  | case3 => exact Or.inl (by simpa using hmem)
  | case4 => exact Or.inl (by simpa using hmem)
  | case5 start token pieces _ ih | case6 start token pieces _ ih =>
    obtain ⟨-, -, hrest⟩ := htiles
    rw [TagBody.rest_consSpace]
    refine (ih hrest (by simpa using hmem)).imp_right ?_
    rintro ⟨item, hitem, htakes⟩
    exact ⟨item, TagBody.mem_consSpace_of_mem hitem, htakes⟩
  | case7 start token pieces _ attr ih =>
    obtain ⟨-, -, hrest⟩ := htiles
    obtain ⟨-, hafter⟩ := (passes_readAttribute token pieces).tiles hrest
    rcases takes_readAttribute h hrest (by simpa using hmem) with hbehind | htakes
    · exact (ih hafter hbehind).imp_right List.exists_mem_cons_of_exists
    · exact Or.inr ⟨_, List.mem_cons_self, htakes⟩
  | case8 start token pieces _ _ _ _ _ ih =>
    obtain ⟨-, -, hrest⟩ := htiles
    exact ih hrest (by simpa using hmem)

/-- **No tag is lost on the way to the leaves.** -/
theorem exists_takes (track : Bool) (h : .erb opening mark ending ∈ locatedPieces source)
    (htiles : Tiles start (pieces.map Piece.span) last)
    (hmem : .erb opening mark ending ∈ pieces) :
    ∃ segment ∈ segments track pieces, ∃ entry ∈ segment.leaves,
      entry.takes ⟨mark, ending.content?, ending.closing?⟩ = true := by
  fun_induction segments track pieces generalizing start with
  | case1 => cases hmem
  | case2 opening' mark' ending' pieces ih =>
    obtain ⟨-, -, hrest⟩ := htiles
    rcases List.mem_cons.1 hmem with heq | hmem
    · cases heq
      exact ⟨_, List.mem_cons_self, _, List.mem_cons_self, isMadeOf_erbTag opening mark ending⟩
    · exact List.exists_mem_cons_of_exists (ih hrest hmem)
  | case3 token pieces ih =>
    obtain ⟨-, -, hrest⟩ := htiles
    have hmem : .erb opening mark ending ∈ pieces := by simpa using hmem
    obtain ⟨-, hafter⟩ := (passes_next track token pieces).2.tiles hrest
    -- a tag behind this segment is left to the induction
    suffices hnow : .erb opening mark ending ∈ (next track token pieces).2
        ∨ ∃ entry ∈ (next track token pieces).1.leaves,
          entry.takes ⟨mark, ending.content?, ending.closing?⟩ = true by
      rcases hnow with hbehind | htaken
      · exact List.exists_mem_cons_of_exists (ih hafter hbehind)
      · exact ⟨_, List.mem_cons_self, htaken⟩
    rcases next_cases track token pieces with ⟨-, hnext⟩ | ⟨name, more, -, -, rfl, hnext⟩
      | ⟨name, stop, more, -, -, -, rfl, hnext⟩ | hnext
    · rw [hnext]
      exact (takes_readComment h hrest hmem).imp_right fun htakes =>
        ⟨_, List.mem_cons_self, htakes⟩
    · have hmore : .erb opening mark ending ∈ more := by simpa using hmem
      obtain ⟨-, -, htail⟩ := hrest
      rw [hnext]
      rcases exists_item_takes h htail hmore with hbehind | ⟨item, hitem, htakes⟩
      · exact Or.inl hbehind
      · exact Or.inr ⟨_, List.mem_map_of_mem hitem, htakes⟩
    · rw [hnext]
      exact Or.inl (by simpa using hmem)
    · rw [hnext]
      exact Or.inl hmem

end Segment

/-! ## 3. Nobody takes a tag twice -/

/-- What an entry can have inside is inside of it. -/
def Entry.Encloses : Entry → Prop
  | comment value =>
    value.span.start.LeadsTo value.content.start ∧ value.content.stop.LeadsTo value.span.stop
  | attr owner => ∀ value, owner.value = some value → value.quoted = true →
    owner.span.start.LeadsTo value.content.start ∧ value.content.stop.LeadsTo owner.span.stop
  | text _ | whitespace _ | element .. | erb _ => True

namespace Segment

open Piece

variable {source : List Char} {rest : List (Piece Token)}

theorem encloses_readComment {mark : Token} (h : (.markup mark :: rest) <:+ locatedPieces source) :
    (Entry.comment (readComment mark rest).1).Encloses := by
  obtain ⟨middle, -, hforward, htail⟩ := exists_tiles_of_suffix (tiles_locatedPieces source) h
  have hpasses := Passes.dropWhile mark.span.stop (fun piece => !piece.isMarkup .commentEnd) rest
  simp only [Entry.Encloses, readComment]
  split
  next closing behind hdrop =>
    rw [hdrop] at hpasses
    obtain ⟨-, hstart, hend, -⟩ := hpasses.tiles htail
    exact ⟨hforward.leadsTo, hstart ▸ hend.leadsTo⟩
  next => exact ⟨hforward.leadsTo, .refl _⟩

theorem leadsTo_readQuoted {quote : Token} {last : Point}
    (h : Tiles quote.span.stop (rest.map Piece.span) last) :
    (readQuoted quote rest).1.content.start = quote.span.stop
      ∧ (readQuoted quote rest).1.content.stop.LeadsTo (readQuoted quote rest).1.span.stop := by
  have hpasses := Passes.dropWhile quote.span.stop (fun piece => !closesQuote quote piece) rest
  simp only [readQuoted]
  split
  next closing behind hdrop =>
    rw [hdrop] at hpasses
    obtain ⟨-, hstart, hend, -⟩ := hpasses.tiles h
    exact ⟨rfl, hstart ▸ hend.leadsTo⟩
  next => exact ⟨rfl, .refl _⟩

theorem encloses_readAttribute {name : Token}
    (h : (.markup name :: rest) <:+ locatedPieces source) :
    (Entry.attr (readAttribute name rest).1).Encloses := by
  intro value hvalue hquoted
  rcases readAttribute_cases name rest with ⟨equals, quote, more, rfl, -, hread, hstop, -⟩
    | ⟨hbare, -⟩
  · obtain rfl : (readQuoted quote more).1 = value := Option.some.inj (hread.symm.trans hvalue)
    obtain ⟨middle, -, hname, hequals, hsign, hquote, hmark, htail⟩ :=
      exists_tiles_of_suffix (tiles_locatedPieces source) h
    obtain ⟨hcontent, hend⟩ := leadsTo_readQuoted htail
    rw [(start_readAttribute name _).2, hcontent, hstop]
    refine ⟨?_, hend⟩
    -- from the name over the equals sign to the quote
    have hfirst : name.span.start.LeadsTo equals.span.stop :=
      (hname.leadsTo.trans (hequals ▸ .refl _)).trans hsign.leadsTo
    exact (hfirst.trans (hquote ▸ .refl _)).trans hmark.leadsTo
  · rw [hbare value hvalue] at hquoted
    cases hquoted

theorem encloses_of_mem_segments (options : ParserOptions) (source : List Char) :
    ∀ segment ∈ options.segments source, ∀ entry ∈ segment.leaves,
      entry.Encloses :=
  forall_mem_leaves options.trackWhitespace
    (fun _ _ => trivial) (fun _ _ => trivial) (fun _ _ _ _ => trivial)
    (fun _ _ hsuffix => encloses_readComment hsuffix)
    (fun _ _ hsuffix => encloses_readAttribute hsuffix)

end Segment

/-- **An entry that takes a tag covers it.** -/
theorem Entry.covers_of_takes {source : List Char} {opening : Opening} {mark : Token}
    {ending : Ending Token} {entry : Entry} (h : .erb opening mark ending ∈ locatedPieces source)
    (hencloses : entry.Encloses)
    (htakes : entry.takes ⟨mark, ending.content?, ending.closing?⟩ = true) :
    entry.span.start.offset ≤ (Piece.erb opening mark ending).start.offset
      ∧ (Piece.erb opening mark ending).stop.offset ≤ entry.span.stop.offset := by
  cases entry with
  | text span => cases htakes
  | whitespace span => cases htakes
  | element info count => cases htakes
  | comment value =>
    obtain ⟨hstart, hstop⟩ := (Piece.isInside_iff h value.content).1 htakes
    exact ⟨hencloses.1.offset_le.trans hstart, hstop.trans hencloses.2.offset_le⟩
  | attr owner =>
    obtain ⟨value, hvalue, hinside⟩ := (Option.any_eq_true _ _).1 htakes
    rw [Bool.and_eq_true] at hinside
    obtain ⟨hbefore, hbehind⟩ := hencloses value hvalue hinside.1
    obtain ⟨hstart, hstop⟩ := (Piece.isInside_iff h value.content).1 hinside.2
    exact ⟨hbefore.offset_le.trans hstart, hstop.trans hbehind.offset_le⟩
  | erb tag =>
    have hmade := Segment.isMadeOf_erbTag opening mark ending
    simp only [takes, ErbTag.isMadeOf, Bool.and_eq_true, beq_iff_eq] at htakes hmade
    have hspan : tag.span = (Piece.erb opening mark ending).span := by
      rw [← Segment.span_erbTag, ErbTag.span, ErbTag.span, htakes.1.1, htakes.1.2, htakes.2,
        hmade.1.1, hmade.1.2, hmade.2]
    show tag.span.start.offset ≤ _ ∧ _ ≤ tag.span.stop.offset
    rw [hspan]
    exact ⟨Nat.le_refl _, Nat.le_refl _⟩

theorem countP_eq_one {α : Type} {row : List α} {p : α → Bool}
    (h : row.Pairwise fun first second => ¬ (p first = true ∧ p second = true))
    (hsome : ∃ item ∈ row, p item = true) : row.countP p = 1 := by
  induction row with
  | nil =>
    obtain ⟨item, hmem, -⟩ := hsome
    cases hmem
  | cons first row ih =>
    obtain ⟨hfirst, hrest⟩ := List.pairwise_cons.1 h
    by_cases hp : p first = true
    · have hnone : row.countP p = 0 :=
        List.countP_eq_zero.2 fun item hmem hitem => hfirst item hmem ⟨hp, hitem⟩
      rw [List.countP_cons_of_pos hp, hnone]
    · rw [List.countP_cons_of_neg hp]
      refine ih hrest ?_
      obtain ⟨item, hmem, hitem⟩ := hsome
      rcases List.mem_cons.1 hmem with rfl | hmem
      · exact absurd hitem hp
      · exact ⟨item, hmem, hitem⟩

/-! ## 4. Documents -/

namespace Document

variable {source : List Char} {opening : Opening} {mark : Token} {ending : Ending Token}

theorem covers_of_takes {options : ParserOptions} {entry : Entry}
    (h : .erb opening mark ending ∈ locatedPieces source)
    (hentry : entry ∈ (ofSource options source).leaves)
    (htakes : entry.takes ⟨mark, ending.content?, ending.closing?⟩ = true) :
    entry.span.start.offset ≤ (Piece.erb opening mark ending).start.offset
      ∧ (Piece.erb opening mark ending).stop.offset ≤ entry.span.stop.offset := by
  have hall := forall_mem_leaves_ofSource (P := Entry.Encloses) (fun _ _ _ _ => trivial)
    (Segment.encloses_of_mem_segments options source)
  exact Entry.covers_of_takes h (hall entry hentry) htakes

theorem exists_leaf_takes (options : ParserOptions)
    (h : .erb opening mark ending ∈ locatedPieces source) :
    ∃ entry ∈ (ofSource options source).leaves,
      entry.takes ⟨mark, ending.content?, ending.closing?⟩ = true := by
  obtain ⟨segment, hsegment, entry, hentry, htakes⟩ :=
    Segment.exists_takes options.trackWhitespace h (tiles_locatedPieces source) h
  refine ⟨entry, mem_leaves_ofSource hsegment ?_ hentry, htakes⟩
  rintro span rfl
  cases htakes

theorem countP_takes_ofSource (options : ParserOptions)
    (h : .erb opening mark ending ∈ locatedPieces source) :
    (ofSource options source).entries.countP
      (Entry.takes ⟨mark, ending.content?, ending.closing?⟩) = 1 := by
  have hpiece : (Piece.erb opening mark ending).start.offset
      < (Piece.erb opening mark ending).stop.offset := by
    obtain ⟨front, back, hsplit⟩ := List.append_of_mem h
    have htiles := tiles_locatedPieces source
    rw [hsplit, List.map_append] at htiles
    obtain ⟨middle, -, -, hforward, -⟩ := tiles_append_iff.1 htiles
    exact hforward.offset_lt
  have hleaves : (ofSource options source).leaves.countP
      (Entry.takes ⟨mark, ending.content?, ending.closing?⟩) = 1 := by
    refine countP_eq_one ?_ (exists_leaf_takes options h)
    have hapart := List.pairwise_map.1 (ascends_leaves_ofSource options source).pairwise
    refine hapart.imp_of_mem ?_
    rintro first second hfirst hsecond hleads ⟨htakes, htakes'⟩
    -- both cover the tag, but the second begins behind the first
    obtain ⟨-, hstop⟩ := covers_of_takes h hfirst htakes
    obtain ⟨hstart, -⟩ := covers_of_takes h hsecond htakes'
    have hle := hleads.offset_le
    omega
  rw [leaves, Entry.leaves, List.countP_filter] at hleaves
  rw [← hleaves]
  refine List.countP_congr fun entry _ => ?_
  cases entry <;> simp [Entry.takes, Entry.isElement]

theorem exists_piece_of_mem_erbTags {options : ParserOptions} {tag : ErbTag}
    (h : tag ∈ (ofSource options source).erbTags) :
    ∃ opening mark ending, .erb opening mark ending ∈ locatedPieces source
      ∧ tag = Segment.erbTag opening mark ending := by
  have hall : ∀ entry ∈ (ofSource options source).leaves, ∀ tag, entry = .erb tag →
      ∃ opening mark ending, .erb opening mark ending ∈ locatedPieces source
        ∧ tag = Segment.erbTag opening mark ending := by
    refine forall_mem_leaves_ofSource (fun _ _ _ _ _ heq => by cases heq) ?_
    refine Segment.forall_mem_leaves options.trackWhitespace ?_ ?_ ?_ ?_ ?_
    · intro token _ tag heq
      cases heq
    · intro token _ tag heq
      cases heq
    · intro opening mark ending hpiece tag heq
      cases heq
      exact ⟨opening, mark, ending, hpiece, rfl⟩
    · intro mark rest _ tag heq
      cases heq
    · intro name rest _ tag heq
      cases heq
  exact hall _ (mem_leaves_of_mem_erbTags h) tag rfl

/-- A tag without a closing goes to the end of the source. -/
theorem stop_of_unclosed (h : .erb opening mark ending ∈ locatedPieces source)
    (hnone : (Segment.erbTag opening mark ending).closing = none) :
    (Segment.erbTag opening mark ending).span.stop = Point.origin.advance source := by
  have hopen : (Piece.erb opening mark ending).isClosed = false :=
    (Segment.unclosed_erbTag_iff opening mark ending).1 hnone
  obtain ⟨front, back, hsplit⟩ := List.append_of_mem h
  have hlast := (openLast_locatedPieces source).suffix ⟨front, hsplit.symm⟩
  have htiles := tiles_locatedPieces source
  rw [hsplit, hlast.1 hopen, List.map_append] at htiles
  obtain ⟨middle, -, -, -, hstop⟩ := tiles_append_iff.1 htiles
  rw [Segment.span_erbTag]
  exact hstop

end Document

theorem Entry.takes_plain (tokens : TagTokens) (entry : Entry) :
    entry.plain.takes tokens = entry.takes tokens := by
  cases entry <;> rfl

theorem countP_takes_parsed (source : List Char) (options : ParserOptions) (tokens : TagTokens) :
    (parsed source options).entries.countP (Entry.takes tokens)
      = (Document.ofSource options source).entries.countP (Entry.takes tokens) := by
  have hplain : ∀ entries : List Entry,
      entries.countP (Entry.takes tokens)
        = (entries.map Entry.plain).countP (Entry.takes tokens) := by
    intro entries
    rw [List.countP_map]
    exact List.countP_congr fun entry _ => by rw [Function.comp, Entry.takes_plain]
  rw [hplain, plain_entries_parsed, ← hplain]

theorem text_mem_of_mem_parsed {source : List Char} {options : ParserOptions} {span : Span}
    (h : .text span ∈ (parsed source options).entries) :
    .text span ∈ (Document.ofSource options source).leaves := by
  obtain ⟨other, hother, hplain⟩ := exists_plain_of_mem_entries h
  cases other with
  | text span' =>
    cases hplain
    exact List.mem_filter.2 ⟨hother, rfl⟩
  | whitespace span' => cases hplain
  | element info count => cases hplain
  | attr value => cases hplain
  | comment value => cases hplain
  | erb tag => cases hplain

theorem exists_erb_of_isErb {source : List Char} {token : Token} (h : token ∈ tokens source)
    (herb : token.kind.isErb = true) :
    ∃ opening mark ending, .erb opening mark ending ∈ locatedPieces source
      ∧ token ∈ (Piece.erb opening mark ending).parts := by
  rcases List.mem_append.1 h with hmem | hmem
  · obtain ⟨piece, hpiece, htoken⟩ := List.mem_flatMap.1 hmem
    cases piece with
    | markup other =>
      have hkind := typed_of_mem_locatedPieces hpiece
      rw [List.mem_singleton.1 htoken] at herb
      rw [Piece.Typed, herb] at hkind
      cases hkind
    | erb opening mark ending => exact ⟨opening, mark, ending, hpiece, htoken⟩
  · rw [List.mem_singleton.1 hmem] at herb
    cases herb

/-- One of two entries ends before the other begins. -/
def Entry.Apart (first second : Entry) : Prop :=
  first.span.stop.offset ≤ second.span.start.offset
    ∨ second.span.stop.offset ≤ first.span.start.offset

instance : Std.Symm Entry.Apart where
  symm _ _ := Or.symm

/-- Texts and ERB tags stand apart, since whatever takes the tag stands apart from the text. -/
theorem apart_of_text {source : List Char} {options : ParserOptions} {opening : Opening}
    {mark : Token} {ending : Ending Token} {span : Span}
    (hpiece : .erb opening mark ending ∈ locatedPieces source)
    (htext : .text span ∈ (Document.ofSource options source).leaves) :
    (Piece.erb opening mark ending).stop.offset ≤ span.start.offset
      ∨ span.stop.offset ≤ (Piece.erb opening mark ending).start.offset := by
  obtain ⟨entry, hentry, htakes⟩ := Document.exists_leaf_takes options hpiece
  obtain ⟨hstart, hstop⟩ := Document.covers_of_takes hpiece hentry htakes
  have hapart : (Document.ofSource options source).leaves.Pairwise Entry.Apart := by
    refine (List.pairwise_map.1 (Document.ascends_leaves_ofSource options source).pairwise).imp ?_
    intro first second hleads
    exact Or.inl hleads.offset_le
  have hne : entry ≠ .text span := by
    rintro rfl
    cases htakes
  rcases hapart.forall hentry htext hne with hle | hle
  · exact Or.inl (hstop.trans hle)
  · exact Or.inr (hle.trans hstart)

theorem unclosed_iff_of_mem_erbTags {source : List Char} {options : ParserOptions} {tag : ErbTag}
    (h : tag ∈ (parsed source options).erbTags) :
    (∃ issue ∈ tag.issues, issue.kind = .unclosedErbTag) ↔ tag.closing = none := by
  obtain ⟨base, hbase, hplain, added, hissues, hadded⟩ := exists_base_of_mem_erbTags h
  obtain ⟨opening, mark, ending, -, rfl⟩ := Document.exists_piece_of_mem_erbTags hbase
  have hclosing : tag.closing = ending.closing?.map Token.span := congrArg ErbTag.closing hplain
  rw [hissues, hclosing]
  constructor
  · rintro ⟨issue, hmem, hkind⟩
    rcases List.mem_append.1 hmem with hmem | hmem
    · cases ending with
      | bare => rfl
      | running content => rfl
      | closed content closing => cases hmem
    · have hnone := hadded issue hmem
      rw [Issue.fromAnalysis, hkind] at hnone
      cases hnone
  · intro hnone
    cases ending with
    | bare => exact ⟨_, List.mem_append_left _ List.mem_cons_self, rfl⟩
    | running content => exact ⟨_, List.mem_append_left _ List.mem_cons_self, rfl⟩
    | closed content closing => cases hnone

theorem closing_ne_none_of_mem_dropLast {source : List Char} {options : ParserOptions}
    {tag : ErbTag} (h : tag ∈ (parsed source options).erbTags.dropLast) : tag.closing ≠ none := by
  intro hnone
  have hmem := List.dropLast_subset _ h
  obtain ⟨base, hbase, hplain, -⟩ := exists_base_of_mem_erbTags hmem
  obtain ⟨opening, mark, ending, hpiece, rfl⟩ := Document.exists_piece_of_mem_erbTags hbase
  have hclosing : (Segment.erbTag opening mark ending).closing = none :=
    (congrArg ErbTag.closing hplain).symm.trans hnone
  have hspan : tag.span = (Segment.erbTag opening mark ending).span := by
    show tag.plain.span = (Segment.erbTag opening mark ending).plain.span
    rw [hplain]
  have hend : tag.span.stop = Point.origin.advance source :=
    (congrArg Span.stop hspan).trans (Document.stop_of_unclosed hpiece hclosing)
  -- the last tag would begin where the source ends
  have hne : (parsed source options).erbTags ≠ [] := List.ne_nil_of_mem hmem
  have hpairs := pairwise_erbTags_parsed source options
  rw [← List.dropLast_append_getLast hne] at hpairs
  have hleads := (List.pairwise_append.1 hpairs).2.2 tag h _ (List.mem_singleton.2 rfl)
  obtain ⟨hforward, hinside⟩ := span_of_mem_erbTags (List.getLast_mem hne)
  have hlt := hforward.offset_lt
  have hle := hleads.offset_le
  have hle' := hinside.offset_le
  rw [hend] at hle
  omega

/-- **Every ERB tag of a source is accounted for in the tree exactly once.** -/
theorem erb_tags_accounted_for (source : List Char) (options : ParserOptions) (memory : Memory)
    (document : Document) (h : (parse source options).outcome memory = .ok document) :
    ∃ list, (lex source).outcome memory = .ok list ∧ ErbAccount list.toList document := by
  obtain ⟨list, hlist⟩ := exists_lex_of_parse h
  refine ⟨list, hlist, ?_⟩
  rw [toList_of_lex hlist, eq_parsed_of_parse h]
  constructor
  · intro tokens hmem
    obtain ⟨opening, mark, ending, hpiece, rfl⟩ := mem_ofRow_tokens_iff.1 hmem
    rw [countP_takes_parsed]
    exact Document.countP_takes_ofSource options hpiece
  · intro tag hmem
    obtain ⟨base, hbase, hplain, -⟩ := exists_base_of_mem_erbTags hmem
    obtain ⟨opening, mark, ending, hpiece, rfl⟩ := Document.exists_piece_of_mem_erbTags hbase
    refine ⟨_, mem_ofRow_tokens_iff.2 ⟨opening, mark, ending, hpiece, rfl⟩, ?_⟩
    have hmade := congrArg (ErbTag.isMadeOf ⟨mark, ending.content?, ending.closing?⟩) hplain
    exact hmade.trans (Segment.isMadeOf_erbTag opening mark ending)
  · intro token hmem herb span htext
    obtain ⟨opening, mark, ending, hpiece, hpart⟩ := exists_erb_of_isErb hmem herb
    obtain ⟨hstart, hstop⟩ := Piece.offset_of_mem_parts hpiece hpart
    rcases apart_of_text hpiece (text_mem_of_mem_parsed htext) with hle | hle
    · exact Or.inl (hstop.trans hle)
    · exact Or.inr (hle.trans hstart)
  · intro tag hmem
    exact unclosed_iff_of_mem_erbTags hmem
  · intro tag hmem
    exact closing_ne_none_of_mem_dropLast hmem

/-- One tag in a comment, one in a quoted value, and one that is cut off behind its opening. -/
theorem erb_tags_accounted_for_three_ways :
    ∃ list document,
      (parse "<!--<%a%>--><p b='<%c%>'><%".toList {}).outcome .standard = .ok document
        ∧ (lex "<!--<%a%>--><p b='<%c%>'><%".toList).outcome .standard = .ok list
        ∧ (TagTokens.ofRow list.toList).length = 3
        ∧ document.erbTags.length = 1
        ∧ ErbAccount list.toList document := by
  have hlex : ∃ list, (lex "<!--<%a%>--><p b='<%c%>'><%".toList).outcome .standard = .ok list :=
    exists_lex (by decide) (Memory.grantsUpTo_standard (by decide))
  obtain ⟨_, hlist⟩ := hlex
  have hparse := outcome_parse {} hlist
  obtain ⟨list, hlist, haccount⟩ := erb_tags_accounted_for _ _ _ _ hparse
  refine ⟨list, _, hparse, hlist, ?_, by decide +kernel, haccount⟩
  rw [toList_of_lex hlist]
  decide +kernel

end ErbTemplate
