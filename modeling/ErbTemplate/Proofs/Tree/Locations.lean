import ErbTemplate.Proofs.Token.Pieces
import ErbTemplate.Proofs.Tree.Annotation
import ErbTemplate.Proofs.Tree.Origins

/-!
# Reported locations are true

Every report gives byte ranges for names and contents, and a line and a column for where a node
begins and ends. The two are not independent: the location of a node can be read off its ranges and
the source, with `positionAt?`. `Entry.Located` says how, kind by kind. A comment begins four bytes
before its content and ends three bytes behind it, a closing tag begins two bytes before its name,
and so on.

No reader computes a position. Each copies the points of tokens, and a point of a token lies in the
source (`liesIn_of_mem_tokens`). What is left to show are distances in bytes, and these are the
widths of marks and the fact that tokens touch.

A location is a pair of words of 32 bits, so `positionAt?` is the line and column counted in words.
That these are the true ones is a question of size, and settled apart (`positionAt?_exact`).
-/

set_option autoImplicit false

namespace ErbTemplate

open Text

/-! ## 1. The rule for each kind of node -/

/-- A stretch is reported at the lines and columns of its bytes. -/
def Span.Located (source : List Char) (span : Span) : Prop :=
  positionAt? source span.range.start = some span.location.start
    ∧ positionAt? source span.range.stop = some span.location.stop

/-- An ERB tag goes from its opening to its closing, or to the end of its content. -/
def ErbTag.Located (source : List Char) (tag : ErbTag) : Prop :=
  positionAt? source tag.mark.range.start = some tag.span.location.start
    ∧ positionAt? source (tag.closing.getD tag.content).range.stop = some tag.span.location.stop

/-- A comment has four bytes before its content, and three behind it unless it is unclosed. -/
def Comment.Located (source : List Char) (value : Comment) : Prop :=
  4 ≤ value.content.range.start
    ∧ positionAt? source (value.content.range.start - 4) = some value.span.location.start
    ∧ positionAt? source
        (if value.issues.any fun issue => issue.kind == .unclosedComment then
          value.content.range.stop
        else value.content.range.stop + 3)
      = some value.span.location.stop

/-- An opening tag begins one byte before its name. -/
def OpenTag.Located (source : List Char) (tag : OpenTag) : Prop :=
  1 ≤ tag.name.range.start
    ∧ positionAt? source (tag.name.range.start - 1) = some tag.span.location.start

/-- A closing tag goes from two bytes before its name to one byte behind it. -/
def CloseTag.Located (source : List Char) (tag : CloseTag) : Prop :=
  2 ≤ tag.name.range.start
    ∧ positionAt? source (tag.name.range.start - 2) = some tag.span.location.start
    ∧ positionAt? source (tag.name.range.stop + 1) = some tag.span.location.stop

/-- A value between quotes begins one byte before its content. -/
def AttributeValue.Located (source : List Char) (value : AttributeValue) : Prop :=
  1 ≤ value.content.range.start
    ∧ positionAt? source (value.content.range.start - 1) = some value.span.location.start

/-- An attribute begins with its name. -/
def Attribute.Located (source : List Char) (attr : Attribute) : Prop :=
  positionAt? source attr.name.range.start = some attr.span.location.start
    ∧ ∀ value, attr.value = some value → value.quoted = true → value.Located source

/-- The location of a node is that of its ranges. -/
def Entry.Located (source : List Char) : Entry → Prop
  | text span | whitespace span => span.Located source
  | erb tag => tag.Located source
  | comment value => value.Located source
  | attr value => value.Located source
  | element info _ =>
    info.openTag.Located source ∧ ∀ tag, info.closeTag = some tag → tag.Located source

theorem Point.LiesIn.positionAt?_of_offset {point : Point} {source : List Char} {offset : Nat}
    (h : point.LiesIn source) (hoffset : offset = point.offset) :
    positionAt? source offset = some point.position :=
  hoffset ▸ h.positionAt?_eq

/-- Counting back from a later point by the bytes between the two. -/
theorem Point.LiesIn.positionAt?_before {point later : Point} {source : List Char} {width : Nat}
    (h : point.LiesIn source) (hwidth : later.offset = point.offset + width) :
    width ≤ later.offset ∧ positionAt? source (later.offset - width) = some point.position := by
  refine ⟨hwidth ▸ Nat.le_add_left width _, h.positionAt?_of_offset ?_⟩
  rw [hwidth, Nat.add_sub_cancel]

/-! ## 2. Segments -/

namespace Segment

variable {source : List Char} {rest : List (Piece Token)}

theorem located_span {token : Token} (h : token ∈ tokens source) : token.span.Located source :=
  ⟨(liesIn_of_mem_tokens h).1.positionAt?_eq, (liesIn_of_mem_tokens h).2.positionAt?_eq⟩

theorem liesIn_stopOfAll {start : Point} (hstart : start.LiesIn source)
    (h : ∀ piece ∈ rest, piece ∈ locatedPieces source) :
    (Piece.stopOfAll start rest).LiesIn source := by
  induction rest generalizing start with
  | nil => exact hstart
  | cons piece rest ih =>
    obtain ⟨hpiece, hothers⟩ := List.forall_mem_cons.1 h
    rw [Piece.stopOfAll_cons]
    exact ih (Piece.liesIn_stop hpiece) hothers

theorem located_erbTag {opening : Opening} {mark : Token} {ending : Ending Token}
    (h : .erb opening mark ending ∈ locatedPieces source) :
    (erbTag opening mark ending).Located source := by
  have hspan := span_erbTag opening mark ending
  have hstart : (erbTag opening mark ending).span.start.LiesIn source := by
    rw [hspan]
    exact Piece.liesIn_start h
  have hstop : (erbTag opening mark ending).span.stop.LiesIn source := by
    rw [hspan]
    exact Piece.liesIn_stop h
  exact ⟨hstart.positionAt?_eq, hstop.positionAt?_eq⟩

theorem located_readComment {mark : Token} (h : (.markup mark :: rest) <:+ locatedPieces source)
    (hkind : mark.kind = .commentStart) : (readComment mark rest).1.Located source := by
  have hmem : ∀ piece ∈ rest, piece ∈ locatedPieces source :=
    fun piece hpiece => h.subset (List.mem_cons_of_mem _ hpiece)
  have hmark := mem_tokens_of_markup (h.subset List.mem_cons_self)
  obtain ⟨hstart, hstop⟩ := liesIn_of_mem_tokens hmark
  have hfour : mark.span.stop.offset = mark.span.start.offset + 4 :=
    offset_stop_of_width? hmark (by rw [hkind]; rfl)
  obtain ⟨hroom, hbefore⟩ := hstart.positionAt?_before hfour
  obtain ⟨middle, -, -, htiles⟩ := Piece.exists_tiles_of_suffix (tiles_locatedPieces source) h
  have hpasses := Piece.Passes.dropWhile mark.span.stop
    (fun piece => !piece.isMarkup .commentEnd) rest
  have hinside : (Piece.stopOfAll mark.span.stop
      (rest.takeWhile fun piece => !piece.isMarkup .commentEnd)).LiesIn source :=
    liesIn_stopOfAll hstop fun piece hpiece => hmem piece ((List.takeWhile_subset _) hpiece)
  simp only [readComment]
  split
  next closing more hmore =>
    -- the end mark is a token of three bytes that begins where the content ends
    rw [hmore] at hpasses
    obtain ⟨-, hbegin, -, -⟩ := hpasses.tiles htiles
    have hclosing : closing ∈ locatedPieces source :=
      hmem closing ((List.dropWhile_subset _) (hmore ▸ List.mem_cons_self))
    have hend : closing.isMarkup .commentEnd = true := by
      have hhead := List.head?_dropWhile_not (fun piece => !Piece.isMarkup .commentEnd piece) rest
      rw [hmore] at hhead
      simpa using hhead
    cases closing with
    | erb opening mark ending => cases hend
    | markup token =>
      have htoken := mem_tokens_of_markup hclosing
      have hthree : token.span.stop.offset = token.span.start.offset + 3 :=
        offset_stop_of_width? htoken (by rw [beq_iff_eq.1 hend]; rfl)
      have hsame : token.span.start = Piece.stopOfAll mark.span.stop
          (rest.takeWhile fun piece => !piece.isMarkup .commentEnd) := hbegin
      rw [hsame] at hthree
      exact ⟨hroom, hbefore,
        (liesIn_of_mem_tokens htoken).2.positionAt?_of_offset hthree.symm⟩
  next => exact ⟨hroom, hbefore, hinside.positionAt?_eq⟩

theorem located_readAttribute {name : Token} (h : (.markup name :: rest) <:+ locatedPieces source) :
    (readAttribute name rest).1.Located source := by
  obtain ⟨hname, hstart⟩ := start_readAttribute name rest
  have htoken := mem_tokens_of_markup (h.subset List.mem_cons_self)
  refine ⟨?_, fun value hvalue hquoted => ?_⟩
  · rw [hname]
    exact (liesIn_of_mem_tokens htoken).1.positionAt?_eq.trans
      (congrArg (fun point => some point.position) hstart.symm)
  · rcases readAttribute_cases name rest with ⟨equals, quote, more, rfl, hkind, hread, -⟩
      | ⟨hbare, -⟩
    · have hquote : quote ∈ tokens source :=
        mem_tokens_of_markup (h.subset (by simp))
      have hone : quote.span.stop.offset = quote.span.start.offset + 1 :=
        offset_stop_of_width? hquote (by rw [hkind]; rfl)
      have hcontent : value.content.start = quote.span.stop
          ∧ value.span.start = quote.span.start := by
        obtain rfl : (readQuoted quote more).1 = value := Option.some.inj (hread.symm.trans hvalue)
        unfold readQuoted
        simp only
        split <;> exact ⟨rfl, rfl⟩
      show 1 ≤ value.content.start.offset
        ∧ positionAt? source (value.content.start.offset - 1) = some value.span.start.position
      rw [hcontent.1, hcontent.2]
      exact (liesIn_of_mem_tokens hquote).1.positionAt?_before hone
    · rw [hbare value hvalue] at hquoted
      cases hquoted

/-- What a segment reports, and what is reported of the items of an opening tag. -/
def Located (source : List Char) : Segment → Prop
  | text token => token.span.Located source
  | erb tag => tag.Located source
  | comment value => value.Located source
  | openTag _ tag _ =>
    tag.Located source ∧ ∀ item ∈ tag.items, (Entry.ofItem item).Located source
  | closeTag _ tag => tag.Located source

theorem located_readOpenTag {track : Bool} {mark name : Token}
    (h : (.markup mark :: .markup name :: rest) <:+ locatedPieces source)
    (hkind : mark.kind = .tagStart) : (readOpenTag track mark name rest).1.Located source := by
  have hmark := mem_tokens_of_markup (h.subset List.mem_cons_self)
  have hone : mark.span.stop.offset = mark.span.start.offset + 1 :=
    offset_stop_of_width? hmark (by rw [hkind]; rfl)
  obtain ⟨middle, -, -, hbegin, -, -⟩ :=
    Piece.exists_tiles_of_suffix (tiles_locatedPieces source) h
  have hname : name.span.start.offset = mark.span.start.offset + 1 :=
    (congrArg Point.offset hbegin).trans hone
  have htail : rest <:+ locatedPieces source :=
    ((List.suffix_cons _ _).trans (List.suffix_cons _ _)).trans h
  refine ⟨(liesIn_of_mem_tokens hmark).1.positionAt?_before hname, ?_⟩
  exact forall_mem_items (fun _ _ _ hmem => located_erbTag hmem)
    (fun _ hmem => located_span (mem_tokens_of_markup hmem))
    (fun _ _ hsuffix _ => located_readAttribute hsuffix) _ htail

theorem located_closeTag {mark name stop : Token}
    (h : (.markup mark :: .markup name :: .markup stop :: rest) <:+ locatedPieces source)
    (hmark : mark.kind = .tagStartClose) (hstop : stop.kind = .tagEnd) :
    CloseTag.Located source ⟨name.span, mark.span.start, stop.span.stop⟩ := by
  have hfirst : mark ∈ tokens source := mem_tokens_of_markup (h.subset (by simp))
  have hlast : stop ∈ tokens source := mem_tokens_of_markup (h.subset (by simp))
  have htwo : mark.span.stop.offset = mark.span.start.offset + 2 :=
    offset_stop_of_width? hfirst (by rw [hmark]; rfl)
  have hone : stop.span.stop.offset = stop.span.start.offset + 1 :=
    offset_stop_of_width? hlast (by rw [hstop]; rfl)
  obtain ⟨middle, -, -, hbegin, -, hend, -, -⟩ :=
    Piece.exists_tiles_of_suffix (tiles_locatedPieces source) h
  have hname : name.span.start.offset = mark.span.start.offset + 2 :=
    (congrArg Point.offset hbegin).trans htwo
  have hbehind : stop.span.stop.offset = name.span.stop.offset + 1 :=
    hone.trans (congrArg (fun point => point.offset + 1) hend)
  obtain ⟨hroom, hbefore⟩ := (liesIn_of_mem_tokens hfirst).1.positionAt?_before hname
  exact ⟨hroom, hbefore, (liesIn_of_mem_tokens hlast).2.positionAt?_of_offset hbehind.symm⟩

theorem located_of_mem_segments (options : ParserOptions) (source : List Char) :
    ∀ segment ∈ options.segments source, segment.Located source :=
  forall_mem_segments (fun _ hmem => located_span (mem_tokens_of_markup hmem))
    (fun _ _ _ hmem => located_erbTag hmem)
    (fun _ _ hsuffix hkind => located_readComment hsuffix hkind)
    (fun _ _ _ hsuffix hkind _ => located_readOpenTag hsuffix hkind)
    (fun _ _ _ _ hsuffix hmark hstop => located_closeTag hsuffix hmark hstop)
    (List.suffix_refl (locatedPieces source))

theorem located_leaves {segment : Segment} (h : segment.Located source) :
    ∀ entry ∈ segment.leaves, entry.Located source := by
  cases segment with
  | text token => exact List.forall_mem_singleton.2 h
  | erb tag => exact List.forall_mem_singleton.2 h
  | comment value => exact List.forall_mem_singleton.2 h
  | openTag name tag terminated =>
    intro entry hmem
    obtain ⟨item, hitem, rfl⟩ := List.mem_map.1 hmem
    exact h.2 item hitem
  | closeTag name tag =>
    intro entry hmem
    cases hmem

end Segment

/-! ## 3. Documents -/

theorem ElementInfo.Made.located {source : List Char} {options : ParserOptions} {info : ElementInfo}
    (h : info.Made options (options.segments source)) (count : Nat) :
    (Entry.element info count).Located source := by
  have hsegments := Segment.located_of_mem_segments options source
  cases h with
  | atOnce hopen => exact ⟨(hsegments _ hopen).1, fun tag htag => (by cases htag)⟩
  | ended hopen => exact ⟨(hsegments _ hopen).1, fun tag htag => (by cases htag)⟩
  | closed hopen hclose =>
    refine ⟨(hsegments _ hopen).1, fun tag htag => ?_⟩
    cases htag
    exact hsegments _ hclose

theorem Entry.located_plain_iff {source : List Char} {entry : Entry} :
    entry.plain.Located source ↔ entry.Located source := by
  cases entry <;> exact Iff.rfl

theorem located_of_mem_entries {source : List Char} {options : ParserOptions} {entry : Entry}
    (h : entry ∈ (parsed source options).entries) : entry.Located source := by
  obtain ⟨other, hother, hplain⟩ := exists_plain_of_mem_entries h
  have hlocated : other.Located source := by
    refine Document.forall_mem_entries_ofSource ?_ ?_ ?_ other hother
    · intro first second hfirst hsecond
      exact ⟨hfirst.1, hsecond.2⟩
    · intro segment hmem
      exact Segment.located_leaves (Segment.located_of_mem_segments options source segment hmem)
    · intro info count hmade
      exact hmade.located count
  rw [← Entry.located_plain_iff, ← hplain, Entry.located_plain_iff]
  exact hlocated

/-- A place that fits into words of 32 bits is told as it is; where the bytes of a source can be
    counted in 32 bits, that is every place but the end of a source of nothing but newlines, which
    is told as line zero. -/
theorem positionAt?_exact {source : List Char} (hbytes : byteLength source < 2 ^ 32)
    (offset : Nat) :
    (positionAt? source offset).map Position.toPlace = placeAt? source offset
      ∨ (AllNewlines source ∧ offset = byteLength source
        ∧ positionAt? source offset = some ⟨0, 0⟩) := by
  cases hplace : placeAt? source offset with
  | none =>
    left
    rw [positionAt?, hplace]
    rfl
  | some place =>
    obtain ⟨point, ⟨front, back, rfl, rfl⟩, rfl, rfl⟩ := exists_liesIn_of_placeAt? hplace
    have hbefore : (Point.origin.advance front).LeadsTo (Point.origin.advance (front ++ back)) :=
      ⟨back, Point.advance_append _ _ _⟩
    rcases Point.fits_or_allNewlines ⟨front, rfl⟩ hbefore hbytes with hfits | ⟨hall, hend⟩
    · left
      rw [positionAt?, hplace]
      exact congrArg some hfits.toPlace_position
    · right
      rw [hend, Point.offset_advance_origin]
      exact ⟨hall, rfl, positionAt?_of_allNewlines hall⟩

end ErbTemplate
