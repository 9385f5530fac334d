import ErbTemplate.Snapshot
import ErbTemplate.Proofs.Tree.Ranges
import ErbTemplate.Proofs.Tree.Siblings
import ErbTemplate.Proofs.Tree.TagEnds
import Mathlib.Data.List.Sort

/-!
# What stands where

Nodes and the items of opening tags are of different types, so much of what a reader of a tree may
rely on cannot be otherwise. What the types leave open is said here (`Document.Placed`):

* white space is among the items of an opening tag only where it was asked for, and then it is all
  the white space of the tag outside of its quoted values and ERB tags, in order;
* a text is not empty and has no `<%` in it;
* texts that follow each other do not touch.

An item of white space is a token, and its neighbours in the tag are apart from it. For the converse
it is enough to know what the reader of the tag makes of each token (`Segment.TagBody.Takes`): of
white space outside of quoted values it can only make an item. Both lists ascend, so that they have
the same members is all that is needed to make them equal.
-/

set_option autoImplicit false

namespace ErbTemplate

open Text

/-! ## 1. The rules -/

/-- The names of the types of nodes that a document or an element can have as children. -/
def contentTypeNames : List String :=
  ["AST_HTML_TEXT_NODE", "AST_HTML_ELEMENT_NODE", "AST_HTML_COMMENT_NODE", "AST_ERB_CONTENT_NODE"]

/-- The names of the types of nodes that an opening tag can have as children. -/
def ParserOptions.itemTypeNames (options : ParserOptions) : List String :=
  ["AST_HTML_ATTRIBUTE_NODE", "AST_ERB_CONTENT_NODE"]
    ++ if options.trackWhitespace then ["AST_WHITESPACE_NODE"] else []

/-- The span of an item that is white space. -/
def TagItem.whitespace? : TagItem → Option Span
  | whitespace span => some span
  | attr _ | erb _ => none

/-- The stretch inside of an item in which white space does not belong to the tag. -/
def TagItem.closed? : TagItem → Option Span
  | attr owner => (owner.value.filter AttributeValue.quoted).map AttributeValue.content
  | erb tag => some tag.span
  | whitespace _ => none

/-- Whether two spans have no byte in common. -/
def Span.isApart (first second : Span) : Bool :=
  decide (first.range.stop ≤ second.range.start ∨ second.range.stop ≤ first.range.start)

/-- Whether a token is white space of an opening tag, outside of its quoted values and ERB tags. -/
def OpenTag.ownsSpace (tag : OpenTag) (token : Token) : Bool :=
  token.kind.isSpace
    && decide (tag.span.range.start ≤ token.range.start ∧ token.range.stop ≤ tag.span.range.stop)
    && (tag.items.filterMap TagItem.closed?).all token.span.isApart

/-- The items of white space of an opening tag are all the white space that it has of its own. -/
def OpenTag.ShowsSpace (row : List Token) (tag : OpenTag) : Prop :=
  tag.items.filterMap TagItem.whitespace? = (row.filter tag.ownsSpace).map Token.span

/-- A text of the source without an ERB opening in it. -/
def Span.IsPlainText (source : List Char) (span : Span) : Prop :=
  ∃ text, span.range.slice? source = some text ∧ text ≠ []
    ∧ ∀ offset, ¬ OccursAt openMark text offset

/-- Everything in a document is where it belongs. -/
structure Document.Placed (row : List Token) (source : List Char) (options : ParserOptions)
    (document : Document) : Prop where
  content : ∀ siblings ∈ document.siblings, ∀ node ∈ siblings,
    (NodeSnapshot.ofNode source node).typeName ∈ contentTypeNames
  items : ∀ info count, .element info count ∈ document.entries → ∀ item ∈ info.openTag.items,
    (NodeSnapshot.ofItem source item).typeName ∈ options.itemTypeNames
  texts : ∀ span, .text span ∈ document.entries → span.IsPlainText source
  parted : ∀ siblings ∈ document.siblings, siblings.IsChain (Node.Parted document.issues)
  space : options.trackWhitespace = true → ∀ info count, .element info count ∈ document.entries →
    info.openTag.ShowsSpace row

/-! ## 2. Texts -/

section

variable {source : List Char} {options : ParserOptions} {offset : Nat}

/-- **Where a `<%` stands, there is an ERB tag.** -/
theorem inErb_of_occursAt (h : OccursAt openMark source offset) : InErb (tokens source) offset := by
  by_contra hfree
  have htwo : byteLength openMark = 2 := by decide
  have hle := h.add_le
  obtain ⟨token, hmem, hfrom, hto⟩ := exists_markup_of_not_inErb (by omega) hfree
  have hrow : token ∈ Token.rowFrom (Point.origin.advance []) (lexemes source) := by
    have hpart : token ∈ (locatedPieces source).flatMap Piece.parts :=
      List.mem_flatMap.2 ⟨_, hmem, List.mem_cons_self⟩
    rwa [locatedPieces, Piece.flatMap_parts_locateAll] at hpart
  have hkind : token.kind.isErb = false := typed_of_mem_locatedPieces hmem
  have hapart := apart_of_mem_lexemes source [] token hrow hkind offset (Nat.zero_le _) h
  omega

/-- No byte of a text belongs to an ERB tag. -/
theorem not_inErb_of_text {span : Span} (h : .text span ∈ (Document.ofSource options source).leaves)
    (hholds : span.range.Holds offset) : ¬ InErb (tokens source) offset := by
  rintro ⟨token, hmem, herb, hfrom, hto⟩
  obtain ⟨opening, mark, ending, hpiece, hpart⟩ := exists_erb_of_isErb hmem herb
  obtain ⟨hstart, hstop⟩ := Piece.offset_of_mem_parts hpiece hpart
  have hapart := apart_of_text hpiece h
  simp only [Range.Holds, Token.range, Span.range] at hholds hfrom hto
  omega

theorem isPlainText_of_mem_entries {span : Span}
    (h : .text span ∈ (parsed source options).entries) : span.IsPlainText source := by
  have hleaf := text_mem_of_mem_parsed h
  obtain ⟨-, hforward, -⟩ :=
    (Document.ascends_leaves_ofSource options source).of_mem (List.mem_map_of_mem hleaf)
  have hlt : span.range.start < span.range.stop := hforward.offset_lt
  obtain ⟨front, text, back, hsource, hrange⟩ :=
    (cuttable_of_mem_stretches h List.mem_cons_self).exists_split
  refine ⟨text, ?_, ?_, ?_⟩
  · rw [hsource, hrange]
    exact between?_append front text back
  · rintro rfl
    rw [hrange] at hlt
    simp at hlt
  · rintro offset hoccurs
    have hle := hoccurs.add_le
    have htwo : byteLength openMark = 2 := by decide
    have hwhole : OccursAt openMark source (byteLength front + offset) := by
      obtain ⟨first, last, rfl, rfl⟩ := hoccurs
      exact ⟨front ++ first, last ++ back, by simp [hsource], byteLength_append front first⟩
    refine not_inErb_of_text hleaf ?_ (inErb_of_occursAt hwhole)
    rw [hrange]
    constructor <;> simp only <;> omega

end

/-! ## 3. White space of opening tags -/

theorem TokenKind.isErb_of_isSpace {kind : TokenKind} (h : kind.isSpace = true) :
    kind.isErb = false := by
  cases kind <;> first | rfl | cases h

/-- A span begins before another one. -/
def Span.Before (first second : Span) : Prop :=
  first.range.start < second.range.start

instance : Std.Irrefl Span.Before where
  irrefl _ := Nat.lt_irrefl _

instance : Std.Antisymm Span.Before where
  antisymm _ _ h h' := absurd h' (Nat.lt_asymm h)

theorem Ascends.pairwise_before {start stop : Point} {row : List Span}
    (h : Ascends start row stop) : row.Pairwise Span.Before := by
  refine h.pairwise.imp_of_mem fun hfirst _ hleads => ?_
  exact Nat.lt_of_lt_of_le (h.of_mem hfirst).2.1.offset_lt hleads.offset_le

theorem Token.pairwise_rowFrom (start : Point) (lexemes : List Lexeme) :
    (Token.rowFrom start lexemes).Pairwise fun first second =>
      first.span.stop.LeadsTo second.span.start := by
  induction lexemes generalizing start with
  | nil => exact .nil
  | cons lexeme lexemes ih =>
    refine .cons (fun token hmem => ?_) (ih _)
    obtain ⟨before, other, after, -, rfl⟩ := Token.mem_rowFrom_iff.1 hmem
    exact ⟨_, rfl⟩

/-- Tokens of white space ascend. -/
theorem pairwise_before_filter {source : List Char} {keeps : Token → Bool}
    (h : ∀ token, keeps token = true → token.kind.isSpace = true) :
    (((tokens source).filter keeps).map Token.span).Pairwise Span.Before := by
  have hrow := Token.pairwise_rowFrom .origin (lexemes source ++ [⟨.eof, []⟩])
  rw [← tokens_eq_rowFrom] at hrow
  refine List.pairwise_map.2 ((hrow.filter keeps).imp_of_mem fun hfirst _ hleads => ?_)
  obtain ⟨hmem, hkeeps⟩ := List.mem_filter.1 hfirst
  have hspace := h _ hkeeps
  have hlt := range_lt_of_mem_tokens hmem (by rintro heq; rw [heq] at hspace; cases hspace)
    (by rintro heq; rw [heq] at hspace; cases hspace)
  exact Nat.lt_of_lt_of_le hlt hleads.offset_le

theorem TagItem.filterMap_whitespace?_sublist (items : List TagItem) :
    (items.filterMap whitespace?).Sublist (items.map fun item => (Entry.ofItem item).span) := by
  induction items with
  | nil => exact .slnil
  | cons item items ih =>
    cases item with
    | whitespace span => exact ih.cons_cons span
    | attr value => exact ih.cons _
    | erb tag => exact ih.cons _

theorem TagItem.mem_filterMap_whitespace?_iff {items : List TagItem} {span : Span} :
    span ∈ items.filterMap whitespace? ↔ .whitespace span ∈ items := by
  rw [List.mem_filterMap]
  constructor
  · rintro ⟨item, hmem, hspan⟩
    cases item <;> cases hspan
    exact hmem
  · intro hmem
    exact ⟨_, hmem, rfl⟩

theorem OpenTag.ownsSpace_iff {tag : OpenTag} {token : Token} :
    tag.ownsSpace token = true ↔ token.kind.isSpace = true
      ∧ (tag.span.range.start ≤ token.range.start ∧ token.range.stop ≤ tag.span.range.stop)
      ∧ ∀ item ∈ tag.items, ∀ inner, item.closed? = some inner →
        token.range.stop ≤ inner.range.start ∨ inner.range.stop ≤ token.range.start := by
  rw [ownsSpace, Bool.and_eq_true, Bool.and_eq_true, and_assoc, decide_eq_true_iff]
  refine and_congr_right' (and_congr_right' ?_)
  simp only [List.all_eq_true, List.mem_filterMap, Span.isApart, decide_eq_true_eq]
  constructor
  · rintro h item hitem inner hinner
    exact h inner ⟨item, hitem, hinner⟩
  · rintro h inner ⟨item, hitem, hinner⟩
    exact h item hitem inner hinner

/-- What is closed in an item is inside of it. -/
theorem TagItem.within_of_closed? {item : TagItem} (h : (Entry.ofItem item).Encloses) {inner : Span}
    (hinner : item.closed? = some inner) :
    (Entry.ofItem item).span.range.start ≤ inner.range.start
      ∧ inner.range.stop ≤ (Entry.ofItem item).span.range.stop := by
  cases item with
  | whitespace span => cases hinner
  | erb tag =>
    cases hinner
    exact ⟨Nat.le_refl _, Nat.le_refl _⟩
  | attr owner =>
    obtain ⟨value, hvalue, rfl⟩ := Option.map_eq_some_iff.1 hinner
    obtain ⟨hvalue, hquoted⟩ := Option.filter_eq_some_iff.1 hvalue
    obtain ⟨hfrom, hto⟩ := h value hvalue hquoted
    exact ⟨hfrom.offset_le, hto.offset_le⟩

/-- White space among the items is apart from what is closed in the others. -/
theorem OpenTag.Lays.apart_of_closed? {tag : OpenTag} (h : tag.Lays) {span inner : Span}
    {item : TagItem} (hspace : .whitespace span ∈ tag.items) (hitem : item ∈ tag.items)
    (hencloses : (Entry.ofItem item).Encloses) (hinner : item.closed? = some inner) :
    span.range.stop ≤ inner.range.start ∨ inner.range.stop ≤ span.range.start := by
  have hpairs : (tag.items.map Entry.ofItem).Pairwise Entry.Apart := by
    refine List.pairwise_map.2 ((List.pairwise_map.1 h.items.pairwise).imp ?_)
    exact fun hbefore => Or.inl hbefore.offset_le
  have hne : Entry.whitespace span ≠ Entry.ofItem item := by
    rintro heq
    cases item <;> cases heq
    cases hinner
  obtain ⟨hfrom, hto⟩ := TagItem.within_of_closed? hencloses hinner
  rcases hpairs.forall (List.mem_map_of_mem (f := Entry.ofItem) hspace)
    (List.mem_map_of_mem hitem) hne with hbefore | hbehind
  · exact Or.inl (Nat.le_trans hbefore hfrom)
  · exact Or.inr (Nat.le_trans hto hbehind)

namespace Segment

open Piece

variable {source : List Char} {mark name : Token} {rest pieces : List (Piece Token)} {start : Point}

/-- White space is an item only where it is tracked, and then it is a token of white space. -/
theorem exists_token_of_whitespace {track : Bool} {span : Span}
    (h : .whitespace span ∈ (readTagBody track start pieces).items) :
    track = true
      ∧ ∃ token, .markup token ∈ pieces ∧ token.kind.isSpace = true ∧ token.span = span := by
  fun_induction readTagBody track start pieces with
  | case1 => cases h
  | case2 start opening mark ending pieces tag ih =>
    obtain ⟨htrack, token, hmem, htoken⟩ := ih ((List.mem_cons.1 h).resolve_left (by simp))
    exact ⟨htrack, token, List.mem_cons_of_mem _ hmem, htoken⟩
  | case3 => cases h
  | case4 => cases h
  | case5 start first pieces hkind ih | case6 start first pieces hkind ih =>
    cases track with
    | true =>
      refine ⟨rfl, ?_⟩
      rcases List.mem_cons.1 h with heq | hrest
      · cases heq
        exact ⟨first, List.mem_cons_self, by rw [hkind]; rfl, rfl⟩
      · obtain ⟨-, token, hmem, htoken⟩ := ih hrest
        exact ⟨token, List.mem_cons_of_mem _ hmem, htoken⟩
    | false => cases (ih h).1
  | case7 start first pieces hkind attr ih =>
    obtain ⟨htrack, token, hmem, htoken⟩ := ih ((List.mem_cons.1 h).resolve_left (by simp))
    have hbehind := (passes_readAttribute first pieces).suffix.subset hmem
    exact ⟨htrack, token, List.mem_cons_of_mem _ hbehind, htoken⟩
  | case8 start first pieces _ _ _ _ _ ih =>
    obtain ⟨htrack, token, hmem, htoken⟩ := ih h
    exact ⟨htrack, token, List.mem_cons_of_mem _ hmem, htoken⟩

/-- The tag makes an item of each token of white space of its own, if they are tracked. -/
theorem whitespace_mem_of_ownsSpace {tag : OpenTag} {token : Token}
    (hsuffix : (.markup mark :: .markup name :: rest) <:+ locatedPieces source)
    (hmark : mark.kind = .tagStart) (hname : name.kind = .identifier)
    (hspan : tag.span = ⟨mark.span.start, (readTagBody true name.span.stop rest).stop⟩)
    (hitems : tag.items = (readTagBody true name.span.stop rest).items)
    (hmem : token ∈ tokens source) (hown : tag.ownsSpace token = true) :
    .whitespace token.span ∈ tag.items := by
  obtain ⟨hspace, ⟨hfrom, hto⟩, hapart⟩ := OpenTag.ownsSpace_iff.1 hown
  have hmarkup : .markup token ∈ locatedPieces source := by
    rcases cases_of_mem_tokens hmem with hmarkup | herb | rfl
    · exact hmarkup
    · rw [TokenKind.isErb_of_isSpace hspace] at herb
      cases herb
    · cases hspace
  have hlong : token.range.start < token.range.stop :=
    ((tiles_locatedPieces source).of_mem (List.mem_map_of_mem hmarkup)).2.1.offset_lt
  obtain ⟨_, htiles⟩ := exists_tiles_of_suffix (tiles_locatedPieces source) hsuffix
  obtain ⟨rfl, -, -, -, hafter⟩ := id htiles
  rw [hspan] at hfrom hto
  have hin : .markup token ∈ Piece.markup mark :: .markup name :: rest :=
    mem_of_suffix (tiles_locatedPieces source) htiles hsuffix hmarkup
      (Nat.lt_of_le_of_lt hfrom hlong)
  have hrest : .markup token ∈ rest := by
    rcases List.mem_cons.1 hin with heq | hin
    · cases heq
      rw [hmark] at hspace
      cases hspace
    rcases List.mem_cons.1 hin with heq | hin
    · cases heq
      rw [hname] at hspace
      cases hspace
    · exact hin
  rcases takes_readTagBody hafter hrest with hbehind | htakes
  · -- what is left begins behind the tag
    obtain ⟨-, hbeyond⟩ := (passes_readTagBody true name.span.stop rest).tiles hafter
    have hbegin := (hbeyond.of_mem (List.mem_map_of_mem hbehind)).1.offset_le
    exact absurd (Nat.lt_of_le_of_lt hbegin hlong) (Nat.not_lt.2 hto)
  cases htakes with
  | ends hkind => rcases hkind with hkind | hkind <;> rw [hkind] at hspace <;> cases hspace
  | space _ hitem => exact hitems ▸ hitem rfl
  | quoted hattr hvalue hquoted hstart hstop =>
    have hclosed : TagItem.closed? (.attr _) = some _ :=
      Option.map_eq_some_iff.2 ⟨_, Option.filter_eq_some_iff.2 ⟨hvalue, hquoted⟩, rfl⟩
    have hends := hapart _ (hitems ▸ hattr) _ hclosed
    have hle := hstart.offset_le
    have hle' := hstop.offset_le
    simp only [Token.range, Span.range] at hends hlong
    omega
  | other hinner =>
    rw [hinner.2] at hspace
    cases hspace

/-- If a segment is an opening tag, its items of white space are tokens, and all that it owns are
    among them; it has none if white space is not tracked. -/
def TakesSpace (track : Bool) (source : List Char) : Segment → Prop
  | openTag _ tag _ =>
    (∀ span, .whitespace span ∈ tag.items →
        track = true ∧ ∃ token ∈ tokens source, token.kind.isSpace = true ∧ token.span = span)
      ∧ (track = true →
        ∀ token ∈ tokens source, tag.ownsSpace token = true → .whitespace token.span ∈ tag.items)
  | text _ | erb _ | comment _ | closeTag .. => True

theorem takesSpace_of_mem_segments (track : Bool) (source : List Char) :
    ∀ segment ∈ segments track (locatedPieces source), segment.TakesSpace track source := by
  refine forall_mem_segments (fun _ _ => trivial) (fun _ _ _ _ => trivial)
    (fun _ _ _ _ => trivial) ?_ (fun _ _ _ _ _ _ _ => trivial) (List.suffix_refl _)
  intro mark name rest hsuffix hmark hname
  refine ⟨fun span hspan => ?_, ?_⟩
  · obtain ⟨htrack, token, hmem, hspace⟩ := exists_token_of_whitespace hspan
    have hpiece := hsuffix.subset (List.mem_cons_of_mem _ (List.mem_cons_of_mem _ hmem))
    exact ⟨htrack, token, mem_tokens_of_markup hpiece, hspace⟩
  · rintro rfl token htoken
    exact whitespace_mem_of_ownsSpace hsuffix hmark hname rfl rfl htoken

/-- **The items of white space of an opening tag are its white space, in order,** if it is
    tracked. -/
theorem showsSpace_of_mem_segments {options : ParserOptions} {source lowered : List Char}
    {tag : OpenTag} {terminated : Bool} (htrack : options.trackWhitespace = true)
    (h : .openTag lowered tag terminated ∈ options.segments source) :
    tag.ShowsSpace (tokens source) := by
  have hlays : tag.Lays := lays_of_mem_segments options source _ h
  have hencloses : ∀ item ∈ tag.items, (Entry.ofItem item).Encloses := fun item hitem =>
    encloses_of_mem_segments options source _ h _ (List.mem_map_of_mem hitem)
  obtain ⟨hsound, hcomplete⟩ := takesSpace_of_mem_segments options.trackWhitespace source _ h
  have hascends := hlays.items.sublist (TagItem.filterMap_whitespace?_sublist tag.items)
  refine hascends.pairwise_before.eq_of_mem_iff
    (pairwise_before_filter fun _ hown => (OpenTag.ownsSpace_iff.1 hown).1) fun span => ?_
  rw [TagItem.mem_filterMap_whitespace?_iff, List.mem_map]
  constructor
  · intro hspan
    obtain ⟨-, token, htoken, hspace, rfl⟩ := hsound span hspan
    obtain ⟨hfrom, -, hto⟩ := hlays.items.of_mem (List.mem_map_of_mem hspan)
    refine ⟨token, List.mem_filter.2 ⟨htoken, OpenTag.ownsSpace_iff.2 ⟨hspace, ?_, ?_⟩⟩, rfl⟩
    · exact ⟨hfrom.offset_le, hto.offset_le⟩
    · exact fun item hitem inner => hlays.apart_of_closed? hspan hitem (hencloses item hitem)
  · rintro ⟨token, htoken, rfl⟩
    obtain ⟨hmem, hown⟩ := List.mem_filter.1 htoken
    exact hcomplete htrack token hmem hown

end Segment

/-! ## 4. Documents -/

theorem TagItem.filterMap_eq_of_plain {α : Type} {view : TagItem → Option α}
    (hview : ∀ item : TagItem, view item.plain = view item) {items others : List TagItem}
    (h : items.map TagItem.plain = others.map TagItem.plain) :
    items.filterMap view = others.filterMap view := by
  have hplain : ∀ row : List TagItem,
      (row.map TagItem.plain).filterMap view = row.filterMap view := by
    intro row
    rw [List.filterMap_map]
    exact List.filterMap_congr fun item _ => hview item
  rw [← hplain items, h, hplain]

/-- What analysis says of ERB tags does not matter. -/
theorem OpenTag.ShowsSpace.of_plain {row : List Token} {tag other : OpenTag}
    (h : other.ShowsSpace row) (hspan : tag.span = other.span)
    (hitems : tag.items.map TagItem.plain = other.items.map TagItem.plain) :
    tag.ShowsSpace row := by
  have hspace : tag.items.filterMap TagItem.whitespace?
      = other.items.filterMap TagItem.whitespace? :=
    TagItem.filterMap_eq_of_plain (fun item => by cases item <;> rfl) hitems
  have hclosed : tag.items.filterMap TagItem.closed? = other.items.filterMap TagItem.closed? :=
    TagItem.filterMap_eq_of_plain (fun item => by cases item <;> rfl) hitems
  have howns : tag.ownsSpace = other.ownsSpace := by
    funext token
    rw [ownsSpace, hspan, hclosed]
    rfl
  rw [ShowsSpace, hspace, howns]
  exact h

section

variable {source : List Char} {options : ParserOptions} {info : ElementInfo} {count : Nat}

/-- The opening tag of an element is one of the source, apart from what analysis says of it. -/
theorem exists_openTag_of_mem_entries (h : .element info count ∈ (parsed source options).entries) :
    ∃ lowered tag terminated, .openTag lowered tag terminated ∈ options.segments source
      ∧ info.openTag.span = tag.span
      ∧ info.openTag.items.map TagItem.plain = tag.items.map TagItem.plain := by
  obtain ⟨other, hmade, hplain⟩ := exists_made_of_mem_entries h
  obtain ⟨lowered, terminated, hopen⟩ := hmade.exists_openTag
  have hspan : info.openTag.span = other.openTag.span := congrArg (·.openTag.span) hplain
  have hitems : info.openTag.items.map TagItem.plain = other.openTag.items.map TagItem.plain :=
    congrArg (·.openTag.items) hplain
  exact ⟨lowered, other.openTag, terminated, hopen, hspan, hitems⟩

/-- White space is among the items only where it is tracked. -/
theorem trackWhitespace_of_mem_items {span : Span}
    (h : .element info count ∈ (parsed source options).entries)
    (hspace : .whitespace span ∈ info.openTag.items) : options.trackWhitespace = true := by
  obtain ⟨_, tag, _, hopen, -, hitems⟩ := exists_openTag_of_mem_entries h
  rw [← TagItem.mem_filterMap_whitespace?_iff, TagItem.filterMap_eq_of_plain
    (fun item => by cases item <;> rfl) hitems, TagItem.mem_filterMap_whitespace?_iff] at hspace
  exact ((Segment.takesSpace_of_mem_segments options.trackWhitespace source _ hopen).1 _ hspace).1

theorem typeName_of_mem_items (h : .element info count ∈ (parsed source options).entries)
    {item : TagItem} (hitem : item ∈ info.openTag.items) :
    (NodeSnapshot.ofItem source item).typeName ∈ options.itemTypeNames := by
  cases item with
  | attr value => exact List.mem_append_left _ List.mem_cons_self
  | erb tag => exact List.mem_append_left _ (List.mem_cons_of_mem _ List.mem_cons_self)
  | whitespace span =>
    rw [ParserOptions.itemTypeNames, trackWhitespace_of_mem_items h hitem]
    exact List.mem_append_right _ List.mem_cons_self

theorem showsSpace_of_mem_entries (h : .element info count ∈ (parsed source options).entries)
    (htrack : options.trackWhitespace = true) : info.openTag.ShowsSpace (tokens source) := by
  obtain ⟨_, tag, _, hopen, hspan, hitems⟩ := exists_openTag_of_mem_entries h
  exact (Segment.showsSpace_of_mem_segments htrack hopen).of_plain hspan hitems

end

theorem typeName_ofNode (source : List Char) (node : Node) :
    (NodeSnapshot.ofNode source node).typeName ∈ contentTypeNames := by
  cases node <;> simp [NodeSnapshot.ofNode, NodeSnapshot.ofErb, NodeSnapshot.typeName,
    contentTypeNames]

/-- **Everything in a tree is where it belongs,** whatever the source and the options. -/
theorem nodes_stand_in_place (source : List Char) (options : ParserOptions) :
    (lex source).Yields (2 * TokenList.tokenSize * (byteLength source + 1)) fun list =>
      (parse source options).Yields (2 * TokenList.tokenSize * (byteLength source + 1))
        fun document => document.Placed list.toList source options := by
  refine (yields_lex source).imp fun list hlist => (yields_parse source options).imp ?_
  rintro document rfl
  rw [hlist]
  exact ⟨fun _ _ node _ => typeName_ofNode source node,
    fun _ _ hmem _ => typeName_of_mem_items hmem, fun _ => isPlainText_of_mem_entries,
    fun _ => isChain_of_mem_siblings,
    fun htrack _ _ hmem => showsSpace_of_mem_entries hmem htrack⟩

end ErbTemplate
