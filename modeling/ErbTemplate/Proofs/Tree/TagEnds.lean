import ErbTemplate.Proofs.Tree.Account
import ErbTemplate.Proofs.Tree.Delimiters

/-!
# Where opening tags end

An opening tag ends at the first `>` that is free: outside of ERB, outside of the quoted values of
the tag, and not the last byte of a `-->` (`opening_tags_end_at_free_mark`). The last condition is
none that a reader of markup would make. A `-->` is a token wherever it stands, and one that ends no
tag; so `<br-->` is never terminated (`tag_end_hidden_by_comment_end`).

The reader of an opening tag goes over its pieces with two loops inside of each other. What it makes
of each token of markup on its way is one of four things (`Segment.TagBody.Takes`), and that is all
that has to be known of it: a free `>` is the end of a token of which nothing else can be made than
the end of the tag.
-/

set_option autoImplicit false

namespace ErbTemplate

open Text

/-! ## 1. The rule -/

/-- The `>` at an offset is one that ends an opening tag. -/
structure OpenTag.FreeEnd (row : List Token) (source : List Char) (tag : OpenTag) (offset : Nat) :
    Prop where
  byte : FreeByte row source '>' offset
  unquoted : ∀ attr value, .attr attr ∈ tag.items → attr.value = some value →
    value.quoted = true → ¬ value.content.range.Holds offset
  apart : ∀ place, CommentEnd row source place → offset ≠ place + 2

/-- An element is reported to have an opening tag that the source ends in. -/
def ElementInfo.CutOff (info : ElementInfo) : Prop :=
  ∃ issue ∈ info.issues, ∃ name, issue.cause = .unterminatedTag name

/-- Where the opening tag of an element ends. -/
structure ElementInfo.EndsFree (row : List Token) (source : List Char) (info : ElementInfo) :
    Prop where
  first : ∀ offset, IsLeast { place | info.openTag.name.range.stop ≤ place
      ∧ info.openTag.FreeEnd row source place } offset →
    info.openTag.span.range.stop = offset + 1
  cutOff : info.CutOff
    ↔ ∀ place, info.openTag.name.range.stop ≤ place → ¬ info.openTag.FreeEnd row source place
  toEnd : info.CutOff → info.openTag.span.range.stop = byteLength source
  location : positionAt? source info.openTag.span.range.stop = some info.openTag.span.location.stop

/-- Whether tokens of a kind are white space. -/
def TokenKind.isSpace : TokenKind → Bool
  | whitespace | newline => true
  | _ => false

/-- Tokens of a kind neither end a tag nor are white space. -/
def TokenKind.IsInner (kind : TokenKind) : Prop :=
  ¬ kind.EndsTag ∧ kind.isSpace = false

/-- The kinds of which attributes are made, apart from what is quoted. -/
theorem TokenKind.isInner_of_attribute {kind : TokenKind}
    (h : kind = .identifier ∨ kind = .equals ∨ kind = .quote ∨ kind = .character
      ∨ kind = .slash) : kind.IsInner := by
  rcases h with rfl | rfl | rfl | rfl | rfl <;> exact ⟨by simp [EndsTag], rfl⟩

/-- The rule depends on the attributes of the tag alone. -/
theorem OpenTag.FreeEnd.of_attributes {row : List Token} {source : List Char} {tag other : OpenTag}
    {offset : Nat} (h : tag.FreeEnd row source offset)
    (hattr : ∀ attr, .attr attr ∈ other.items → .attr attr ∈ tag.items) :
    other.FreeEnd row source offset :=
  ⟨h.byte, fun attr value hmem => h.unquoted attr value (hattr attr hmem), h.apart⟩

/-! ## 2. What becomes of a token -/

namespace Segment

open Piece

/-- What an opening tag makes of a token of markup: its own end, an item of white space if that is
    tracked, a part of a quoted value; and it may pass over what is none of these. -/
inductive TagBody.Takes (track : Bool) (body : TagBody) (token : Token) : Prop
  | ends (hkind : token.kind.EndsTag) (hstop : token.span.stop = body.stop)
      (hterminated : body.terminated = true)
  | space (hkind : token.kind.isSpace = true)
      (hmem : track = true → .whitespace token.span ∈ body.items)
  | quoted {attr : Attribute} {value : AttributeValue} (hmem : .attr attr ∈ body.items)
      (hvalue : attr.value = some value) (hquoted : value.quoted = true)
      (hstart : value.content.start.LeadsTo token.span.start)
      (hstop : token.span.stop.LeadsTo value.content.stop)
  | other (hkind : token.kind.IsInner)

variable {track : Bool}

theorem TagBody.Takes.cons {body : TagBody} {token : Token} (h : body.Takes track token)
    (item : TagItem) : (body.cons item).Takes track token := by
  cases h with
  | ends hkind hstop hterminated => exact .ends hkind hstop hterminated
  | space hkind hmem => exact .space hkind fun htrack => List.mem_cons_of_mem _ (hmem htrack)
  | quoted hmem hvalue hquoted hstart hstop =>
    exact .quoted (List.mem_cons_of_mem _ hmem) hvalue hquoted hstart hstop
  | other hkind => exact .other hkind

theorem TagBody.Takes.consSpace {body : TagBody} {token : Token} (h : body.Takes track token)
    (span : Span) : (body.consSpace track span).Takes track token := by
  cases track with
  | true => exact h.cons _
  | false => exact h

/-- White space in front of a body is taken by it. -/
theorem TagBody.takes_consSpace (body : TagBody) {space : Token}
    (hkind : space.kind.isSpace = true) :
    (body.consSpace track space.span).Takes track space := by
  refine .space hkind ?_
  rintro rfl
  exact List.mem_cons_self

variable {token name quote : Token} {pieces : List (Piece Token)} {last : Point}

theorem rest_readQuoted (quote : Token) (pieces : List (Piece Token)) :
    (readQuoted quote pieces).2
      = (pieces.dropWhile fun piece => !closesQuote quote piece).tail := by
  unfold readQuoted
  simp only
  split
  next hdrop => rw [hdrop]; rfl
  next hdrop => rw [hdrop]; rfl

/-- A quoted value takes the tokens up to its closing quote. -/
theorem takes_readQuoted (h : Tiles quote.span.stop (pieces.map Piece.span) last)
    (hmem : .markup token ∈ pieces) :
    .markup token ∈ (readQuoted quote pieces).2
      ∨ ((readQuoted quote pieces).1.content.start.LeadsTo token.span.start
        ∧ token.span.stop.LeadsTo (readQuoted quote pieces).1.content.stop)
      ∨ token.kind = .quote := by
  have hsplit := List.takeWhile_append_dropWhile
    (p := fun piece => !closesQuote quote piece) (l := pieces)
  rw [content_readQuoted, rest_readQuoted]
  rw [← hsplit] at hmem
  rcases List.mem_append.1 hmem with hinside | hbehind
  · rw [← hsplit] at h
    exact Or.inr (Or.inl (between_of_mem h hinside))
  · cases hdrop : pieces.dropWhile fun piece => !closesQuote quote piece with
    | nil =>
      rw [hdrop] at hbehind
      cases hbehind
    | cons closing rest =>
      have hstop := List.head?_dropWhile_not (fun piece => !closesQuote quote piece) pieces
      rw [hdrop] at hbehind hstop
      rcases List.mem_cons.1 hbehind with rfl | hrest
      · -- the loop stops at a quote
        simp only [List.head?_cons, Bool.not_eq_false', closesQuote, Bool.and_eq_true,
          beq_iff_eq] at hstop
        exact Or.inr (Or.inr hstop.1)
      · exact Or.inl hrest

/-- An attribute takes the tokens of its value, and other tokens only of kinds that are neither the
    end of a tag nor white space. -/
theorem takes_readAttribute_markup (h : Tiles name.span.stop (pieces.map Piece.span) last)
    (hmem : .markup token ∈ pieces) :
    .markup token ∈ (readAttribute name pieces).2
      ∨ (∃ value, (readAttribute name pieces).1.value = some value ∧ value.quoted = true
        ∧ value.content.start.LeadsTo token.span.start
        ∧ token.span.stop.LeadsTo value.content.stop)
      ∨ token.kind.IsInner := by
  rcases readAttribute_inv name pieces with ⟨-, hrest⟩ | ⟨equals, more, rfl, hequals, hvalue, hrest⟩
  · rw [hrest]
    exact Or.inl hmem
  rw [hvalue, hrest]
  obtain ⟨-, -, hmore⟩ := h
  rcases List.mem_cons.1 hmem with heq | hmem
  · cases heq
    exact Or.inr (Or.inr (TokenKind.isInner_of_attribute (Or.inr (Or.inl hequals))))
  rcases readValue_inv more with ⟨quote, inside, rfl, hquote, hread⟩ | ⟨-, hread⟩
  · rw [hread]
    obtain ⟨-, -, hinside⟩ := hmore
    rcases List.mem_cons.1 hmem with heq | hmem
    · cases heq
      exact Or.inr (Or.inr (TokenKind.isInner_of_attribute (Or.inr (Or.inr (Or.inl hquote)))))
    · rcases takes_readQuoted hinside hmem with hbehind | hheld | hkind
      · exact Or.inl hbehind
      · exact Or.inr (Or.inl ⟨_, rfl, quoted_readQuoted quote inside, hheld⟩)
      · exact Or.inr (Or.inr (TokenKind.isInner_of_attribute (Or.inr (Or.inr (Or.inl hkind)))))
  · rw [hread]
    rw [← List.takeWhile_append_dropWhile (p := isBareValue) (l := more)] at hmem
    rcases List.mem_append.1 hmem with hbare | hbehind
    · have hkind : isBareValue (.markup token) = true := List.mem_takeWhile_imp hbare
      simp only [isBareValue, Bool.or_eq_true, beq_iff_eq] at hkind
      refine Or.inr (Or.inr (TokenKind.isInner_of_attribute ?_))
      rcases hkind with (hkind | hkind) | hkind
      · exact Or.inl hkind
      · exact Or.inr (Or.inr (Or.inr (Or.inl hkind)))
      · exact Or.inr (Or.inr (Or.inr (Or.inr hkind)))
    · exact Or.inl hbehind

/-- **An opening tag takes a token of markup in one of four ways, or leaves it behind.** -/
theorem takes_readTagBody {start : Point} (h : Tiles start (pieces.map Piece.span) last)
    (hmem : .markup token ∈ pieces) :
    .markup token ∈ (readTagBody track start pieces).rest
      ∨ (readTagBody track start pieces).Takes track token := by
  fun_induction readTagBody track start pieces with
  | case1 => cases hmem
  | case2 start opening mark ending pieces tag ih =>
    have hspan : tag.span = (Piece.erb opening mark ending).span := span_erbTag opening mark ending
    obtain ⟨-, -, hrest⟩ := h
    rw [← hspan] at hrest
    rcases List.mem_cons.1 hmem with heq | hmem
    · cases heq
    · exact (ih hrest hmem).imp_right (·.cons _)
  | case3 start first pieces hkind =>
    rcases List.mem_cons.1 hmem with heq | hmem
    · cases heq
      exact Or.inr (.ends (Or.inl hkind) rfl rfl)
    · exact Or.inl hmem
  | case4 start first pieces hkind =>
    rcases List.mem_cons.1 hmem with heq | hmem
    · cases heq
      exact Or.inr (.ends (Or.inr hkind) rfl rfl)
    · exact Or.inl hmem
  | case5 start first pieces hkind ih | case6 start first pieces hkind ih =>
    obtain ⟨-, -, hrest⟩ := h
    rw [TagBody.rest_consSpace]
    rcases List.mem_cons.1 hmem with heq | hmem
    · cases heq
      exact Or.inr (TagBody.takes_consSpace _ (by rw [hkind]; rfl))
    · exact (ih hrest hmem).imp_right (·.consSpace _)
  | case7 start first pieces hkind attr ih =>
    obtain ⟨-, -, hrest⟩ := h
    obtain ⟨-, hafter⟩ := (passes_readAttribute first pieces).tiles hrest
    rcases List.mem_cons.1 hmem with heq | hmem
    · cases heq
      exact Or.inr (.other (TokenKind.isInner_of_attribute (Or.inl hkind)))
    · rcases takes_readAttribute_markup hrest hmem with hbehind
        | ⟨value, hvalue, hquoted, hstart, hstop⟩ | hinner
      · exact (ih hafter hbehind).imp_right (·.cons _)
      · exact Or.inr (.quoted List.mem_cons_self hvalue hquoted hstart hstop)
      · exact Or.inr (.other hinner)
  | case8 start first pieces hend hself hspace hnewline _ ih =>
    obtain ⟨-, -, hrest⟩ := h
    rcases List.mem_cons.1 hmem with heq | hmem
    · cases heq
      refine Or.inr (.other ⟨fun hkind => hkind.elim hend hself, ?_⟩)
      revert hspace hnewline
      cases token.kind <;> simp [TokenKind.isSpace]
    · exact ih hrest hmem

/-! ## 3. Free ends -/

variable {source : List Char} {mark : Token} {rest : List (Piece Token)} {start : Point}

/-- A free end inside of an opening tag is its last byte. -/
theorem stop_of_freeEnd (tag : OpenTag) {place : Nat} (hsuffix : rest <:+ locatedPieces source)
    (htiles : Tiles start (rest.map Piece.span) (Point.origin.advance source))
    (hitems : tag.items = (readTagBody track start rest).items)
    (hfree : tag.FreeEnd (tokens source) source place) (hle : start.offset ≤ place)
    (hlt : place < (readTagBody track start rest).stop.offset) :
    (readTagBody track start rest).terminated = true
      ∧ (readTagBody track start rest).stop.offset = place + 1 := by
  obtain ⟨other, hother, hkind, hstop⟩ := freeByte_gt_iff.1 hfree.byte
  have hlong : other.span.start.Reaches other.span.stop :=
    ((tiles_locatedPieces source).of_mem (List.mem_map_of_mem hother)).2.1
  have hshort := hlong.offset_lt
  have hmem : .markup other ∈ rest :=
    mem_of_suffix (tiles_locatedPieces source) htiles hsuffix hother
      (show start.offset < other.span.stop.offset by omega)
  rcases takes_readTagBody htiles hmem with hbehind | htakes
  · -- what is left begins behind the tag
    obtain ⟨-, hafter⟩ := (passes_readTagBody track start rest).tiles htiles
    have hbegin : (readTagBody track start rest).stop.offset ≤ other.span.start.offset :=
      (hafter.of_mem (List.mem_map_of_mem hbehind)).1.offset_le
    omega
  cases htakes with
  | ends _ hend hterminated => exact ⟨hterminated, by rw [← hend, hstop]⟩
  | space hspace =>
    rcases hkind with (hkind | hkind) | hkind <;> rw [hkind] at hspace <;> cases hspace
  | quoted hattr hvalue hquoted hinside hinside' =>
    refine absurd ⟨?_, ?_⟩ (hfree.unquoted _ _ (hitems ▸ hattr) hvalue hquoted)
    · have hoffset := hinside.offset_le
      simp only [Span.range]
      omega
    · have hoffset := hinside'.offset_le
      simp only [Span.range]
      omega
  | other hinner =>
    -- of the three kinds with a `>` only the comment end is passed over
    have hcomment : other.kind = .commentEnd := hkind.resolve_left hinner.1
    have hwidth := offset_stop_of_width? (mem_tokens_of_markup hother) (by rw [hcomment]; rfl)
    have hplace := hfree.apart _ (commentEnd_iff.2 ⟨other, hother, hcomment, rfl⟩)
    omega

/-- **The end of a terminated tag is free.** -/
theorem freeEnd_of_terminated (tag : OpenTag) (hsuffix : rest <:+ locatedPieces source)
    (htiles : Tiles start (rest.map Piece.span) (Point.origin.advance source))
    (hitems : tag.items = (readTagBody track start rest).items)
    (hterminated : (readTagBody track start rest).terminated = true) :
    ∃ offset, start.offset ≤ offset ∧ (readTagBody track start rest).stop.offset = offset + 1
      ∧ tag.FreeEnd (tokens source) source offset := by
  obtain ⟨last, hmem, hkind, hlong, hstop, hascends⟩ := closes_readTagBody htiles hterminated
  have hlast : .markup last ∈ locatedPieces source := hsuffix.subset hmem
  have hshort := hlong.offset_lt
  have hbegin : start.offset ≤ last.span.start.offset :=
    (htiles.of_mem (List.mem_map_of_mem hmem)).1.offset_le
  have hend : last.span.stop.offset = last.span.stop.offset - 1 + 1 := by omega
  refine ⟨last.span.stop.offset - 1, by omega, by rw [← hstop, ← hend], ?_, ?_, ?_⟩
  · exact freeByte_gt_iff.2 ⟨last, hlast, Or.inl hkind, hend⟩
  · intro attr value hattr hvalue hquoted hholds
    have hencloses : ∀ item ∈ (readTagBody track start rest).items, (Entry.ofItem item).Encloses :=
      forall_mem_items (fun _ _ _ _ => trivial) (fun _ _ => trivial)
        (fun _ _ hsuffix _ => encloses_readAttribute hsuffix) start hsuffix
    rw [hitems] at hattr
    obtain ⟨-, hinside⟩ := hencloses _ hattr value hvalue hquoted
    obtain ⟨-, -, hbefore⟩ := hascends.of_mem (List.mem_map_of_mem hattr)
    have hle := (hinside.trans hbefore).offset_le
    have hlt : last.span.stop.offset - 1 < value.content.stop.offset := hholds.2
    omega
  · rintro place hcomment heq
    obtain ⟨other, hother, hother', rfl⟩ := commentEnd_iff.1 hcomment
    have hwidth := offset_stop_of_width? (mem_tokens_of_markup hother) (by rw [hother']; rfl)
    have hbyte : ∃ place, last.range.Holds place ∧ other.range.Holds place := by
      refine ⟨last.span.stop.offset - 1, ?_, ?_⟩ <;>
        constructor <;> simp only [Token.range, Span.range] <;> omega
    rw [eq_of_shared_byte (mem_tokens_of_markup hlast) (mem_tokens_of_markup hother) hbyte,
      hother'] at hkind
    rcases hkind with hkind | hkind <;> cases hkind

/-- If a segment is an opening tag, it ends at the first free end, or with the source if there is
    none. -/
def EndsFree (source : List Char) : Segment → Prop
  | openTag _ tag terminated => tag.span.stop.LiesIn source
    ∧ (terminated = true → ∃ offset, tag.span.range.stop = offset + 1
      ∧ IsLeast { place | tag.name.range.stop ≤ place
          ∧ tag.FreeEnd (tokens source) source place } offset)
    ∧ (terminated = false → tag.span.range.stop = byteLength source
      ∧ ∀ place, tag.name.range.stop ≤ place → ¬ tag.FreeEnd (tokens source) source place)
  | text _ | erb _ | comment _ | closeTag .. => True

theorem endsFree_readOpenTag (hsuffix : (.markup mark :: .markup name :: rest)
    <:+ locatedPieces source) : (readOpenTag track mark name rest).1.EndsFree source := by
  obtain ⟨_, -, -, -, -, hafter⟩ := exists_tiles_of_suffix (tiles_locatedPieces source) hsuffix
  have htiles : Tiles name.span.stop (rest.map Piece.span) (Point.origin.advance source) := hafter
  have htail : rest <:+ locatedPieces source :=
    ((List.suffix_cons _ _).trans (List.suffix_cons _ _)).trans hsuffix
  let body := readTagBody track name.span.stop rest
  let tag : OpenTag := ⟨name.span, body.items, body.selfClosing, ⟨mark.span.start, body.stop⟩⟩
  have hinside : ∀ place, tag.FreeEnd (tokens source) source place →
      name.span.stop.offset ≤ place → place < body.stop.offset →
        body.terminated = true ∧ body.stop.offset = place + 1 :=
    fun place => stop_of_freeEnd tag htail htiles rfl
  refine ⟨?_, ?_, ?_⟩
  · obtain ⟨used, hused, hstop⟩ := passes_readTagBody track name.span.stop rest
    have hname := mem_tokens_of_markup (hsuffix.subset (List.mem_cons_of_mem _ List.mem_cons_self))
    show body.stop.LiesIn source
    rw [hstop]
    refine liesIn_stopOfAll (liesIn_of_mem_tokens hname).2 fun piece hpiece => htail.subset ?_
    rw [hused]
    exact List.mem_append_left _ hpiece
  · intro hterminated
    obtain ⟨offset, hle, hstop, hfree⟩ := freeEnd_of_terminated tag htail htiles rfl hterminated
    refine ⟨offset, hstop, ⟨hle, hfree⟩, ?_⟩
    rintro place ⟨hplace, hother⟩
    by_contra hlt
    have hbefore : place < body.stop.offset := by
      rw [show body.stop.offset = offset + 1 from hstop]
      omega
    obtain ⟨-, hend⟩ := hinside place hother hplace hbefore
    rw [show body.stop.offset = offset + 1 from hstop] at hend
    omega
  · intro hopen
    -- nothing is left behind the tag, so it goes to the end
    obtain ⟨-, hbehind⟩ := (passes_readTagBody track name.span.stop rest).tiles htiles
    rw [rest_readTagBody_eq_nil hopen] at hbehind
    have hend : body.stop.offset = byteLength source := by
      rw [show body.stop = Point.origin.advance source from hbehind, Point.offset_advance]
      exact Nat.zero_add _
    refine ⟨hend, fun place hplace hfree => ?_⟩
    have hlt : place < body.stop.offset := by
      rw [hend, ← length_toBytes]
      exact (List.getElem?_eq_some_iff.1 hfree.byte.byte).1
    obtain ⟨hterminated, -⟩ := hinside place hfree hplace hlt
    exact absurd (hterminated.symm.trans hopen) (by simp)

theorem endsFree_of_mem_segments (options : ParserOptions) (source : List Char) :
    ∀ segment ∈ options.segments source, segment.EndsFree source :=
  forall_mem_segments (fun _ _ => trivial) (fun _ _ _ _ => trivial) (fun _ _ _ _ => trivial)
    (fun _ _ _ hsuffix _ _ => endsFree_readOpenTag hsuffix) (fun _ _ _ _ _ _ _ => trivial)
    (List.suffix_refl _)

end Segment

/-! ## 4. Elements -/

/-- An element is made from an opening tag, and reports whether the source ends in it. -/
theorem ElementInfo.Made.exists_terminated {options : ParserOptions} {row : List Segment}
    {info : ElementInfo} (h : info.Made options row) :
    ∃ name terminated, .openTag name info.openTag terminated ∈ row
      ∧ (info.CutOff ↔ terminated = false) := by
  cases h with
  | @atOnce name tag terminated hopen =>
    refine ⟨name, terminated, hopen, ?_⟩
    cases terminated <;> simp [CutOff]
  | @ended name tag cause stop hopen hcause =>
    refine ⟨name, true, hopen, iff_of_false ?_ (by simp)⟩
    rintro ⟨issue, hmem, other, hother⟩
    simp only at hmem
    split at hmem
    · cases hmem
    · rw [List.mem_singleton.1 hmem] at hother
      rcases hcause with rfl | ⟨outer, rfl⟩ <;> cases hother
  | @closed name tag closeTag hopen hclose =>
    refine ⟨name, true, hopen, iff_of_false ?_ (by simp)⟩
    rintro ⟨issue, hmem, -⟩
    cases hmem

theorem ElementInfo.Made.endsFree {source : List Char} {options : ParserOptions}
    {info : ElementInfo} (h : info.Made options (options.segments source)) :
    info.EndsFree (tokens source) source := by
  obtain ⟨name, terminated, hopen, hcutOff⟩ := h.exists_terminated
  obtain ⟨hlies, hends, hnever⟩ := Segment.endsFree_of_mem_segments options source _ hopen
  cases terminated with
  | true =>
    obtain ⟨offset, hstop, hleast⟩ := hends rfl
    refine ⟨?_, ?_, ?_, hlies.positionAt?_eq⟩
    · intro other hother
      rw [hstop, hother.unique hleast]
    · rw [hcutOff]
      exact iff_of_false (by simp) fun hnone => hnone offset hleast.1.1 hleast.1.2
    · exact fun h => absurd (hcutOff.1 h) (by simp)
  | false =>
    obtain ⟨hstop, hnone⟩ := hnever rfl
    refine ⟨?_, ?_, fun _ => hstop, hlies.positionAt?_eq⟩
    · intro other hother
      exact absurd hother.1.2 (hnone other hother.1.1)
    · rw [hcutOff]
      exact iff_of_true rfl hnone

theorem ElementInfo.EndsFree.of_plain {row : List Token} {source : List Char}
    {info other : ElementInfo} (h : other.EndsFree row source) (heq : info.plain = other.plain) :
    info.EndsFree row source := by
  have hspan : info.openTag.span = other.openTag.span := congrArg (·.openTag.span) heq
  have hname : info.openTag.name = other.openTag.name := congrArg (·.openTag.name) heq
  have hcutOff : info.CutOff ↔ other.CutOff := by
    have hissues : info.issues = other.issues := congrArg (·.issues) heq
    rw [CutOff, CutOff, hissues]
  have hattr : ∀ attr, .attr attr ∈ info.openTag.items ↔ .attr attr ∈ other.openTag.items := by
    have hitems : info.openTag.items.map TagItem.plain = other.openTag.items.map TagItem.plain :=
      congrArg (·.openTag.items) heq
    intro attr
    rw [← TagItem.attr_mem_plain_iff, hitems, TagItem.attr_mem_plain_iff]
  have hfree : ∀ place, info.openTag.FreeEnd row source place
      ↔ other.openTag.FreeEnd row source place :=
    fun place => ⟨fun h => h.of_attributes fun attr => (hattr attr).2,
      fun h => h.of_attributes fun attr => (hattr attr).1⟩
  obtain ⟨hfirst, hnone, htoEnd, hlocation⟩ := h
  refine ⟨?_, ?_, ?_, ?_⟩
  · simpa only [hspan, hname, hfree] using hfirst
  · simpa only [hcutOff, hname, hfree] using hnone
  · simpa only [hcutOff, hspan] using htoEnd
  · simpa only [hspan] using hlocation

/-! ## 5. Documents -/

/-- An element of a document is made from segments, apart from what analysis says of ERB tags. -/
theorem exists_made_of_mem_entries {source : List Char} {options : ParserOptions}
    {info : ElementInfo} {count : Nat} (h : .element info count ∈ (parsed source options).entries) :
    ∃ other : ElementInfo, other.Made options (options.segments source)
      ∧ info.plain = other.plain := by
  obtain ⟨entry, hentry, hplain⟩ := exists_plain_of_mem_entries h
  cases entry with
  | element other children =>
    injection hplain with hinfo
    exact ⟨other, Document.made_of_mem_entries hentry, hinfo.symm⟩
  | text | erb | comment | attr | whitespace => cases hplain

/-- **An opening tag ends right behind the first free `>` behind its name,** and at the end of the
    source if there is none; it is reported as unterminated exactly then. -/
theorem opening_tags_end_at_free_mark (source : List Char) (options : ParserOptions) :
    (lex source).Yields (2 * TokenList.tokenSize * (byteLength source + 1)) fun list =>
      (parse source options).Yields (2 * TokenList.tokenSize * (byteLength source + 1))
        fun document => ∀ info count, .element info count ∈ document.entries →
          info.EndsFree list.toList source := by
  refine (yields_lex source).imp fun list hlist => (yields_parse source options).imp ?_
  rintro document rfl info count hmem
  obtain ⟨other, hmade, hplain⟩ := exists_made_of_mem_entries hmem
  rw [hlist]
  exact hmade.endsFree.of_plain hplain

/-- The condition on `-->` is needed: here is a `>` outside of ERB in a tag without attributes, and
    the tag is reported as unterminated. -/
theorem tag_end_hidden_by_comment_end :
    ∃ list document info count, (lex "<br-->".toList).outcome .standard = .ok list
      ∧ (parse "<br-->".toList {}).outcome .standard = .ok document
      ∧ .element info count ∈ document.entries ∧ info.CutOff ∧ info.openTag.items = []
      ∧ info.openTag.name.range.stop ≤ 5 ∧ FreeByte list.toList "<br-->".toList '>' 5 := by
  have hlex : ∃ list, (lex "<br-->".toList).outcome .standard = .ok list :=
    exists_lex (by decide) (Memory.grantsUpTo_standard (by decide))
  obtain ⟨list, hlist⟩ := hlex
  have hnone : ∀ token ∈ tokens "<br-->".toList, token.kind.isErb = false := by decide +kernel
  let span : Span := ⟨.origin, ⟨6, ⟨1, 6⟩⟩⟩
  let tag : OpenTag := ⟨⟨⟨1, ⟨1, 1⟩⟩, ⟨3, ⟨1, 3⟩⟩⟩, [], false, span⟩
  let issue : Issue := ⟨.unterminatedTag "br".toList, span⟩
  refine ⟨list, _, ⟨tag, none, true, span, [issue]⟩, 0, hlist, outcome_parse {} hlist,
    by decide +kernel, ⟨_, List.mem_cons_self, _, rfl⟩, rfl, by decide, by decide, ?_⟩
  rintro ⟨token, hmem, herb, -⟩
  rw [toList_of_lex hlist] at hmem
  rw [hnone token hmem] at herb
  cases herb

end ErbTemplate
