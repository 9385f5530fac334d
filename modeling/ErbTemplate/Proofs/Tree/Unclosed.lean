import ErbTemplate.Proofs.Tree.Segments

/-!
# Where a source runs out

A segment is *unclosed* when it lacks what should end it: an ERB tag its closing delimiter, a
comment its end mark, an opening tag its `>`. The definition looks at the parts of the segment and
not at the issues it carries; that the two agree is what this file shows (`Segment.Faithful`).

Both directions rest on one fact about the lexer: an ERB tag that is not closed takes all that is
left of the source, so it is the last piece (`openLast_locatedPieces`). An unclosed segment is then
the last one too, and reaches the end of the source; and an opening tag that found its `>` has no
unclosed ERB tag inside.
-/

set_option autoImplicit false

namespace ErbTemplate

/-! ## 1. Only the last piece may be open -/

namespace Piece

variable {α : Type}

/-- Whether a piece is complete: an ERB tag needs its closing delimiter. -/
def isClosed : Piece α → Bool
  | markup _ => true
  | erb _ _ ending => ending.closing?.isSome

/-- Nothing follows a piece that is not closed. -/
def OpenLast : List (Piece α) → Prop
  | [] => True
  | piece :: pieces => (piece.isClosed = false → pieces = []) ∧ OpenLast pieces

theorem OpenLast.suffix {pieces rest : List (Piece α)} (h : OpenLast pieces)
    (hrest : rest <:+ pieces) : OpenLast rest := by
  obtain ⟨front, rfl⟩ := hrest
  induction front with
  | nil => exact h
  | cons piece front ih => exact ih h.2

theorem isClosed_locate (start : Point) (piece : Piece Lexeme) :
    (piece.locate start).isClosed = piece.isClosed := by
  cases piece with
  | markup lexeme => rfl
  | erb opening mark ending => cases ending <;> rfl

theorem openLast_locateAll {row : List (Piece Lexeme)} (h : OpenLast row) (start : Point) :
    OpenLast (locateAll start row) := by
  induction row generalizing start with
  | nil => exact trivial
  | cons piece row ih =>
    refine ⟨fun hopen => ?_, ih h.2 (start.advance piece.text)⟩
    rw [isClosed_locate] at hopen
    rw [h.1 hopen]
    rfl

end Piece

theorem Lexer.next_eq_nil_of_open {c : Char} {text : List Char}
    (h : (next c text).1.isClosed = false) : (next c text).2 = [] := by
  revert h
  unfold next
  split
  next opening _ =>
    simp only [Piece.isClosed]
    cases (c :: text).drop opening.text.length with
    | nil => exact fun _ => rfl
    | cons d rest =>
      simp only [erbEnding]
      split
      · exact fun _ => rfl
      · exact fun h => absurd h (by simp [Ending.closing?])
  next => exact fun h => absurd h (by simp [Piece.isClosed])

theorem openLast_locatedPieces (source : List Char) : Piece.OpenLast (locatedPieces source) := by
  refine Piece.openLast_locateAll ?_ .origin
  fun_induction pieces source with
  | case1 => exact trivial
  | case2 c text ih =>
    refine ⟨fun hopen => ?_, ih⟩
    rw [Lexer.next_eq_nil_of_open hopen]
    simp [pieces]

/-! ## 2. Unclosed segments -/

/-- The issues of the items of an opening tag. -/
def TagItem.issuesOfAll (items : List TagItem) : List Issue :=
  (items.map Entry.ofItem).flatMap Entry.issues

namespace Segment

/-- A segment lacks what should end it. The content of a comment then goes as far as the comment. -/
def Unclosed : Segment → Prop
  | erb tag => tag.closing = none
  | comment value => value.content.stop = value.span.stop
  | openTag _ _ terminated => terminated = false
  | text _ | closeTag .. => False

/-- The issues that a segment brings along say whether it is unclosed; those of an opening tag are
    made later, so that its items must not bring any. -/
def Faithful : Segment → Prop
  | erb tag => tag.issues = [] ↔ ¬ tag.closing = none
  | comment value => value.issues = [] ↔ ¬ value.content.stop = value.span.stop
  | openTag _ tag terminated => terminated = true → TagItem.issuesOfAll tag.items = []
  | text _ | closeTag .. => True

theorem faithful_erbTag (opening : Opening) (mark : Token) (ending : Ending Token) :
    (Segment.erb (erbTag opening mark ending)).Faithful := by
  cases ending <;> simp [Faithful, erbTag, Ending.closing?]

theorem unclosed_erbTag_iff (opening : Opening) (mark : Token) (ending : Ending Token) :
    (Segment.erb (erbTag opening mark ending)).Unclosed
      ↔ (Piece.erb opening mark ending).isClosed = false := by
  cases ending <;> simp [Unclosed, erbTag, Ending.closing?, Piece.isClosed]

theorem faithful_readComment {mark : Token} {pieces : List (Piece Token)} {last : Point}
    (htiles : Tiles mark.span.stop (pieces.map Piece.span) last) :
    (Segment.comment (readComment mark pieces).1).Faithful
      ∧ ((Segment.comment (readComment mark pieces).1).Unclosed →
        (readComment mark pieces).2 = []) := by
  have hpasses := Piece.Passes.dropWhile mark.span.stop
    (fun piece => !piece.isMarkup .commentEnd) pieces
  simp only [Faithful, Unclosed, readComment]
  split
  next closing rest hrest =>
    -- the end mark goes forward from where the content ends
    rw [hrest] at hpasses
    obtain ⟨-, hstart, hforward, -⟩ := hpasses.tiles htiles
    rw [hstart] at hforward
    have hne := hforward.ne
    exact ⟨⟨fun _ => hne, fun _ => rfl⟩, fun heq => absurd heq hne⟩
  next => exact ⟨⟨fun h => absurd h (by simp), fun h => absurd rfl h⟩, fun _ => rfl⟩

theorem rest_readTagBody_eq_nil {track : Bool} {stop : Point} {pieces : List (Piece Token)}
    (h : (readTagBody track stop pieces).terminated = false) :
    (readTagBody track stop pieces).rest = [] := by
  fun_induction readTagBody track stop pieces with
  | case1 => rfl
  | case2 _ _ _ _ _ _ ih => exact ih h
  | case3 => cases h
  | case4 => cases h
  | case5 _ _ _ _ ih | case6 _ _ _ _ ih =>
    rw [TagBody.terminated_consSpace] at h
    rw [TagBody.rest_consSpace]
    exact ih h
  | case7 _ _ _ _ _ ih => exact ih h
  | case8 _ _ _ _ _ _ _ _ ih => exact ih h

theorem issues_readTagBody {track : Bool} {stop : Point} {pieces : List (Piece Token)}
    (hlast : Piece.OpenLast pieces) (h : (readTagBody track stop pieces).terminated = true) :
    TagItem.issuesOfAll (readTagBody track stop pieces).items = [] := by
  fun_induction readTagBody track stop pieces with
  | case1 => cases h
  | case2 stop opening mark ending pieces tag ih =>
    -- the tag is not the last piece, because the `>` is still to come
    have hclosed : ¬ tag.closing = none := by
      intro hnone
      have hempty : pieces = [] := hlast.1 ((unclosed_erbTag_iff opening mark ending).1 hnone)
      rw [hempty, TagBody.cons, readTagBody] at h
      cases h
    have htag : tag.issues = [] := (faithful_erbTag opening mark ending).2 hclosed
    exact List.append_eq_nil_iff.2 ⟨htag, ih hlast.2 h⟩
  | case3 => rfl
  | case4 => rfl
  | case5 stop token pieces _ ih | case6 stop token pieces _ ih =>
    rw [TagBody.terminated_consSpace] at h
    cases track <;> exact ih hlast.2 h
  | case7 stop token pieces _ attr ih =>
    exact ih (hlast.2.suffix (passes_readAttribute token pieces).suffix) h
  | case8 stop token pieces _ _ _ _ _ ih => exact ih hlast.2 h

/-- **The issues of a segment are faithful, and an unclosed segment leaves nothing.** -/
theorem faithful_next {track : Bool} {token : Token} {pieces : List (Piece Token)} {last : Point}
    (htiles : Tiles token.span.stop (pieces.map Piece.span) last)
    (hlast : Piece.OpenLast pieces) :
    (next track token pieces).1.Faithful
      ∧ ((next track token pieces).1.Unclosed → (next track token pieces).2 = []) := by
  unfold next
  split
  next => exact faithful_readComment htiles
  next name more _ =>
    split
    · exact ⟨issues_readTagBody hlast.2, rest_readTagBody_eq_nil⟩
    · exact ⟨trivial, fun h => h.elim⟩
  next =>
    split
    · exact ⟨trivial, fun h => h.elim⟩
    · exact ⟨trivial, fun h => h.elim⟩
  next => exact ⟨trivial, fun h => h.elim⟩

end Segment

/-- Segments are faithful, and an unclosed one ends where all of them end. -/
theorem faithful_of_mem_segments (track : Bool) {pieces : List (Piece Token)}
    {start stop : Point}
    (htiles : Tiles start (pieces.map Piece.span) stop) (hlast : Piece.OpenLast pieces) :
    ∀ segment ∈ segments track pieces,
      segment.Faithful ∧ (segment.Unclosed → segment.span.stop = stop) := by
  fun_induction segments track pieces generalizing start with
  | case1 => simp
  | case2 opening mark ending pieces ih =>
    obtain ⟨-, -, hrest⟩ := htiles
    refine List.forall_mem_cons.2 ⟨⟨Segment.faithful_erbTag opening mark ending, ?_⟩,
      ih hrest hlast.2⟩
    intro hopen
    rw [hlast.1 ((Segment.unclosed_erbTag_iff opening mark ending).1 hopen)] at hrest
    rw [Segment.span, Segment.span_erbTag]
    exact hrest
  | case3 token pieces ih =>
    obtain ⟨-, -, hrest⟩ := htiles
    obtain ⟨-, hpasses⟩ := Segment.passes_next track token pieces
    obtain ⟨hfaithful, hnothing⟩ := Segment.faithful_next hrest hlast.2
    obtain ⟨-, hafter⟩ := hpasses.tiles hrest
    refine List.forall_mem_cons.2 ⟨⟨hfaithful, ?_⟩,
      ih hafter (hlast.2.suffix hpasses.suffix)⟩
    intro hopen
    rw [hnothing hopen] at hafter
    exact hafter

end ErbTemplate
