import ErbTemplate.Tree.Segment
import ErbTemplate.Proofs.Token.Row
import ErbTemplate.Proofs.Source.Tiles

/-!
# Segments tile the source

A segment is read by up to six loops, and each of them says on its own where the segment ends. What
they have in common is one judgement, `Piece.Passes start pieces stop rest`: a reader that stood at
`start` before `pieces` has come to `stop` before `rest`, and `stop` is where the pieces that it
took end. Every loop is shown to pass (§2), without a word about tilings; a tiling of the pieces
then turns into a tiling of the segments in one induction (§3).
-/

set_option autoImplicit false

namespace ErbTemplate

/-! ## 1. Passing over pieces -/

namespace Piece

/-- The stretch of a piece. -/
def span (piece : Piece Token) : Span :=
  ⟨piece.start, piece.stop⟩

@[simp] theorem stopOfAll_nil (start : Point) : stopOfAll start [] = start := rfl

@[simp] theorem stopOfAll_cons (start : Point) (piece : Piece Token) (pieces : List (Piece Token)) :
    stopOfAll start (piece :: pieces) = stopOfAll piece.stop pieces := by
  rw [stopOfAll, List.getLast?_cons]
  cases h : pieces.getLast? <;> simp [stopOfAll, h]

theorem stopOfAll_append (start : Point) (front back : List (Piece Token)) :
    stopOfAll start (front ++ back) = stopOfAll (stopOfAll start front) back := by
  induction front generalizing start with
  | nil => rfl
  | cons piece front ih => simp [ih]

/-- A reader at a point before a row of pieces goes on to another point before the rest. -/
def Passes (start : Point) (pieces : List (Piece Token)) (stop : Point)
    (rest : List (Piece Token)) : Prop :=
  ∃ used, pieces = used ++ rest ∧ stop = stopOfAll start used

namespace Passes

variable {start middle stop : Point} {piece : Piece Token}
variable {pieces between rest : List (Piece Token)}

theorem refl (start : Point) (pieces : List (Piece Token)) : Passes start pieces start pieces :=
  ⟨[], rfl, rfl⟩

theorem trans (h : Passes start pieces middle between) (h' : Passes middle between stop rest) :
    Passes start pieces stop rest := by
  obtain ⟨front, rfl, rfl⟩ := h
  obtain ⟨back, rfl, rfl⟩ := h'
  exact ⟨front ++ back, by simp, (stopOfAll_append _ _ _).symm⟩

theorem cons (h : Passes piece.stop pieces stop rest) :
    Passes start (piece :: pieces) stop rest := by
  obtain ⟨used, rfl, rfl⟩ := h
  exact ⟨piece :: used, rfl, by simp⟩

theorem suffix (h : Passes start pieces stop rest) : rest <:+ pieces := by
  obtain ⟨used, rfl, -⟩ := h
  exact List.suffix_append used rest

theorem dropWhile (start : Point) (takes : Piece Token → Bool) (pieces : List (Piece Token)) :
    Passes start pieces (stopOfAll start (pieces.takeWhile takes)) (pieces.dropWhile takes) :=
  ⟨pieces.takeWhile takes, List.takeWhile_append_dropWhile.symm, rfl⟩

theorem of_dropWhile_cons {takes : Piece Token → Bool}
    (h : pieces.dropWhile takes = piece :: rest) : Passes start pieces piece.stop rest := by
  have hdrop := dropWhile start takes pieces
  rw [h] at hdrop
  exact hdrop.trans (cons (refl _ _))

theorem tiles {last : Point} (h : Passes start pieces stop rest)
    (htiles : Tiles start (pieces.map span) last) :
    start.LeadsTo stop ∧ Tiles stop (rest.map span) last := by
  obtain ⟨used, rfl, rfl⟩ := h
  induction used generalizing start with
  | nil => exact ⟨.refl start, htiles⟩
  | cons piece used ih =>
    obtain ⟨rfl, hforward, hrest⟩ := htiles
    obtain ⟨hleads, htiles⟩ := ih hrest
    rw [stopOfAll_cons]
    exact ⟨hforward.leadsTo.trans hleads, htiles⟩

end Passes

theorem tiles_locateAll {row : List (Piece Lexeme)} (hsolid : ∀ piece ∈ row, piece.text ≠ [])
    (start : Point) :
    Tiles start ((locateAll start row).map span) (start.advance (row.flatMap text)) := by
  induction row generalizing start with
  | nil => rfl
  | cons piece row ih =>
    have hfirst : (piece.locate start).span = ⟨start, start.advance piece.text⟩ := by
      cases piece with
      | markup lexeme => simp [locate, span, Piece.start, stop, Token.ofLexeme, text, parts]
      | erb opening mark ending =>
        cases ending <;>
          simp [locate, span, Piece.start, stop, Token.ofLexeme, text, parts, Ending.parts]
    have hrest := ih (fun piece h => hsolid piece (List.mem_cons_of_mem _ h))
      (start.advance piece.text)
    rw [locateAll, List.map_cons, hfirst, List.flatMap_cons, Point.advance_append]
    exact ⟨rfl, ⟨piece.text, hsolid piece List.mem_cons_self, rfl⟩, hrest⟩

end Piece

theorem text_ne_nil_of_mem_pieces {text : List Char} {piece : Piece Lexeme}
    (h : piece ∈ pieces text) : piece.text ≠ [] := by
  revert h
  fun_induction pieces text with
  | case1 => exact fun h => absurd h (by simp)
  | case2 c text ih =>
    intro h
    rcases List.mem_cons.1 h with rfl | h
    · exact Lexer.text_next_ne_nil c text
    · exact ih h

/-- **The pieces of a source tile it.** -/
theorem tiles_locatedPieces (source : List Char) :
    Tiles .origin ((locatedPieces source).map Piece.span) (Point.origin.advance source) := by
  have hsolid : ∀ piece ∈ pieces source, piece.text ≠ [] := fun _ => text_ne_nil_of_mem_pieces
  have h := Piece.tiles_locateAll hsolid .origin
  rwa [flatMap_text_pieces] at h

/-! ## 2. Every reader passes -/

namespace Segment

open Piece

variable {token name mark quote : Token} {pieces : List (Piece Token)}

theorem span_erbTag (opening : Opening) (mark : Token) (ending : Ending Token) :
    (erbTag opening mark ending).span = (Piece.erb opening mark ending).span := by
  cases ending <;> rfl

theorem passes_readComment (mark : Token) (pieces : List (Piece Token)) :
    Passes mark.span.stop pieces (readComment mark pieces).1.span.stop
      (readComment mark pieces).2 := by
  unfold readComment
  simp only
  split
  next closing rest hrest => exact .of_dropWhile_cons hrest
  next hrest => exact hrest ▸ .dropWhile _ _ _

theorem passes_readQuoted (quote : Token) (pieces : List (Piece Token)) :
    Passes quote.span.stop pieces (readQuoted quote pieces).1.span.stop
      (readQuoted quote pieces).2 := by
  unfold readQuoted
  simp only
  split
  next closing rest hrest => exact .of_dropWhile_cons hrest
  next hrest => exact hrest ▸ .dropWhile _ _ _

/-- Where there is no value, the attribute ends with the equals sign. -/
theorem passes_readValue (start : Point) (pieces : List (Piece Token)) :
    Passes start pieces (((readValue pieces).1.map fun value => value.span.stop).getD start)
      (readValue pieces).2 := by
  unfold readValue
  split
  next => exact .refl start []
  next first pieces =>
    split
    next token =>
      split
      · exact Passes.cons (passes_readQuoted token pieces)
      · -- a value without quotes may be empty, and then nothing is passed over
        have h := Passes.dropWhile start isBareValue (.markup token :: pieces)
        cases hinside : (Piece.markup token :: pieces).takeWhile isBareValue with
        | nil => simpa [hinside] using h
        | cons other inside => simpa [hinside] using h
    next => exact .refl start _

theorem passes_readAttribute (name : Token) (pieces : List (Piece Token)) :
    Passes name.span.stop pieces (readAttribute name pieces).1.span.stop
      (readAttribute name pieces).2 := by
  unfold readAttribute
  split
  next equals more =>
    split
    · exact Passes.cons (passes_readValue equals.span.stop more)
    · exact .refl _ _
  next => exact .refl _ _

theorem passes_readTagBody (track : Bool) (stop : Point) (pieces : List (Piece Token)) :
    Passes stop pieces (readTagBody track stop pieces).stop
      (readTagBody track stop pieces).rest := by
  fun_induction readTagBody track stop pieces with
  | case1 stop => exact .refl stop []
  | case2 stop opening mark ending pieces tag ih =>
    have hstop : tag.span.stop = (Piece.erb opening mark ending).stop :=
      congrArg Span.stop (span_erbTag opening mark ending)
    exact Passes.cons (hstop ▸ ih)
  | case3 stop token pieces _ => exact Passes.cons (.refl _ _)
  | case4 stop token pieces _ => exact Passes.cons (.refl _ _)
  | case5 stop token pieces _ ih | case6 stop token pieces _ ih =>
    rw [TagBody.stop_consSpace, TagBody.rest_consSpace]
    exact Passes.cons ih
  | case7 stop token pieces _ attr ih =>
    exact Passes.cons ((passes_readAttribute token pieces).trans ih)
  | case8 stop token pieces _ _ _ _ _ ih => exact Passes.cons ih

/-- The stretch of a segment. -/
def span : Segment → Span
  | text token => token.span
  | erb tag => tag.span
  | comment value => value.span
  | openTag _ tag _ => tag.span
  | closeTag _ tag => tag.span

/-- **A segment begins with its token and ends where its reader has come to.** -/
theorem passes_next (track : Bool) (token : Token) (pieces : List (Piece Token)) :
    (next track token pieces).1.span.start = token.span.start
      ∧ Passes token.span.stop pieces (next track token pieces).1.span.stop
        (next track token pieces).2 := by
  unfold next
  split
  next =>
    refine ⟨?_, passes_readComment token _⟩
    simp only [span, readComment]
    split <;> rfl
  next name more _ =>
    split
    · exact ⟨rfl, Passes.cons (passes_readTagBody track name.span.stop more)⟩
    · exact ⟨rfl, .refl _ _⟩
  next name stop more _ =>
    split
    · exact ⟨rfl, Passes.cons (Passes.cons (.refl _ _))⟩
    · exact ⟨rfl, .refl _ _⟩
  next => exact ⟨rfl, .refl _ _⟩

end Segment

/-! ## 3. Segments -/

theorem tiles_segments {track : Bool} {pieces : List (Piece Token)} {start stop : Point}
    (h : Tiles start (pieces.map Piece.span) stop) :
    Tiles start ((segments track pieces).map Segment.span) stop := by
  fun_induction segments track pieces generalizing start with
  | case1 => exact h
  | case2 opening mark ending pieces ih =>
    obtain ⟨hstart, hforward, hrest⟩ := h
    have hspan := Segment.span_erbTag opening mark ending
    rw [← hspan] at hstart hforward hrest
    exact ⟨hstart, hforward, ih hrest⟩
  | case3 token pieces ih =>
    obtain ⟨hstart, hforward, hrest⟩ := h
    obtain ⟨hbegin, hpasses⟩ := Segment.passes_next track token pieces
    obtain ⟨hleads, htiles⟩ := hpasses.tiles hrest
    refine ⟨hbegin.trans hstart, ?_, ih htiles⟩
    rw [hbegin]
    exact hforward.trans_leadsTo hleads

/-- **The segments of a source tile it.** -/
theorem tiles_segments_locatedPieces (track : Bool) (source : List Char) :
    Tiles .origin ((segments track (locatedPieces source)).map Segment.span)
      (Point.origin.advance source) :=
  tiles_segments (tiles_locatedPieces source)

end ErbTemplate
