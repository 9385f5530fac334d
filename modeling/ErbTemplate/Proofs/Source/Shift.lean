import ErbTemplate.Proofs.Source.Position
import ErbTemplate.Proofs.Token.Row

/-!
# Places behind a front part

A text that stands behind another one keeps its places in all but their names: byte offsets grow by
the bytes of the front part, lines by its lines, and columns grow on the first line only, which is
the one that the two texts share. `Place.shift` and its kin say so, and

> **`Token.rowFrom_eq_map_shift`** — tokens that are read behind a front part are the tokens that
> are read from the beginning, shifted by where the front part ends.
-/

set_option autoImplicit false

namespace ErbTemplate

open Text

/-- A place of a text that itself begins at the place `base`: lines are added, and columns on
    the first line of the text. -/
def Place.shift (place base : Place) : Place :=
  ⟨base.line + (place.line - 1),
    if place.line = 1 then base.column + place.column else place.column⟩

/-- A place of a text that itself begins at the place `base`. -/
def Point.shift (point base : Point) : Point :=
  ⟨base.offset + point.offset, point.place.shift base.place⟩

/-- A stretch of a text that itself begins at the place `base`. -/
def Span.shift (span : Span) (base : Point) : Span :=
  ⟨span.start.shift base, span.stop.shift base⟩

/-- A token of a text that itself begins at the place `base`. -/
def Token.shift (token : Token) (base : Point) : Token :=
  { token with span := token.span.shift base }

/-- The end of a text, by the number of its bytes and by its lines. -/
def Point.behind (text : List Char) : Point :=
  ⟨byteLength text, .behind text⟩

namespace Point

theorem advance_origin (text : List Char) : origin.advance text = behind text := by
  have hoffset : (origin.advance text).offset = byteLength text := by
    simp [origin]
  have hplace := place_advance_origin text
  cases h : origin.advance text with
  | mk offset place =>
    rw [h] at hoffset hplace
    simp only at hoffset hplace
    rw [hoffset, hplace]
    rfl

theorem shift_next {point : Point} (base : Point) (c : Char) (h : 1 ≤ point.place.line) :
    (point.next c).shift base = (point.shift base).next c := by
  by_cases hc : c = '\n'
  · have hline : base.place.line + point.place.line
        = base.place.line + (point.place.line - 1) + 1 := by omega
    have hlater : point.place.line ≠ 0 := by omega
    simp [shift, next, Place.next, Place.shift, hc, hline, hlater, Nat.add_assoc]
  · by_cases hfirst : point.place.line = 1 <;>
      simp [shift, next, Place.next, Place.shift, hc, hfirst, Nat.add_assoc]

/-- **Walking from a place is walking from the beginning, shifted.** -/
theorem advance_eq_shift (base : Point) (text : List Char) :
    base.advance text = (origin.advance text).shift base := by
  induction text using List.reverseRecOn with
  | nil => simp [shift, Place.shift, origin]
  | append_singleton text c ih =>
    rw [advance_append, advance_append, ih]
    exact (shift_next base c (line_pos text)).symm

end Point

/-- **Tokens behind a front part are tokens from the beginning, shifted.** -/
theorem Token.rowFrom_eq_map_shift (base : Point) (lexemes : List Lexeme) :
    rowFrom base lexemes = (rowFrom .origin lexemes).map (·.shift base) := by
  have h : ∀ front, rowFrom (base.advance front) lexemes
      = (rowFrom (Point.origin.advance front) lexemes).map (·.shift base) := by
    induction lexemes with
    | nil => intro front; rfl
    | cons lexeme lexemes ih =>
      intro front
      have hrest := ih (front ++ lexeme.text)
      rw [Point.advance_append, Point.advance_append] at hrest
      have hfirst : ofLexeme (base.advance front) lexeme
          = (ofLexeme (Point.origin.advance front) lexeme).shift base := by
        simp only [ofLexeme, shift, Span.shift]
        rw [← Point.advance_eq_shift, ← Point.advance_append, ← Point.advance_append,
          ← Point.advance_eq_shift]
      rw [rowFrom_cons, rowFrom_cons, List.map_cons, hrest, hfirst]
  exact h []

end ErbTemplate
