import ErbTemplate.Source.Span
import Mathlib.Algebra.Group.Nat.Defs
import Mathlib.Data.List.Induction

/-!
# The line and the column of a byte offset

Points carry a line and a column along while they walk. This file says which line and column a
byte offset has without walking: lines are counted by the newlines before the offset, the column is
the number of characters behind the last of them, and an offset inside of a character has neither.
That is `placeAt?`, and what 32 bits leave of it is `positionAt?`.

> **`Point.LiesIn.positionAt?_eq`** — a point that was reached from the beginning of a source, over
> a part of it, stands at the line and column of its own offset.

Whether a position tells the true line and column is a question of size (`Point.Fits`). A source of
less than `2 ^ 32` bytes has room for one line too many: `2 ^ 32 - 1` newlines, and then the place
behind the last of them is the only one that is not told (`Point.fits_or_allNewlines`).
-/

set_option autoImplicit false

namespace ErbTemplate

open Text

/-! ## 1. Counting -/

/-- The line and the column right behind a text that begins a source. -/
def Place.behind (text : List Char) : Place :=
  ⟨1 + text.count '\n', (text.reverse.takeWhile (· != '\n')).length⟩

/-- The line and the column of a byte offset; `none` past the end and inside of a character. -/
def placeAt? (source : List Char) (offset : Nat) : Option Place :=
  (takeBytes? offset source).map Place.behind

/-- The line and the column of a byte offset, in words of 32 bits. -/
def positionAt? (source : List Char) (offset : Nat) : Option Position :=
  (placeAt? source offset).map Place.position

theorem Place.behind_concat (text : List Char) (c : Char) :
    behind (text ++ [c]) = (behind text).next c := by
  by_cases hc : c = '\n'
  · subst hc
    simp [behind, next, Nat.add_assoc]
  · simp [behind, next, hc]

theorem Point.place_advance_origin (text : List Char) :
    (origin.advance text).place = .behind text := by
  induction text using List.reverseRecOn with
  | nil => rfl
  | append_singleton text c ih =>
    rw [Place.behind_concat, advance_append, ← ih]
    rfl

theorem Point.offset_advance_origin (text : List Char) :
    (origin.advance text).offset = byteLength text := by
  rw [offset_advance]
  exact Nat.zero_add _

theorem Point.line_pos (text : List Char) : 1 ≤ (origin.advance text).place.line := by
  rw [place_advance_origin]
  exact Nat.le_add_right _ _

/-- A point is a place in a source: it is reached over a part of the source. -/
def Point.LiesIn (point : Point) (source : List Char) : Prop :=
  ∃ front back, source = front ++ back ∧ point = origin.advance front

namespace Point.LiesIn

variable {point : Point} {source : List Char}

theorem placeAt?_eq (h : point.LiesIn source) :
    placeAt? source point.offset = some point.place := by
  obtain ⟨front, back, rfl, rfl⟩ := h
  rw [offset_advance_origin, placeAt?, takeBytes?_byteLength_append, place_advance_origin]
  rfl

/-- **The line and column of a point in a source are those of its offset.** -/
theorem positionAt?_eq (h : point.LiesIn source) :
    positionAt? source point.offset = some point.position := by
  rw [positionAt?, h.placeAt?_eq]
  rfl

end Point.LiesIn

/-- Every offset that has a line and a column is a point of the source. -/
theorem exists_liesIn_of_placeAt? {source : List Char} {offset : Nat} {place : Place}
    (h : placeAt? source offset = some place) :
    ∃ point : Point, point.LiesIn source ∧ point.offset = offset ∧ point.place = place := by
  obtain ⟨front, hfront, rfl⟩ := Option.map_eq_some_iff.1 h
  obtain ⟨back, rfl, rfl⟩ := exists_append_of_takeBytes? hfront
  exact ⟨.advance .origin front, ⟨front, back, rfl, rfl⟩, Point.offset_advance_origin front,
    Point.place_advance_origin front⟩

/-- A newline, a character of two bytes, and the offset inside of it. -/
example : positionAt? ['a', '\n', 'é', 'b'] 4 = some ⟨2, 1⟩
    ∧ positionAt? ['a', '\n', 'é', 'b'] 3 = none := by decide

/-! ## 2. Words -/

/-- The line and the column of a point are no larger than a word of 32 bits. -/
def Point.Fits (point : Point) : Prop :=
  point.place.line < 2 ^ 32 ∧ point.place.column < 2 ^ 32

/-- **A position tells the true line and column, if they fit.** -/
theorem Point.Fits.toPlace_position {point : Point} (h : point.Fits) :
    point.position.toPlace = point.place := by
  obtain ⟨hline, hcolumn⟩ := h
  have hline' : (UInt32.ofNat point.place.line).toNat = point.place.line :=
    UInt32.toNat_ofNat_of_lt' hline
  have hcolumn' : (UInt32.ofNat point.place.column).toNat = point.place.column :=
    UInt32.toNat_ofNat_of_lt' hcolumn
  simp only [Position.toPlace, position, Place.position, hline', hcolumn']

/-- There are no more lines and columns before a place than bytes. -/
theorem Place.behind_le (text : List Char) :
    (behind text).line ≤ 1 + byteLength text ∧ (behind text).column ≤ byteLength text := by
  have hbytes := length_le_byteLength text
  have hlines : text.count '\n' ≤ text.length := List.count_le_length
  have hcolumns : (text.reverse.takeWhile (· != '\n')).length ≤ text.length := by
    have hprefix := (List.takeWhile_prefix (l := text.reverse) (· != '\n')).length_le
    rwa [List.length_reverse] at hprefix
  simp only [behind]
  omega

/-- Everything in front of the last byte that could be counted fits. -/
theorem Point.fits_advance_origin {text : List Char} (h : byteLength text + 1 < 2 ^ 32) :
    (origin.advance text).Fits := by
  obtain ⟨hline, hcolumn⟩ := Place.behind_le text
  rw [Fits, place_advance_origin]
  omega

/-- A source of nothing but newlines, as many as a word can count. -/
def AllNewlines (source : List Char) : Prop :=
  source = List.replicate (2 ^ 32 - 1) '\n'

theorem AllNewlines.length_eq {source : List Char} (h : AllNewlines source) :
    source.length = 2 ^ 32 - 1 :=
  (List.eq_replicate_iff.1 h).1

theorem allNewlines_of_count {text : List Char} (hbytes : byteLength text < 2 ^ 32)
    (hcount : 2 ^ 32 ≤ 1 + text.count '\n') : AllNewlines text := by
  have hlength := length_le_byteLength text
  have hle : text.count '\n' ≤ text.length := List.count_le_length
  have hall : text.count '\n' = text.length := by omega
  have hsize : text.length = 2 ^ 32 - 1 := by omega
  exact List.eq_replicate_iff.2
    ⟨hsize, fun c hmem => (List.count_eq_length.1 hall c hmem).symm⟩

/-- Where the bytes can be counted in 32 bits, the end of a source fits, unless it is newlines
    throughout. -/
theorem Point.fits_advance_or_allNewlines {source : List Char} (h : byteLength source < 2 ^ 32) :
    (origin.advance source).Fits ∨ AllNewlines source := by
  by_cases hcount : 1 + source.count '\n' < 2 ^ 32
  · have hcolumn := (Place.behind_le source).2
    left
    rw [Fits, place_advance_origin]
    exact ⟨hcount, by omega⟩
  · exact Or.inr (allNewlines_of_count h (Nat.le_of_not_lt hcount))

/-- The end of such a source is reported at line zero. -/
theorem positionAt?_of_allNewlines {source : List Char} (h : AllNewlines source) :
    positionAt? source (byteLength source) = some ⟨0, 0⟩ := by
  have hend : (Point.origin.advance source).LiesIn source := ⟨source, [], by simp, rfl⟩
  have hplace : (Point.origin.advance source).place = ⟨1 + (2 ^ 32 - 1), 0⟩ := by
    rw [Point.place_advance_origin, h, Place.behind, List.count_replicate_self,
      List.reverse_replicate, List.takeWhile_replicate]
    rfl
  rw [← Point.offset_advance_origin source, hend.positionAt?_eq, Point.position, hplace]
  rfl

end ErbTemplate
