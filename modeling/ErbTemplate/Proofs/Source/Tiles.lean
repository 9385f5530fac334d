import ErbTemplate.Proofs.Source.Position
import Mathlib.Data.List.Perm.Basic

/-!
# Rows of spans

A row of spans *tiles* the way from one point to another when each span begins where the one before
it ends and goes forward. `Tiles` says this of points, which carry the byte offset and the true line
and column; what reports show are positions in words of 32 bits, and `TilesLocations` says it of
them. The first gives the second where the bytes can be counted in 32 bits (`Tiles.locations`).

Going forward is what makes a tiling rigid: a span that ends where the row ends is the last one
(`Tiles.exists_concat`), and no span occurs twice (`Tiles.nodup`).
-/

set_option autoImplicit false

namespace ErbTemplate

/-! ## 1. Forward -/

/-- One place stands before another, by line and then by column. -/
def Place.Before (first second : Place) : Prop :=
  first.line < second.line ∨ (first.line = second.line ∧ first.column < second.column)

/-- One place stands before another, or is the same. -/
def Place.AtMost (first second : Place) : Prop :=
  first = second ∨ first.Before second

/-- One position stands before another, by the numbers that they stand for. -/
def Position.Before (first second : Position) : Prop :=
  first.toPlace.Before second.toPlace

/-- One position stands before another, or is the same. -/
def Position.AtMost (first second : Position) : Prop :=
  first.toPlace.AtMost second.toPlace

theorem Place.Before.trans {first second third : Place} (h : first.Before second)
    (h' : second.Before third) : first.Before third := by
  unfold Place.Before at *
  omega

theorem Place.Before.irrefl {place : Place} : ¬ place.Before place := by
  unfold Place.Before
  omega

namespace Point

/-- A point is reached from another by walking over a text. -/
def LeadsTo (first second : Point) : Prop :=
  ∃ text, second = first.advance text

/-- A point is reached from another by walking over at least one character. -/
def Reaches (first second : Point) : Prop :=
  ∃ text, text ≠ [] ∧ second = first.advance text

theorem LeadsTo.refl (point : Point) : point.LeadsTo point := ⟨[], rfl⟩

theorem Reaches.leadsTo {first second : Point} (h : first.Reaches second) :
    first.LeadsTo second :=
  let ⟨text, _, heq⟩ := h
  ⟨text, heq⟩

theorem LeadsTo.trans {first second third : Point} (h : first.LeadsTo second)
    (h' : second.LeadsTo third) : first.LeadsTo third := by
  obtain ⟨front, rfl⟩ := h
  obtain ⟨back, rfl⟩ := h'
  exact ⟨front ++ back, by simp⟩

theorem Reaches.trans_leadsTo {first second third : Point} (h : first.Reaches second)
    (h' : second.LeadsTo third) : first.Reaches third := by
  obtain ⟨front, hne, rfl⟩ := h
  obtain ⟨back, rfl⟩ := h'
  exact ⟨front ++ back, by simp [hne], by simp⟩

theorem LeadsTo.offset_le {first second : Point} (h : first.LeadsTo second) :
    first.offset ≤ second.offset := by
  obtain ⟨text, rfl⟩ := h
  rw [offset_advance]
  omega

theorem before_next (point : Point) (c : Char) : point.place.Before (point.next c).place := by
  unfold next Place.next Place.Before
  split <;> simp

theorem Reaches.offset_lt {first second : Point} (h : first.Reaches second) :
    first.offset < second.offset := by
  obtain ⟨text, hne, rfl⟩ := h
  cases text with
  | nil => exact absurd rfl hne
  | cons c text =>
    have hc := Char.utf8Size_pos c
    rw [offset_advance, Text.byteLength_cons]
    omega

theorem Reaches.ne {first second : Point} (h : first.Reaches second) : first ≠ second := by
  rintro rfl
  exact Nat.lt_irrefl _ h.offset_lt

theorem Reaches.before {first second : Point} (h : first.Reaches second) :
    first.place.Before second.place := by
  obtain ⟨text, hne, rfl⟩ := h
  induction text generalizing first with
  | nil => exact absurd rfl hne
  | cons c text ih =>
    have hfirst := before_next first c
    cases text with
    | nil => exact hfirst
    | cons d text => exact hfirst.trans (ih (by simp))

theorem LeadsTo.atMost {first second : Point} (h : first.LeadsTo second) :
    first.place.AtMost second.place := by
  obtain ⟨text, rfl⟩ := h
  cases text with
  | nil => exact Or.inl rfl
  | cons c text => exact Or.inr (Reaches.before ⟨c :: text, by simp, rfl⟩)

/-- One point stands before another: by its bytes, by its true line and column, and by what is
    reported unless a line or a column is too large for that. -/
structure Precedes (first second : Point) : Prop where
  offset : first.offset < second.offset
  place : first.place.Before second.place
  position : first.Fits → second.Fits → first.position.Before second.position

/-- One point stands before another, or is the same, in the three ways of `Precedes`. -/
structure NotAfter (first second : Point) : Prop where
  offset : first.offset ≤ second.offset
  place : first.place.AtMost second.place
  position : first.Fits → second.Fits → first.position.AtMost second.position

theorem Reaches.precedes {first second : Point} (h : first.Reaches second) :
    first.Precedes second := by
  refine ⟨h.offset_lt, h.before, fun hfirst hsecond => ?_⟩
  rw [Position.Before, hfirst.toPlace_position, hsecond.toPlace_position]
  exact h.before

theorem LeadsTo.notAfter {first second : Point} (h : first.LeadsTo second) :
    first.NotAfter second := by
  refine ⟨h.offset_le, h.atMost, fun hfirst hsecond => ?_⟩
  rw [Position.AtMost, hfirst.toPlace_position, hsecond.toPlace_position]
  exact h.atMost

theorem fits_of_offset_lt {point : Point} (hafter : origin.LeadsTo point)
    (hoffset : point.offset + 1 < 2 ^ 32) : point.Fits := by
  obtain ⟨text, rfl⟩ := hafter
  rw [offset_advance_origin] at hoffset
  exact fits_advance_origin hoffset

/-- **Where the bytes of a source can be counted in 32 bits, all its places fit**, but for the end
    of a source that is newlines throughout. -/
theorem fits_or_allNewlines {point : Point} {source : List Char} (hafter : origin.LeadsTo point)
    (hbefore : point.LeadsTo (origin.advance source)) (hbytes : Text.byteLength source < 2 ^ 32) :
    point.Fits ∨ AllNewlines source ∧ point = origin.advance source := by
  obtain ⟨text, htext⟩ := hbefore
  by_cases htext' : text = []
  · rw [htext', advance_nil] at htext
    rw [← htext]
    exact (fits_advance_or_allNewlines hbytes).imp_right fun hall => ⟨hall, rfl⟩
  · -- a byte is left behind the point
    have hlt := Reaches.offset_lt ⟨text, htext', htext⟩
    rw [offset_advance_origin] at hlt
    exact Or.inl (fits_of_offset_lt hafter (by omega))

/-- Two points that can be counted are never reported at the same line and column. -/
theorem Reaches.position_ne {first second : Point} (h : first.Reaches second)
    (hafter : origin.LeadsTo first) (hoffset : second.offset < 2 ^ 32) :
    first.position ≠ second.position := by
  intro hsame
  have hlt := h.offset_lt
  have hfirst : first.Fits := fits_of_offset_lt hafter (by omega)
  by_cases hsecond : second.Fits
  · have hbefore := (h.precedes.position hfirst hsecond)
    rw [hsame] at hbefore
    exact Place.Before.irrefl hbefore
  · -- the second stands behind as many lines as a word can count, and its own counts as zero
    obtain ⟨front, rfl⟩ := hafter
    obtain ⟨text, htext⟩ : origin.LeadsTo second := LeadsTo.trans ⟨front, rfl⟩ h.leadsTo
    rw [htext, Fits, place_advance_origin] at hsecond
    rw [htext, offset_advance_origin] at hoffset
    obtain ⟨hline, hcolumn⟩ := Place.behind_le text
    have hfull : (Place.behind text).line = 2 ^ 32 := by omega
    have hzero : second.position.line = 0 := by
      rw [htext, position, Place.position, place_advance_origin, hfull]
      rfl
    have htrue := congrArg Place.line hfirst.toPlace_position
    have hnone : (origin.advance front).position.toPlace.line = 0 := by
      rw [hsame, Position.toPlace, hzero]
      rfl
    have hpos := line_pos front
    omega

end Point

/-! ## 2. Tilings -/

/-- A row of spans goes from one point to another, each span forward and none left out. -/
def Tiles : Point → List Span → Point → Prop
  | start, [], stop => start = stop
  | start, span :: row, stop =>
    span.start = start ∧ span.start.Reaches span.stop ∧ Tiles span.stop row stop

theorem tiles_append_iff {front back : List Span} {start stop : Point} :
    Tiles start (front ++ back) stop
      ↔ ∃ middle, Tiles start front middle ∧ Tiles middle back stop := by
  induction front generalizing start with
  | nil => exact ⟨fun h => ⟨start, rfl, h⟩, fun ⟨_, hfront, hback⟩ => hfront ▸ hback⟩
  | cons span front ih =>
    simp only [List.cons_append, Tiles, ih]
    constructor
    · rintro ⟨hstart, hforward, middle, hfront, hback⟩
      exact ⟨middle, ⟨hstart, hforward, hfront⟩, hback⟩
    · rintro ⟨middle, ⟨hstart, hforward, hfront⟩, hback⟩
      exact ⟨hstart, hforward, middle, hfront, hback⟩

namespace Tiles

variable {start stop : Point} {row : List Span} {span : Span}

theorem leadsTo (h : Tiles start row stop) : start.LeadsTo stop := by
  induction row generalizing start with
  | nil => exact h ▸ .refl _
  | cons span row ih =>
    obtain ⟨rfl, hforward, hrest⟩ := h
    exact hforward.leadsTo.trans (ih hrest)

theorem concat (h : Tiles start row stop) (hstart : span.start = stop)
    (hforward : span.start.Reaches span.stop) : Tiles start (row ++ [span]) span.stop :=
  tiles_append_iff.2 ⟨stop, h, hstart, hforward, rfl⟩

/-- **A span that ends at the byte where the row ends is the last one.** -/
theorem exists_concat (h : Tiles start row stop) (hmem : span ∈ row)
    (hstop : span.stop.offset = stop.offset) :
    ∃ front, row = front ++ [span] ∧ Tiles start front span.start ∧ span.stop = stop
      ∧ span.start.Reaches span.stop := by
  obtain ⟨front, back, rfl⟩ := List.append_of_mem hmem
  obtain ⟨middle, hfront, rfl, hforward, hback⟩ := tiles_append_iff.1 h
  cases back with
  | nil => exact ⟨front, rfl, hfront, hback, hforward⟩
  | cons other back =>
    -- another span behind this one would lead further
    obtain ⟨hnext, hother, hrest⟩ := hback
    have hlt := hother.offset_lt
    have hle := hrest.leadsTo.offset_le
    rw [hnext] at hlt
    omega

theorem eq_nil (h : Tiles start row start) : row = [] := by
  cases row with
  | nil => rfl
  | cons span row =>
    obtain ⟨hstart, hforward, hrest⟩ := h
    have hlt := hforward.offset_lt
    have hle := hrest.leadsTo.offset_le
    rw [hstart] at hlt
    omega

theorem start_eq_or_reaches (h : Tiles start row stop) (hmem : span ∈ row) :
    span.start = start ∨ start.Reaches span.start := by
  induction row generalizing start with
  | nil => cases hmem
  | cons first row ih =>
    obtain ⟨rfl, hforward, hrest⟩ := h
    rcases List.mem_cons.1 hmem with rfl | hmem
    · exact Or.inl rfl
    · right
      rcases ih hrest hmem with heq | hreaches
      · exact heq ▸ hforward
      · exact hforward.trans_leadsTo hreaches.leadsTo

theorem pairwise (h : Tiles start row stop) :
    row.Pairwise fun first second => first.start.Reaches second.start := by
  induction row generalizing start with
  | nil => exact .nil
  | cons first row ih =>
    obtain ⟨rfl, hforward, hrest⟩ := h
    refine .cons ?_ (ih hrest)
    intro second hmem
    rcases hrest.start_eq_or_reaches hmem with heq | hreaches
    · exact heq ▸ hforward
    · exact hforward.trans_leadsTo hreaches.leadsTo

theorem leadsTo_start (h : Tiles start row stop) (hmem : span ∈ row) :
    start.LeadsTo span.start := by
  rcases h.start_eq_or_reaches hmem with heq | hreaches
  · exact heq ▸ .refl _
  · exact hreaches.leadsTo

/-- Every span of a row begins in front of where the row ends. -/
theorem offset_start_lt (h : Tiles start row stop) (hmem : span ∈ row) :
    span.start.offset < stop.offset := by
  obtain ⟨front, back, rfl⟩ := List.append_of_mem hmem
  obtain ⟨middle, -, rfl, hforward, hback⟩ := tiles_append_iff.1 h
  exact Nat.lt_of_lt_of_le hforward.offset_lt hback.leadsTo.offset_le

theorem nodup (h : Tiles start row stop) : row.Nodup := by
  refine h.pairwise.imp ?_
  intro first second hreaches heq
  exact hreaches.ne (congrArg Span.start heq)

end Tiles

/-! ## 3. Positions -/

/-- A row of locations goes from one position to another, none empty and none left out. -/
def TilesLocations : Position → List Location → Position → Prop
  | start, [], stop => start = stop
  | start, location :: row, stop =>
    location.start = start ∧ location.start ≠ location.stop
      ∧ TilesLocations location.stop row stop

/-- **A tiling of points is a tiling of positions**, as far as lines can be counted. -/
theorem Tiles.locations {start stop : Point} {row : List Span} (h : Tiles start row stop)
    (hafter : Point.origin.LeadsTo start) (hoffset : stop.offset < 2 ^ 32) :
    TilesLocations start.position (row.map Span.location) stop.position := by
  induction row generalizing start with
  | nil => exact congrArg Point.position h
  | cons span row ih =>
    obtain ⟨rfl, hforward, hrest⟩ := h
    have hle := hrest.leadsTo.offset_le
    exact ⟨rfl, hforward.position_ne hafter (by omega), ih hrest (hafter.trans hforward.leadsTo)⟩

end ErbTemplate
