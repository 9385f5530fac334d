import ErbTemplate.Proofs.Source.Tiles

/-!
# Rows of spans with gaps

A tiling leaves nothing out. What a tree shows in source order does leave things out: the equals
sign of an attribute, the delimiters of tags, the closing tags. Such a row only *ascends*: each span
begins where the one before it ends, or later.

Nothing more is needed to keep two spans of a row apart (`Ascends.pairwise`), and unlike a tiling
it survives when spans are left out of the row (`Ascends.sublist`).
-/

set_option autoImplicit false

namespace ErbTemplate

/-- A row of spans goes forward from one point to another, perhaps with gaps. -/
def Ascends : Point → List Span → Point → Prop
  | start, [], stop => start.LeadsTo stop
  | start, span :: row, stop =>
    start.LeadsTo span.start ∧ span.start.Reaches span.stop ∧ Ascends span.stop row stop

namespace Ascends

variable {start stop : Point} {row fewer : List Span} {span : Span}

theorem leadsTo (h : Ascends start row stop) : start.LeadsTo stop := by
  induction row generalizing start with
  | nil => exact h
  | cons span row ih =>
    obtain ⟨hstart, hforward, hrest⟩ := h
    exact (hstart.trans hforward.leadsTo).trans (ih hrest)

theorem of_leadsTo {earlier : Point} (hearlier : earlier.LeadsTo start)
    (h : Ascends start row stop) : Ascends earlier row stop := by
  cases row with
  | nil => exact hearlier.trans h
  | cons span row => exact ⟨hearlier.trans h.1, h.2⟩

theorem append {middle : Point} {back : List Span} (h : Ascends start row middle)
    (h' : Ascends middle back stop) : Ascends start (row ++ back) stop := by
  induction row generalizing start with
  | nil => exact h'.of_leadsTo h
  | cons span row ih => exact ⟨h.1, h.2.1, ih h.2.2⟩

theorem concat {middle : Point} (h : Ascends start row middle) (hmiddle : middle.LeadsTo span.start)
    (hforward : span.start.Reaches span.stop) : Ascends start (row ++ [span]) span.stop :=
  h.append ⟨hmiddle, hforward, .refl _⟩

/-- Take the last span off: it begins where the row before it has come to, or later. -/
theorem of_concat (h : Ascends start (row ++ [span]) stop) :
    Ascends start row span.start ∧ span.start.Reaches span.stop ∧ span.stop.LeadsTo stop := by
  induction row generalizing start with
  | nil => exact h
  | cons first row ih =>
    obtain ⟨hstart, hforward, hrest⟩ := h
    obtain ⟨hrow, hlast⟩ := ih hrest
    exact ⟨⟨hstart, hforward, hrow⟩, hlast⟩

theorem sublist (h : Ascends start row stop) (hfewer : fewer.Sublist row) :
    Ascends start fewer stop := by
  induction hfewer generalizing start with
  | slnil => exact h
  | cons span _ ih =>
    obtain ⟨hstart, hforward, hrest⟩ := h
    exact (ih hrest).of_leadsTo (hstart.trans hforward.leadsTo)
  | cons_cons span _ ih => exact ⟨h.1, h.2.1, ih h.2.2⟩

theorem of_mem (h : Ascends start row stop) (hmem : span ∈ row) :
    start.LeadsTo span.start ∧ span.start.Reaches span.stop ∧ span.stop.LeadsTo stop := by
  have hone : [span].Sublist row := List.singleton_sublist.2 hmem
  exact h.sublist hone

/-- **Of two spans of a row the first ends before the second begins.** -/
theorem pairwise (h : Ascends start row stop) :
    row.Pairwise fun first second => first.stop.LeadsTo second.start := by
  induction row generalizing start with
  | nil => exact .nil
  | cons first row ih =>
    obtain ⟨-, -, hrest⟩ := h
    refine .cons ?_ (ih hrest)
    intro second hmem
    exact (hrest.of_mem hmem).1

end Ascends

end ErbTemplate
