import ErbTemplate.Proofs.Source.Ascent
import ErbTemplate.Proofs.Tree.Segments
import Mathlib.Data.List.TakeWhile

/-!
# What readers can come to

Everything that is said of all segments of a source, or of all items of an opening tag, is said one
reader at a time. The two inductions that this takes are made here, once:

* `Segment.forall_mem_items` — an item is an ERB tag, white space, or the attribute of a name;
* `Segment.forall_mem_segments` — a segment is one of five, and each begins somewhere among the
  pieces.

Both hand over what the reader was given as a suffix of all pieces, since a reader looks ahead: what
an attribute or a comment becomes depends on everything behind its first token. A tiling passes to
suffixes (`Piece.exists_tiles_of_suffix`), so does everything else that is known of the pieces.

The items of an opening tag ascend (`Segment.ascends_readTagBody`), and with them what each segment
brings into a tree.
-/

set_option autoImplicit false

namespace ErbTemplate

theorem Piece.exists_tiles_of_suffix {pieces rest : List (Piece Token)} {start stop : Point}
    (h : Tiles start (pieces.map span) stop) (hrest : rest <:+ pieces) :
    ∃ middle, Tiles middle (rest.map span) stop := by
  obtain ⟨front, rfl⟩ := hrest
  rw [List.map_append] at h
  obtain ⟨middle, -, hback⟩ := tiles_append_iff.1 h
  exact ⟨middle, hback⟩

namespace Segment

open Piece

variable {track : Bool} {all pieces : List (Piece Token)}

/-! ## 1. Items of opening tags -/

namespace TagBody

variable {span : Span} {body : TagBody} {item : TagItem}

theorem mem_consSpace (h : item ∈ (body.consSpace track span).items) :
    item = .whitespace span ∨ item ∈ body.items := by
  cases track with
  | true => exact List.mem_cons.1 h
  | false => exact Or.inr h

theorem mem_consSpace_of_mem (h : item ∈ body.items) :
    item ∈ (body.consSpace track span).items := by
  cases track with
  | true => exact List.mem_cons_of_mem _ h
  | false => exact h

end TagBody

/-- **An item is an ERB tag, white space, or the attribute of a name.** -/
theorem forall_mem_items {P : TagItem → Prop}
    (herb : ∀ opening mark ending, .erb opening mark ending ∈ all →
      P (.erb (erbTag opening mark ending)))
    (hspace : ∀ token, .markup token ∈ all → P (.whitespace token.span))
    (hattr : ∀ name rest, (.markup name :: rest) <:+ all → name.kind = .identifier →
      P (.attr (readAttribute name rest).1))
    (stop : Point) (h : pieces <:+ all) :
    ∀ item ∈ (readTagBody track stop pieces).items, P item := by
  fun_induction readTagBody track stop pieces with
  | case1 => intro item hmem; cases hmem
  | case2 stop opening mark ending pieces tag ih =>
    refine List.forall_mem_cons.2 ⟨?_, ih ((List.suffix_cons _ _).trans h)⟩
    exact herb opening mark ending (h.subset List.mem_cons_self)
  | case3 => intro item hmem; cases hmem
  | case4 => intro item hmem; cases hmem
  | case5 stop token pieces _ ih | case6 stop token pieces _ ih =>
    intro item hmem
    rcases TagBody.mem_consSpace hmem with rfl | hmem
    · exact hspace token (h.subset List.mem_cons_self)
    · exact ih ((List.suffix_cons _ _).trans h) item hmem
  | case7 stop token pieces hkind attr ih =>
    -- the attribute may have taken more pieces than its name
    have hrest := (passes_readAttribute token pieces).suffix.trans
      ((List.suffix_cons (.markup token) pieces).trans h)
    exact List.forall_mem_cons.2 ⟨hattr token pieces h hkind, ih hrest⟩
  | case8 stop token pieces _ _ _ _ _ ih => exact ih ((List.suffix_cons _ _).trans h)

theorem start_readAttribute (name : Token) (pieces : List (Piece Token)) :
    (readAttribute name pieces).1.name = name.span
      ∧ (readAttribute name pieces).1.span.start = name.span.start := by
  unfold readAttribute
  split
  next => split <;> exact ⟨rfl, rfl⟩
  next => exact ⟨rfl, rfl⟩

theorem mem_dropWhile_isBareValue {opening : Opening} {mark : Token} {ending : Ending Token}
    (h : .erb opening mark ending ∈ pieces) :
    .erb opening mark ending ∈ pieces.dropWhile isBareValue := by
  rw [← List.takeWhile_append_dropWhile (p := isBareValue) (l := pieces)] at h
  rcases List.mem_append.1 h with hmem | hmem
  · have hbare : isBareValue (.erb opening mark ending) = true := List.mem_takeWhile_imp hmem
    cases hbare
  · exact hmem

theorem readValue_cases (pieces : List (Piece Token)) :
    (∃ quote more, pieces = .markup quote :: more ∧ quote.kind = .quote
        ∧ readValue pieces = (some (readQuoted quote more).1, (readQuoted quote more).2))
      ∨ (∀ value, (readValue pieces).1 = some value → value.quoted = false)
        ∧ ∀ opening mark ending, .erb opening mark ending ∈ pieces →
          .erb opening mark ending ∈ (readValue pieces).2 := by
  unfold readValue
  split
  next => exact Or.inr ⟨fun value h => (by cases h), fun _ _ _ hmem => hmem⟩
  next first more =>
    split
    next quote =>
      split
      next hquote => exact Or.inl ⟨quote, more, rfl, hquote, rfl⟩
      next =>
        refine Or.inr ⟨?_, fun _ _ _ hmem => mem_dropWhile_isBareValue hmem⟩
        intro value hvalue
        simp only at hvalue
        split at hvalue
        · cases hvalue
        · cases hvalue
          rfl
    next => exact Or.inr ⟨fun value h => (by cases h), fun _ _ _ hmem => hmem⟩

/-- **Only between quotes can an attribute take an ERB tag.** -/
theorem readAttribute_cases (name : Token) (pieces : List (Piece Token)) :
    (∃ equals quote more, pieces = .markup equals :: .markup quote :: more ∧ quote.kind = .quote
        ∧ (readAttribute name pieces).1.value = some (readQuoted quote more).1
        ∧ (readAttribute name pieces).1.span.stop = (readQuoted quote more).1.span.stop
        ∧ (readAttribute name pieces).2 = (readQuoted quote more).2)
      ∨ (∀ value, (readAttribute name pieces).1.value = some value → value.quoted = false)
        ∧ ∀ opening mark ending, .erb opening mark ending ∈ pieces →
          .erb opening mark ending ∈ (readAttribute name pieces).2 := by
  cases pieces with
  | nil => exact Or.inr ⟨fun value h => (by cases h), fun _ _ _ hmem => hmem⟩
  | cons first more =>
    cases first with
    | erb opening mark ending =>
      exact Or.inr ⟨fun value h => (by cases h), fun _ _ _ hmem => hmem⟩
    | markup equals =>
      by_cases hkind : equals.kind = .equals
      · have hvalue : (readAttribute name (.markup equals :: more)).1.value
            = (readValue more).1 := by
          simp [readAttribute, hkind]
        have hstop : (readAttribute name (.markup equals :: more)).1.span.stop
            = ((readValue more).1.map fun value => value.span.stop).getD equals.span.stop := by
          simp [readAttribute, hkind]
        have hrest : (readAttribute name (.markup equals :: more)).2 = (readValue more).2 := by
          simp [readAttribute, hkind]
        rw [hvalue, hstop, hrest]
        rcases readValue_cases more with ⟨quote, inside, rfl, hquote, hread⟩ | ⟨hbare, hkeeps⟩
        · rw [hread]
          exact Or.inl ⟨equals, quote, inside, rfl, hquote, rfl, rfl, rfl⟩
        · refine Or.inr ⟨hbare, fun opening mark ending hmem => ?_⟩
          rcases List.mem_cons.1 hmem with heq | hmem
          · cases heq
          · exact hkeeps opening mark ending hmem
      · have hread : readAttribute name (.markup equals :: more)
            = (⟨name.span, none, name.span⟩, .markup equals :: more) := by
          simp [readAttribute, hkind]
        rw [hread]
        exact Or.inr ⟨fun value h => (by cases h), fun _ _ _ hmem => hmem⟩

/-- **The items of an opening tag ascend from its name to its end.** -/
theorem ascends_readTagBody {stop last : Point} (h : Tiles stop (pieces.map Piece.span) last) :
    Ascends stop ((readTagBody track stop pieces).items.map fun item => (Entry.ofItem item).span)
      (readTagBody track stop pieces).stop := by
  fun_induction readTagBody track stop pieces with
  | case1 stop => exact .refl stop
  | case2 stop opening mark ending pieces tag ih =>
    have hspan : tag.span = (Piece.erb opening mark ending).span := span_erbTag opening mark ending
    obtain ⟨hstart, hforward, hrest⟩ := h
    rw [← hspan] at hstart hforward hrest
    exact ⟨hstart ▸ .refl _, hforward, ih hrest⟩
  | case3 stop token pieces _ =>
    obtain ⟨hstart, hforward, -⟩ := h
    exact hstart ▸ hforward.leadsTo
  | case4 stop token pieces _ =>
    obtain ⟨hstart, hforward, -⟩ := h
    exact hstart ▸ hforward.leadsTo
  | case5 stop token pieces _ ih | case6 stop token pieces _ ih =>
    obtain ⟨hstart, hforward, hrest⟩ := h
    rw [TagBody.stop_consSpace]
    cases track with
    | true => exact ⟨hstart ▸ .refl _, hforward, ih hrest⟩
    | false => exact (ih hrest).of_leadsTo (hstart ▸ hforward.leadsTo)
  | case7 stop token pieces _ attr ih =>
    obtain ⟨hstart, hforward, hrest⟩ := h
    obtain ⟨hleads, hafter⟩ := (passes_readAttribute token pieces).tiles hrest
    have hbegin : attr.span.start = stop := (start_readAttribute token pieces).2.trans hstart
    have hlong : attr.span.start.Reaches attr.span.stop := by
      rw [hbegin, ← hstart]
      exact hforward.trans_leadsTo hleads
    exact ⟨hbegin ▸ .refl _, hlong, ih hafter⟩
  | case8 stop token pieces _ _ _ _ _ ih =>
    -- a token that is no part of an item leaves a gap
    obtain ⟨hstart, hforward, hrest⟩ := h
    exact (ih hrest).of_leadsTo (hstart ▸ hforward.leadsTo)

/-! ## 2. Segments -/

/-- What the segment that begins with a token of markup can be. -/
theorem next_cases (track : Bool) (token : Token) (pieces : List (Piece Token)) :
    (token.kind = .commentStart
        ∧ next track token pieces
          = (.comment (readComment token pieces).1, (readComment token pieces).2))
      ∨ (∃ name more, token.kind = .tagStart ∧ name.kind = .identifier
        ∧ pieces = .markup name :: more
        ∧ next track token pieces = readOpenTag track token name more)
      ∨ (∃ name stop more, token.kind = .tagStartClose ∧ name.kind = .identifier
        ∧ stop.kind = .tagEnd ∧ pieces = .markup name :: .markup stop :: more
        ∧ next track token pieces = (.closeTag (Text.lower name.text)
            ⟨name.span, token.span.start, stop.span.stop⟩, more))
      ∨ next track token pieces = (.text token, pieces) := by
  unfold next
  split
  next hkind => exact Or.inl ⟨hkind, rfl⟩
  next name more hkind =>
    split
    next hname => exact Or.inr (Or.inl ⟨name, more, hkind, hname, rfl, rfl⟩)
    next => exact Or.inr (Or.inr (Or.inr rfl))
  next name stop more hkind =>
    split
    next hname =>
      exact Or.inr (Or.inr (Or.inl ⟨name, stop, more, hkind, hname.1, hname.2, rfl, rfl⟩))
    next => exact Or.inr (Or.inr (Or.inr rfl))
  next => exact Or.inr (Or.inr (Or.inr rfl))

/-- **A segment is one of five.** -/
theorem forall_mem_segments {P : Segment → Prop}
    (htext : ∀ token, .markup token ∈ all → P (.text token))
    (herb : ∀ opening mark ending, .erb opening mark ending ∈ all →
      P (.erb (erbTag opening mark ending)))
    (hcomment : ∀ mark rest, (.markup mark :: rest) <:+ all → mark.kind = .commentStart →
      P (.comment (readComment mark rest).1))
    (hopen : ∀ mark name rest, (.markup mark :: .markup name :: rest) <:+ all →
      mark.kind = .tagStart → name.kind = .identifier → P (readOpenTag track mark name rest).1)
    (hclose : ∀ mark name stop rest,
      (.markup mark :: .markup name :: .markup stop :: rest) <:+ all →
      mark.kind = .tagStartClose → stop.kind = .tagEnd →
      P (.closeTag (Text.lower name.text) ⟨name.span, mark.span.start, stop.span.stop⟩))
    (h : pieces <:+ all) : ∀ segment ∈ segments track pieces, P segment := by
  fun_induction segments track pieces with
  | case1 => intro segment hmem; cases hmem
  | case2 opening mark ending pieces ih =>
    refine List.forall_mem_cons.2 ⟨?_, ih ((List.suffix_cons _ _).trans h)⟩
    exact herb opening mark ending (h.subset List.mem_cons_self)
  | case3 token pieces ih =>
    have hrest := (passes_next track token pieces).2.suffix.trans
      ((List.suffix_cons (.markup token) pieces).trans h)
    refine List.forall_mem_cons.2 ⟨?_, ih hrest⟩
    rcases next_cases track token pieces with ⟨hkind, hnext⟩
      | ⟨name, more, hkind, hname, rfl, hnext⟩
      | ⟨name, stop, more, hkind, -, hstop, rfl, hnext⟩ | hnext
    · rw [hnext]
      exact hcomment token pieces h hkind
    · rw [hnext]
      exact hopen token name more h hkind hname
    · rw [hnext]
      exact hclose token name stop more h hkind hstop
    · rw [hnext]
      exact htext token (h.subset List.mem_cons_self)

/-- What is inside of a segment ascends: the items of an opening tag do. -/
def Ordered : Segment → Prop
  | openTag _ tag _ =>
    Ascends tag.span.start (tag.items.map fun item => (Entry.ofItem item).span) tag.span.stop
  | text _ | erb _ | comment _ | closeTag .. => True

theorem ordered_of_mem_segments {start stop : Point}
    (h : Tiles start (pieces.map Piece.span) stop) :
    ∀ segment ∈ segments track pieces, segment.Ordered := by
  refine forall_mem_segments (fun _ _ => trivial) (fun _ _ _ _ => trivial) (fun _ _ _ _ => trivial)
    ?_ (fun _ _ _ _ _ _ _ => trivial) (List.suffix_refl pieces)
  intro mark name rest hrest _ _
  obtain ⟨middle, htiles⟩ := Piece.exists_tiles_of_suffix h hrest
  obtain ⟨-, hmark, hname, hforward, htail⟩ := htiles
  have hleads : mark.span.start.LeadsTo name.span.stop :=
    (hmark.leadsTo.trans (hname ▸ .refl _)).trans hforward.leadsTo
  exact (ascends_readTagBody htail).of_leadsTo hleads

end Segment
end ErbTemplate
