import ErbTemplate.Proofs.Tree.Coverage
import ErbTemplate.Proofs.Tree.Readers

/-!
# The leaves of a tree

The entries of a tree that are not elements are its *leaves*: texts, comments, ERB tags, and what
stands inside of opening tags. Nesting says nothing about them. When an element is taken off the
stack, its leaves stay where they are in source order, behind those of the elements around it. That
makes the leaves of a builder a row that only grows at its end:

> **`Builder.leaves_step`** — a segment adds its own leaves behind the others, or makes the last
> leaf longer, a text that it continues.

Two things follow for every document. Its leaves ascend, whatever is nested in what
(`Document.ascends_leaves_ofSource`), and apart from texts no leaf of a segment is lost on the way
(`Document.mem_leaves_ofSource`).
-/

set_option autoImplicit false

namespace ErbTemplate

/-! ## 1. Leaves of nodes -/

/-- Whether an entry is an element. -/
def Entry.isElement : Entry → Bool
  | element .. => true
  | _ => false

/-- The entries that are no elements. -/
def Entry.leaves (entries : List Entry) : List Entry :=
  entries.filter fun entry => !entry.isElement

theorem Entry.leaves_append (front back : List Entry) :
    leaves (front ++ back) = leaves front ++ leaves back :=
  List.filter_append _ _

theorem Entry.leaves_map_ofItem (items : List TagItem) :
    leaves (items.map ofItem) = items.map ofItem := by
  rw [leaves, List.filter_eq_self]
  intro entry hmem
  obtain ⟨item, -, rfl⟩ := List.mem_map.1 hmem
  cases item <;> rfl

/-- The leaves of a document, in source order. -/
def Document.leaves (document : Document) : List Entry :=
  Entry.leaves document.entries

namespace Node

theorem entriesOfAll_append (front back : List Node) :
    entriesOfAll (front ++ back) = entriesOfAll front ++ entriesOfAll back := by
  induction front with
  | nil => rfl
  | cons node front ih => rw [List.cons_append, entriesOfAll, entriesOfAll, ih, List.append_assoc]

theorem entriesOfAll_singleton (node : Node) : entriesOfAll [node] = node.entries := by
  rw [entriesOfAll, entriesOfAll, List.append_nil]

theorem leaves_element (info : ElementInfo) (children : List Node) :
    Entry.leaves (entries (.element info children))
      = info.openTag.items.map Entry.ofItem ++ Entry.leaves (entriesOfAll children) := by
  have hhead : Entry.leaves (.element info children.length :: info.openTag.items.map Entry.ofItem)
      = Entry.leaves (info.openTag.items.map Entry.ofItem) := rfl
  rw [entries, Entry.leaves_append, hhead, Entry.leaves_map_ofItem]

end Node

/-! ## 2. Leaves of builders -/

/-- The leaves that a segment brings along. -/
def Segment.leaves : Segment → List Entry
  | text token => [.text token.span]
  | erb tag => [.erb tag]
  | comment value => [.comment value]
  | openTag _ tag _ => tag.items.map Entry.ofItem
  | closeTag .. => []

/-- **A leaf is one of five.** -/
theorem Segment.forall_mem_leaves {P : Entry → Prop} {all : List (Piece Token)} (track : Bool)
    (htext : ∀ token, .markup token ∈ all → P (.text token.span))
    (hspace : ∀ token, .markup token ∈ all → P (.whitespace token.span))
    (herb : ∀ opening mark ending, .erb opening mark ending ∈ all →
      P (.erb (erbTag opening mark ending)))
    (hcomment : ∀ mark rest, (.markup mark :: rest) <:+ all →
      P (.comment (readComment mark rest).1))
    (hattr : ∀ name rest, (.markup name :: rest) <:+ all → P (.attr (readAttribute name rest).1)) :
    ∀ segment ∈ segments track all, ∀ entry ∈ segment.leaves, P entry := by
  refine forall_mem_segments ?_ ?_ ?_ ?_ ?_ (List.suffix_refl all)
  · intro token hmem
    exact List.forall_mem_singleton.2 (htext token hmem)
  · intro opening mark ending hmem
    exact List.forall_mem_singleton.2 (herb opening mark ending hmem)
  · intro mark rest hsuffix _
    exact List.forall_mem_singleton.2 (hcomment mark rest hsuffix)
  · intro mark name rest hsuffix _ _ entry hentry
    obtain ⟨item, hitem, rfl⟩ := List.mem_map.1 hentry
    have htail : rest <:+ all :=
      ((List.suffix_cons _ _).trans (List.suffix_cons _ _)).trans hsuffix
    exact forall_mem_items (P := fun item => P (Entry.ofItem item)) herb hspace
      (fun name rest hsuffix _ => hattr name rest hsuffix) name.span.stop htail item hitem
  · intro mark name stop rest _ _ _ entry hentry
    cases hentry

/-- The leaves of an open element, in source order. -/
def Frame.leaves (frame : Frame) : List Entry :=
  frame.openTag.items.map Entry.ofItem ++ Entry.leaves (Node.entriesOfAll frame.children.reverse)

theorem Frame.leaves_toNode (frame : Frame) (issues : List Issue) :
    Entry.leaves (frame.toNode issues).entries = frame.leaves :=
  Node.leaves_element _ _

theorem Frame.leaves_closeWith (tag : CloseTag) (frame : Frame) :
    Entry.leaves (frame.closeWith tag).entries = frame.leaves :=
  Node.leaves_element _ _

namespace Builder

variable {options : ParserOptions}

/-- The leaves taken in so far, in source order: those of the document, then those of the open
    elements from the outermost on. -/
def leaves (builder : Builder) : List Entry :=
  Entry.leaves (Node.entriesOfAll builder.children.reverse)
    ++ builder.frames.reverse.flatMap Frame.leaves

/-- The newest children stand at the end of the leaves. -/
theorem exists_leaves_onChildren (builder : Builder) :
    ∃ nodes front,
      builder.leaves = front ++ Entry.leaves (Node.entriesOfAll nodes.reverse)
        ∧ ∀ change, (builder.onChildren change).leaves
            = front ++ Entry.leaves (Node.entriesOfAll (change nodes).reverse) := by
  obtain ⟨frames, children, issues⟩ := builder
  cases frames with
  | nil =>
    refine ⟨children, [], ?_, fun change => ?_⟩
    · simp [leaves]
    · simp [leaves, onChildren]
  | cons frame frames =>
    refine ⟨frame.children, Entry.leaves (Node.entriesOfAll children.reverse)
      ++ (frames.reverse.flatMap Frame.leaves ++ frame.openTag.items.map Entry.ofItem), ?_,
      fun change => ?_⟩
    · simp [leaves, Frame.leaves]
    · simp [leaves, onChildren, Frame.leaves]

theorem leaves_add (node : Node) (builder : Builder) :
    (builder.add node).leaves = builder.leaves ++ Entry.leaves node.entries := by
  obtain ⟨nodes, front, hbefore, hafter⟩ := builder.exists_leaves_onChildren
  rw [add, hafter (node :: ·), hbefore, List.reverse_cons, Node.entriesOfAll_append,
    Entry.leaves_append, Node.entriesOfAll_singleton, List.append_assoc]

/-- An element that leaves the stack leaves its leaves where they are. -/
theorem leaves_pop {finish : Frame → Node}
    (hfinish : ∀ frame, Entry.leaves (finish frame).entries = frame.leaves) (builder : Builder) :
    (builder.pop finish).leaves = builder.leaves := by
  obtain ⟨frames, children, issues⟩ := builder
  cases frames with
  | nil => rfl
  | cons frame frames =>
    rw [pop, leaves_add, hfinish]
    simp [leaves]

theorem leaves_foldl_pop {α : Type} {finish : Frame → Node}
    (hfinish : ∀ frame, Entry.leaves (finish frame).entries = frame.leaves) (items : List α)
    (builder : Builder) :
    (items.foldl (fun builder _ => builder.pop finish) builder).leaves = builder.leaves := by
  induction items generalizing builder with
  | nil => rfl
  | cons item items ih => exact (ih (builder.pop finish)).trans (leaves_pop hfinish builder)

theorem leaves_openElement (name : List Char) (tag : OpenTag) (terminated : Bool)
    (builder : Builder) :
    (builder.openElement name tag terminated).leaves
      = builder.leaves ++ tag.items.map Entry.ofItem := by
  unfold openElement
  simp only
  split
  · rw [leaves_add, Node.leaves_element]
    simp [Node.entriesOfAll, Entry.leaves]
  · simp [leaves, Frame.leaves, Node.entriesOfAll, Entry.leaves]

theorem leaves_closeElement (name : List Char) (tag : CloseTag) (builder : Builder) :
    (builder.closeElement options name tag).leaves = builder.leaves := by
  unfold closeElement
  split
  · exact (leaves_pop (Frame.leaves_closeWith tag) _).trans
      (leaves_foldl_pop (fun frame => frame.leaves_toNode _) _ builder)
  · rfl

theorem leaves_finish (builder : Builder) : (builder.finish options).leaves = builder.leaves :=
  leaves_foldl_pop (fun frame => frame.leaves_toNode _) _ builder

/-- **One segment: the row of leaves grows at its end.** -/
theorem leaves_step (options : ParserOptions) (builder : Builder) (segment : Segment) :
    (builder.step options segment).leaves = builder.leaves ++ segment.leaves
      ∨ ∃ token front last, segment = .text token ∧ builder.leaves = front ++ [.text last]
          ∧ (builder.step options segment).leaves
            = front ++ [.text ⟨last.start, token.span.stop⟩] := by
  cases segment with
  | text token =>
    obtain ⟨nodes, front, hbefore, hafter⟩ := builder.exists_leaves_onChildren
    have hjoin := hafter (joinText token.span)
    rcases joinText_cases token.span nodes with heq | ⟨last, older, rfl, -, heq⟩
    · left
      rw [heq, List.reverse_cons, Node.entriesOfAll_append, Entry.leaves_append] at hjoin
      rw [step, hjoin, hbefore, List.append_assoc]
      rfl
    · -- the text that is continued is the newest child, so it is the last leaf
      right
      rw [List.reverse_cons, Node.entriesOfAll_append, Entry.leaves_append,
        ← List.append_assoc] at hbefore
      rw [heq, List.reverse_cons, Node.entriesOfAll_append, Entry.leaves_append,
        ← List.append_assoc] at hjoin
      exact ⟨token, _, last, rfl, hbefore, hjoin⟩
  | erb tag => exact Or.inl (leaves_add _ builder)
  | comment value => exact Or.inl (leaves_add _ builder)
  | openTag name tag terminated => exact Or.inl (leaves_openElement name tag terminated builder)
  | closeTag name tag =>
    left
    rw [step, leaves_closeElement, Segment.leaves, List.append_nil]

/-! ## 3. Runs -/

theorem ascends_leaves_segment {segment : Segment} (h : segment.Ordered)
    (hforward : segment.span.start.Reaches segment.span.stop) :
    Ascends segment.span.start (segment.leaves.map Entry.span) segment.span.stop := by
  cases segment with
  | text token => exact ⟨.refl _, hforward, .refl _⟩
  | erb tag => exact ⟨.refl _, hforward, .refl _⟩
  | comment value => exact ⟨.refl _, hforward, .refl _⟩
  | openTag name tag terminated =>
    rw [Segment.leaves, List.map_map]
    exact h
  | closeTag name tag => exact hforward.leadsTo

theorem ascends_step {builder : Builder} {segment : Segment} {stop : Point}
    (h : Ascends .origin (builder.leaves.map Entry.span) stop) (hordered : segment.Ordered)
    (hstart : segment.span.start = stop)
    (hforward : segment.span.start.Reaches segment.span.stop) :
    Ascends .origin ((builder.step options segment).leaves.map Entry.span) segment.span.stop := by
  rcases leaves_step options builder segment with hstep
    | ⟨token, front, last, rfl, hbefore, hstep⟩
  · rw [hstep, List.map_append]
    exact h.append (hstart ▸ ascends_leaves_segment hordered hforward)
  · rw [hbefore, List.map_append] at h
    obtain ⟨hfront, hlast, hleads⟩ := h.of_concat
    rw [hstep, List.map_append]
    refine Ascends.concat hfront (.refl _) ?_
    exact hlast.trans_leadsTo (hleads.trans (hstart ▸ hforward.leadsTo))

/-- **A run: the leaves of segments that tile a way ascend along it.** -/
theorem ascends_run {row : List Segment} {builder : Builder} {stop last : Point}
    (h : Ascends .origin (builder.leaves.map Entry.span) stop)
    (hordered : ∀ segment ∈ row, segment.Ordered)
    (htiles : Tiles stop (row.map Segment.span) last) :
    Ascends .origin ((row.foldl (step options) builder).leaves.map Entry.span) last := by
  induction row generalizing builder stop with
  | nil => exact htiles ▸ h
  | cons segment row ih =>
    obtain ⟨hstart, hforward, hrest⟩ := htiles
    obtain ⟨hfirst, hothers⟩ := List.forall_mem_cons.1 hordered
    exact ih (ascends_step h hfirst hstart hforward) hothers hrest

/-- No leaf is lost but a text, which may become a longer one. -/
theorem mem_leaves_step {builder : Builder} {segment : Segment} {entry : Entry}
    (hentry : ∀ span, entry ≠ .text span)
    (h : entry ∈ builder.leaves ∨ entry ∈ segment.leaves) :
    entry ∈ (builder.step options segment).leaves := by
  rcases leaves_step options builder segment with hstep
    | ⟨token, front, last, rfl, hbefore, hstep⟩
  · rw [hstep]
    exact List.mem_append.2 h
  · rw [hstep]
    rcases h with hmem | hmem
    · rw [hbefore] at hmem
      rcases List.mem_append.1 hmem with hmem | hmem
      · exact List.mem_append_left _ hmem
      · exact absurd (List.mem_singleton.1 hmem) (hentry last)
    · exact absurd (List.mem_singleton.1 hmem) (hentry token.span)

theorem mem_leaves_run {row : List Segment} {builder : Builder} {entry : Entry}
    (hentry : ∀ span, entry ≠ .text span)
    (h : entry ∈ builder.leaves ∨ ∃ segment ∈ row, entry ∈ segment.leaves) :
    entry ∈ (row.foldl (step options) builder).leaves := by
  induction row generalizing builder with
  | nil =>
    rcases h with hmem | ⟨segment, hnone, -⟩
    · exact hmem
    · cases hnone
  | cons segment row ih =>
    apply ih
    rcases h with hmem | ⟨other, hother, hmem⟩
    · exact Or.inl (mem_leaves_step hentry (Or.inl hmem))
    · rcases List.mem_cons.1 hother with rfl | hother
      · exact Or.inl (mem_leaves_step hentry (Or.inr hmem))
      · exact Or.inr ⟨other, hother, hmem⟩

/-- What holds of the leaves of all segments, and is not lost when texts are joined, holds of the
    leaves of a run. -/
theorem forall_mem_leaves_run {P : Entry → Prop} {row : List Segment} {builder : Builder}
    (hjoin : ∀ first second, P (.text first) → P (.text second) →
      P (.text ⟨first.start, second.stop⟩))
    (hrow : ∀ segment ∈ row, ∀ entry ∈ segment.leaves, P entry)
    (h : ∀ entry ∈ builder.leaves, P entry) :
    ∀ entry ∈ (row.foldl (step options) builder).leaves, P entry := by
  induction row generalizing builder with
  | nil => exact h
  | cons segment row ih =>
    obtain ⟨hsegment, hothers⟩ := List.forall_mem_cons.1 hrow
    refine ih hothers ?_
    rcases leaves_step options builder segment with hstep
      | ⟨token, front, last, rfl, hbefore, hstep⟩
    · rw [hstep]
      exact List.forall_mem_append.2 ⟨h, hsegment⟩
    · rw [hbefore] at h
      obtain ⟨hfront, hlast⟩ := List.forall_mem_append.1 h
      have htext : P (.text last) := hlast _ List.mem_cons_self
      have htoken : P (.text token.span) := hsegment _ List.mem_cons_self
      rw [hstep]
      refine List.forall_mem_append.2 ⟨hfront, List.forall_mem_singleton.2 ?_⟩
      exact hjoin last token.span htext htoken

end Builder

/-! ## 4. Documents -/

namespace Document

variable {options : ParserOptions} {source : List Char}

theorem leaves_ofSource (options : ParserOptions) (source : List Char) :
    (ofSource options source).leaves
      = ((options.segments source).foldl (Builder.step options) .empty).leaves := by
  have hframes : (Builder.build options (options.segments source)).frames = [] :=
    List.map_eq_nil_iff.1 (Builder.names_finish options _)
  have hleaves : (Builder.build options (options.segments source)).leaves
      = (ofSource options source).leaves := by
    rw [Builder.leaves, hframes]
    exact List.append_nil _
  exact hleaves.symm.trans (Builder.leaves_finish _)

/-- **The leaves of a document ascend from the beginning of its source to the end.** -/
theorem ascends_leaves_ofSource (options : ParserOptions) (source : List Char) :
    Ascends .origin ((ofSource options source).leaves.map Entry.span)
      (Point.origin.advance source) := by
  rw [leaves_ofSource]
  exact Builder.ascends_run (.refl _)
    (Segment.ordered_of_mem_segments (tiles_locatedPieces source))
    (tiles_segments_locatedPieces options.trackWhitespace source)

theorem mem_leaves_ofSource {segment : Segment} {entry : Entry}
    (hsegment : segment ∈ options.segments source) (hentry : ∀ span, entry ≠ .text span)
    (h : entry ∈ segment.leaves) : entry ∈ (ofSource options source).leaves := by
  rw [leaves_ofSource]
  exact Builder.mem_leaves_run hentry (Or.inr ⟨segment, hsegment, h⟩)

theorem forall_mem_leaves_ofSource {P : Entry → Prop}
    (hjoin : ∀ first second, P (.text first) → P (.text second) →
      P (.text ⟨first.start, second.stop⟩))
    (h : ∀ segment ∈ options.segments source, ∀ entry ∈ segment.leaves, P entry) :
    ∀ entry ∈ (ofSource options source).leaves, P entry := by
  rw [leaves_ofSource]
  exact Builder.forall_mem_leaves_run hjoin h (by intro entry hmem; cases hmem)

end Document
end ErbTemplate
