import ErbTemplate.Proofs.Tree.Leaves

/-!
# Where the elements of a tree come from

Elements enter a tree by four hands: at once, if they have no content; with their closing tag; with
the closing tag of an element around them; at the end of the source. `ElementInfo.Made` lists what
each of them makes out of an opening tag, and which issue it reports. It is shown for all elements
of a document at once (`Document.made_of_mem_entries`), by an invariant of builders that also keeps
an eye on the elements that are still open (`Builder.Made`).

Together with the leaves this describes all entries of a document by the segments of its source, as
one principle:

> **`Document.forall_mem_entries_ofSource`** — what holds of the leaves of segments, of texts that
> are joined, and of every element that can be made, holds of all entries.
-/

set_option autoImplicit false

namespace ErbTemplate

variable {options : ParserOptions} {row : List Segment}

/-! ## 1. Elements -/

/-- The elements that can be made from a row of segments. -/
inductive ElementInfo.Made (options : ParserOptions) (row : List Segment) : ElementInfo → Prop
  /-- An element without content, or one whose opening tag is cut off. -/
  | atOnce {name : List Char} {tag : OpenTag} {terminated : Bool} :
      .openTag name tag terminated ∈ row →
        Made options row ⟨tag, none, isVoidName name, tag.span,
          if terminated then [] else [⟨.unterminatedTag name, tag.span⟩]⟩
  /-- An element without a closing tag of its own. -/
  | ended {name : List Char} {tag : OpenTag} {cause : IssueCause} {stop : Point} :
      .openTag name tag true ∈ row →
        (cause = .neverClosed name ∨ ∃ outer, cause = .closedImplicitly name outer) →
          Made options row ⟨tag, none, false, ⟨tag.span.start, stop⟩,
            if !options.strict && isOptionalEndName name then [] else [⟨cause, tag.span⟩]⟩
  /-- An element with a closing tag. -/
  | closed {name : List Char} {tag : OpenTag} {closeTag : CloseTag} :
      .openTag name tag true ∈ row → .closeTag name closeTag ∈ row →
        Made options row ⟨tag, some closeTag, false, ⟨tag.span.start, closeTag.span.stop⟩, []⟩

/-- If an entry is an element, it is one that can be made. -/
def Entry.Made (options : ParserOptions) (row : List Segment) : Entry → Prop
  | element info _ => info.Made options row
  | _ => True

/-- All elements of a node can be made. -/
def Node.Made (options : ParserOptions) (row : List Segment) (node : Node) : Prop :=
  ∀ entry ∈ node.entries, entry.Made options row

theorem Node.forall_mem_entriesOfAll {P : Entry → Prop} {nodes : List Node} :
    (∀ entry ∈ entriesOfAll nodes, P entry) ↔ ∀ node ∈ nodes, ∀ entry ∈ node.entries, P entry := by
  induction nodes with
  | nil => simp [entriesOfAll]
  | cons node nodes ih => rw [entriesOfAll, List.forall_mem_append, ih, List.forall_mem_cons]

theorem Entry.made_ofItem (item : TagItem) : (ofItem item).Made options row := by
  cases item <;> exact trivial

theorem Node.made_element {info : ElementInfo} {children : List Node}
    (hinfo : info.Made options row) (hchildren : ∀ child ∈ children, child.Made options row) :
    (Node.element info children).Made options row := by
  have hitems : ∀ entry ∈ info.openTag.items.map Entry.ofItem, entry.Made options row := by
    intro entry hmem
    obtain ⟨item, -, rfl⟩ := List.mem_map.1 hmem
    exact Entry.made_ofItem item
  rw [Made, entries]
  exact List.forall_mem_append.2
    ⟨List.forall_mem_cons.2 ⟨hinfo, hitems⟩, forall_mem_entriesOfAll.2 hchildren⟩

/-- An open element has its opening tag from the row, and its children can be made. -/
def Frame.Made (options : ParserOptions) (row : List Segment) (frame : Frame) : Prop :=
  .openTag frame.name frame.openTag true ∈ row
    ∧ ∀ child ∈ frame.children, child.Made options row

theorem Frame.Made.toNode {frame : Frame} (h : frame.Made options row) (cause : IssueCause)
    (hcause : cause = .neverClosed frame.name
      ∨ ∃ outer, cause = .closedImplicitly frame.name outer) :
    (frame.toNode (if frame.mayOmitEnd options.strict then []
      else [⟨cause, frame.openTag.span⟩])).Made options row := by
  obtain ⟨hopen, hchildren⟩ := h
  exact Node.made_element (.ended hopen hcause) (by simpa using hchildren)

theorem Frame.Made.closeWith {frame : Frame} {tag : CloseTag} (h : frame.Made options row)
    (htag : .closeTag frame.name tag ∈ row) : (frame.closeWith tag).Made options row := by
  obtain ⟨hopen, hchildren⟩ := h
  exact Node.made_element (.closed hopen htag) (by simpa using hchildren)

/-! ## 2. The invariant of a run -/

namespace Builder

/-- All elements can be made, those that are open are from the row, and the document reports only
    closing tags of the row that closed nothing. -/
def Made (options : ParserOptions) (row : List Segment) (builder : Builder) : Prop :=
  (∀ child ∈ builder.children, child.Made options row)
    ∧ (∀ frame ∈ builder.frames, frame.Made options row)
    ∧ ∀ issue ∈ builder.issues,
        ∃ name tag, .closeTag name tag ∈ row ∧ issue = ⟨.nothingToClose name, tag.span⟩

namespace Made

variable {builder : Builder}

theorem empty (options : ParserOptions) (row : List Segment) :
    Builder.empty.Made options row := by
  refine ⟨?_, ?_, ?_⟩ <;> exact fun _ hmem => by cases hmem

theorem onChildren {change : List Node → List Node} (h : builder.Made options row)
    (hchange : ∀ nodes, (∀ node ∈ nodes, node.Made options row) →
      ∀ node ∈ change nodes, node.Made options row) :
    (builder.onChildren change).Made options row := by
  obtain ⟨frames, children, issues⟩ := builder
  obtain ⟨hchildren, hframes, hissues⟩ := h
  cases frames with
  | nil => exact ⟨hchange children hchildren, hframes, hissues⟩
  | cons frame frames =>
    obtain ⟨⟨htag, hinside⟩, hothers⟩ := List.forall_mem_cons.1 hframes
    refine ⟨hchildren, List.forall_mem_cons.2 ⟨⟨htag, ?_⟩, hothers⟩, hissues⟩
    exact hchange frame.children hinside

theorem add {node : Node} (h : builder.Made options row) (hnode : node.Made options row) :
    (builder.add node).Made options row :=
  h.onChildren fun _ hnodes => List.forall_mem_cons.2 ⟨hnode, hnodes⟩

theorem pop {finish : Frame → Node} (h : builder.Made options row)
    (hfinish : ∀ frame, builder.names.head? = some frame.name → frame.Made options row →
      (finish frame).Made options row) : (builder.pop finish).Made options row := by
  obtain ⟨frames, children, issues⟩ := builder
  cases frames with
  | nil => exact h
  | cons frame frames =>
    obtain ⟨hchildren, hframes, hissues⟩ := h
    obtain ⟨hframe, hothers⟩ := List.forall_mem_cons.1 hframes
    have hrest : (Builder.mk frames children issues).Made options row :=
      ⟨hchildren, hothers, hissues⟩
    exact hrest.add (hfinish frame rfl hframe)

theorem foldl_pop {α : Type} (finish : Frame → Node) (h : builder.Made options row)
    (hfinish : ∀ frame, frame.Made options row → (finish frame).Made options row)
    (items : List α) :
    (items.foldl (fun builder _ => builder.pop finish) builder).Made options row := by
  induction items generalizing builder with
  | nil => exact h
  | cons item items ih => exact ih (h.pop fun frame _ => hfinish frame)

theorem joinText {span : Span} (h : builder.Made options row) :
    (builder.onChildren (Builder.joinText span)).Made options row := by
  have htext : ∀ span, (Node.text span).Made options row := by
    intro span entry hmem
    rw [List.mem_singleton.1 hmem]
    exact trivial
  refine h.onChildren fun nodes hnodes => ?_
  rcases joinText_cases span nodes with heq | ⟨last, older, rfl, -, heq⟩
  · rw [heq]
    exact List.forall_mem_cons.2 ⟨htext span, hnodes⟩
  · rw [heq]
    exact List.forall_mem_cons.2 ⟨htext _, (List.forall_mem_cons.1 hnodes).2⟩

theorem openElement {name : List Char} {tag : OpenTag} {terminated : Bool}
    (h : builder.Made options row) (hmem : .openTag name tag terminated ∈ row) :
    (builder.openElement name tag terminated).Made options row := by
  unfold Builder.openElement
  simp only
  split
  next =>
    refine h.add (Node.made_element (.atOnce hmem) ?_)
    intro child hchild
    cases hchild
  next hcontent =>
    have hterminated : terminated = true := by
      cases terminated with
      | true => rfl
      | false => exact absurd (by simp) hcontent
    obtain ⟨hchildren, hframes, hissues⟩ := h
    refine ⟨hchildren, List.forall_mem_cons.2 ⟨⟨hterminated ▸ hmem, ?_⟩, hframes⟩, hissues⟩
    intro child hchild
    cases hchild

theorem closeElement {name : List Char} {tag : CloseTag} (h : builder.Made options row)
    (hmem : .closeTag name tag ∈ row) :
    (builder.closeElement options name tag).Made options row := by
  unfold Builder.closeElement
  split
  next hany =>
    have hinner := h.foldl_pop (Frame.closeImplicitly options.strict name)
      (fun frame hframe => hframe.toNode _ (Or.inr ⟨name, rfl⟩))
      (builder.frames.takeWhile fun frame => frame.name != name)
    refine hinner.pop fun frame htop hframe => ?_
    -- what the inner elements leave on top is the element of this name
    rw [head?_names_foldl_pop_takeWhile _ ((any_frames name builder).1 hany)] at htop
    cases htop
    exact hframe.closeWith hmem
  next =>
    obtain ⟨hchildren, hframes, hissues⟩ := h
    exact ⟨hchildren, hframes, List.forall_mem_cons.2 ⟨⟨name, tag, hmem, rfl⟩, hissues⟩⟩

theorem step {segment : Segment} (h : builder.Made options row) (hmem : segment ∈ row) :
    (builder.step options segment).Made options row := by
  cases segment with
  | text token => exact h.joinText
  | erb tag =>
    refine h.add fun entry hentry => ?_
    rw [List.mem_singleton.1 hentry]
    exact trivial
  | comment value =>
    refine h.add fun entry hentry => ?_
    rw [List.mem_singleton.1 hentry]
    exact trivial
  | openTag name tag terminated => exact h.openElement hmem
  | closeTag name tag => exact h.closeElement hmem

theorem run {part : List Segment} (h : builder.Made options row) (hpart : part ⊆ row) :
    (part.foldl (Builder.step options) builder).Made options row := by
  induction part generalizing builder with
  | nil => exact h
  | cons segment part ih =>
    obtain ⟨hmem, hrest⟩ := List.cons_subset.1 hpart
    exact ih (h.step hmem) hrest

theorem build (options : ParserOptions) (row : List Segment) :
    (Builder.build options row).Made options row := by
  have hrun := (Made.empty options row).run (List.Subset.refl row)
  exact hrun.foldl_pop _ (fun frame hframe => hframe.toNode _ (Or.inl rfl)) _

end Made
end Builder

/-! ## 3. Documents -/

namespace Document

variable {source : List Char}

theorem made_of_mem_entries {entry : Entry} (h : entry ∈ (ofSource options source).entries) :
    entry.Made options (options.segments source) := by
  obtain ⟨hchildren, -, -⟩ := Builder.Made.build options (options.segments source)
  have hall : ∀ node ∈ (ofSource options source).children,
      node.Made options (options.segments source) :=
    fun node hmem => hchildren node (List.mem_reverse.1 hmem)
  exact Node.forall_mem_entriesOfAll.2 hall entry h

/-- What a document reports itself are closing tags that closed nothing. -/
theorem exists_closeTag_of_mem_issues {issue : Issue}
    (h : issue ∈ (ofSource options source).issues) :
    ∃ name tag, .closeTag name tag ∈ options.segments source
      ∧ issue = ⟨.nothingToClose name, tag.span⟩ := by
  obtain ⟨-, -, hissues⟩ := Builder.Made.build options (options.segments source)
  exact hissues issue (List.mem_reverse.1 h)

theorem cause_of_mem_issues {issue : Issue} (h : issue ∈ (ofSource options source).issues) :
    ∃ name, issue.cause = .nothingToClose name := by
  obtain ⟨name, tag, -, rfl⟩ := exists_closeTag_of_mem_issues h
  exact ⟨name, rfl⟩

/-- **All entries of a document, by the segments of its source.** -/
theorem forall_mem_entries_ofSource {P : Entry → Prop}
    (hjoin : ∀ first second, P (.text first) → P (.text second) →
      P (.text ⟨first.start, second.stop⟩))
    (hleaf : ∀ segment ∈ options.segments source, ∀ entry ∈ segment.leaves, P entry)
    (helement : ∀ info count, info.Made options (options.segments source) →
      P (.element info count)) :
    ∀ entry ∈ (ofSource options source).entries, P entry := by
  intro entry hmem
  have hleaves := forall_mem_leaves_ofSource hjoin hleaf
  cases entry with
  | element info count => exact helement info count (made_of_mem_entries hmem)
  | text span => exact hleaves _ (List.mem_filter.2 ⟨hmem, rfl⟩)
  | whitespace span => exact hleaves _ (List.mem_filter.2 ⟨hmem, rfl⟩)
  | attr value => exact hleaves _ (List.mem_filter.2 ⟨hmem, rfl⟩)
  | comment value => exact hleaves _ (List.mem_filter.2 ⟨hmem, rfl⟩)
  | erb tag => exact hleaves _ (List.mem_filter.2 ⟨hmem, rfl⟩)

end Document
end ErbTemplate
