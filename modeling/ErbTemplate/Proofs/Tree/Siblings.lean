import ErbTemplate.Proofs.Tree.Nesting

/-!
# Texts that are siblings

A text joins the text before it if the two touch, so two texts that follow each other in a list of
children do not (`Span.Parted`). There must be something between them all the same, and it is in
the tree nowhere: closing tags that closed nothing, which the document reports and leaves out.

A list of children is worked on again and again, whenever the elements opened inside of it are
closed. So the invariant is about all of the lists at once (`Builder.Spaced`). A text can only be
joined to the newest node of the innermost list, and about that node more is known: if it is a text,
closing tags that closed nothing fill the way from its end to where the builder has come
(`Builder.Parted`).
-/

set_option autoImplicit false

namespace ErbTemplate

/-! ## 1. The rule -/

/-- The children of a node that can have some. -/
def Node.children? : Node → Option (List Node)
  | element _ children => some children
  | text _ | comment _ | erb _ => none

/-- The span of a text. -/
def Node.textSpan? : Node → Option Span
  | text span => some span
  | comment _ | erb _ | element .. => none

theorem Node.eq_text_of_textSpan? {node : Node} {span : Span} (h : node.textSpan? = some span) :
    node = .text span := by
  cases node <;> cases h
  rfl

/-- All lists of siblings inside of a node. -/
def Node.siblings (node : Node) : List (List Node) :=
  node.subnodes.filterMap children?

/-- All lists of siblings of a document. -/
def Document.siblings (document : Document) : List (List Node) :=
  document.children :: document.nodes.filterMap Node.children?

/-- Two texts do not touch, and closing tags that closed nothing fill the gap. -/
structure Span.Parted (issues : List Issue) (first second : Span) : Prop where
  apart : first.range.stop < second.range.start
  gap : ∃ row, row ⊆ strayClosings issues ∧ Tiles first.stop row second.start

/-- If two nodes are texts, they are parted. -/
def Node.Parted (issues : List Issue) (first second : Node) : Prop :=
  ∀ one two, first.textSpan? = some one → second.textSpan? = some two → one.Parted issues two

variable {issues more : List Issue}

theorem Span.Parted.mono {first second : Span} (h : first.Parted issues second)
    (hmore : strayClosings issues ⊆ strayClosings more) : first.Parted more second := by
  obtain ⟨row, hrow, htiles⟩ := h.gap
  exact ⟨h.apart, row, List.Subset.trans hrow hmore, htiles⟩

theorem Node.Parted.mono {first second : Node} (h : first.Parted issues second)
    (hmore : strayClosings issues ⊆ strayClosings more) : first.Parted more second :=
  fun one two hone htwo => (h one two hone htwo).mono hmore

/-- A chain of siblings depends on the texts among them alone. -/
theorem Node.isChain_of_textSpan? {row other : List Node}
    (h : row.IsChain (Node.Parted issues))
    (heq : other.map textSpan? = row.map textSpan?) : other.IsChain (Node.Parted issues) := by
  let parted : Option Span → Option Span → Prop :=
    fun first second => ∀ one two, first = some one → second = some two → one.Parted issues two
  have hrow : (row.map textSpan?).IsChain parted := (List.isChain_map textSpan?).2 h
  rw [← heq] at hrow
  exact (List.isChain_map textSpan?).1 hrow

/-! ## 2. Siblings inside of a node -/

namespace Node

theorem mem_subnodesOfAll_iff {nodes : List Node} {sub : Node} :
    sub ∈ subnodesOfAll nodes ↔ ∃ node ∈ nodes, sub ∈ node.subnodes := by
  induction nodes with
  | nil => simp [subnodesOfAll]
  | cons node nodes ih => simp [subnodesOfAll, ih]

theorem mem_filterMap_children?_iff {nodes row : List Node} :
    row ∈ (subnodesOfAll nodes).filterMap children? ↔ ∃ node ∈ nodes, row ∈ node.siblings := by
  simp only [siblings, List.mem_filterMap, mem_subnodesOfAll_iff]
  constructor
  · rintro ⟨sub, ⟨node, hnode, hsub⟩, hrow⟩
    exact ⟨node, hnode, sub, hsub, hrow⟩
  · rintro ⟨node, hnode, sub, hsub, hrow⟩
    exact ⟨sub, ⟨node, hnode, hsub⟩, hrow⟩

theorem mem_siblings_element_iff {info : ElementInfo} {children row : List Node} :
    row ∈ (element info children).siblings
      ↔ row = children ∨ ∃ child ∈ children, row ∈ child.siblings := by
  rw [← mem_filterMap_children?_iff, siblings, subnodes, List.filterMap_cons]
  exact List.mem_cons

end Node

/-- A list of children, newest first, has parted texts, and so have all lists inside of it. -/
structure Node.Spaced (issues : List Issue) (nodes : List Node) : Prop where
  chain : nodes.IsChain fun newer older => older.Parted issues newer
  inside : ∀ node ∈ nodes, ∀ row ∈ node.siblings, row.IsChain (Node.Parted issues)

namespace Node.Spaced

variable {nodes older : List Node} {node : Node}

theorem nil (issues : List Issue) : Spaced issues [] :=
  ⟨.nil, fun _ hmem => by cases hmem⟩

theorem mono (h : Spaced issues nodes) (hmore : strayClosings issues ⊆ strayClosings more) :
    Spaced more nodes :=
  ⟨h.chain.imp fun _ _ hparted => hparted.mono hmore,
    fun node hnode row hrow => (h.inside node hnode row hrow).imp fun _ _ hp => hp.mono hmore⟩

/-- A node that is no text is parted from whatever stands before it. -/
theorem cons (h : Spaced issues nodes) (hnode : node.textSpan? = none)
    (hinside : ∀ row ∈ node.siblings, row.IsChain (Node.Parted issues)) :
    Spaced issues (node :: nodes) := by
  refine ⟨h.chain.cons fun first _ one two _ htwo => ?_, List.forall_mem_cons.2 ⟨hinside, h.inside⟩⟩
  rw [hnode] at htwo
  cases htwo

/-- The newest text may be put there, or go on, if the one before it ends early enough. -/
theorem consText {span : Span} (h : Spaced issues older)
    (hparted : ∀ node ∈ older.head?, node.Parted issues (.text span)) :
    Spaced issues (.text span :: older) :=
  ⟨h.chain.cons hparted, List.forall_mem_cons.2 ⟨fun _ hrow => (by cases hrow), h.inside⟩⟩

/-- All lists inside of an element that gets these children. -/
theorem isChain_of_mem_element (h : Spaced issues nodes) {info : ElementInfo} :
    ∀ row ∈ (Node.element info nodes.reverse).siblings, row.IsChain (Node.Parted issues) := by
  intro row hrow
  rcases Node.mem_siblings_element_iff.1 hrow with rfl | ⟨child, hchild, hrow⟩
  · exact List.isChain_reverse.2 h.chain
  · exact h.inside child (List.mem_reverse.1 hchild) row hrow

end Node.Spaced

/-! ## 3. The invariant of a run -/

namespace Builder

variable {builder : Builder} {stop : Point} {options : ParserOptions}

/-- The children of the innermost open element, or of the document. -/
def newest (builder : Builder) : List Node :=
  match builder.frames with
  | [] => builder.children
  | frame :: _ => frame.children

@[simp] theorem newest_onChildren (change : List Node → List Node) (builder : Builder) :
    (builder.onChildren change).newest = change builder.newest := by
  obtain ⟨_ | ⟨frame, frames⟩, children, issues⟩ := builder <;> rfl

/-- All lists of children have parted texts. -/
structure Spaced (builder : Builder) : Prop where
  frames : ∀ frame ∈ builder.frames, Node.Spaced builder.issues frame.children
  children : Node.Spaced builder.issues builder.children

/-- All lists have parted texts, and from a text that is newest one goes over closing tags that
    closed nothing to a point. -/
structure Parted (builder : Builder) (stop : Point) : Prop where
  spaced : builder.Spaced
  newest : ∀ last older, builder.newest = .text last :: older →
    ∃ row, row ⊆ strayClosings builder.issues ∧ Tiles last.stop row stop

theorem parted_empty : empty.Parted .origin :=
  ⟨⟨fun _ hmem => (by cases hmem), .nil _⟩, fun _ _ hnewest => by cases hnewest⟩

theorem Spaced.newest (h : builder.Spaced) : Node.Spaced builder.issues builder.newest := by
  obtain ⟨_ | ⟨frame, frames⟩, children, issues⟩ := builder
  · exact h.children
  · exact h.frames frame List.mem_cons_self

theorem Spaced.onChildren (h : builder.Spaced) {change : List Node → List Node}
    (hchange : Node.Spaced builder.issues (change builder.newest)) :
    (builder.onChildren change).Spaced := by
  obtain ⟨_ | ⟨frame, frames⟩, children, issues⟩ := builder
  · exact ⟨h.frames, hchange⟩
  · exact ⟨List.forall_mem_cons.2 ⟨hchange, (List.forall_mem_cons.1 h.frames).2⟩, h.children⟩

/-- A node that is no text is added, and what was newest before does not matter any more. -/
theorem Spaced.add (h : builder.Spaced) {node : Node} (hnode : node.textSpan? = none)
    (hinside : ∀ row ∈ node.siblings, row.IsChain (Node.Parted builder.issues)) (stop : Point) :
    (builder.add node).Parted stop := by
  refine ⟨h.onChildren (h.newest.cons hnode hinside), fun last older hnewest => ?_⟩
  rw [Builder.add, newest_onChildren] at hnewest
  obtain ⟨rfl, -⟩ := List.cons.inj hnewest
  cases hnode

/-- Ends the innermost element, if there is one, with the children it has. -/
theorem Spaced.pop_of_frame (h : builder.Spaced) {finish : Frame → Node}
    (hfinish : ∀ frame, ∃ info, finish frame = .element info frame.children.reverse)
    (hopen : builder.names ≠ []) (stop : Point) : (builder.pop finish).Parted stop := by
  obtain ⟨_ | ⟨frame, frames⟩, children, issues⟩ := builder
  · exact absurd rfl hopen
  · obtain ⟨hframe, hframes⟩ := List.forall_mem_cons.1 h.frames
    obtain ⟨info, hinfo⟩ := hfinish frame
    have hrest : (Builder.mk frames children issues).Spaced := ⟨hframes, h.children⟩
    show ((Builder.mk frames children issues).add (finish frame)).Parted stop
    rw [hinfo]
    exact hrest.add rfl hframe.isChain_of_mem_element stop

theorem Spaced.pop (h : builder.Spaced) {finish : Frame → Node}
    (hfinish : ∀ frame, ∃ info, finish frame = .element info frame.children.reverse) :
    (builder.pop finish).Spaced := by
  by_cases hopen : builder.names = []
  · have hnone : builder.frames = [] := List.map_eq_nil_iff.1 hopen
    rw [Builder.pop, hnone]
    exact h
  · exact (h.pop_of_frame hfinish hopen .origin).spaced

theorem Spaced.foldl_pop {α : Type} (h : builder.Spaced) {finish : Frame → Node}
    (hfinish : ∀ frame, ∃ info, finish frame = .element info frame.children.reverse)
    (items : List α) : (items.foldl (fun builder _ => builder.pop finish) builder).Spaced := by
  induction items generalizing builder with
  | nil => exact h
  | cons item items ih => exact ih (h.pop hfinish)

/-- A text joins the newest node only if that is a text which it touches. -/
theorem joinText_inv (span : Span) (nodes : List Node) :
    (∃ last older, nodes = .text last :: older
        ∧ joinText span nodes = .text ⟨last.start, span.stop⟩ :: older)
      ∨ joinText span nodes = .text span :: nodes
        ∧ ∀ last older, nodes = .text last :: older → last.stop.offset ≠ span.start.offset := by
  unfold joinText
  split
  next last older =>
    split
    next => exact Or.inl ⟨last, older, rfl, rfl⟩
    next hapart =>
      refine Or.inr ⟨rfl, fun other rest heq => ?_⟩
      cases heq
      exact hapart
  next hother => exact Or.inr ⟨rfl, fun last older heq => absurd heq (hother last older)⟩

namespace Parted

/-- A text that ends at a point becomes the newest node. -/
theorem of_newest_text {span : Span} (h : builder.Spaced) {change : List Node → List Node}
    {older : List Node} (hchange : change builder.newest = .text span :: older)
    (hspaced : Node.Spaced builder.issues (.text span :: older)) :
    (builder.onChildren change).Parted span.stop := by
  refine ⟨h.onChildren (hchange ▸ hspaced), fun last rest hnewest => ?_⟩
  rw [newest_onChildren, hchange] at hnewest
  cases hnewest
  exact ⟨[], List.nil_subset _, rfl⟩

theorem joinText {span : Span} (h : builder.Parted stop) (hstart : span.start = stop) :
    (builder.onChildren (Builder.joinText span)).Parted span.stop := by
  have hspaced := h.spaced.newest
  rcases joinText_inv span builder.newest with ⟨last, older, hnewest, hjoin⟩ | ⟨hjoin, hapart⟩
  · -- the longer text begins where it began, and that is all its neighbour knows of it
    rw [hnewest] at hspaced
    obtain ⟨hneighbour, hchain⟩ := List.isChain_cons.1 hspaced.chain
    have holder : Node.Spaced builder.issues older :=
      ⟨hchain, fun node hmem => hspaced.inside node (List.mem_cons_of_mem _ hmem)⟩
    have hlonger : Node.Spaced builder.issues (.text ⟨last.start, span.stop⟩ :: older) := by
      refine holder.consText fun node hnode one two hone htwo => ?_
      cases htwo
      obtain ⟨hlt, hgap⟩ := hneighbour node hnode one last hone rfl
      exact ⟨hlt, hgap⟩
    have hnext := of_newest_text h.spaced hjoin hlonger
    exact hnext
  · refine of_newest_text h.spaced hjoin (hspaced.consText ?_)
    intro node hnode one two hone htwo
    cases htwo
    obtain rfl := Node.eq_text_of_textSpan? hone
    obtain ⟨older, hnewest⟩ := List.head?_eq_some_iff.1 hnode
    obtain ⟨row, hrow, htiles⟩ := h.newest one older hnewest
    rw [← hstart] at htiles
    have hne := hapart one older hnewest
    have hle := htiles.leadsTo.offset_le
    exact ⟨Nat.lt_of_le_of_ne hle hne, row, hrow, htiles⟩

theorem openElement {name : List Char} {tag : OpenTag} {terminated : Bool}
    (h : builder.Parted stop) (later : Point) :
    (builder.openElement name tag terminated).Parted later := by
  unfold Builder.openElement
  simp only
  split
  · exact h.spaced.add rfl (Node.Spaced.nil builder.issues).isChain_of_mem_element later
  · refine ⟨⟨List.forall_mem_cons.2 ⟨.nil _, h.spaced.frames⟩, h.spaced.children⟩, ?_⟩
    intro last older hnewest
    cases hnewest

/-- A closing tag ends elements, or else it is one more that closed nothing. -/
theorem closeElement {name : List Char} {tag : CloseTag} (h : builder.Parted stop)
    (hstart : tag.span.start = stop) (hforward : tag.span.start.Reaches tag.span.stop) :
    (builder.closeElement options name tag).Parted tag.span.stop := by
  unfold Builder.closeElement
  by_cases hmem : name ∈ builder.names
  · rw [if_pos ((any_frames name builder).2 hmem)]
    have hinner : ((builder.frames.takeWhile fun frame => frame.name != name).foldl
        (fun builder _ => builder.pop (Frame.closeImplicitly options.strict name))
          builder).Spaced :=
      h.spaced.foldl_pop (fun _ => ⟨_, rfl⟩) _
    refine hinner.pop_of_frame (fun _ => ⟨_, rfl⟩) ?_ _
    intro hnone
    have hhead := head?_names_foldl_pop_takeWhile (Frame.closeImplicitly options.strict name) hmem
    rw [hnone] at hhead
    cases hhead
  · rw [if_neg (fun hany => hmem ((any_frames name builder).1 hany))]
    have hissues : strayClosings (⟨.nothingToClose name, tag.span⟩ :: builder.issues)
        = tag.span :: strayClosings builder.issues := rfl
    have hmore : strayClosings builder.issues
        ⊆ strayClosings (⟨.nothingToClose name, tag.span⟩ :: builder.issues) := by
      rw [hissues]
      exact List.subset_cons_self _ _
    refine ⟨⟨fun frame hframe => (h.spaced.frames frame hframe).mono hmore,
      h.spaced.children.mono hmore⟩, fun last older hnewest => ?_⟩
    obtain ⟨row, hrow, htiles⟩ := h.newest last older hnewest
    refine ⟨row ++ [tag.span], ?_, htiles.concat hstart hforward⟩
    refine List.append_subset.2 ⟨List.Subset.trans hrow hmore, ?_⟩
    rw [hissues]
    exact List.cons_subset_cons _ (List.nil_subset _)

/-- **One segment: texts stay parted.** -/
theorem step {segment : Segment} (h : builder.Parted stop) (hstart : segment.span.start = stop)
    (hforward : segment.span.start.Reaches segment.span.stop) :
    (builder.step options segment).Parted segment.span.stop := by
  cases segment with
  | text token => exact h.joinText hstart
  | erb tag => exact h.spaced.add rfl (fun _ hrow => by cases hrow) _
  | comment value => exact h.spaced.add rfl (fun _ hrow => by cases hrow) _
  | openTag name tag terminated => exact h.openElement _
  | closeTag name tag => exact h.closeElement hstart hforward

/-- **A run: the texts of segments that tile a way are parted.** -/
theorem run {row : List Segment} {last : Point} (h : builder.Parted stop)
    (htiles : Tiles stop (row.map Segment.span) last) :
    (row.foldl (Builder.step options) builder).Parted last := by
  induction row generalizing builder stop with
  | nil => exact htiles ▸ h
  | cons segment row ih =>
    obtain ⟨hstart, hforward, hrest⟩ := htiles
    exact ih (h.step hstart hforward) hrest

end Parted

theorem spaced_build (options : ParserOptions) {row : List Segment} {last : Point}
    (h : Tiles .origin (row.map Segment.span) last) : (build options row).Spaced := by
  have hrun : (row.foldl (step options) empty).Parted last := parted_empty.run h
  exact hrun.spaced.foldl_pop (fun _ => ⟨_, rfl⟩) _

end Builder

/-! ## 4. Documents -/

theorem Document.isChain_of_mem_siblings_ofSource (options : ParserOptions) (source : List Char) :
    ∀ row ∈ (ofSource options source).siblings,
      row.IsChain (Node.Parted (ofSource options source).issues) := by
  obtain ⟨-, hchildren⟩ := Builder.spaced_build options
    (tiles_segments_locatedPieces options.trackWhitespace source)
  have hspaced : Node.Spaced (ofSource options source).issues
      (Builder.build options (options.segments source)).children :=
    hchildren.mono (strayClosings_reverse _).symm.subset
  intro row hrow
  rcases List.mem_cons.1 hrow with rfl | hrow
  · exact List.isChain_reverse.2 hspaced.chain
  · obtain ⟨node, hnode, hrow⟩ := Node.mem_filterMap_children?_iff.1 hrow
    exact hspaced.inside node (List.mem_reverse.1 hnode) row hrow

mutual

/-- Putting ERB tags back moves no text and makes none. -/
theorem Node.textSpans_refill (node : Node) (supply : List ErbTag) :
    (node.refill supply).1.textSpan? = node.textSpan?
      ∧ (node.refill supply).1.siblings.map (List.map textSpan?)
        = node.siblings.map (List.map textSpan?) := by
  match node with
  | .text span => exact ⟨rfl, rfl⟩
  | .comment value => exact ⟨rfl, rfl⟩
  | .erb tag => exact ⟨rfl, rfl⟩
  | .element info children =>
    obtain ⟨hchildren, hinside⟩ :=
      textSpans_refillAll children (TagItem.refillAll info.openTag.items supply).2
    refine ⟨rfl, ?_⟩
    simp only [refill, siblings, subnodes, List.filterMap_cons, children?, List.map_cons, hchildren,
      hinside]

theorem Node.textSpans_refillAll (nodes : List Node) (supply : List ErbTag) :
    (refillAll nodes supply).1.map textSpan? = nodes.map textSpan?
      ∧ ((subnodesOfAll (refillAll nodes supply).1).filterMap children?).map (List.map textSpan?)
        = ((subnodesOfAll nodes).filterMap children?).map (List.map textSpan?) := by
  match nodes with
  | [] => exact ⟨rfl, rfl⟩
  | node :: nodes =>
    obtain ⟨hnode, hinside⟩ := textSpans_refill node supply
    obtain ⟨hnodes, hothers⟩ := textSpans_refillAll nodes (node.refill supply).2
    refine ⟨?_, ?_⟩
    · simp only [refillAll, List.map_cons, hnode, hnodes]
    · simp only [siblings] at hinside
      simp only [refillAll, subnodesOfAll, List.filterMap_append, List.map_append, hinside, hothers]

end

theorem textSpans_siblings_parsed (source : List Char) (options : ParserOptions) :
    (parsed source options).siblings.map (List.map Node.textSpan?)
      = (Document.ofSource options source).siblings.map (List.map Node.textSpan?) := by
  unfold parsed
  simp only
  split
  · obtain ⟨hchildren, hinside⟩ := Node.textSpans_refillAll
      (Document.ofSource options source).children
      ((Document.ofSource options source).annotatedTags source)
    exact congrArg₂ List.cons hchildren hinside
  · rfl

/-- **Texts that follow each other in a document are parted.** -/
theorem isChain_of_mem_siblings {source : List Char} {options : ParserOptions} {row : List Node}
    (h : row ∈ (parsed source options).siblings) :
    row.IsChain (Node.Parted (parsed source options).issues) := by
  have hmem := List.mem_map_of_mem (f := List.map Node.textSpan?) h
  rw [textSpans_siblings_parsed] at hmem
  obtain ⟨other, hother, heq⟩ := List.mem_map.1 hmem
  rw [issues_parsed]
  exact Node.isChain_of_textSpan?
    (Document.isChain_of_mem_siblings_ofSource options source other hother) heq.symm

example : (parsed "a</b>c".toList {}).entries.map (fun entry => entry.span.range)
    = [⟨0, 1⟩, ⟨5, 6⟩] := by decide +kernel

end ErbTemplate
