import ErbTemplate.Proofs.Token.Pieces
import ErbTemplate.Proofs.Tree.Annotation
import ErbTemplate.Proofs.Tree.Origins
import ErbTemplate.Proofs.Tree.Whitespace

/-!
# Options are orthogonal

Options are consulted while a tree is built, in the middle of reading an opening tag and of taking
elements off the stack. None of them reaches further than the element at hand. The tree under any
options is the tree under the fullest ones (`ParserOptions.fullest`) with up to three passes over
it: white space is taken out of the opening tags, missing closing tags that may be left out are
forgiven, and the ERB tags are analysed.

The first two passes change elements one by one (`Node.mapElements`). The segments that are read
under fewer options are those under all of them without some white space (`segments_eq_map_kept`);
that building from these is building from all and changing the elements afterwards is a simulation,
step by step (`Builder.step_adapt`). Analysis looks only at ERB tags, which both passes leave in
their places, so the order of the passes does not matter.
-/

set_option autoImplicit false

namespace ErbTemplate

/-! ## 1. Changing elements -/

mutual

/-- Changes every element of a node. -/
def Node.mapElements (change : ElementInfo → ElementInfo) : Node → Node
  | .text span => .text span
  | .comment value => .comment value
  | .erb tag => .erb tag
  | .element info children => .element (change info) (mapElementsOfAll change children)

/-- Changes every element of the nodes of a list. -/
def Node.mapElementsOfAll (change : ElementInfo → ElementInfo) : List Node → List Node
  | [] => []
  | node :: nodes => node.mapElements change :: mapElementsOfAll change nodes

end

/-- Changes every element of a document. -/
def Document.mapElements (change : ElementInfo → ElementInfo) (document : Document) : Document :=
  { document with children := Node.mapElementsOfAll change document.children }

/-- An element without the white space of its opening tag. -/
def ElementInfo.withoutWhitespace (info : ElementInfo) : ElementInfo :=
  { info with
    openTag :=
      { info.openTag with items := info.openTag.items.filter fun item => !item.isWhitespace } }

/-- An element without the report of its missing closing tag, if its name says that the closing tag
    may be left out. -/
def ElementInfo.forgiven (source : List Char) (info : ElementInfo) : ElementInfo :=
  if isOptionalEndName (Text.lower (info.openTag.name.text source)) then
    { info with issues := info.issues.filter fun issue => issue.kind != .missingClosingTag }
  else info

namespace Document

/-- A document without the white space of its opening tags. -/
def withoutWhitespace (document : Document) : Document :=
  document.mapElements ElementInfo.withoutWhitespace

/-- A document without the reports of closing tags that may be left out. -/
def forgiven (source : List Char) (document : Document) : Document :=
  document.mapElements (ElementInfo.forgiven source)

end Document

namespace ParserOptions

/-- White space is kept and everything is reported, and nothing is analysed. -/
def fullest : ParserOptions where
  trackWhitespace := true
  analyze := false
  strict := true

/-- What options make of the document under the fullest ones. -/
def apply (source : List Char) (options : ParserOptions) (document : Document) : Document :=
  let document := if options.trackWhitespace then document else document.withoutWhitespace
  let document := if options.strict then document else document.forgiven source
  let document := if options.analyze then document.analyze source else document
  { document with options }

end ParserOptions

namespace Node

variable {change other : ElementInfo → ElementInfo}

theorem mapElementsOfAll_eq_map (change : ElementInfo → ElementInfo) (nodes : List Node) :
    mapElementsOfAll change nodes = nodes.map (mapElements change) := by
  induction nodes with
  | nil => rfl
  | cons node nodes ih => rw [mapElementsOfAll, ih, List.map_cons]

mutual

theorem mapElements_id (node : Node) : node.mapElements id = node := by
  match node with
  | .text span => rfl
  | .comment value => rfl
  | .erb tag => rfl
  | .element info children => rw [mapElements, mapElementsOfAll_id children, id]

theorem mapElementsOfAll_id (nodes : List Node) : mapElementsOfAll id nodes = nodes := by
  match nodes with
  | [] => rfl
  | node :: nodes => rw [mapElementsOfAll, mapElements_id node, mapElementsOfAll_id nodes]

end

mutual

theorem mapElements_mapElements (node : Node) :
    (node.mapElements other).mapElements change = node.mapElements (change ∘ other) := by
  match node with
  | .text span => rfl
  | .comment value => rfl
  | .erb tag => rfl
  | .element info children =>
    rw [mapElements, mapElements, mapElements, mapElementsOfAll_mapElementsOfAll children]
    rfl

theorem mapElementsOfAll_mapElementsOfAll (nodes : List Node) :
    mapElementsOfAll change (mapElementsOfAll other nodes)
      = mapElementsOfAll (change ∘ other) nodes := by
  match nodes with
  | [] => rfl
  | node :: nodes =>
    rw [mapElementsOfAll, mapElementsOfAll, mapElementsOfAll, mapElements_mapElements node,
      mapElementsOfAll_mapElementsOfAll nodes]

end

theorem span_mapElements (h : ∀ info, (change info).span = info.span) (node : Node) :
    (node.mapElements change).span = node.span := by
  cases node with
  | text span => rfl
  | comment value => rfl
  | erb tag => rfl
  | element info children => exact h info

end Node

/-! ## 2. Building under options -/

namespace ParserOptions

variable {source : List Char} {options : ParserOptions}

/-- The issues of an element that are reported. -/
def keptIssues (options : ParserOptions) (name : List Char) (issues : List Issue) : List Issue :=
  if !options.strict && isOptionalEndName name then
    issues.filter fun issue => issue.kind != .missingClosingTag
  else issues

/-- What options make of an element under the fullest ones. -/
def adapt (source : List Char) (options : ParserOptions) (info : ElementInfo) : ElementInfo :=
  { info with
    openTag := info.openTag.kept options
    issues := options.keptIssues (Text.lower (info.openTag.name.text source)) info.issues }

end ParserOptions

open ParserOptions

/-- The name of an opening tag is the text of its name in small letters. -/
def Segment.Named (source : List Char) : Segment → Prop
  | openTag name tag _ => name = Text.lower (tag.name.text source)
  | text _ | erb _ | comment _ | closeTag .. => True

theorem named_of_mem_segments (options : ParserOptions) (source : List Char) :
    ∀ segment ∈ options.segments source, segment.Named source := by
  refine Segment.forall_mem_segments (fun _ _ => trivial) (fun _ _ _ _ => trivial)
    (fun _ _ _ _ => trivial) ?_ (fun _ _ _ _ _ _ _ => trivial) (List.suffix_refl _)
  intro mark name rest hsuffix _ _
  have hname : name ∈ tokens source := mem_tokens_of_markup (hsuffix.subset (by simp))
  show Text.lower name.text = Text.lower (name.span.text source)
  rw [text_span_of_mem_tokens hname]

/-- An open element under the fullest options, as it is under others. -/
def Frame.adapt (source : List Char) (options : ParserOptions) (frame : Frame) : Frame :=
  ⟨frame.name, frame.openTag.kept options,
    Node.mapElementsOfAll (options.adapt source) frame.children⟩

/-- A tree under construction under the fullest options, as it is under others. -/
def Builder.adapt (source : List Char) (options : ParserOptions) (builder : Builder) : Builder :=
  ⟨builder.frames.map (Frame.adapt source options),
    Node.mapElementsOfAll (options.adapt source) builder.children, builder.issues⟩

section

variable {source : List Char} {options : ParserOptions} {row : List Segment}

theorem Frame.Made.name_eq {frame : Frame} (h : frame.Made fullest row)
    (hrow : ∀ segment ∈ row, segment.Named source) :
    frame.name = Text.lower (frame.openTag.name.text source) := by
  obtain ⟨hmem, -⟩ := h
  exact hrow _ hmem

theorem Frame.toNode_adapt (frame : Frame) (issues : List Issue) :
    (frame.adapt source options).toNode
        (options.keptIssues (Text.lower (frame.openTag.name.text source)) issues)
      = (frame.toNode issues).mapElements (options.adapt source) := by
  have hstop : ((Node.mapElementsOfAll (options.adapt source) frame.children).head?.map
      fun child => child.span.stop) = frame.children.head?.map fun child => child.span.stop := by
    rw [Node.mapElementsOfAll_eq_map, List.head?_map, Option.map_map]
    have hspan : ∀ info, (options.adapt source info).span = info.span := fun _ => rfl
    refine congrArg (fun f => frame.children.head?.map f) (funext fun child => ?_)
    exact congrArg Span.stop (Node.span_mapElements hspan child)
  rw [toNode, toNode, Node.mapElements, Node.mapElementsOfAll_eq_map, List.map_reverse,
    ← Node.mapElementsOfAll_eq_map]
  simp only [Frame.adapt, hstop]
  rfl

theorem Frame.closeWith_adapt (tag : CloseTag) (frame : Frame) :
    (frame.adapt source options).closeWith tag
      = (frame.closeWith tag).mapElements (options.adapt source) := by
  have hnone : options.keptIssues (Text.lower (frame.openTag.name.text source)) [] = [] := by
    simp [keptIssues]
  rw [closeWith, closeWith, Node.mapElements, Node.mapElementsOfAll_eq_map, List.map_reverse,
    ← Node.mapElementsOfAll_eq_map, ParserOptions.adapt, hnone]
  rfl

/-- An element without a closing tag is reported under the fullest options, and under others unless
    it is forgiven. -/
theorem Frame.toNode_unless_adapt {frame : Frame} {issue : Issue}
    (hname : frame.name = Text.lower (frame.openTag.name.text source))
    (hissue : isOptionalEndName frame.name = true → issue.kind = .missingClosingTag) :
    (frame.adapt source options).toNode
        (if (frame.adapt source options).mayOmitEnd options.strict then [] else [issue])
      = (frame.toNode (if frame.mayOmitEnd fullest.strict then [] else [issue])).mapElements
          (options.adapt source) := by
  have hfull : (if frame.mayOmitEnd fullest.strict then [] else [issue]) = [issue] := rfl
  have hkept : options.keptIssues (Text.lower (frame.openTag.name.text source)) [issue]
      = if (frame.adapt source options).mayOmitEnd options.strict then [] else [issue] := by
    rw [← hname, keptIssues]
    show _ = if (!options.strict && isOptionalEndName frame.name) = true then [] else [issue]
    split
    next homit =>
      rw [Bool.and_eq_true] at homit
      simp [hissue homit.2]
    next => rfl
  rw [hfull, ← hkept]
  exact frame.toNode_adapt [issue]

namespace Builder

theorem onChildren_adapt {change : List Node → List Node} (builder : Builder)
    (hchange : ∀ nodes, change (Node.mapElementsOfAll (options.adapt source) nodes)
      = Node.mapElementsOfAll (options.adapt source) (change nodes)) :
    (builder.adapt source options).onChildren change
      = (builder.onChildren change).adapt source options := by
  obtain ⟨frames, children, issues⟩ := builder
  cases frames with
  | nil => simp [Builder.adapt, onChildren, hchange]
  | cons frame frames => simp [Builder.adapt, Frame.adapt, onChildren, hchange]

theorem joinText_adapt (span : Span) (nodes : List Node) :
    joinText span (Node.mapElementsOfAll (options.adapt source) nodes)
      = Node.mapElementsOfAll (options.adapt source) (joinText span nodes) := by
  cases nodes with
  | nil => rfl
  | cons node nodes =>
    cases node with
    | text last =>
      simp only [Node.mapElementsOfAll, Node.mapElements, joinText]
      split <;> rfl
    | comment value => rfl
    | erb tag => rfl
    | element info children => rfl

theorem add_adapt (node : Node) (builder : Builder) :
    (builder.adapt source options).add (node.mapElements (options.adapt source))
      = (builder.add node).adapt source options := by
  obtain ⟨frames, children, issues⟩ := builder
  cases frames with
  | nil => simp [Builder.adapt, add, onChildren, Node.mapElementsOfAll]
  | cons frame frames =>
    simp [Builder.adapt, Frame.adapt, add, onChildren, Node.mapElementsOfAll]

theorem pop_adapt {finish full : Frame → Node} {builder : Builder}
    (hfinish : ∀ frame ∈ builder.frames,
      finish (frame.adapt source options) = (full frame).mapElements (options.adapt source)) :
    (builder.adapt source options).pop finish = (builder.pop full).adapt source options := by
  obtain ⟨frames, children, issues⟩ := builder
  cases frames with
  | nil => rfl
  | cons frame frames =>
    have hfirst := hfinish frame List.mem_cons_self
    show (Builder.adapt source options ⟨frames, children, issues⟩).add
      (finish (frame.adapt source options)) = _
    rw [hfirst, add_adapt]
    rfl

theorem foldl_pop_adapt {α : Type} (finish full : Frame → Node) {builder : Builder}
    (hmade : builder.Made fullest row)
    (hfull : ∀ frame, frame.Made fullest row → (full frame).Made fullest row)
    (hfinish : ∀ frame, frame.Made fullest row →
      finish (frame.adapt source options) = (full frame).mapElements (options.adapt source))
    (items : List α) :
    items.foldl (fun builder _ => builder.pop finish) (builder.adapt source options)
      = (items.foldl (fun builder _ => builder.pop full) builder).adapt source options := by
  induction items generalizing builder with
  | nil => rfl
  | cons item items ih =>
    have hpop := pop_adapt fun frame hmem => hfinish frame (hmade.2.1 frame hmem)
    rw [List.foldl_cons, List.foldl_cons, hpop]
    exact ih (hmade.pop fun frame _ => hfull frame)

theorem openElement_adapt (name : List Char) (tag : OpenTag) (terminated : Bool)
    (builder : Builder) :
    (builder.adapt source options).openElement name (tag.kept options) terminated
      = (builder.openElement name tag terminated).adapt source options := by
  -- an opening tag that is cut off is never forgiven
  have hkept : ∀ key, options.keptIssues key
      (if terminated then [] else [⟨.unterminatedTag name, tag.span⟩])
      = if terminated then [] else [⟨.unterminatedTag name, tag.span⟩] := by
    intro key
    cases terminated <;> simp [keptIssues, Issue.kind, IssueCause.kind]
  unfold openElement
  have hself : (tag.kept options).selfClosing = tag.selfClosing := rfl
  simp only [hself]
  split
  · rw [← add_adapt, Node.mapElements, ParserOptions.adapt]
    simp only [hkept]
    rfl
  · rfl

theorem closeElement_adapt {name : List Char} (tag : CloseTag) {builder : Builder}
    (hrow : ∀ segment ∈ row, segment.Named source) (hmade : builder.Made fullest row) :
    (builder.adapt source options).closeElement options name tag
      = (builder.closeElement fullest name tag).adapt source options := by
  have hany : ((builder.adapt source options).frames.any fun frame => frame.name == name)
      = builder.frames.any fun frame => frame.name == name := by
    simp [Builder.adapt, Frame.adapt, List.any_map, Function.comp_def]
  have hinner : ((builder.adapt source options).frames.takeWhile fun frame => frame.name != name)
      = (builder.frames.takeWhile fun frame => frame.name != name).map
          (Frame.adapt source options) := by
    simp [Builder.adapt, Frame.adapt, List.takeWhile_map, Function.comp_def]
  unfold closeElement
  rw [hany]
  split
  · simp only [hinner, List.foldl_map]
    rw [foldl_pop_adapt (Frame.closeImplicitly options.strict name)
      (Frame.closeImplicitly fullest.strict name) hmade]
    · exact pop_adapt fun frame _ => frame.closeWith_adapt tag
    · exact fun frame hframe => hframe.toNode _ (Or.inr ⟨name, rfl⟩)
    · exact fun frame hframe => Frame.toNode_unless_adapt (hframe.name_eq hrow) fun _ => rfl
  · rfl

/-- **One segment: adapting commutes with building.** -/
theorem step_adapt {segment : Segment} {builder : Builder}
    (hrow : ∀ segment ∈ row, segment.Named source) (hmade : builder.Made fullest row) :
    (builder.adapt source options).step options (segment.kept options)
      = (builder.step fullest segment).adapt source options := by
  cases segment with
  | text token => exact builder.onChildren_adapt (joinText_adapt token.span)
  | erb tag => exact builder.add_adapt (.erb tag)
  | comment value => exact builder.add_adapt (.comment value)
  | openTag name tag terminated => exact builder.openElement_adapt name tag terminated
  | closeTag name tag => exact closeElement_adapt tag hrow hmade

/-- **A run: building under options is building under the fullest ones, and adapting.** -/
theorem run_adapt {part : List Segment} {builder : Builder}
    (hrow : ∀ segment ∈ row, segment.Named source) (hpart : part ⊆ row)
    (hmade : builder.Made fullest row) :
    (part.map (Segment.kept options)).foldl (step options) (builder.adapt source options)
      = (part.foldl (step fullest) builder).adapt source options := by
  induction part generalizing builder with
  | nil => rfl
  | cons segment part ih =>
    obtain ⟨hmem, hrest⟩ := List.cons_subset.1 hpart
    rw [List.map_cons, List.foldl_cons, List.foldl_cons, step_adapt hrow hmade]
    exact ih hrest (hmade.step hmem)

theorem build_adapt (hrow : ∀ segment ∈ row, segment.Named source) :
    build options (row.map (Segment.kept options))
      = (build fullest row).adapt source options := by
  have hmade := (Made.empty fullest row).run (List.Subset.refl row)
  have hrun : (row.map (Segment.kept options)).foldl (step options) empty
      = (row.foldl (step fullest) empty).adapt source options :=
    run_adapt hrow (List.Subset.refl row) (Made.empty fullest row)
  unfold build finish
  rw [hrun]
  show (List.map _ _).foldl _ _ = _
  rw [List.foldl_map]
  refine foldl_pop_adapt _ _ hmade (fun frame hframe => hframe.toNode _ (Or.inl rfl)) ?_ _
  intro frame hframe
  refine Frame.toNode_unless_adapt (hframe.name_eq hrow) fun hoptional => ?_
  show (if isOptionalEndName frame.name then IssueKind.missingClosingTag else .unclosedElement) = _
  rw [if_pos hoptional]

end Builder
end

theorem Document.ofSource_eq_mapElements (options : ParserOptions) (source : List Char) :
    ofSource options source
      = { (ofSource fullest source).mapElements (options.adapt source) with options } := by
  have hbuild : Builder.build options (options.segments source)
      = (Builder.build fullest (fullest.segments source)).adapt source options := by
    have hkept : options.segments source = (fullest.segments source).map (Segment.kept options) :=
      segments_eq_map_kept options (locatedPieces source)
    rw [hkept]
    exact Builder.build_adapt (named_of_mem_segments fullest source)
  unfold ofSource mapElements
  simp only [hbuild, Builder.adapt, Node.mapElementsOfAll_eq_map, List.map_reverse]

/-! ## 3. Passes in any order -/

/-- Replaces the ERB tags in the opening tag of an element. -/
def ElementInfo.refill (info : ElementInfo) (supply : List ErbTag) : ElementInfo × List ErbTag :=
  let (items, supply) := TagItem.refillAll info.openTag.items supply
  ({ info with openTag := { info.openTag with items } }, supply)

/-- A change of elements that leaves ERB tags in their places. -/
structure KeepsTags (change : ElementInfo → ElementInfo) : Prop where
  erbTags : ∀ info, Entry.erbTags ((change info).openTag.items.map Entry.ofItem)
    = Entry.erbTags (info.openTag.items.map Entry.ofItem)
  refill : ∀ info supply,
    (change info).refill supply = ((change (info.refill supply).1), (info.refill supply).2)

theorem TagItem.erbTags_filter (items : List TagItem) :
    Entry.erbTags ((items.filter fun item => !item.isWhitespace).map Entry.ofItem)
      = Entry.erbTags (items.map Entry.ofItem) := by
  induction items with
  | nil => rfl
  | cons item items ih =>
    cases item with
    | whitespace span => exact ih
    | attr value => exact ih
    | erb tag => exact congrArg (tag :: ·) ih

theorem TagItem.refillAll_filter (items : List TagItem) (supply : List ErbTag) :
    refillAll (items.filter fun item => !item.isWhitespace) supply
      = ((refillAll items supply).1.filter fun item => !item.isWhitespace,
          (refillAll items supply).2) := by
  induction items generalizing supply with
  | nil => rfl
  | cons item items ih =>
    cases item with
    | whitespace span => exact ih supply
    | attr value =>
      have hkeep : (!(TagItem.attr value).isWhitespace) = true := rfl
      simp only [List.filter_cons, hkeep, if_true, refillAll, ih]
    | erb tag =>
      have hkeep : ∀ tag, (!(TagItem.erb tag).isWhitespace) = true := fun _ => rfl
      simp only [List.filter_cons, hkeep, if_true, refillAll, ih]

theorem keepsTags_withoutWhitespace : KeepsTags ElementInfo.withoutWhitespace where
  erbTags info := TagItem.erbTags_filter info.openTag.items
  refill info supply := by
    simp only [ElementInfo.refill, ElementInfo.withoutWhitespace, TagItem.refillAll_filter]

theorem keepsTags_forgiven (source : List Char) : KeepsTags (ElementInfo.forgiven source) where
  erbTags info := by
    unfold ElementInfo.forgiven
    split <;> rfl
  refill info supply := by
    by_cases hname : isOptionalEndName (Text.lower (info.openTag.name.text source)) = true
    · simp [ElementInfo.forgiven, ElementInfo.refill, hname]
    · simp [ElementInfo.forgiven, ElementInfo.refill, hname]

namespace Node

variable {change : ElementInfo → ElementInfo}

mutual

theorem erbTags_mapElements (h : KeepsTags change) (node : Node) :
    Entry.erbTags (node.mapElements change).entries = Entry.erbTags node.entries := by
  match node with
  | .text span => rfl
  | .comment value => rfl
  | .erb tag => rfl
  | .element info children =>
    rw [mapElements, erbTags_element, erbTags_element, h.erbTags,
      erbTags_mapElementsOfAll h children]

theorem erbTags_mapElementsOfAll (h : KeepsTags change) (nodes : List Node) :
    Entry.erbTags (entriesOfAll (mapElementsOfAll change nodes))
      = Entry.erbTags (entriesOfAll nodes) := by
  match nodes with
  | [] => rfl
  | node :: nodes =>
    rw [mapElementsOfAll, entriesOfAll, entriesOfAll, Entry.erbTags_append, Entry.erbTags_append,
      erbTags_mapElements h node, erbTags_mapElementsOfAll h nodes]

end

theorem refill_element (info : ElementInfo) (children : List Node) (supply : List ErbTag) :
    refill (.element info children) supply
      = (.element (info.refill supply).1 (refillAll children (info.refill supply).2).1,
          (refillAll children (info.refill supply).2).2) := rfl

theorem refillAll_cons (node : Node) (nodes : List Node) (supply : List ErbTag) :
    refillAll (node :: nodes) supply
      = ((node.refill supply).1 :: (refillAll nodes (node.refill supply).2).1,
          (refillAll nodes (node.refill supply).2).2) := rfl

mutual

theorem refill_mapElements (h : KeepsTags change) (node : Node) (supply : List ErbTag) :
    (node.mapElements change).refill supply
      = ((node.refill supply).1.mapElements change, (node.refill supply).2) := by
  match node with
  | .text span => rfl
  | .comment value => rfl
  | .erb tag => rfl
  | .element info children =>
    rw [mapElements, refill_element, refill_element, h.refill,
      refillAll_mapElementsOfAll h children]
    rfl

theorem refillAll_mapElementsOfAll (h : KeepsTags change) (nodes : List Node)
    (supply : List ErbTag) :
    refillAll (mapElementsOfAll change nodes) supply
      = (mapElementsOfAll change (refillAll nodes supply).1, (refillAll nodes supply).2) := by
  match nodes with
  | [] => rfl
  | node :: nodes =>
    rw [mapElementsOfAll, refillAll_cons, refillAll_cons, refill_mapElements h node,
      refillAll_mapElementsOfAll h nodes]
    rfl

end

end Node

namespace Document

theorem erbTags_mapElements {change : ElementInfo → ElementInfo} (h : KeepsTags change)
    (document : Document) : (document.mapElements change).erbTags = document.erbTags :=
  Node.erbTags_mapElementsOfAll h document.children

/-- **Analysis does not see a change that leaves ERB tags in their places.** -/
theorem analyze_mapElements {change : ElementInfo → ElementInfo} (h : KeepsTags change)
    (source : List Char) (document : Document) :
    (document.mapElements change).analyze source
      = (document.analyze source).mapElements change := by
  have htags := erbTags_mapElements h document
  unfold analyze brackets
  simp only [htags, withErbTags]
  simp only [mapElements, Node.refillAll_mapElementsOfAll h]

theorem mapElements_mapElements (change other : ElementInfo → ElementInfo) (document : Document) :
    (document.mapElements other).mapElements change = document.mapElements (change ∘ other) := by
  simp only [mapElements, Node.mapElementsOfAll_mapElementsOfAll]

theorem mapElements_id (document : Document) : document.mapElements id = document := by
  simp only [mapElements, Node.mapElementsOfAll_id]

end Document

theorem ElementInfo.forgiven_withoutWhitespace (source : List Char) (info : ElementInfo) :
    info.withoutWhitespace.forgiven source = (info.forgiven source).withoutWhitespace := by
  by_cases hname : isOptionalEndName (Text.lower (info.openTag.name.text source)) = true
  · simp [forgiven, withoutWhitespace, hname]
  · simp [forgiven, withoutWhitespace, hname]

/-- Adapting is one pass after the other. -/
theorem ParserOptions.adapt_eq_comp (source : List Char) (options : ParserOptions) :
    options.adapt source
      = (if options.strict then id else ElementInfo.forgiven source)
        ∘ (if options.trackWhitespace then id else ElementInfo.withoutWhitespace) := by
  funext info
  obtain ⟨track, analyze, strict⟩ := options
  by_cases hname : isOptionalEndName (Text.lower (info.openTag.name.text source)) = true <;>
    cases track <;> cases strict <;>
    simp [adapt, keptIssues, OpenTag.kept, keptItems, ElementInfo.withoutWhitespace,
      ElementInfo.forgiven, hname]

theorem Document.mapElements_adapt (source : List Char) (options : ParserOptions)
    (document : Document) :
    document.mapElements (options.adapt source)
      = (if options.strict then id else forgiven source)
        ((if options.trackWhitespace then id else withoutWhitespace) document) := by
  rw [ParserOptions.adapt_eq_comp, ← mapElements_mapElements]
  obtain ⟨track, analyze, strict⟩ := options
  cases track <;> cases strict <;> simp [mapElements_id, forgiven, withoutWhitespace]

/-! ## 4. The theorem -/

theorem parsed_eq_apply (source : List Char) (options : ParserOptions) :
    parsed source options = options.apply source (parsed source fullest) := by
  have hfull : parsed source fullest = Document.ofSource fullest source := rfl
  rw [hfull, parsed, Document.ofSource_eq_mapElements, Document.mapElements_adapt]
  obtain ⟨track, analyze, strict⟩ := options
  cases track <;> cases analyze <;> cases strict <;> rfl

/-- **The options of the parser are orthogonal.** Whatever the options, a source is parsed as under
    the fullest ones, and each option that differs is one pass over the document. The passes can be
    made in any order. -/
theorem options_are_orthogonal (source : List Char) :
    (∀ options memory, (parse source options).outcome memory
        = ((parse source fullest).outcome memory).map (options.apply source))
      ∧ ∀ document : Document,
        document.withoutWhitespace.forgiven source = (document.forgiven source).withoutWhitespace
          ∧ document.withoutWhitespace.analyze source
            = (document.analyze source).withoutWhitespace
          ∧ (document.forgiven source).analyze source
            = (document.analyze source).forgiven source := by
  refine ⟨fun options memory => ?_, fun document => ⟨?_, ?_, ?_⟩⟩
  · rw [outcome_parse_eq_map, outcome_parse_eq_map, parsed_eq_apply source options]
    cases (lex source).outcome memory <;> rfl
  · unfold Document.forgiven Document.withoutWhitespace
    rw [Document.mapElements_mapElements, Document.mapElements_mapElements]
    exact congrArg (fun change => document.mapElements change)
      (funext (ElementInfo.forgiven_withoutWhitespace source))
  · exact Document.analyze_mapElements keepsTags_withoutWhitespace source document
  · exact Document.analyze_mapElements (keepsTags_forgiven source) source document

/-- White space and a missing closing tag are there under the fullest options, not by default. -/
example :
    (parsed "<p a>".toList fullest).entries.length = 3
      ∧ (parsed "<p a>".toList fullest).allIssues.length = 1
      ∧ (parsed "<p a>".toList {}).entries.length = 2
      ∧ (parsed "<p a>".toList {}).allIssues = [] := by decide +kernel

end ErbTemplate
