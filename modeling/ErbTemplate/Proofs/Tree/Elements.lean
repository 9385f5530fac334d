import ErbTemplate.Proofs.Tree.Nesting
import ErbTemplate.Proofs.Tree.Orthogonality
import ErbTemplate.Proofs.Tree.Terminated

/-!
# What an element tells of its end

An element leaves the stack with its own closing tag, with the closing tag of an element around it,
or at the end of the source; some never enter it. By then it carries an issue or none, and has
children or none. This file says that all of that can be read off the finished tree, without the
stack: what an element reports is settled by its own parts and by whether one of the elements around
it has a closing tag (`Placed.Consistent`).

The difficulty is that an element does not know, when it leaves the stack, what will be around it.
Those that end with the closing tag of another one are taken off before that one is closed, and for
a while stand under elements without a closing tag. The invariant therefore says of every finished
node which name the next closed element around it may have (`Node.Settles`): any name or none for
the children of open elements, except while a closing tag is at work, when those of the innermost
one wait for its name (`Builder.Settled`).
-/

set_option autoImplicit false

namespace ErbTemplate

/-! ## 1. The rule -/

/-- The name of an element, in small letters. -/
def ElementInfo.name (source : List Char) (info : ElementInfo) : List Char :=
  Text.lower (info.openTag.name.text source)

/-- The name of the first element of a row that has a closing tag. -/
def closerOf (source : List Char) (outer : List ElementInfo) : Option (List Char) :=
  (outer.find? fun info => info.closeTag.isSome).map (ElementInfo.name source)

/-- An element as it stands in a tree: the number of its children, and the elements around it,
    innermost first. -/
structure Placed where
  info : ElementInfo
  children : Nat
  outer : List ElementInfo

mutual

/-- All elements of a node that stands inside of elements. -/
def Node.placed (outer : List ElementInfo) : Node → List Placed
  | .text _ => []
  | .comment _ => []
  | .erb _ => []
  | .element info children => ⟨info, children.length, outer⟩ :: placedOfAll (info :: outer) children

/-- All elements of nodes that stand inside of elements. -/
def Node.placedOfAll (outer : List ElementInfo) : List Node → List Placed
  | [] => []
  | node :: nodes => node.placed outer ++ placedOfAll outer nodes

end

/-- All elements of a document. -/
def Document.placed (document : Document) : List Placed :=
  Node.placedOfAll [] document.children

/-- The entry of an element. -/
def Placed.entry (place : Placed) : Entry :=
  .element place.info place.children

/-- The parts of an element, what it reports and where it stands agree. -/
structure Placed.Consistent (strict : Bool) (source : List Char) (place : Placed) : Prop where
  atMostOne : place.info.issues.length ≤ 1
  /-- Which elements report nothing. -/
  silent : place.info.issues = [] ↔ place.info.closeTag.isSome = true
    ∨ place.info.openTag.Terminated source
      ∧ (place.info.isVoid = true ∨ place.info.openTag.selfClosing = true
        ∨ strict = false ∧ isOptionalEndName (place.info.name source) = true)
  cutOff : ¬ place.info.openTag.Terminated source →
    place.info.issues.map Issue.kind = [.unclosedElement]
  /-- An element that reports anything inside of a closed one ended with the nearest of these. -/
  implicitly : place.info.openTag.Terminated source →
    ∀ outer, closerOf source place.outer = some outer → ∀ issue ∈ place.info.issues,
      issue.cause = .closedImplicitly (place.info.name source) outer
        ∧ issue.kind = .missingClosingTag
  /-- And inside of no closed element it was open to the end. -/
  neverClosed : place.info.openTag.Terminated source →
    closerOf source place.outer = none → ∀ issue ∈ place.info.issues,
      issue.cause = .neverClosed (place.info.name source)
        ∧ issue.kind = if isOptionalEndName (place.info.name source) then .missingClosingTag
          else .unclosedElement
  closed : ∀ tag, place.info.closeTag = some tag →
    Text.lower (tag.name.text source) = place.info.name source
      ∧ place.info.isVoid = false ∧ place.info.openTag.selfClosing = false
  empty : place.info.isVoid = true ∨ place.info.openTag.selfClosing = true
      ∨ ¬ place.info.openTag.Terminated source →
    place.children = 0 ∧ place.info.closeTag = none
  void : place.info.isVoid = isVoidName (place.info.name source)

/-! ## 2. Elements that are finished -/

theorem name_of_closeTag_mem {options : ParserOptions} {source name : List Char} {tag : CloseTag}
    (h : .closeTag name tag ∈ options.segments source) :
    name = Text.lower (tag.name.text source) := by
  have hall : ∀ segment ∈ options.segments source, ∀ name tag,
      segment = .closeTag name tag → name = Text.lower (tag.name.text source) := by
    refine Segment.forall_mem_segments ?_ ?_ ?_ ?_ ?_ (List.suffix_refl _)
    · intro token _ name tag heq
      cases heq
    · intro opening mark ending _ name tag heq
      cases heq
    · intro mark rest _ _ name tag heq
      cases heq
    · intro mark label rest _ _ _ name tag heq
      cases heq
    · intro mark label stop rest hsuffix _ _ name tag heq
      cases heq
      rw [text_span_of_mem_tokens (mem_tokens_of_markup (hsuffix.subset (by simp)))]
  exact hall _ h name tag rfl

/-- What is known of an element that has been opened. -/
structure Frame.Opened (source : List Char) (frame : Frame) : Prop where
  named : frame.name = Text.lower (frame.openTag.name.text source)
  terminated : frame.openTag.Terminated source
  notVoid : isVoidName frame.name = false
  notSelfClosing : frame.openTag.selfClosing = false

/-- The reason for which an element ends without a closing tag, by the name of the element that is
    closed around it. -/
def endCause (name : List Char) : Option (List Char) → IssueCause
  | none => .neverClosed name
  | some outer => .closedImplicitly name outer

section

variable {strict : Bool} {source : List Char} {frame : Frame}

/-- An element that has been opened can have content. -/
theorem Frame.Opened.hasContent (h : frame.Opened source) :
    ¬ (false = true ∨ frame.openTag.selfClosing = true ∨ ¬ frame.openTag.Terminated source) := by
  rw [h.notSelfClosing]
  simpa using h.terminated

theorem Frame.Opened.isVoid_eq (h : frame.Opened source) :
    false = isVoidName (Text.lower (frame.openTag.name.text source)) := by
  rw [← h.named, h.notVoid]

/-- An element that ends without a closing tag. -/
theorem Frame.Opened.consistent_ended (h : frame.Opened source) (stop : Point) (count : Nat)
    (outer : List ElementInfo) :
    Placed.Consistent strict source ⟨⟨frame.openTag, none, false, ⟨frame.openTag.span.start, stop⟩,
      if frame.mayOmitEnd strict then []
      else [⟨endCause frame.name (closerOf source outer), frame.openTag.span⟩]⟩, count, outer⟩ := by
  have hnamed := h.named
  have hterminated := h.terminated
  have hmay : frame.mayOmitEnd strict = true
      ↔ strict = false ∧ isOptionalEndName frame.name = true := by
    simp [Frame.mayOmitEnd]
  have hissue : ∀ issue ∈ (if frame.mayOmitEnd strict then []
      else [⟨endCause frame.name (closerOf source outer), frame.openTag.span⟩] : List Issue),
      issue.cause = endCause frame.name (closerOf source outer) := by
    intro issue hmem
    split at hmem
    · cases hmem
    · rw [List.mem_singleton.1 hmem]
  refine ⟨?_, ?_, fun hcut => absurd hterminated hcut, ?_, ?_, fun tag htag => (by cases htag),
    fun hno => absurd hno h.hasContent, h.isVoid_eq⟩
  · show List.length (if _ then _ else _) ≤ 1
    split <;> simp
  · simp only [ElementInfo.name, ← hnamed, ← hmay]
    simp [hterminated, h.notSelfClosing]
  · intro _ closer hcloser issue hmem
    have hcause := hissue issue hmem
    rw [hcloser] at hcause
    simp only [ElementInfo.name, ← hnamed]
    exact ⟨hcause, congrArg IssueCause.kind hcause⟩
  · intro _ hcloser issue hmem
    have hcause := hissue issue hmem
    rw [hcloser] at hcause
    simp only [ElementInfo.name, ← hnamed]
    exact ⟨hcause, congrArg IssueCause.kind hcause⟩

/-- An element that ends with its closing tag. -/
theorem Frame.Opened.consistent_closed (h : frame.Opened source) {tag : CloseTag}
    (htag : frame.name = Text.lower (tag.name.text source)) (count : Nat)
    (outer : List ElementInfo) :
    Placed.Consistent strict source ⟨⟨frame.openTag, some tag, false,
      ⟨frame.openTag.span.start, tag.span.stop⟩, []⟩, count, outer⟩ := by
  refine ⟨Nat.zero_le _, ⟨fun _ => Or.inl rfl, fun _ => rfl⟩, fun hcut => absurd h.terminated hcut,
    fun _ _ _ issue hmem => (by cases hmem), fun _ _ issue hmem => (by cases hmem), ?_,
    fun hno => absurd hno h.hasContent, h.isVoid_eq⟩
  intro other hother
  cases hother
  exact ⟨htag.symm.trans h.named, rfl, h.notSelfClosing⟩

/-- An element that has no content, or whose opening tag is cut off. -/
theorem consistent_atOnce {options : ParserOptions} {name : List Char} {tag : OpenTag}
    {terminated : Bool} (hmem : .openTag name tag terminated ∈ options.segments source)
    (hnone : (isVoidName name || tag.selfClosing || !terminated) = true)
    (outer : List ElementInfo) :
    Placed.Consistent strict source ⟨⟨tag, none, isVoidName name, tag.span,
      if terminated then [] else [⟨.unterminatedTag name, tag.span⟩]⟩, 0, outer⟩ := by
  have hnamed : name = Text.lower (tag.name.text source) :=
    named_of_mem_segments options source _ hmem
  have hends : tag.Terminated source ↔ terminated = true :=
    Segment.ends_of_mem_segments source options _ hmem
  have hvoid : isVoidName name = isVoidName (Text.lower (tag.name.text source)) :=
    congrArg isVoidName hnamed
  cases terminated with
  | true =>
    have hterminated := hends.2 rfl
    have heither : isVoidName name = true ∨ tag.selfClosing = true := by
      simpa using hnone
    refine ⟨Nat.zero_le _, ⟨fun _ => Or.inr ⟨hterminated, ?_⟩, fun _ => rfl⟩,
      fun hcut => absurd hterminated hcut, fun _ _ _ issue hissue => (by cases hissue),
      fun _ _ issue hissue => (by cases hissue), fun closeTag htag => (by cases htag),
      fun _ => ⟨rfl, rfl⟩, hvoid⟩
    exact heither.imp_right Or.inl
  | false =>
    have hcut : ¬ tag.Terminated source := fun h => by cases hends.1 h
    refine ⟨Nat.le_refl _, ⟨fun hissues => (by cases hissues), ?_⟩, fun _ => rfl,
      fun h => absurd h hcut, fun h => absurd h hcut, fun closeTag htag => (by cases htag),
      fun _ => ⟨rfl, rfl⟩, hvoid⟩
    rintro (hclosed | ⟨hterminated, -⟩)
    · cases hclosed
    · exact absurd hterminated hcut

end

/-! ## 3. Nodes -/

/-- All elements of a node are consistent, wherever it stands, as long as the next element around it
    that has a closing tag has this name. -/
def Node.Settles (strict : Bool) (source : List Char) (closer : Option (List Char)) (node : Node) :
    Prop :=
  ∀ outer, closerOf source outer = closer →
    ∀ place ∈ node.placed outer, place.Consistent strict source

/-- Nodes settle for some names. -/
def Node.AllSettle (strict : Bool) (source : List Char) (closers : Option (List Char) → Prop)
    (nodes : List Node) : Prop :=
  ∀ node ∈ nodes, ∀ closer, closers closer → node.Settles strict source closer

section

variable {strict : Bool} {source : List Char}

theorem Node.forall_mem_placedOfAll {P : Placed → Prop} {outer : List ElementInfo}
    {nodes : List Node} :
    (∀ place ∈ placedOfAll outer nodes, P place)
      ↔ ∀ node ∈ nodes, ∀ place ∈ node.placed outer, P place := by
  induction nodes with
  | nil => simp [placedOfAll]
  | cons node nodes ih => rw [placedOfAll, List.forall_mem_append, ih, List.forall_mem_cons]

/-- An element settles when it is consistent itself, and its children settle for what is then
    around them. -/
theorem Node.settles_element {info : ElementInfo} {children : List Node}
    {closer : Option (List Char)}
    (hinfo : ∀ outer, closerOf source outer = closer →
      Placed.Consistent strict source ⟨info, children.length, outer⟩)
    (hchildren : ∀ child ∈ children, child.Settles strict source
      (if info.closeTag.isSome then some (info.name source) else closer)) :
    (Node.element info children).Settles strict source closer := by
  intro outer houter
  refine List.forall_mem_cons.2 ⟨hinfo outer houter, forall_mem_placedOfAll.2 fun child hmem => ?_⟩
  refine hchildren child hmem (info :: outer) ?_
  rw [closerOf, List.find?_cons]
  split
  next h => rw [h]; rfl
  next h => rw [h]; exact houter

theorem Frame.Opened.settles_toNode {frame : Frame} {closer : Option (List Char)}
    (h : frame.Opened source)
    (hchildren : ∀ child ∈ frame.children, child.Settles strict source closer) :
    (frame.toNode (if frame.mayOmitEnd strict then []
      else [⟨endCause frame.name closer, frame.openTag.span⟩])).Settles strict source closer := by
  refine Node.settles_element ?_ fun child hmem => hchildren child (List.mem_reverse.1 hmem)
  rintro outer rfl
  exact h.consistent_ended _ _ outer

theorem Frame.Opened.settles_closeWith {frame : Frame} {tag : CloseTag} (h : frame.Opened source)
    (htag : frame.name = Text.lower (tag.name.text source))
    (hchildren : ∀ child ∈ frame.children, child.Settles strict source (some frame.name))
    (closer : Option (List Char)) : (frame.closeWith tag).Settles strict source closer := by
  refine Node.settles_element (fun outer _ => h.consistent_closed htag _ outer) fun child hmem => ?_
  have hname : ElementInfo.name source ⟨frame.openTag, some tag, false,
      ⟨frame.openTag.span.start, tag.span.stop⟩, []⟩ = frame.name := h.named.symm
  rw [hname]
  exact hchildren child (List.mem_reverse.1 hmem)

end

/-! ## 4. The invariant of a run -/

namespace Builder

/-- All elements that are open have been opened. The newest children settle for some names, and all
    others for any. -/
def Settled (strict : Bool) (source : List Char) (closers : Option (List Char) → Prop)
    (builder : Builder) : Prop :=
  (∀ frame ∈ builder.frames, frame.Opened source)
    ∧ match builder.frames with
      | [] => Node.AllSettle strict source closers builder.children
      | frame :: frames =>
        Node.AllSettle strict source closers frame.children
          ∧ (∀ other ∈ frames, Node.AllSettle strict source (fun _ => True) other.children)
          ∧ Node.AllSettle strict source (fun _ => True) builder.children

namespace Settled

variable {options : ParserOptions} {strict : Bool} {source : List Char}
variable {closers fewer : Option (List Char) → Prop} {builder : Builder}

theorem empty : Builder.empty.Settled strict source closers :=
  ⟨fun _ hmem => (by cases hmem), fun _ hmem => (by cases hmem)⟩

theorem onChildren {change : List Node → List Node} (h : builder.Settled strict source closers)
    (hchange : ∀ nodes, Node.AllSettle strict source closers nodes →
      Node.AllSettle strict source fewer (change nodes)) :
    (builder.onChildren change).Settled strict source fewer := by
  obtain ⟨frames, children, issues⟩ := builder
  obtain ⟨hframes, hsettled⟩ := h
  cases frames with
  | nil => exact ⟨hframes, hchange children hsettled⟩
  | cons frame frames =>
    obtain ⟨hframe, hothers⟩ := List.forall_mem_cons.1 hframes
    have hopened : Frame.Opened source { frame with children := change frame.children } :=
      ⟨hframe.named, hframe.terminated, hframe.notVoid, hframe.notSelfClosing⟩
    exact ⟨List.forall_mem_cons.2 ⟨hopened, hothers⟩, hchange frame.children hsettled.1,
      hsettled.2⟩

theorem mono (h : builder.Settled strict source (fun _ => True)) :
    builder.Settled strict source closers := by
  obtain ⟨frames, children, issues⟩ := builder
  cases frames with
  | nil => exact ⟨h.1, fun node hmem closer _ => h.2 node hmem closer trivial⟩
  | cons frame frames =>
    exact ⟨h.1, fun node hmem closer _ => h.2.1 node hmem closer trivial, h.2.2⟩

theorem add {node : Node} (h : builder.Settled strict source closers)
    (hnode : ∀ closer, closers closer → node.Settles strict source closer) :
    (builder.add node).Settled strict source closers :=
  h.onChildren fun _ hnodes => List.forall_mem_cons.2 ⟨hnode, hnodes⟩

/-- The innermost element leaves the stack. Its children settled for some names, and it settles for
    others. -/
theorem pop {finish : Frame → Node} (h : builder.Settled strict source closers)
    (hempty : builder.frames = [] → ∀ closer, fewer closer → closers closer)
    (hfinish : ∀ frame, builder.names.head? = some frame.name → frame.Opened source →
      Node.AllSettle strict source closers frame.children →
        ∀ closer, fewer closer → (finish frame).Settles strict source closer) :
    (builder.pop finish).Settled strict source fewer := by
  obtain ⟨frames, children, issues⟩ := builder
  cases frames with
  | nil => exact ⟨h.1, fun node hmem closer hcloser => h.2 node hmem closer (hempty rfl _ hcloser)⟩
  | cons frame frames =>
    obtain ⟨hframes, hinner, hothers, hchildren⟩ := h
    obtain ⟨hframe, hopened⟩ := List.forall_mem_cons.1 hframes
    have hrest : (Builder.mk frames children issues).Settled strict source (fun _ => True) := by
      cases frames with
      | nil => exact ⟨hopened, hchildren⟩
      | cons next frames =>
        exact ⟨hopened, hothers next List.mem_cons_self,
          fun other hmem => hothers other (List.mem_cons_of_mem _ hmem), hchildren⟩
    exact hrest.mono.add (hfinish frame rfl hframe hinner)

theorem foldl_pop {α : Type} {finish : Frame → Node} (h : builder.Settled strict source closers)
    (hfinish : ∀ frame, frame.Opened source → Node.AllSettle strict source closers frame.children →
      ∀ closer, closers closer → (finish frame).Settles strict source closer) (items : List α) :
    (items.foldl (fun builder _ => builder.pop finish) builder).Settled strict source closers := by
  induction items generalizing builder with
  | nil => exact h
  | cons item items ih => exact ih (h.pop (fun _ _ => id) fun frame _ => hfinish frame)

/-- A node without elements settles for anything. -/
theorem add_leaf {node : Node} (h : builder.Settled strict source closers)
    (hnode : ∀ outer, node.placed outer = []) :
    (builder.add node).Settled strict source closers := by
  refine h.add fun closer _ outer _ place hmem => ?_
  rw [hnode] at hmem
  cases hmem

theorem joinText {span : Span} (h : builder.Settled strict source closers) :
    (builder.onChildren (Builder.joinText span)).Settled strict source closers := by
  have htext : ∀ span closer, (Node.text span).Settles strict source closer :=
    fun span closer outer _ place hmem => by cases hmem
  refine h.onChildren fun nodes hnodes => ?_
  rcases joinText_cases span nodes with heq | ⟨last, older, rfl, -, heq⟩
  · rw [heq]
    exact List.forall_mem_cons.2 ⟨fun closer _ => htext span closer, hnodes⟩
  · rw [heq]
    exact List.forall_mem_cons.2
      ⟨fun closer _ => htext _ closer, (List.forall_mem_cons.1 hnodes).2⟩

/-- Between two segments all children settle for any name. -/
theorem everywhere (h : builder.Settled strict source (fun _ => True)) :
    (∀ frame ∈ builder.frames, Node.AllSettle strict source (fun _ => True) frame.children)
      ∧ Node.AllSettle strict source (fun _ => True) builder.children := by
  obtain ⟨frames, children, issues⟩ := builder
  cases frames with
  | nil => exact ⟨fun frame hmem => (by cases hmem), h.2⟩
  | cons frame frames => exact ⟨List.forall_mem_cons.2 ⟨h.2.1, h.2.2.1⟩, h.2.2.2⟩

theorem openElement {name : List Char} {tag : OpenTag} {terminated : Bool}
    (h : builder.Settled options.strict source (fun _ => True))
    (hmem : .openTag name tag terminated ∈ options.segments source) :
    (builder.openElement name tag terminated).Settled options.strict source
      (fun _ => True) := by
  unfold Builder.openElement
  simp only
  split
  next hnone =>
    refine h.add fun closer _ => Node.settles_element ?_ fun child hchild => (by cases hchild)
    exact fun outer _ => consistent_atOnce hmem hnone outer
  next hcontent =>
    obtain ⟨⟨hvoid, hself⟩, hterminated⟩ : (isVoidName name = false ∧ tag.selfClosing = false)
        ∧ terminated = true := by
      simpa using hcontent
    have hopened : Frame.Opened source ⟨name, tag, []⟩ :=
      ⟨named_of_mem_segments options source _ hmem,
        (Segment.ends_of_mem_segments source options _ hmem).2 hterminated, hvoid, hself⟩
    obtain ⟨hothers, hchildren⟩ := h.everywhere
    exact ⟨List.forall_mem_cons.2 ⟨hopened, h.1⟩, fun node hnode => (by cases hnode), hothers,
      hchildren⟩

/-- **A closing tag.** The elements further inside wait for its name, and the element of the name
    gives it to them. -/
theorem closeElement {name : List Char} {tag : CloseTag}
    (h : builder.Settled options.strict source (fun _ => True))
    (htag : name = Text.lower (tag.name.text source)) :
    (builder.closeElement options name tag).Settled options.strict source (fun _ => True) := by
  unfold Builder.closeElement
  split
  next hany =>
    have hinner : Settled options.strict source (· = some name)
        ((builder.frames.takeWhile fun frame => frame.name != name).foldl
          (fun builder _ => builder.pop (Frame.closeImplicitly options.strict name)) builder) := by
      refine h.mono.foldl_pop ?_ _
      rintro frame hframe hchildren _ rfl
      exact hframe.settles_toNode fun child hmem => hchildren child hmem _ rfl
    have hhead := head?_names_foldl_pop_takeWhile (Frame.closeImplicitly options.strict name)
      ((any_frames name builder).1 hany)
    refine hinner.pop (fun hframes => ?_) fun frame htop hframe hchildren closer _ => ?_
    · rw [names, hframes] at hhead
      cases hhead
    · rw [hhead] at htop
      cases htop
      exact hframe.settles_closeWith htag (fun child hmem => hchildren child hmem _ rfl) closer
  next =>
    obtain ⟨frames, children, issues⟩ := builder
    exact h

theorem step {segment : Segment} (h : builder.Settled options.strict source (fun _ => True))
    (hmem : segment ∈ options.segments source) :
    (builder.step options segment).Settled options.strict source (fun _ => True) := by
  cases segment with
  | text token => exact h.joinText
  | erb tag => exact h.add_leaf fun outer => rfl
  | comment value => exact h.add_leaf fun outer => rfl
  | openTag name tag terminated => exact h.openElement hmem
  | closeTag name tag => exact h.closeElement (name_of_closeTag_mem hmem)

theorem run {part : List Segment} (h : builder.Settled options.strict source (fun _ => True))
    (hpart : part ⊆ options.segments source) :
    (part.foldl (Builder.step options) builder).Settled options.strict source (fun _ => True) := by
  induction part generalizing builder with
  | nil => exact h
  | cons segment part ih =>
    obtain ⟨hmem, hrest⟩ := List.cons_subset.1 hpart
    exact ih (h.step hmem) hrest

/-- At the end of the source nothing is closed around an element that is still open. -/
theorem finish (h : builder.Settled options.strict source (fun _ => True)) :
    (builder.finish options).Settled options.strict source (· = none) := by
  refine h.mono.foldl_pop ?_ _
  rintro frame hframe hchildren _ rfl
  exact hframe.settles_toNode fun child hmem => hchildren child hmem none rfl

end Settled
end Builder

theorem Document.consistent_ofSource {options : ParserOptions} {source : List Char} :
    ∀ place ∈ (ofSource options source).placed, place.Consistent options.strict source := by
  have hbuilt : (Builder.build options (options.segments source)).Settled options.strict
      source (· = none) :=
    (Builder.Settled.empty.run (List.Subset.refl _)).finish
  have hframes : (Builder.build options (options.segments source)).frames = [] :=
    List.map_eq_nil_iff.1 (Builder.names_finish options _)
  obtain ⟨-, hchildren⟩ := hbuilt
  rw [hframes] at hchildren
  refine Node.forall_mem_placedOfAll.2 fun node hmem => ?_
  exact hchildren node (List.mem_reverse.1 hmem) none rfl [] rfl

/-! ## 5. Documents -/

/-- An element and where it stands, without what analysis says of ERB tags. -/
def Placed.plain (place : Placed) : Placed :=
  ⟨place.info.plain, place.children, place.outer.map ElementInfo.plain⟩

theorem closerOf_plain (source : List Char) (outer : List ElementInfo) :
    closerOf source (outer.map ElementInfo.plain) = closerOf source outer := by
  rw [closerOf, closerOf, List.find?_map, Option.map_map]
  rfl

/-- Analysis does not touch what the rule looks at. -/
theorem Placed.Consistent.of_plain {strict : Bool} {source : List Char} {place other : Placed}
    (h : other.Consistent strict source) (heq : place.plain = other.plain) :
    place.Consistent strict source := by
  obtain ⟨hinfo, hcount, houter⟩ := Placed.mk.inj heq
  have hissues : place.info.issues = other.info.issues := congrArg (fun info => info.issues) hinfo
  have hclose : place.info.closeTag = other.info.closeTag :=
    congrArg (fun info => info.closeTag) hinfo
  have hvoid : place.info.isVoid = other.info.isVoid := congrArg (fun info => info.isVoid) hinfo
  have hself : place.info.openTag.selfClosing = other.info.openTag.selfClosing :=
    congrArg (fun info => info.openTag.selfClosing) hinfo
  have hspan : place.info.openTag.name = other.info.openTag.name :=
    congrArg (fun info => info.openTag.name) hinfo
  have hname : place.info.name source = other.info.name source := by
    rw [ElementInfo.name, ElementInfo.name, hspan]
  have hends : place.info.openTag.Terminated source ↔ other.info.openTag.Terminated source :=
    ⟨fun h => h.of_plain hinfo.symm, fun h => h.of_plain hinfo⟩
  have hcloser : closerOf source place.outer = closerOf source other.outer := by
    rw [← closerOf_plain, houter, closerOf_plain]
  obtain ⟨hone, hsilent, hcutOff, himplicitly, hnever, hclosed, hempty, hisVoid⟩ := h
  rw [← hissues] at hone hcutOff himplicitly hnever
  rw [← hissues, ← hclose, ← hends, ← hvoid, ← hself, ← hname] at hsilent
  rw [← hends] at hcutOff himplicitly hnever hempty
  rw [← hname] at himplicitly hnever hclosed hisVoid
  rw [← hcloser] at himplicitly hnever
  rw [← hclose, ← hvoid, ← hself] at hclosed hempty
  rw [← hcount] at hempty
  rw [← hvoid] at hisVoid
  exact ⟨hone, hsilent, hcutOff, himplicitly, hnever, hclosed, hempty, hisVoid⟩

mutual

/-- Putting tags back leaves all elements where they are. -/
theorem Node.placed_refill (node : Node) (tags supply : List ErbTag)
    {outer others : List ElementInfo}
    (h : tags.map ErbTag.plain = (Entry.erbTags node.entries).map ErbTag.plain)
    (houter : outer.map ElementInfo.plain = others.map ElementInfo.plain) :
    ((node.refill (tags ++ supply)).1.placed outer).map Placed.plain
      = (node.placed others).map Placed.plain := by
  match node with
  | .text span => rfl
  | .comment value => rfl
  | .erb tag => rfl
  | .element info children =>
    rw [erbTags_element, List.map_append] at h
    obtain ⟨inTag, inside, rfl, hinTag, hinside⟩ := List.map_eq_append_iff.1 h
    obtain ⟨hitems, -, hleft⟩ :=
      TagItem.refillAll_plain info.openTag.items inTag (inside ++ supply) hinTag
    rw [List.append_assoc]
    simp only [refill, hleft, placed, List.map_cons]
    generalize (TagItem.refillAll info.openTag.items (inTag ++ (inside ++ supply))).1 = items
      at hitems ⊢
    have hinfo : ElementInfo.plain { info with openTag := { info.openTag with items } }
        = info.plain := by
      simp only [ElementInfo.plain, hitems]
    have hinner : List.map ElementInfo.plain
        ({ info with openTag := { info.openTag with items } } :: outer)
          = List.map ElementInfo.plain (info :: others) := by
      rw [List.map_cons, List.map_cons, hinfo, houter]
    rw [placed_refillAll children inside supply hinside hinner]
    simp only [Placed.plain, hinfo, houter, length_refillAll]

theorem Node.placed_refillAll (nodes : List Node) (tags supply : List ErbTag)
    {outer others : List ElementInfo}
    (h : tags.map ErbTag.plain = (Entry.erbTags (entriesOfAll nodes)).map ErbTag.plain)
    (houter : outer.map ElementInfo.plain = others.map ElementInfo.plain) :
    (placedOfAll outer (refillAll nodes (tags ++ supply)).1).map Placed.plain
      = (placedOfAll others nodes).map Placed.plain := by
  match nodes with
  | [] => rfl
  | node :: nodes =>
    rw [entriesOfAll, Entry.erbTags_append, List.map_append] at h
    obtain ⟨own, rest, rfl, hown, hrest⟩ := List.map_eq_append_iff.1 h
    obtain ⟨-, -, hleft⟩ := refill_plain node own (rest ++ supply) hown
    rw [List.append_assoc]
    simp only [refillAll, hleft, placedOfAll, List.map_append]
    rw [placed_refill node own (rest ++ supply) hown houter,
      placed_refillAll nodes rest supply hrest houter]

end

mutual

theorem Node.entry_placed (node : Node) (outer : List ElementInfo) :
    (node.placed outer).map Placed.entry = node.entries.filter Entry.isElement := by
  match node with
  | .text span => rfl
  | .comment value => rfl
  | .erb tag => rfl
  | .element info children =>
    have hitems : (info.openTag.items.map Entry.ofItem).filter Entry.isElement = [] := by
      refine List.filter_eq_nil_iff.2 fun entry hmem => ?_
      obtain ⟨item, -, rfl⟩ := List.mem_map.1 hmem
      cases item <;> exact Bool.false_ne_true
    rw [placed, entries, List.filter_append, List.map_cons, entry_placedOfAll children,
      List.filter_cons_of_pos rfl, hitems]
    rfl

/-- Every element has its place, in source order. -/
theorem Node.entry_placedOfAll (nodes : List Node) (outer : List ElementInfo) :
    (placedOfAll outer nodes).map Placed.entry = (entriesOfAll nodes).filter Entry.isElement := by
  match nodes with
  | [] => rfl
  | node :: nodes =>
    rw [placedOfAll, entriesOfAll, List.map_append, List.filter_append, entry_placed node,
      entry_placedOfAll nodes]

end

theorem plain_placed_parsed (source : List Char) (options : ParserOptions) :
    (parsed source options).placed.map Placed.plain
      = (Document.ofSource options source).placed.map Placed.plain := by
  unfold parsed
  simp only
  split
  · have houter : List.map ElementInfo.plain [] = List.map ElementInfo.plain [] := rfl
    have h := Node.placed_refillAll (Document.ofSource options source).children
      ((Document.ofSource options source).annotatedTags source) []
      (Document.plain_annotatedTags source _) houter
    rw [List.append_nil] at h
    exact h
  · rfl

/-- The elements of a document and their issues are consistent, whatever has been left open. -/
structure Document.Consistent (strict : Bool) (source : List Char) (document : Document) :
    Prop where
  /-- The elements with their places are all elements of the tree. -/
  complete : document.placed.map Placed.entry = document.entries.filter Entry.isElement
  elements : ∀ place ∈ document.placed, place.Consistent strict source
  /-- At most one opening tag is cut off. -/
  cutOffOnce : ∀ (i j : Nat) (info other : ElementInfo) (count others : Nat),
    document.entries[i]? = some (.element info count) →
      document.entries[j]? = some (.element other others) →
        ¬ info.openTag.Terminated source → ¬ other.openTag.Terminated source → i = j
  /-- And nothing comes behind it but what is inside of it. -/
  cutOffLast : ∀ front info count back,
    document.entries = front ++ .element info count :: back →
      ¬ info.openTag.Terminated source → back = info.openTag.items.map Entry.ofItem
  issues : ∀ issue ∈ document.issues, issue.kind = .unexpectedClosingTag

theorem consistent_parsed (source : List Char) (options : ParserOptions) :
    (parsed source options).Consistent options.strict source := by
  refine ⟨Node.entry_placedOfAll _ _, ?_, ?_, ?_, ?_⟩
  · intro place hmem
    have hplain := List.mem_map_of_mem (f := Placed.plain) hmem
    rw [plain_placed_parsed] at hplain
    obtain ⟨other, hother, heq⟩ := List.mem_map.1 hplain
    exact (Document.consistent_ofSource other hother).of_plain heq.symm
  · intro i j info other count others hi hj hopen hother
    exact index_eq_of_not_terminated hi hj hopen hother
  · intro front info count back h hopen
    exact eq_items_of_not_terminated h hopen
  · intro issue hmem
    rw [issues_parsed] at hmem
    obtain ⟨name, hcause⟩ := Document.cause_of_mem_issues hmem
    rw [Issue.kind, hcause]
    rfl

/-- **Every element of every tree is consistent**, whatever the source and the options. -/
theorem elements_tell_their_end (source : List Char) (options : ParserOptions) :
    (parse source options).Yields (2 * TokenList.tokenSize * (Text.byteLength source + 1))
      fun document => document.Consistent options.strict source := by
  refine (yields_parse source options).imp ?_
  rintro document rfl
  exact consistent_parsed source options

end ErbTemplate
