import ErbTemplate.Proofs.Tree.Annotation
import ErbTemplate.Proofs.Tree.Origins

/-!
# Locations nest

A tree is nested twice: by its children lists, and by the places that it reports. This file says
that the two agree (`Document.Nested`). What is inside of an element in the tree is inside of it on
the page, and what comes first in a list comes first on the page. The rule is stated for any order
on points, because a page has several: bytes, lines and columns, and what 32 bits leave of them.

An element is finished long after it was opened, by one of three hands, and each sets its end on its
own. What they share is a picture of the whole stack (`Builder.LaidOut`): the children of every open
element ascend from its opening tag to the opening tag of the next one further inside, and those of
the innermost to the place that the builder has come to. A finished element is then one row that
ascends, from its opening tag over its children to its closing tag (`ElementInfo.Lays`), and all
that is reported of it can be read off that row.
-/

set_option autoImplicit false

namespace ErbTemplate

open Text

/-! ## 1. The rule -/

/-- A span lies inside of another, and does not end before it begins. -/
structure Span.Within (order : Point → Point → Prop) (inner outer : Span) : Prop where
  start : order outer.start inner.start
  forward : order inner.start inner.stop
  stop : order inner.stop outer.stop

/-- The span of an item of an opening tag. -/
def TagItem.span (item : TagItem) : Span :=
  (Entry.ofItem item).span

/-- The span of the value, if an item is an attribute that has one. -/
def TagItem.valueSpans : TagItem → List Span
  | attr value => value.value.toList.map AttributeValue.span
  | whitespace _ | erb _ => []

/-- How the spans of the parts of an element lie to each other. -/
structure ElementInfo.Nests (order : Point → Point → Prop) (info : ElementInfo)
    (children : List Node) : Prop where
  openTag : info.openTag.span.Within order info.span
  start : info.openTag.span.start = info.span.start
  itemsWithin : ∀ item ∈ info.openTag.items, item.span.Within order info.openTag.span
  itemsApart :
    info.openTag.items.Pairwise fun first second => order first.span.stop second.span.start
  /-- What is inside of the opening tag stands before all children. -/
  itemsFirst : ∀ item ∈ info.openTag.items, ∀ child ∈ children,
    order item.span.stop child.span.start
  values : ∀ attr value, .attr attr ∈ info.openTag.items → attr.value = some value →
    value.span.Within order attr.span
  childrenWithin : ∀ child ∈ children, child.span.Within order info.span
  childrenApart : children.Pairwise fun first second => order first.span.stop second.span.start
  /-- The closing tag stands behind all children and ends the element. -/
  closeTag : ∀ tag, info.closeTag = some tag →
    tag.span.Within order info.span
      ∧ (∀ child ∈ children, order child.span.stop tag.span.start)
      ∧ tag.span.stop = info.span.stop

mutual

/-- A node and all nodes inside of it, apart from the items of opening tags. -/
def Node.subnodes : Node → List Node
  | .text span => [.text span]
  | .comment value => [.comment value]
  | .erb tag => [.erb tag]
  | .element info children => .element info children :: subnodesOfAll children

/-- The nodes of a list and all nodes inside of them. -/
def Node.subnodesOfAll : List Node → List Node
  | [] => []
  | node :: nodes => node.subnodes ++ subnodesOfAll nodes

end

/-- All nodes of a document, apart from the items of opening tags. -/
def Document.nodes (document : Document) : List Node :=
  Node.subnodesOfAll document.children

/-- The spans of all that an element has besides its children. -/
def ElementInfo.partSpans (info : ElementInfo) : List Span :=
  info.openTag.span :: info.openTag.items.map TagItem.span
    ++ (info.openTag.items.flatMap TagItem.valueSpans ++ info.closeTag.toList.map CloseTag.span)

/-- The tree of a document and its spans are nested alike, by an order on points. -/
structure Document.Nested (order : Point → Point → Prop) (document : Document) : Prop where
  forward : order document.span.start document.span.stop
  inside : ∀ node ∈ document.nodes, node.span.Within order document.span
  partsInside : ∀ info children, .element info children ∈ document.nodes →
    ∀ span ∈ info.partSpans, span.Within order document.span
  apart : document.children.Pairwise fun first second => order first.span.stop second.span.start
  elements : ∀ info children, .element info children ∈ document.nodes → info.Nests order children

section

variable {order weaker : Point → Point → Prop}

theorem Span.Within.imp {inner outer : Span} (h : inner.Within order outer)
    (himp : ∀ {first second}, order first second → weaker first second) :
    inner.Within weaker outer :=
  ⟨himp h.start, himp h.forward, himp h.stop⟩

theorem ElementInfo.Nests.imp {info : ElementInfo} {children : List Node}
    (h : info.Nests order children)
    (himp : ∀ {first second}, order first second → weaker first second) :
    info.Nests weaker children where
  openTag := h.openTag.imp himp
  start := h.start
  itemsWithin item hitem := (h.itemsWithin item hitem).imp himp
  itemsApart := h.itemsApart.imp himp
  itemsFirst item hitem child hchild := himp (h.itemsFirst item hitem child hchild)
  values attr value hattr hvalue := (h.values attr value hattr hvalue).imp himp
  childrenWithin child hchild := (h.childrenWithin child hchild).imp himp
  childrenApart := h.childrenApart.imp himp
  closeTag tag htag :=
    have ⟨hwithin, hbehind, hstop⟩ := h.closeTag tag htag
    ⟨hwithin.imp himp, fun child hchild => himp (hbehind child hchild), hstop⟩

/-- What is nested by an order is nested by a weaker one. -/
theorem Document.Nested.imp {document : Document} (h : document.Nested order)
    (himp : ∀ {first second}, order first second → weaker first second) :
    document.Nested weaker where
  forward := himp h.forward
  inside node hnode := (h.inside node hnode).imp himp
  partsInside info children helement span hspan :=
    (h.partsInside info children helement span hspan).imp himp
  apart := h.apart.imp himp
  elements info children helement := (h.elements info children helement).imp himp

end

/-- Two points on the way from the beginning of a source to a point, one after the other. -/
structure Point.Between (last first second : Point) : Prop where
  after : origin.LeadsTo first
  forward : first.LeadsTo second
  before : second.LeadsTo last

theorem Point.Between.trans {last first second third : Point} (h : Between last first second)
    (h' : Between last second third) : Between last first third :=
  ⟨h.after, h.forward.trans h'.forward, h'.before⟩

theorem Span.Within.trans {last : Point} {inner middle outer : Span}
    (h : inner.Within (Point.Between last) middle) (h' : middle.Within (Point.Between last) outer) :
    inner.Within (Point.Between last) outer :=
  ⟨h'.start.trans h.start, h.forward, h.stop.trans h'.stop⟩

/-- What an element has besides its children lies inside of it. -/
theorem ElementInfo.Nests.within_of_mem {last : Point} {info : ElementInfo} {children : List Node}
    {span : Span} (h : info.Nests (Point.Between last) children) (hmem : span ∈ info.partSpans) :
    span.Within (Point.Between last) info.span := by
  rw [partSpans, List.mem_append, List.mem_cons, List.mem_append] at hmem
  obtain (rfl | hitems) | hvalue | hclose := hmem
  · exact h.openTag
  · obtain ⟨item, hitem, rfl⟩ := List.mem_map.1 hitems
    exact (h.itemsWithin item hitem).trans h.openTag
  · obtain ⟨item, hitem, hvalue⟩ := List.mem_flatMap.1 hvalue
    cases item with
    | whitespace span => cases hvalue
    | erb tag => cases hvalue
    | attr attr =>
      obtain ⟨value, hsome, rfl⟩ := List.mem_map.1 hvalue
      have hinside := h.values attr value hitem (Option.mem_toList.1 hsome)
      exact (hinside.trans (h.itemsWithin _ hitem)).trans h.openTag
  · obtain ⟨tag, htag, rfl⟩ := List.mem_map.1 hclose
    exact (h.closeTag tag (Option.mem_toList.1 htag)).1

namespace Ascends

variable {start stop last : Point} {row : List Span} {span : Span}

theorem within (h : Ascends start row stop) (hafter : Point.origin.LeadsTo start)
    (hbefore : stop.LeadsTo last) (hmem : span ∈ row) :
    span.Within (Point.Between last) ⟨start, stop⟩ :=
  let ⟨hstart, hforward, hstop⟩ := h.of_mem hmem
  ⟨⟨hafter, hstart, hforward.leadsTo.trans (hstop.trans hbefore)⟩,
    ⟨hafter.trans hstart, hforward.leadsTo, hstop.trans hbefore⟩,
    ⟨hafter.trans (hstart.trans hforward.leadsTo), hstop, hbefore⟩⟩

/-- Of two spans of a row the first ends before the second begins, and both are on the way. -/
theorem pairwise_between (h : Ascends start row stop) (hafter : Point.origin.LeadsTo start)
    (hbefore : stop.LeadsTo last) :
    row.Pairwise fun first second => Point.Between last first.stop second.start := by
  refine h.pairwise.imp_of_mem ?_
  intro first second hfirst hsecond hleads
  have hstop := (h.within hafter hbefore hfirst).stop
  have hstart := (h.within hafter hbefore hsecond).start
  exact ⟨hstop.after, hleads, hstart.before⟩

theorem to_leadsTo {later : Point} (h : Ascends start row stop) (hlater : stop.LeadsTo later) :
    Ascends start row later := by
  have h' : Ascends start (row ++ []) later := h.append hlater
  rwa [List.append_nil] at h'

end Ascends

namespace Node

theorem subnodesOfAll_append (front back : List Node) :
    subnodesOfAll (front ++ back) = subnodesOfAll front ++ subnodesOfAll back := by
  induction front with
  | nil => rfl
  | cons node front ih =>
    rw [List.cons_append, subnodesOfAll, subnodesOfAll, ih, List.append_assoc]

theorem subnodesOfAll_concat (nodes : List Node) (node : Node) :
    subnodesOfAll (nodes ++ [node]) = subnodesOfAll nodes ++ node.subnodes := by
  rw [subnodesOfAll_append, subnodesOfAll, subnodesOfAll, List.append_nil]

theorem mem_subnodes_self (node : Node) : node ∈ node.subnodes := by
  cases node <;> exact List.mem_cons_self

end Node

/-! ## 2. Elements as rows -/

/-- The inside of an opening tag goes forward: its items, and in each attribute the value. -/
structure OpenTag.Lays (tag : OpenTag) : Prop where
  items : Ascends tag.span.start (tag.items.map fun item => (Entry.ofItem item).span) tag.span.stop
  values : ∀ attr value, .attr attr ∈ tag.items → attr.value = some value →
    attr.span.start.LeadsTo value.span.start ∧ value.span.start.LeadsTo value.span.stop
      ∧ value.span.stop.LeadsTo attr.span.stop

/-- An element is a row: its opening tag, its children, and its closing tag if it has one. -/
structure ElementInfo.Lays (info : ElementInfo) (children : List Node) : Prop where
  openTag : info.openTag.Lays
  start : info.openTag.span.start = info.span.start
  parts : Ascends info.span.start
    (info.openTag.span :: (children.map Node.span ++ info.closeTag.toList.map CloseTag.span))
    info.span.stop
  stop : ∀ tag, info.closeTag = some tag → tag.span.stop = info.span.stop

/-- **What is reported of an element can be read off its row.** -/
theorem ElementInfo.Lays.nests {last : Point} {info : ElementInfo} {children : List Node}
    (h : info.Lays children) (hafter : Point.origin.LeadsTo info.span.start)
    (hbefore : info.span.stop.LeadsTo last) : info.Nests (Point.Between last) children := by
  obtain ⟨htag, hstart, hparts, hstop⟩ := h
  have hpairs := hparts.pairwise_between hafter hbefore
  rw [List.pairwise_cons, List.pairwise_append, List.pairwise_map] at hpairs
  obtain ⟨hafterOpen, happart, -, hbeforeClose⟩ := hpairs
  have hopen : info.openTag.span.Within (Point.Between last) info.span :=
    hparts.within hafter hbefore List.mem_cons_self
  have hchild : ∀ child ∈ children, child.span ∈ info.openTag.span
      :: (children.map Node.span ++ info.closeTag.toList.map CloseTag.span) := by
    intro child hmem
    exact List.mem_cons_of_mem _ (List.mem_append_left _ (List.mem_map_of_mem hmem))
  have hitem : ∀ item ∈ info.openTag.items,
      item.span.Within (Point.Between last) info.openTag.span :=
    fun item hmem => htag.items.within hopen.forward.after hopen.forward.before
      (List.mem_map_of_mem hmem)
  refine
    { openTag := hopen
      start := hstart
      itemsWithin := hitem
      itemsApart := List.pairwise_map.1
        (htag.items.pairwise_between hopen.forward.after hopen.forward.before)
      itemsFirst := ?_
      values := ?_
      childrenWithin := fun child hmem => hparts.within hafter hbefore (hchild child hmem)
      childrenApart := happart
      closeTag := ?_ }
  · intro item hmem child hchild
    -- an item ends inside of the opening tag, which ends before the first child
    exact (hitem item hmem).stop.trans (hafterOpen child.span
      (List.mem_append_left _ (List.mem_map_of_mem hchild)))
  · intro attr value hmem hvalue
    obtain ⟨hfront, hforward, hback⟩ := htag.values attr value hmem hvalue
    have hself : attr.span.Within (Point.Between last) info.openTag.span := hitem _ hmem
    have hfirst := hself.forward.after
    have hlast := hself.forward.before
    exact ⟨⟨hfirst, hfront, hforward.trans (hback.trans hlast)⟩,
      ⟨hfirst.trans hfront, hforward, hback.trans hlast⟩,
      ⟨hfirst.trans (hfront.trans hforward), hback, hlast⟩⟩
  · intro tag htag
    have hmem : tag.span ∈ info.closeTag.toList.map CloseTag.span := by
      rw [htag]
      exact List.mem_cons_self
    refine ⟨hparts.within hafter hbefore (List.mem_cons_of_mem _ (List.mem_append_right _ hmem)),
      ?_, hstop tag htag⟩
    intro child hchild
    exact hbeforeClose child.span (List.mem_map_of_mem hchild) tag.span hmem

/-! ## 3. Opening tags of a source -/

namespace Segment

open Piece

variable {start last : Point} {pieces : List (Piece Token)}

/-- A value begins where its reader began. -/
theorem start_readValue {value : AttributeValue} (h : Tiles start (pieces.map Piece.span) last)
    (hvalue : (readValue pieces).1 = some value) : value.span.start = start := by
  unfold readValue at hvalue
  split at hvalue
  next => cases hvalue
  next first more =>
    obtain ⟨hstart, -, -⟩ := h
    split at hvalue
    next token =>
      split at hvalue
      · rw [← Option.some.inj hvalue, ← hstart]
        unfold readQuoted
        simp only
        split <;> rfl
      · simp only at hvalue
        split at hvalue
        · cases hvalue
        · cases hvalue
          exact hstart
    next => cases hvalue

theorem leadsTo_readAttribute {name : Token} {value : AttributeValue}
    (h : Tiles start ((.markup name :: pieces).map Piece.span) last)
    (hvalue : (readAttribute name pieces).1.value = some value) :
    (readAttribute name pieces).1.span.start.LeadsTo value.span.start
      ∧ value.span.start.LeadsTo value.span.stop
      ∧ value.span.stop.LeadsTo (readAttribute name pieces).1.span.stop := by
  rw [(start_readAttribute name pieces).2]
  obtain ⟨-, hname, hrest⟩ := h
  unfold readAttribute at hvalue ⊢
  split at hvalue
  next equals more =>
    split at hvalue
    next hkind =>
      obtain ⟨hequals, hsign, htail⟩ := hrest
      have hpasses := ((passes_readValue equals.span.stop more).tiles htail).1
      have hbegin : value.span.start = equals.span.stop := start_readValue htail hvalue
      simp only at hvalue
      rw [hvalue] at hpasses
      simp only [if_pos hkind, hvalue, hbegin]
      have hfirst : name.span.start.LeadsTo equals.span.stop :=
        (hname.leadsTo.trans (hequals ▸ .refl _)).trans hsign.leadsTo
      exact ⟨hfirst, hpasses, .refl _⟩
    next => cases hvalue
  next => cases hvalue

/-- If a segment is an opening tag, its inside goes forward. -/
def Lays : Segment → Prop
  | openTag _ tag _ => tag.Lays
  | text _ | erb _ | comment _ | closeTag .. => True

theorem lays_of_mem_segments (options : ParserOptions) (source : List Char) :
    ∀ segment ∈ options.segments source, segment.Lays := by
  have hordered : ∀ segment ∈ options.segments source, segment.Ordered :=
    ordered_of_mem_segments (tiles_locatedPieces source)
  have hvalues : ∀ segment ∈ options.segments source, ∀ name tag terminated,
      segment = .openTag name tag terminated → ∀ item ∈ tag.items, ∀ attr value,
        item = .attr attr → attr.value = some value →
          attr.span.start.LeadsTo value.span.start ∧ value.span.start.LeadsTo value.span.stop
            ∧ value.span.stop.LeadsTo attr.span.stop := by
    refine forall_mem_segments ?_ ?_ ?_ ?_ ?_ (List.suffix_refl _)
    · intro token _ name tag terminated heq
      cases heq
    · intro opening mark ending _ name tag terminated heq
      cases heq
    · intro mark rest _ _ name tag terminated heq
      cases heq
    · intro mark name rest hsuffix _ _ lowered tag terminated heq
      cases heq
      refine forall_mem_items ?_ ?_ ?_ name.span.stop
        (((List.suffix_cons _ _).trans (List.suffix_cons _ _)).trans hsuffix)
      · intro opening mark ending _ attr value heq
        cases heq
      · intro token _ attr value heq
        cases heq
      · intro attrName more hmore _ attr value heq hvalue
        cases heq
        obtain ⟨middle, htiles⟩ := exists_tiles_of_suffix (tiles_locatedPieces source) hmore
        exact leadsTo_readAttribute htiles hvalue
    · intro mark name stop rest _ _ _ lowered tag terminated heq
      cases heq
  intro segment hmem
  cases segment with
  | openTag name tag terminated =>
    refine ⟨hordered _ hmem, fun attr value hattr hvalue => ?_⟩
    exact hvalues _ hmem name tag terminated rfl _ hattr attr value rfl hvalue
  | text token => trivial
  | erb tag => trivial
  | comment value => trivial
  | closeTag name tag => trivial

end Segment

/-! ## 4. The picture of the stack -/

/-- If a node is an element, it is a row. -/
def Node.Lays : Node → Prop
  | element info children => info.Lays children
  | text _ | comment _ | erb _ => True

/-- A node goes forward between the beginning of the source and a point, and so does its inside. -/
structure Node.Laid (stop : Point) (node : Node) : Prop where
  after : Point.origin.LeadsTo node.span.start
  forward : node.span.start.Reaches node.span.stop
  before : node.span.stop.LeadsTo stop
  inside : node.Lays

theorem Node.Laid.to_leadsTo {stop later : Point} {node : Node} (h : node.Laid stop)
    (hlater : stop.LeadsTo later) : node.Laid later :=
  ⟨h.after, h.forward, h.before.trans hlater, h.inside⟩

/-- Nodes ascend from one point to another, with everything inside of them laid. -/
structure Node.LaidOut (start : Point) (nodes : List Node) (stop : Point) : Prop where
  ascends : Ascends start (nodes.map span) stop
  laid : ∀ node ∈ subnodesOfAll nodes, node.Laid stop

namespace Node.LaidOut

variable {start stop later : Point} {nodes : List Node} {node : Node}

theorem nil (start : Point) : LaidOut start [] start :=
  ⟨.refl start, fun _ hmem => by cases hmem⟩

theorem to_leadsTo (h : LaidOut start nodes stop) (hlater : stop.LeadsTo later) :
    LaidOut start nodes later :=
  ⟨h.ascends.to_leadsTo hlater, fun node hmem => (h.laid node hmem).to_leadsTo hlater⟩

theorem concat (h : LaidOut start nodes stop) (hstart : stop.LeadsTo node.span.start)
    (hnode : ∀ sub ∈ node.subnodes, sub.Laid later) : LaidOut start (nodes ++ [node]) later := by
  have hself := hnode node node.mem_subnodes_self
  have hlater : stop.LeadsTo later :=
    (hstart.trans hself.forward.leadsTo).trans hself.before
  refine ⟨?_, ?_⟩
  · rw [List.map_append]
    exact (h.ascends.concat hstart hself.forward).to_leadsTo hself.before
  · rw [subnodesOfAll_concat]
    exact List.forall_mem_append.2
      ⟨fun sub hmem => (h.laid sub hmem).to_leadsTo hlater, hnode⟩

/-- A text that is last may go on. -/
theorem extend {last span : Span} (h : LaidOut start (nodes ++ [.text last]) stop)
    (hstop : stop.LeadsTo span.stop) :
    LaidOut start (nodes ++ [.text ⟨last.start, span.stop⟩]) span.stop := by
  obtain ⟨hascends, hlaid⟩ := h
  rw [List.map_append] at hascends
  obtain ⟨hfront, hforward, hbehind⟩ := hascends.of_concat
  rw [subnodesOfAll_concat] at hlaid
  obtain ⟨hnodes, hlast⟩ := List.forall_mem_append.1 hlaid
  have hafter := (hlast _ List.mem_cons_self).after
  have hlonger : last.start.Reaches span.stop := hforward.trans_leadsTo (hbehind.trans hstop)
  refine ⟨?_, ?_⟩
  · have hrow : Ascends start (nodes.map Node.span ++ [⟨last.start, span.stop⟩]) span.stop :=
      hfront.concat (.refl _) hlonger
    rw [List.map_append]
    exact hrow
  · rw [subnodesOfAll_concat]
    refine List.forall_mem_append.2 ⟨fun sub hmem => (hnodes sub hmem).to_leadsTo hstop, ?_⟩
    exact List.forall_mem_singleton.2 ⟨hafter, hlonger, .refl _, trivial⟩

end Node.LaidOut

/-- An open element: its opening tag, and its children up to a point. -/
structure Frame.LaidOut (frame : Frame) (stop : Point) : Prop where
  after : Point.origin.LeadsTo frame.openTag.span.start
  forward : frame.openTag.span.start.Reaches frame.openTag.span.stop
  openTag : frame.openTag.Lays
  children : Node.LaidOut frame.openTag.span.stop frame.children.reverse stop

namespace Frame.LaidOut

variable {frame : Frame} {stop later : Point}

/-- A finished element is laid, if its own row and its end are. -/
theorem laid_element {info : ElementInfo} {children : List Node} (h : frame.LaidOut stop)
    (hstart : info.span.start = frame.openTag.span.start) (hlater : stop.LeadsTo later)
    (hchildren : children = frame.children.reverse)
    (hforward : frame.openTag.span.stop.LeadsTo info.span.stop)
    (hbefore : info.span.stop.LeadsTo later) (hlays : info.Lays children) :
    ∀ sub ∈ (Node.element info children).subnodes, sub.Laid later := by
  refine List.forall_mem_cons.2 ⟨?_, ?_⟩
  · refine ⟨hstart ▸ h.after, ?_, hbefore, hlays⟩
    show info.span.start.Reaches info.span.stop
    rw [hstart]
    exact h.forward.trans_leadsTo hforward
  · subst hchildren
    exact fun sub hmem => (h.children.laid sub hmem).to_leadsTo hlater

theorem toNode (h : frame.LaidOut stop) (issues : List Issue) :
    ∀ sub ∈ (frame.toNode issues).subnodes, sub.Laid stop := by
  -- the element ends with its newest child, or with its opening tag
  have hlast : Ascends frame.openTag.span.stop (frame.children.reverse.map Node.span)
        (((frame.children.head?).map fun child => child.span.stop).getD frame.openTag.span.stop)
      ∧ (((frame.children.head?).map fun child => child.span.stop).getD
        frame.openTag.span.stop).LeadsTo stop := by
    have hascends := h.children.ascends
    cases hchildren : frame.children with
    | nil =>
      rw [hchildren] at hascends
      exact ⟨.refl _, hascends⟩
    | cons child older =>
      rw [hchildren, List.reverse_cons, List.map_append] at hascends
      obtain ⟨hfront, hforward, hbehind⟩ := hascends.of_concat
      rw [List.reverse_cons, List.map_append]
      exact ⟨hfront.concat (.refl _) hforward, hbehind⟩
  refine h.laid_element rfl (.refl _) rfl hlast.1.leadsTo hlast.2 ?_
  refine ⟨h.openTag, rfl, ?_, fun tag htag => by cases htag⟩
  refine ⟨.refl _, h.forward, ?_⟩
  simpa using hlast.1

theorem closeWith {tag : CloseTag} (h : frame.LaidOut stop) (hstart : stop.LeadsTo tag.span.start)
    (hforward : tag.span.start.Reaches tag.span.stop) :
    ∀ sub ∈ (frame.closeWith tag).subnodes, sub.Laid tag.span.stop := by
  have hrow := h.children.ascends.concat hstart hforward
  have hlater := hstart.trans hforward.leadsTo
  refine h.laid_element rfl hlater rfl hrow.leadsTo (.refl _) ?_
  refine ⟨h.openTag, rfl, ⟨.refl _, h.forward, hrow⟩, fun other hother => ?_⟩
  cases hother
  rfl

end Frame.LaidOut

/-- The open elements, innermost first, and the children of the document: each of them ends where
    the next one further inside begins. -/
def Frame.StackLaidOut (children : List Node) : List Frame → Point → Prop
  | [], stop => Node.LaidOut .origin children.reverse stop
  | frame :: frames, stop =>
    frame.LaidOut stop ∧ StackLaidOut children frames frame.openTag.span.start

namespace Builder

variable {builder : Builder} {stop later : Point} {options : ParserOptions}

/-- A builder that has come to a point. -/
def LaidOut (builder : Builder) (stop : Point) : Prop :=
  Frame.StackLaidOut builder.children builder.frames stop

theorem laidOut_empty : empty.LaidOut .origin :=
  Node.LaidOut.nil .origin

namespace LaidOut

theorem after (h : builder.LaidOut stop) : Point.origin.LeadsTo stop := by
  obtain ⟨frames, children, issues⟩ := builder
  cases frames with
  | nil => exact h.ascends.leadsTo
  | cons frame frames =>
    exact (h.1.after.trans h.1.forward.leadsTo).trans h.1.children.ascends.leadsTo

/-- Change the newest list of children, and the stack is laid out again if they are. -/
theorem onChildren {change : List Node → List Node} (h : builder.LaidOut stop)
    (hchange : ∀ start nodes, Node.LaidOut start nodes.reverse stop →
      Node.LaidOut start (change nodes).reverse later) :
    (builder.onChildren change).LaidOut later := by
  obtain ⟨frames, children, issues⟩ := builder
  cases frames with
  | nil => exact hchange _ _ h
  | cons frame frames =>
    obtain ⟨⟨hafter, hforward, htag, hchildren⟩, hothers⟩ := h
    exact ⟨⟨hafter, hforward, htag, hchange _ _ hchildren⟩, hothers⟩

theorem to_leadsTo (h : builder.LaidOut stop) (hlater : stop.LeadsTo later) :
    builder.LaidOut later := by
  obtain ⟨frames, children, issues⟩ := builder
  cases frames with
  | nil => exact Node.LaidOut.to_leadsTo h hlater
  | cons frame frames =>
    obtain ⟨⟨hafter, hforward, htag, hchildren⟩, hothers⟩ := h
    exact ⟨⟨hafter, hforward, htag, hchildren.to_leadsTo hlater⟩, hothers⟩

theorem add {node : Node} (h : builder.LaidOut stop) (hstart : stop.LeadsTo node.span.start)
    (hnode : ∀ sub ∈ node.subnodes, sub.Laid later) : (builder.add node).LaidOut later := by
  refine h.onChildren fun start nodes hnodes => ?_
  rw [List.reverse_cons]
  exact hnodes.concat hstart hnode

/-- An element leaves the stack and becomes the newest child of the one around it. -/
theorem pop {finish : Frame → Node} (h : builder.LaidOut stop) (hlater : stop.LeadsTo later)
    (hstart : ∀ frame, (finish frame).span.start = frame.openTag.span.start)
    (hfinish : ∀ frame, frame.LaidOut stop → ∀ sub ∈ (finish frame).subnodes, sub.Laid later) :
    (builder.pop finish).LaidOut later := by
  obtain ⟨frames, children, issues⟩ := builder
  cases frames with
  | nil => exact h.to_leadsTo hlater
  | cons frame frames =>
    obtain ⟨hframe, hothers⟩ := h
    have hrest : (Builder.mk frames children issues).LaidOut frame.openTag.span.start := hothers
    exact hrest.add (hstart frame ▸ .refl _) (hfinish frame hframe)

theorem foldl_pop {α : Type} {finish : Frame → Node} (h : builder.LaidOut stop)
    (hstart : ∀ frame, (finish frame).span.start = frame.openTag.span.start)
    (hfinish : ∀ frame, frame.LaidOut stop → ∀ sub ∈ (finish frame).subnodes, sub.Laid stop)
    (items : List α) :
    (items.foldl (fun builder _ => builder.pop finish) builder).LaidOut stop := by
  induction items generalizing builder with
  | nil => exact h
  | cons item items ih => exact ih (h.pop (.refl _) hstart hfinish)

theorem joinText {span : Span} (h : builder.LaidOut stop) (hstart : span.start = stop)
    (hforward : span.start.Reaches span.stop) :
    (builder.onChildren (Builder.joinText span)).LaidOut span.stop := by
  have hstop : stop.LeadsTo span.stop := hstart ▸ hforward.leadsTo
  refine h.onChildren fun start nodes hnodes => ?_
  rcases joinText_cases span nodes with heq | ⟨last, older, rfl, -, heq⟩
  · rw [heq, List.reverse_cons]
    refine hnodes.concat (hstart ▸ .refl _) (List.forall_mem_singleton.2 ?_)
    exact ⟨hstart ▸ h.after, hforward, .refl _, trivial⟩
  · rw [heq, List.reverse_cons]
    rw [List.reverse_cons] at hnodes
    exact hnodes.extend hstop

theorem openElement {name : List Char} {tag : OpenTag} {terminated : Bool}
    (h : builder.LaidOut stop) (hstart : tag.span.start = stop)
    (hforward : tag.span.start.Reaches tag.span.stop) (htag : tag.Lays) :
    (builder.openElement name tag terminated).LaidOut tag.span.stop := by
  unfold Builder.openElement
  simp only
  split
  · refine h.add (hstart ▸ .refl _) (List.forall_mem_singleton.2 ?_)
    refine ⟨hstart ▸ h.after, hforward, .refl _, htag, rfl, ?_, fun other hother => by cases hother⟩
    exact ⟨.refl _, hforward, .refl _⟩
  · refine ⟨⟨hstart ▸ h.after, hforward, htag, .nil _⟩, ?_⟩
    exact hstart ▸ h

theorem closeElement {name : List Char} {tag : CloseTag} (h : builder.LaidOut stop)
    (hstart : tag.span.start = stop) (hforward : tag.span.start.Reaches tag.span.stop) :
    (builder.closeElement options name tag).LaidOut tag.span.stop := by
  have hstop : stop.LeadsTo tag.span.stop := hstart ▸ hforward.leadsTo
  unfold Builder.closeElement
  split
  · have hinner : ((builder.frames.takeWhile fun frame => frame.name != name).foldl
        (fun builder _ => builder.pop (Frame.closeImplicitly options.strict name))
          builder).LaidOut stop :=
      h.foldl_pop (fun _ => rfl) (fun frame hframe => hframe.toNode _) _
    exact hinner.pop hstop (fun _ => rfl)
      fun frame hframe => hframe.closeWith (hstart ▸ .refl _) hforward
  · exact h.to_leadsTo hstop

/-- **One segment: the picture grows by its stretch.** -/
theorem step {segment : Segment} (h : builder.LaidOut stop) (hlays : segment.Lays)
    (hstart : segment.span.start = stop)
    (hforward : segment.span.start.Reaches segment.span.stop) :
    (builder.step options segment).LaidOut segment.span.stop := by
  have hleaf : ∀ node : Node, node.span = segment.span → node.subnodes = [node] → node.Lays →
      (builder.add node).LaidOut segment.span.stop := by
    intro node hspan hsub hinside
    refine h.add (by rw [hspan, hstart]; exact .refl _) ?_
    rw [hsub]
    refine List.forall_mem_singleton.2 ⟨?_, ?_, ?_, hinside⟩
    · rw [hspan, hstart]
      exact h.after
    · rw [hspan]
      exact hforward
    · rw [hspan]
      exact .refl _
  cases segment with
  | text token => exact h.joinText hstart hforward
  | erb tag => exact hleaf (.erb tag) rfl rfl trivial
  | comment value => exact hleaf (.comment value) rfl rfl trivial
  | openTag name tag terminated => exact h.openElement hstart hforward hlays
  | closeTag name tag => exact h.closeElement hstart hforward

/-- **A run: segments that tile a way are laid out along it.** -/
theorem run {row : List Segment} {last : Point} (h : builder.LaidOut stop)
    (hlays : ∀ segment ∈ row, segment.Lays) (htiles : Tiles stop (row.map Segment.span) last) :
    (row.foldl (Builder.step options) builder).LaidOut last := by
  induction row generalizing builder stop with
  | nil => exact htiles ▸ h
  | cons segment row ih =>
    obtain ⟨hstart, hforward, hrest⟩ := htiles
    obtain ⟨hfirst, hothers⟩ := List.forall_mem_cons.1 hlays
    exact ih (h.step hfirst hstart hforward) hothers hrest

theorem finish (h : builder.LaidOut stop) : (builder.finish options).LaidOut stop :=
  h.foldl_pop (fun _ => rfl) (fun _ hframe => hframe.toNode _) builder.frames

end LaidOut
end Builder

/-! ## 5. Documents -/

/-- All nodes of a document are laid between the beginning and the end of its source. -/
theorem Document.laidOut_ofSource (options : ParserOptions) (source : List Char) :
    Node.LaidOut .origin (ofSource options source).children (Point.origin.advance source) := by
  have hrun : ((options.segments source).foldl (Builder.step options) Builder.empty).LaidOut
      (Point.origin.advance source) :=
    Builder.laidOut_empty.run (Segment.lays_of_mem_segments options source)
      (tiles_segments_locatedPieces options.trackWhitespace source)
  have hframes : (Builder.build options (options.segments source)).frames = [] :=
    List.map_eq_nil_iff.1 (Builder.names_finish options _)
  have hbuilt : (Builder.build options (options.segments source)).LaidOut
      (Point.origin.advance source) := hrun.finish
  rw [Builder.LaidOut, hframes] at hbuilt
  exact hbuilt

/-- Two nodes differ at most in what analysis says of ERB tags, in themselves, in the opening tag,
    and in the spans of their children. -/
def Node.Alike : Node → Node → Prop
  | element info children, element info' children' =>
    info.plain = info'.plain ∧ children.map span = children'.map span
  | element .., _ | _, element .. => False
  | node, node' => node.span = node'.span

theorem Node.Alike.span_eq {node other : Node} (h : node.Alike other) : node.span = other.span := by
  unfold Alike at h
  split at h
  next => exact congrArg (fun info => info.span) h.1
  next => exact h.elim
  next => exact h.elim
  next => exact h

theorem OpenTag.Lays.of_plain {tag other : OpenTag} (h : other.Lays) (hspan : tag.span = other.span)
    (hitems : tag.items.map TagItem.plain = other.items.map TagItem.plain) : tag.Lays := by
  have hspans : ∀ items : List TagItem, items.map (fun item => (Entry.ofItem item).span)
      = (items.map TagItem.plain).map fun item => (Entry.ofItem item).span := by
    intro items
    rw [List.map_map]
    exact List.map_congr_left fun item _ => by cases item <;> rfl
  refine ⟨?_, fun attr value hmem => h.values attr value ?_⟩
  · rw [hspan, hspans, hitems, ← hspans]
    exact h.items
  · rw [← TagItem.attr_mem_plain_iff, hitems, TagItem.attr_mem_plain_iff] at hmem
    exact hmem

theorem Node.Laid.of_alike {stop : Point} {node other : Node} (h : other.Laid stop)
    (halike : node.Alike other) : node.Laid stop := by
  have hspan := halike.span_eq
  refine ⟨hspan ▸ h.after, hspan ▸ h.forward, hspan ▸ h.before, ?_⟩
  cases node with
  | text span => trivial
  | comment value => trivial
  | erb tag => trivial
  | element info children =>
    cases other with
    | text span => exact halike.elim
    | comment value => exact halike.elim
    | erb tag => exact halike.elim
    | element info' children' =>
      obtain ⟨hplain, hchildren⟩ := halike
      obtain ⟨htag, hstart, hparts, hstop⟩ := h.inside
      have hown : info.span = info'.span := congrArg (fun info => info.span) hplain
      have hopen : info.openTag.span = info'.openTag.span :=
        congrArg (fun info => info.openTag.span) hplain
      have hclose : info.closeTag = info'.closeTag := congrArg (fun info => info.closeTag) hplain
      have hitems : info.openTag.items.map TagItem.plain = info'.openTag.items.map TagItem.plain :=
        congrArg (fun info => info.openTag.items) hplain
      refine ⟨htag.of_plain hopen hitems, ?_, ?_, ?_⟩
      · rw [hopen, hown]
        exact hstart
      · rw [hopen, hown, hclose, hchildren]
        exact hparts
      · rw [hclose, hown]
        exact hstop

mutual

/-- Putting tags back changes a node at most in its annotations, and everything inside of it. -/
theorem Node.alike_refill (node : Node) (tags supply : List ErbTag)
    (h : tags.map ErbTag.plain = (Entry.erbTags node.entries).map ErbTag.plain) :
    (node.refill (tags ++ supply)).1.Alike node
      ∧ ∀ sub ∈ (node.refill (tags ++ supply)).1.subnodes,
        ∃ other ∈ node.subnodes, sub.Alike other := by
  match node with
  | .text span => exact ⟨rfl, fun sub hmem => ⟨sub, hmem, List.mem_singleton.1 hmem ▸ rfl⟩⟩
  | .comment value => exact ⟨rfl, fun sub hmem => ⟨sub, hmem, List.mem_singleton.1 hmem ▸ rfl⟩⟩
  | .erb tag =>
    obtain ⟨first, rest, rfl, hfirst, -⟩ := List.map_eq_cons_iff.1 h
    have hspan : first.span = tag.span := congrArg (fun tag => tag.span) hfirst
    refine ⟨hspan, fun sub hmem => ⟨_, List.mem_cons_self, ?_⟩⟩
    rw [List.mem_singleton.1 hmem]
    exact hspan
  | .element info children =>
    rw [erbTags_element, List.map_append] at h
    obtain ⟨inTag, inside, rfl, hinTag, hinside⟩ := List.map_eq_append_iff.1 h
    obtain ⟨hitems, -, hleft⟩ :=
      TagItem.refillAll_plain info.openTag.items inTag (inside ++ supply) hinTag
    obtain ⟨hspans, hsubs⟩ := alike_refillAll children inside supply hinside
    rw [List.append_assoc]
    simp only [refill, hleft]
    have hself : Alike (.element { info with openTag := { info.openTag with
        items := (TagItem.refillAll info.openTag.items (inTag ++ (inside ++ supply))).1 } }
          (refillAll children (inside ++ supply)).1) (.element info children) := by
      refine ⟨?_, hspans⟩
      simp only [ElementInfo.plain, hitems]
    refine ⟨hself, List.forall_mem_cons.2 ⟨⟨_, List.mem_cons_self, hself⟩, ?_⟩⟩
    intro sub hmem
    obtain ⟨other, hother, halike⟩ := hsubs sub hmem
    exact ⟨other, List.mem_cons_of_mem _ hother, halike⟩

theorem Node.alike_refillAll (nodes : List Node) (tags supply : List ErbTag)
    (h : tags.map ErbTag.plain = (Entry.erbTags (entriesOfAll nodes)).map ErbTag.plain) :
    (refillAll nodes (tags ++ supply)).1.map span = nodes.map span
      ∧ ∀ sub ∈ subnodesOfAll (refillAll nodes (tags ++ supply)).1,
        ∃ other ∈ subnodesOfAll nodes, sub.Alike other := by
  match nodes with
  | [] => exact ⟨rfl, fun sub hmem => by cases hmem⟩
  | node :: nodes =>
    rw [entriesOfAll, Entry.erbTags_append, List.map_append] at h
    obtain ⟨own, others, rfl, hown, hothers⟩ := List.map_eq_append_iff.1 h
    obtain ⟨-, -, hleft⟩ := refill_plain node own (others ++ supply) hown
    obtain ⟨hnode, hsubs⟩ := alike_refill node own (others ++ supply) hown
    obtain ⟨hspans, hrest⟩ := alike_refillAll nodes others supply hothers
    rw [List.append_assoc]
    simp only [refillAll, hleft, subnodesOfAll, List.map_cons, hnode.span_eq, hspans]
    refine ⟨trivial, List.forall_mem_append.2 ⟨?_, ?_⟩⟩
    · intro sub hmem
      obtain ⟨other, hother, halike⟩ := hsubs sub hmem
      exact ⟨other, List.mem_append_left _ hother, halike⟩
    · intro sub hmem
      obtain ⟨other, hother, halike⟩ := hrest sub hmem
      exact ⟨other, List.mem_append_right _ hother, halike⟩

end

theorem laidOut_parsed (source : List Char) (options : ParserOptions) :
    Node.LaidOut .origin (parsed source options).children (Point.origin.advance source) := by
  have h := Document.laidOut_ofSource options source
  unfold parsed
  simp only
  split
  · -- analysis puts every tag back where it was
    obtain ⟨hspans, halike⟩ := Node.alike_refillAll (Document.ofSource options source).children
      ((Document.ofSource options source).annotatedTags source) []
      (Document.plain_annotatedTags source _)
    rw [List.append_nil] at hspans halike
    refine ⟨?_, fun node hmem => ?_⟩
    · exact Eq.subst (motive := fun row => Ascends .origin row _) hspans.symm h.ascends
    · obtain ⟨other, hother, hlike⟩ := halike node hmem
      exact (h.laid other hother).of_alike hlike
  · exact h

theorem nested_parsed (source : List Char) (options : ParserOptions) :
    (parsed source options).Nested (Point.Between (Point.origin.advance source)) := by
  obtain ⟨hascends, hlaid⟩ := laidOut_parsed source options
  have hinside : ∀ node ∈ (parsed source options).nodes,
      node.span.Within (Point.Between (Point.origin.advance source))
        (parsed source options).span := by
    intro node hmem
    obtain ⟨hafter, hforward, hbefore, -⟩ := hlaid node hmem
    rw [span_parsed]
    exact ⟨⟨.refl _, hafter, hforward.leadsTo.trans hbefore⟩, ⟨hafter, hforward.leadsTo, hbefore⟩,
      ⟨hafter.trans hforward.leadsTo, hbefore, .refl _⟩⟩
  have helements : ∀ info children, .element info children ∈ (parsed source options).nodes →
      info.Nests (Point.Between (Point.origin.advance source)) children := by
    intro info children hmem
    have hlays : info.Lays children := (hlaid _ hmem).inside
    exact hlays.nests (hlaid _ hmem).after (hlaid _ hmem).before
  refine ⟨?_, hinside, ?_, List.pairwise_map.1 (hascends.pairwise_between (.refl _) (.refl _)),
    helements⟩
  · rw [span_parsed]
    exact ⟨.refl _, ⟨source, rfl⟩, .refl _⟩
  · intro info children hmem span hspan
    exact ((helements info children hmem).within_of_mem hspan).trans (hinside _ hmem)

end ErbTemplate
