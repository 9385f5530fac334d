import ErbTemplate.Boundary.Call
import ErbTemplate.Proofs.Tree.Ranges
import Mathlib.Data.List.Forall2

/-!
# Snapshots mirror the tree

A snapshot is a tree of its own, built by a recursion of its own. What it has to agree with is the
tree in source order (`Document.entries`): read in preorder, each node before the inside of its
opening tag and that before its children, a snapshot shows the same nodes one after the other
(`Entry.ShownBy`), with texts in the place of spans.

The issues in a snapshot stand in that order, too, so whether they ascend is a question about the
tree. They ascend by byte and by true line and column; the positions that a snapshot shows are words
of 32 bits and ascend where the bytes of the source can be counted in 32 bits. Two rows of places
carry this:

* a closing tag that closes nothing is reported as its segment is taken in, so what a document
  reports is, segment for segment, a part of the row of segments (`Builder.sublist_foldl_step`);
* nodes begin in source order (`Node.climbs_entries`), and the issues of a node point to where the
  node begins (`Entry.Anchored`).
-/

set_option autoImplicit false

namespace ErbTemplate

open Text

/-! ## 1. The rule -/

namespace NodeSnapshot

/-- The children of a node. -/
def children : NodeSnapshot → List NodeSnapshot
  | document _ children _ => children
  | element _ _ _ children _ _ _ _ => children
  | text .. | whitespace .. | attr .. | comment .. | erb .. => []

/-- The issues of a node itself. -/
def issues : NodeSnapshot → List IssueSnapshot
  | document _ _ issues => issues
  | element _ _ _ _ _ _ _ issues => issues
  | comment _ _ issues => issues
  | erb _ _ _ _ _ issues => issues
  | text .. | whitespace .. | attr .. => []

mutual

/-- A node, the nodes inside of its opening tag, and the nodes inside of its children. -/
def preorder (node : NodeSnapshot) : List NodeSnapshot :=
  match node with
  | document _ children _ => node :: preorderOfAll children
  | element _ _ openTag children _ _ _ _ =>
    node :: preorderOfAll openTag ++ preorderOfAll children
  | text .. | whitespace .. | attr .. | comment .. | erb .. => [node]

/-- The nodes of a list and those inside of them. -/
def preorderOfAll : List NodeSnapshot → List NodeSnapshot
  | [] => []
  | node :: nodes => node.preorder ++ preorderOfAll nodes

end

end NodeSnapshot

/-- A text is what stands in the source at a span, which can be cut out. -/
def Span.Reads (source : List Char) (span : Span) (text : String) : Prop :=
  span.range.slice? source = some text.toList

/-- A node of a snapshot shows a node of a tree. -/
inductive Entry.ShownBy (source : List Char) : Entry → NodeSnapshot → Prop
  | text {span : Span} {content : String} :
      span.Reads source content → ShownBy source (.text span) (.text span.location content)
  | whitespace {span : Span} {value : String} :
      span.Reads source value → ShownBy source (.whitespace span) (.whitespace span.location value)
  | attr {owner : Attribute} {name : String} {value : Option String} :
      owner.name.Reads source name →
      Option.Rel (fun value text => value.content.Reads source text) owner.value value →
      ShownBy source (.attr owner)
        (.attr owner.span.location name value (owner.value.any AttributeValue.quoted))
  | comment {value : Comment} {content : String} :
      value.content.Reads source content →
      ShownBy source (.comment value)
        (.comment value.span.location content (value.issues.map IssueSnapshot.capture))
  | erb {tag : ErbTag} {opening content : String} {closing : Option String} :
      tag.mark.Reads source opening → tag.content.Reads source content →
      Option.Rel (Span.Reads source) tag.closing closing →
      ShownBy source (.erb tag)
        (.erb tag.span.location opening content closing tag.kind
          (tag.issues.map IssueSnapshot.capture))
  | element {info : ElementInfo} {name : String} {openTag children : List NodeSnapshot} :
      info.openTag.name.Reads source name → openTag.length = info.openTag.items.length →
      ShownBy source (.element info children.length)
        (.element info.span.location name openTag children info.isVoid info.openTag.selfClosing
          info.closeTag.isSome (info.issues.map IssueSnapshot.capture))

/-- The nodes of a snapshot in preorder, apart from the document. -/
def ParseSnapshot.nodes (snapshot : ParseSnapshot) : List NodeSnapshot :=
  NodeSnapshot.preorderOfAll snapshot.value.children

/-- A snapshot and the document that it was taken of. -/
structure ParseSnapshot.Mirrors (source : List Char) (document : Document)
    (snapshot : ParseSnapshot) : Prop where
  root : snapshot.value = .document document.span.location snapshot.value.children
    (document.issues.map IssueSnapshot.capture)
  /-- Node for node, in source order. -/
  nodes : List.Forall₂ (Entry.ShownBy source) document.entries snapshot.nodes
  length : snapshot.nodes.length = document.entries.length
  types : snapshot.nodes.map NodeSnapshot.typeName = document.entries.map Entry.typeName
  /-- The issues are all issues of the tree. -/
  issues : snapshot.issues = document.allIssues.map IssueSnapshot.capture
  /-- They are those of the document, then those of the nodes in preorder. -/
  flat : snapshot.issues = snapshot.value.issues ++ snapshot.nodes.flatMap NodeSnapshot.issues
  /-- Whoever holds the document is told as many. -/
  count : ∀ session : Session, session.document = some document →
    (Session.call .issueCount).run.run session = (.ok (.count snapshot.issues.length), session)
  documentIssues : document.issues.Pairwise fun first second =>
    first.span.start.Precedes second.span.start
  nodeIssues : (document.entries.flatMap Entry.issues).Pairwise fun first second =>
    first.span.start.NotAfter second.span.start
  /-- The positions in the snapshot are in order, too, where bytes can be counted in 32 bits. -/
  reported : byteLength source < 2 ^ 32 →
    (snapshot.value.issues.Pairwise fun first second =>
        first.location.start.Before second.location.start)
      ∧ (snapshot.nodes.flatMap NodeSnapshot.issues).Pairwise fun first second =>
          first.location.start.AtMost second.location.start

/-! ## 2. Node for node -/

theorem Span.Cuttable.reads {source : List Char} {span : Span} (h : span.Cuttable source) :
    span.Reads source (span.string source) := by
  obtain ⟨text, hslice⟩ := h.exists_slice?
  rw [Reads, string, String.toList_ofList, Span.text, Range.slice, hslice]
  rfl

/-- A part that may be missing is shown if it is there. -/
theorem Span.optionRel_map {α : Type} {source : List Char} (span : α → Span) {part : Option α}
    (h : ∀ item, part = some item → (span item).Cuttable source) :
    Option.Rel (fun item text => (span item).Reads source text) part
      (part.map fun item => (span item).string source) := by
  cases part with
  | none => exact .none
  | some item => exact .some (h item rfl).reads

/-- The texts of a node can all be cut out of a source. -/
def Entry.Readable (source : List Char) (entry : Entry) : Prop :=
  ∀ span ∈ entry.stretches, span.Cuttable source

theorem Entry.shownBy_ofErb {source : List Char} {tag : ErbTag}
    (h : (Entry.erb tag).Readable source) :
    (Entry.erb tag).ShownBy source (NodeSnapshot.ofErb source tag) := by
  refine .erb (h _ ?_).reads (h _ ?_).reads (Span.optionRel_map id ?_)
  · exact List.mem_cons_self
  · exact List.mem_cons_of_mem _ List.mem_cons_self
  · intro closing hclosing
    refine h _ (List.mem_cons_of_mem _ (List.mem_cons_of_mem _ ?_))
    rw [hclosing]
    exact List.mem_singleton.2 rfl

theorem Entry.shownBy_ofItem {source : List Char} (item : TagItem)
    (h : (Entry.ofItem item).Readable source) :
    (Entry.ofItem item).ShownBy source (NodeSnapshot.ofItem source item) := by
  cases item with
  | whitespace span => exact .whitespace (h _ List.mem_cons_self).reads
  | erb tag => exact shownBy_ofErb h
  | attr owner =>
    refine .attr (h _ List.mem_cons_self).reads
      (Span.optionRel_map AttributeValue.content ?_)
    intro value hvalue
    refine h _ (List.mem_cons_of_mem _ ?_)
    rw [hvalue]
    exact List.mem_singleton.2 rfl

namespace NodeSnapshot

theorem length_ofNodes (source : List Char) (nodes : List Node) :
    (ofNodes source nodes).length = nodes.length := by
  induction nodes with
  | nil => rfl
  | cons node nodes ih => rw [ofNodes, List.length_cons, List.length_cons, ih]

/-- Nothing stands inside of an item of an opening tag. -/
theorem preorder_ofItem (source : List Char) (item : TagItem) :
    (ofItem source item).preorder = [ofItem source item] := by
  cases item <;> simp [ofItem, ofErb, preorder]

theorem preorderOfAll_items (source : List Char) (items : List TagItem) :
    preorderOfAll (items.map (ofItem source)) = items.map (ofItem source) := by
  induction items with
  | nil => rfl
  | cons item items ih =>
    rw [List.map_cons, preorderOfAll, preorder_ofItem, ih]
    rfl

theorem forall₂_items {source : List Char} {items : List TagItem}
    (h : ∀ entry ∈ items.map Entry.ofItem, entry.Readable source) :
    List.Forall₂ (Entry.ShownBy source) (items.map Entry.ofItem)
      (preorderOfAll (items.map (ofItem source))) := by
  rw [preorderOfAll_items, List.forall₂_map_left_iff, List.forall₂_map_right_iff,
    List.forall₂_same]
  intro item hitem
  exact Entry.shownBy_ofItem item (h _ (List.mem_map_of_mem hitem))

mutual

/-- **In preorder a snapshot shows the nodes in source order.** -/
theorem forall₂_ofNode {source : List Char} (node : Node)
    (h : ∀ entry ∈ node.entries, entry.Readable source) :
    List.Forall₂ (Entry.ShownBy source) node.entries (ofNode source node).preorder := by
  match node with
  | .text span =>
    rw [Node.entries, List.forall_mem_singleton] at h
    exact .cons (.text (h _ List.mem_cons_self).reads) .nil
  | .comment value =>
    rw [Node.entries, List.forall_mem_singleton] at h
    exact .cons (.comment (h _ List.mem_cons_self).reads) .nil
  | .erb tag =>
    rw [Node.entries, List.forall_mem_singleton] at h
    exact .cons (Entry.shownBy_ofErb h) .nil
  | .element info children =>
    rw [Node.entries, List.forall_mem_append, List.forall_mem_cons] at h
    obtain ⟨⟨hself, hitems⟩, hchildren⟩ := h
    have hshown : (Entry.element info children.length).ShownBy source
        (ofNode source (.element info children)) := by
      rw [← length_ofNodes source]
      exact .element (hself _ List.mem_cons_self).reads (List.length_map _)
    rw [ofNode, preorder, ← ofNode]
    exact List.rel_append (.cons hshown (forall₂_items hitems)) (forall₂_ofNodes children hchildren)

theorem forall₂_ofNodes {source : List Char} (nodes : List Node)
    (h : ∀ entry ∈ Node.entriesOfAll nodes, entry.Readable source) :
    List.Forall₂ (Entry.ShownBy source) (Node.entriesOfAll nodes)
      (preorderOfAll (ofNodes source nodes)) := by
  match nodes with
  | [] => exact .nil
  | node :: nodes =>
    rw [Node.entriesOfAll, List.forall_mem_append] at h
    exact List.rel_append (forall₂_ofNode node h.1) (forall₂_ofNodes nodes h.2)

end

end NodeSnapshot

/-- What is the same of every two that belong together is the same of the lists. -/
theorem map_eq_map_of_forall₂ {α β γ : Type} {R : α → β → Prop} {f : α → γ} {g : β → γ}
    {row : List α} {other : List β} (h : List.Forall₂ R row other)
    (heq : ∀ first second, R first second → f first = g second) : row.map f = other.map g := by
  induction h with
  | nil => rfl
  | cons hhead _ ih => rw [List.map_cons, List.map_cons, heq _ _ hhead, ih]

namespace Entry.ShownBy

variable {source : List Char} {entry : Entry} {node : NodeSnapshot}

theorem typeName_eq (h : entry.ShownBy source node) : entry.typeName = node.typeName := by
  cases h <;> rfl

theorem issues_eq (h : entry.ShownBy source node) :
    entry.issues.map IssueSnapshot.capture = node.issues := by
  cases h <;> rfl

end Entry.ShownBy

/-! ## 3. Issues of a document -/

namespace Builder

@[simp] theorem issues_onChildren (change : List Node → List Node) (builder : Builder) :
    (builder.onChildren change).issues = builder.issues := by
  unfold onChildren
  split <;> rfl

@[simp] theorem issues_pop (finish : Frame → Node) (builder : Builder) :
    (builder.pop finish).issues = builder.issues := by
  unfold pop
  split
  next => rfl
  next => rw [add, issues_onChildren]

theorem issues_foldl_pop {α : Type} (finish : Frame → Node) (items : List α) (builder : Builder) :
    (items.foldl (fun builder _ => builder.pop finish) builder).issues = builder.issues := by
  induction items generalizing builder with
  | nil => rfl
  | cons item items ih => rw [List.foldl_cons, ih, issues_pop]

/-- **A segment adds at most one issue of the document, which points to the segment.** -/
theorem issues_step (options : ParserOptions) (builder : Builder) (segment : Segment) :
    (builder.step options segment).issues = builder.issues
      ∨ ∃ cause, (builder.step options segment).issues
        = ⟨cause, segment.span⟩ :: builder.issues := by
  cases segment with
  | text token => exact Or.inl (issues_onChildren _ builder)
  | erb tag => exact Or.inl (issues_onChildren _ builder)
  | comment value => exact Or.inl (issues_onChildren _ builder)
  | openTag name tag terminated =>
    left
    rw [step, openElement]
    simp only
    split
    next => exact issues_onChildren _ builder
    next => rfl
  | closeTag name tag =>
    rw [step, closeElement]
    split
    next =>
      -- what is wrong with the elements that end here is reported on them
      left
      simp only [issues_pop, issues_foldl_pop]
    next => exact Or.inr ⟨_, rfl⟩

/-- The issues of the document point, in order, to some of the segments. -/
theorem sublist_foldl_step (options : ParserOptions) (row : List Segment) (builder : Builder) :
    ∃ reported : List Span, reported.Sublist (row.map Segment.span)
      ∧ (row.foldl (step options) builder).issues.reverse.map Issue.span
        = builder.issues.reverse.map Issue.span ++ reported := by
  induction row generalizing builder with
  | nil => exact ⟨[], .slnil, (List.append_nil _).symm⟩
  | cons segment row ih =>
    obtain ⟨reported, hsublist, hrun⟩ := ih (builder.step options segment)
    rw [List.foldl_cons, hrun]
    rcases issues_step options builder segment with hsame | ⟨cause, hone⟩
    · exact ⟨reported, hsublist.cons _, by rw [hsame]⟩
    · refine ⟨segment.span :: reported, hsublist.cons_cons _, ?_⟩
      rw [hone, List.reverse_cons, List.map_append, List.append_assoc]
      rfl

end Builder

theorem Document.sublist_issues (options : ParserOptions) (source : List Char) :
    ((ofSource options source).issues.map Issue.span).Sublist
      ((options.segments source).map Segment.span) := by
  obtain ⟨reported, hsublist, hrun⟩ := Builder.sublist_foldl_step options
    (options.segments source) .empty
  have hissues : (ofSource options source).issues
      = ((options.segments source).foldl (Builder.step options) .empty).issues.reverse :=
    congrArg List.reverse (Builder.issues_foldl_pop _ _ _)
  rw [hissues, hrun]
  exact hsublist

/-- **The issues of a document stand one behind the other.** -/
theorem pairwise_issues_parsed (source : List Char) (options : ParserOptions) :
    (parsed source options).issues.Pairwise fun first second =>
      first.span.start.Precedes second.span.start := by
  have hrow := (tiles_segments_locatedPieces options.trackWhitespace source).pairwise
  have hfewer := hrow.sublist (Document.sublist_issues options source)
  rw [List.pairwise_map] at hfewer
  rw [issues_parsed]
  exact hfewer.imp Point.Reaches.precedes

/-! ## 4. Issues of nodes -/

/-- Points that come one after the other on the way from one point to another. -/
def Climbs : Point → List Point → Point → Prop
  | start, [], stop => start.LeadsTo stop
  | start, point :: row, stop => start.LeadsTo point ∧ Climbs point row stop

namespace Climbs

variable {start middle stop : Point} {row back : List Point}

theorem of_leadsTo (hearlier : start.LeadsTo middle) (h : Climbs middle row stop) :
    Climbs start row stop := by
  cases row with
  | nil => exact hearlier.trans h
  | cons point row => exact ⟨hearlier.trans h.1, h.2⟩

theorem append (h : Climbs start row middle) (h' : Climbs middle back stop) :
    Climbs start (row ++ back) stop := by
  induction row generalizing start with
  | nil => exact h'.of_leadsTo h
  | cons point row ih => exact ⟨h.1, ih h.2⟩

theorem leadsTo_of_mem (h : Climbs start row stop) {point : Point} (hmem : point ∈ row) :
    start.LeadsTo point := by
  induction row generalizing start with
  | nil => cases hmem
  | cons first row ih =>
    rcases List.mem_cons.1 hmem with rfl | hmem
    · exact h.1
    · exact h.1.trans (ih h.2 hmem)

theorem pairwise (h : Climbs start row stop) : row.Pairwise Point.LeadsTo := by
  induction row generalizing start with
  | nil => exact .nil
  | cons point row ih => exact .cons (fun other hmem => h.2.leadsTo_of_mem hmem) (ih h.2)

end Climbs

/-- Spans that follow each other begin one after the other. -/
theorem Ascends.climbs {start stop : Point} {row : List Span} (h : Ascends start row stop) :
    Climbs start (row.map Span.start) stop := by
  induction row generalizing start with
  | nil => exact h
  | cons span row ih =>
    obtain ⟨hstart, hforward, hrest⟩ := h
    exact ⟨hstart, (ih hrest).of_leadsTo hforward.leadsTo⟩

/-- Where the issues of a node point to. -/
def Entry.begin (entry : Entry) : Point :=
  entry.anchor.start

theorem Entry.begin_ofItem (item : TagItem) : (ofItem item).begin = (ofItem item).span.start :=
  congrArg Span.start (anchor_ofItem item)

mutual

/-- **Nodes begin in source order**: an element before the items of its opening tag, and these
    before its children. -/
theorem Node.climbs_entries {stop : Point} (node : Node)
    (h : ∀ sub ∈ node.subnodes, sub.Laid stop) :
    Climbs node.span.start (node.entries.map Entry.begin) node.span.stop := by
  obtain ⟨-, hforward, -, hinside⟩ := h node node.mem_subnodes_self
  match node with
  | .text span => exact ⟨.refl _, hforward.leadsTo⟩
  | .comment value => exact ⟨.refl _, hforward.leadsTo⟩
  | .erb tag => exact ⟨.refl _, hforward.leadsTo⟩
  | .element info children =>
    obtain ⟨htag, hstart, ⟨-, hopen, hrow⟩, -⟩ := hinside
    have hitems : Climbs info.openTag.span.start
        ((info.openTag.items.map Entry.ofItem).map Entry.begin) info.openTag.span.stop := by
      simpa [Function.comp_def, Entry.begin_ofItem] using htag.items.climbs
    have hchildren := climbs_entriesOfAll children (hrow.sublist (List.sublist_append_left _ _))
      fun sub hsub => h sub (List.mem_cons_of_mem _ hsub)
    have hwhole := hitems.append hchildren
    rw [← List.map_append] at hwhole
    exact ⟨hstart ▸ .refl _, hwhole⟩

theorem Node.climbs_entriesOfAll {start stop last : Point} (nodes : List Node)
    (hrow : Ascends start (nodes.map Node.span) last)
    (h : ∀ sub ∈ subnodesOfAll nodes, sub.Laid stop) :
    Climbs start ((entriesOfAll nodes).map Entry.begin) last := by
  match nodes with
  | [] => exact hrow
  | node :: nodes =>
    rw [subnodesOfAll, List.forall_mem_append] at h
    obtain ⟨hstart, hforward, hrest⟩ := hrow
    rw [entriesOfAll, List.map_append]
    exact ((climbs_entries node h.1).of_leadsTo hstart).append
      (climbs_entriesOfAll nodes hrest h.2)

end

/-- **The issues of the nodes of a document stand where the nodes begin, in source order.** -/
theorem pairwise_nodeIssues_parsed (source : List Char) (options : ParserOptions) :
    ((parsed source options).entries.flatMap Entry.issues).Pairwise fun first second =>
      first.span.start.NotAfter second.span.start := by
  have hlaid := laidOut_parsed source options
  have hclimbs := (Node.climbs_entriesOfAll _ hlaid.ascends hlaid.laid).pairwise
  rw [List.pairwise_map] at hclimbs
  have hstart : ∀ entry ∈ (parsed source options).entries, ∀ issue ∈ entry.issues,
      issue.span.start = entry.begin := by
    intro entry hentry issue hissue
    exact congrArg Span.start (anchored_of_mem_entries hentry issue hissue)
  refine List.pairwise_flatMap.2 ⟨?_, hclimbs.imp_of_mem ?_⟩
  · -- issues of one node all point to the same place
    intro entry hentry
    refine List.pairwise_of_forall_mem_list ?_
    intro first hfirst second hsecond
    rw [hstart entry hentry first hfirst, hstart entry hentry second hsecond]
    exact (Point.LeadsTo.refl _).notAfter
  · intro entry other hentry hother hleads first hfirst second hsecond
    rw [hstart entry hentry first hfirst, hstart other hother second hsecond]
    exact hleads.notAfter

/-! ## 5. The theorem -/

theorem mirrors_parsed (source : List Char) (options : ParserOptions) :
    (ParseSnapshot.capture (parsed source options) source).Mirrors source
      (parsed source options) := by
  have hnodes : List.Forall₂ (Entry.ShownBy source) (parsed source options).entries
      (ParseSnapshot.capture (parsed source options) source).nodes :=
    NodeSnapshot.forall₂_ofNodes _ fun entry hentry span hspan =>
      cuttable_of_mem_stretches hentry hspan
  have hissues : (ParseSnapshot.capture (parsed source options) source).nodes.flatMap
        NodeSnapshot.issues
      = ((parsed source options).entries.flatMap Entry.issues).map IssueSnapshot.capture := by
    rw [List.map_flatMap, List.flatMap_def, List.flatMap_def,
      map_eq_map_of_forall₂ hnodes fun _ _ hshown => hshown.issues_eq]
  refine
    { root := rfl
      nodes := hnodes
      length := hnodes.length_eq.symm
      types := (map_eq_map_of_forall₂ hnodes fun _ _ hshown => hshown.typeName_eq).symm
      issues := rfl
      flat := ?_
      count := ?_
      documentIssues := pairwise_issues_parsed source options
      nodeIssues := pairwise_nodeIssues_parsed source options
      reported := ?_ }
  · rw [hissues]
    exact List.map_append
  · intro session hdocument
    have hlength : (ParseSnapshot.capture (parsed source options) source).issues.length
        = ((session.document.map fun document => document.allIssues.length).getD 0) := by
      rw [hdocument]
      exact List.length_map _
    rw [hlength]
    rfl
  · intro hbytes
    have hfits : ∀ issue ∈ (parsed source options).allIssues, issue.span.start.Fits :=
      fun issue hmem => ((upTo_parsed options source).2 issue hmem).fits hbytes
    rw [Document.allIssues, List.forall_mem_append] at hfits
    obtain ⟨hdocument, hnode⟩ := hfits
    rw [hissues]
    refine ⟨List.pairwise_map.2 ?_, List.pairwise_map.2 ?_⟩
    · refine (pairwise_issues_parsed source options).imp_of_mem ?_
      intro first second hfirst hsecond hprecedes
      exact hprecedes.position (hdocument first hfirst) (hdocument second hsecond)
    · refine (pairwise_nodeIssues_parsed source options).imp_of_mem ?_
      intro first second hfirst hsecond hnotAfter
      exact hnotAfter.position (hnode first hfirst) (hnode second hsecond)

end ErbTemplate
