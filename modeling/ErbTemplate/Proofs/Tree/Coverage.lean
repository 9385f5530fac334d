import ErbTemplate.Tree.Analysis
import ErbTemplate.Proofs.Token.Tiling
import ErbTemplate.Proofs.Tree.Segments
import ErbTemplate.Proofs.Tree.Stack
import Mathlib.Data.List.TakeWhile

/-!
# Parsing loses and duplicates nothing

The *coverage* of a tree are the stretches of source that its parts stand for: texts, comments, ERB
tags, the opening and closing tags of elements, and the closing tags that closed nothing and are
only left as issues. What is inside of an opening tag is covered by the tag.

While a tree is built its parts wander: they are children of open elements, elements are taken off
the stack by three different hands, texts grow in place. The coverage does not mind where a part
is, so it is compared up to order (`List.Perm`), and each operation on a builder is described by
what it adds to it. `Builder.Covers` is the invariant that carries this through a run: some order
of the coverage tiles the way from the beginning of the source to the end of the last segment.

> **`Builder.Covers.step`** — a segment adds its own stretch, or makes the text that ends where it
> begins longer.

Analysis changes what ERB tags say and not where they stand, so it keeps the coverage (§4).
-/

set_option autoImplicit false

namespace ErbTemplate

/-! ## 1. Coverage -/

mutual

/-- The stretches that the parts of a node stand for. -/
def Node.coverage : Node → List Span
  | .text span => [span]
  | .comment value => [value.span]
  | .erb tag => [tag.span]
  | .element info children =>
    info.openTag.span :: (coverageOfAll children ++ (info.closeTag.map CloseTag.span).toList)

/-- The stretches that the parts of a list of nodes stand for. -/
def Node.coverageOfAll : List Node → List Span
  | [] => []
  | node :: nodes => node.coverage ++ coverageOfAll nodes

end

/-- Where closing tags stand that closed nothing. -/
def strayClosings (issues : List Issue) : List Span :=
  (issues.filter fun issue => issue.kind == .unexpectedClosingTag).map Issue.span

/-- The stretches that the parts of a document stand for. -/
def Document.coverage (document : Document) : List Span :=
  Node.coverageOfAll document.children ++ strayClosings document.issues

namespace Node

@[simp] theorem coverageOfAll_nil : coverageOfAll [] = [] := by
  simp [coverageOfAll]

@[simp] theorem coverageOfAll_cons (node : Node) (nodes : List Node) :
    coverageOfAll (node :: nodes) = node.coverage ++ coverageOfAll nodes := by
  simp [coverageOfAll]

theorem coverageOfAll_eq_flatMap (nodes : List Node) :
    coverageOfAll nodes = nodes.flatMap coverage := by
  induction nodes with
  | nil => simp
  | cons node nodes ih => simp [ih]

theorem coverageOfAll_reverse (nodes : List Node) :
    (coverageOfAll nodes.reverse).Perm (coverageOfAll nodes) := by
  rw [coverageOfAll_eq_flatMap, coverageOfAll_eq_flatMap]
  exact (List.reverse_perm nodes).flatMap_right coverage

end Node

theorem strayClosings_reverse (issues : List Issue) :
    (strayClosings issues.reverse).Perm (strayClosings issues) := by
  rw [strayClosings, List.filter_reverse, List.map_reverse]
  exact List.reverse_perm _

/-! ## 2. What a builder has taken in -/

/-- The stretches that the parts of an open element stand for. -/
def Frame.coverage (frame : Frame) : List Span :=
  frame.openTag.span :: Node.coverageOfAll frame.children

theorem Frame.coverage_toNode (frame : Frame) (issues : List Issue) :
    (frame.toNode issues).coverage.Perm frame.coverage := by
  simp only [toNode, Node.coverage, coverage, Option.map_none, Option.toList_none, List.append_nil]
  exact (Node.coverageOfAll_reverse _).cons _

theorem Frame.coverage_closeWith (tag : CloseTag) (frame : Frame) :
    (frame.closeWith tag).coverage.Perm (tag.span :: frame.coverage) := by
  simp only [closeWith, Node.coverage, coverage, Option.map_some, Option.toList_some]
  calc frame.openTag.span :: (Node.coverageOfAll frame.children.reverse ++ [tag.span])
    _ |>.Perm (frame.openTag.span :: tag.span :: Node.coverageOfAll frame.children) :=
        (List.perm_append_comm.trans ((Node.coverageOfAll_reverse _).cons _)).cons _
    _ |>.Perm (tag.span :: frame.openTag.span :: Node.coverageOfAll frame.children) :=
        List.Perm.swap _ _ _

namespace Builder

/-- The stretches that the parts taken in so far stand for. -/
def coverage (builder : Builder) : List Span :=
  builder.frames.flatMap Frame.coverage
    ++ (Node.coverageOfAll builder.children ++ strayClosings builder.issues)

/-- Changing the newest children leaves the rest of the coverage alone. -/
theorem exists_coverage_onChildren (builder : Builder) :
    ∃ nodes others, builder.coverage.Perm (Node.coverageOfAll nodes ++ others)
      ∧ ∀ change, (builder.onChildren change).coverage.Perm
          (Node.coverageOfAll (change nodes) ++ others) := by
  obtain ⟨frames, children, issues⟩ := builder
  cases frames with
  | nil => exact ⟨children, strayClosings issues, .refl _, fun change => .refl _⟩
  | cons frame frames =>
    refine ⟨frame.children, frame.openTag.span :: (frames.flatMap Frame.coverage
      ++ (Node.coverageOfAll children ++ strayClosings issues)), ?_, fun change => ?_⟩
    · simp only [coverage, List.flatMap_cons, Frame.coverage, List.cons_append, List.append_assoc]
      exact List.perm_middle.symm
    · simp only [coverage, onChildren, List.flatMap_cons, Frame.coverage, List.cons_append,
        List.append_assoc]
      exact List.perm_middle.symm

theorem coverage_add (node : Node) (builder : Builder) :
    (builder.add node).coverage.Perm (node.coverage ++ builder.coverage) := by
  obtain ⟨nodes, others, hbefore, hafter⟩ := builder.exists_coverage_onChildren
  have hadd := hafter (node :: ·)
  rw [Node.coverageOfAll_cons, List.append_assoc] at hadd
  exact hadd.trans (hbefore.symm.append_left _)

/-- An element that leaves the stack takes its coverage with it to where it is added. -/
theorem coverage_pop {finish : Frame → Node} {builder : Builder} (added : List Span)
    (hfinish : ∀ frame, (finish frame).coverage.Perm (added ++ frame.coverage))
    (hopen : builder.names ≠ []) :
    (builder.pop finish).coverage.Perm (added ++ builder.coverage) := by
  obtain ⟨frames, children, issues⟩ := builder
  cases frames with
  | nil => exact absurd rfl hopen
  | cons frame frames =>
    have h := (coverage_add (finish frame) ⟨frames, children, issues⟩).trans
      ((hfinish frame).append_right _)
    simpa [pop, coverage] using h

theorem coverage_foldl_pop {α : Type} {finish : Frame → Node}
    (hfinish : ∀ frame, (finish frame).coverage.Perm frame.coverage) (items : List α)
    (builder : Builder) :
    (items.foldl (fun builder _ => builder.pop finish) builder).coverage.Perm builder.coverage := by
  induction items generalizing builder with
  | nil => exact .refl _
  | cons item items ih =>
    refine (ih (builder.pop finish)).trans ?_
    by_cases hopen : builder.names = []
    · -- with nothing open there is nothing to take off
      have hframes : builder.frames = [] := List.map_eq_nil_iff.1 hopen
      rw [pop, hframes]
    · exact coverage_pop [] hfinish hopen

theorem coverage_openElement (name : List Char) (tag : OpenTag)
    (terminated : Bool) (builder : Builder) :
    (builder.openElement name tag terminated).coverage.Perm
      (tag.span :: builder.coverage) := by
  unfold openElement
  simp only
  split
  · exact coverage_add _ builder
  · simp [coverage, Frame.coverage]

theorem coverage_closeElement (options : ParserOptions) (name : List Char) (tag : CloseTag)
    (builder : Builder) :
    (builder.closeElement options name tag).coverage.Perm (tag.span :: builder.coverage) := by
  unfold closeElement
  by_cases hmem : name ∈ builder.names
  · rw [if_pos ((any_frames name builder).2 hmem)]
    -- the element of this name is still there when the inner ones are gone
    have hopen : ((builder.frames.takeWhile fun frame => frame.name != name).foldl
        (fun builder _ => builder.pop (Frame.closeImplicitly options.strict name)) builder).names
          ≠ [] := by
      rw [names_foldl_pop_takeWhile]
      intro hnone
      have hall := List.dropWhile_eq_nil_iff.1 hnone name hmem
      simp at hall
    have hfinish : ∀ frame,
        (Frame.closeImplicitly options.strict name frame).coverage.Perm frame.coverage :=
      fun frame => frame.coverage_toNode _
    have hinner := coverage_foldl_pop hfinish
      (builder.frames.takeWhile fun frame => frame.name != name) builder
    exact (coverage_pop [tag.span] (Frame.coverage_closeWith tag) hopen).trans
      (hinner.cons tag.span)
  · rw [if_neg (fun h => hmem ((any_frames name builder).1 h))]
    simp only [coverage, strayClosings, ← List.append_assoc]
    exact List.perm_middle

theorem joinText_cases (span : Span) (nodes : List Node) :
    joinText span nodes = .text span :: nodes
      ∨ ∃ last older, nodes = .text last :: older ∧ last.stop.offset = span.start.offset
          ∧ joinText span nodes = .text ⟨last.start, span.stop⟩ :: older := by
  unfold joinText
  split
  next last older =>
    split
    next htouch => exact Or.inr ⟨last, older, rfl, htouch, rfl⟩
    next => exact Or.inl rfl
  next => exact Or.inl rfl

/-! ## 3. The invariant of a run -/

/-- Some order of what is taken in tiles the way from the beginning of the source to a point. -/
def Covers (builder : Builder) (stop : Point) : Prop :=
  ∃ row, row.Perm builder.coverage ∧ Tiles .origin row stop

theorem covers_empty : empty.Covers .origin :=
  ⟨[], .refl _, rfl⟩

namespace Covers

variable {builder next : Builder} {stop : Point} {options : ParserOptions}

theorem of_perm (h : builder.Covers stop) (hperm : next.coverage.Perm builder.coverage) :
    next.Covers stop := by
  obtain ⟨row, hrow, htiles⟩ := h
  exact ⟨row, hrow.trans hperm.symm, htiles⟩

theorem of_perm_cons {span : Span} (h : builder.Covers stop)
    (hperm : next.coverage.Perm (span :: builder.coverage)) (hstart : span.start = stop)
    (hforward : span.start.Reaches span.stop) : next.Covers span.stop := by
  obtain ⟨row, hrow, htiles⟩ := h
  refine ⟨row ++ [span], ?_, htiles.concat hstart hforward⟩
  exact List.perm_append_comm.trans ((hrow.cons span).trans hperm.symm)

theorem joinText {span : Span} (h : builder.Covers stop) (hstart : span.start = stop)
    (hforward : span.start.Reaches span.stop) :
    (builder.onChildren (Builder.joinText span)).Covers span.stop := by
  obtain ⟨nodes, others, hbefore, hafter⟩ := builder.exists_coverage_onChildren
  have hjoin := hafter (Builder.joinText span)
  rcases joinText_cases span nodes with heq | ⟨last, older, rfl, htouch, heq⟩
  · rw [heq, Node.coverageOfAll_cons, List.append_assoc] at hjoin
    simp only [Node.coverage] at hjoin
    exact h.of_perm_cons (hjoin.trans (hbefore.symm.cons span)) hstart hforward
  · obtain ⟨row, hrow, htiles⟩ := h
    have hsplit : row.Perm (last :: (Node.coverageOfAll older ++ others)) := by
      simpa [Node.coverage] using hrow.trans hbefore
    -- the text that is joined ends at the same byte as the row, so it is the last of the row
    obtain ⟨front, rfl, hfront, hstop, hlast⟩ :=
      htiles.exists_concat (hsplit.mem_iff.2 List.mem_cons_self) (htouch.trans (hstart ▸ rfl))
    have hothers : front.Perm (Node.coverageOfAll older ++ others) :=
      (List.perm_append_comm.trans hsplit).cons_inv
    rw [heq, Node.coverageOfAll_cons] at hjoin
    simp only [Node.coverage] at hjoin
    have hlonger : last.start.Reaches span.stop := by
      rw [hstop, ← hstart] at hlast
      exact hlast.trans_leadsTo hforward.leadsTo
    have hrow' : Tiles .origin (front ++ [⟨last.start, span.stop⟩]) span.stop :=
      tiles_append_iff.2 ⟨last.start, hfront, rfl, hlonger, rfl⟩
    exact ⟨_, List.perm_append_comm.trans ((hothers.cons _).trans hjoin.symm), hrow'⟩

/-- **One segment: what is covered grows by its stretch.** -/
theorem step {segment : Segment} (h : builder.Covers stop) (hstart : segment.span.start = stop)
    (hforward : segment.span.start.Reaches segment.span.stop) :
    (builder.step options segment).Covers segment.span.stop := by
  cases segment with
  | text token => exact h.joinText hstart hforward
  | erb tag => exact h.of_perm_cons (coverage_add _ builder) hstart hforward
  | comment value => exact h.of_perm_cons (coverage_add _ builder) hstart hforward
  | openTag name tag terminated =>
    exact h.of_perm_cons (coverage_openElement name tag terminated builder) hstart hforward
  | closeTag name tag =>
    exact h.of_perm_cons (coverage_closeElement options name tag builder) hstart hforward

/-- **A run: segments that tile a way are covered when they are taken in.** -/
theorem run {row : List Segment} {last : Point} (h : builder.Covers stop)
    (htiles : Tiles stop (row.map Segment.span) last) :
    (row.foldl (Builder.step options) builder).Covers last := by
  induction row generalizing builder stop with
  | nil => exact htiles ▸ h
  | cons segment row ih =>
    obtain ⟨hstart, hforward, hrest⟩ := htiles
    exact ih (h.step hstart hforward) hrest

theorem finish (h : builder.Covers stop) : (builder.finish options).Covers stop := by
  have hfinish : ∀ frame,
      (Frame.closeAtEnd options.strict frame).coverage.Perm frame.coverage :=
    fun frame => frame.coverage_toNode _
  exact h.of_perm (coverage_foldl_pop hfinish builder.frames builder)

end Covers

theorem covers_build {row : List Segment} {stop : Point} (options : ParserOptions)
    (h : Tiles .origin (row.map Segment.span) stop) : (build options row).Covers stop :=
  (covers_empty.run h).finish

end Builder

theorem Document.exists_tiles_ofSource (options : ParserOptions) (source : List Char) :
    ∃ row, row.Perm (ofSource options source).coverage
      ∧ Tiles .origin row (ofSource options source).span.stop := by
  obtain ⟨row, hrow, htiles⟩ :=
    Builder.covers_build options (tiles_segments_locatedPieces options.trackWhitespace source)
  refine ⟨row, ?_, htiles⟩
  have hframes : (Builder.build options (options.segments source)).frames = [] :=
    List.map_eq_nil_iff.1 (Builder.names_finish options _)
  rw [Builder.coverage, hframes, List.flatMap_nil, List.nil_append] at hrow
  exact hrow.trans
    ((Node.coverageOfAll_reverse _).append (strayClosings_reverse _)).symm

/-! ## 4. Analysis keeps the coverage -/

/-- The ERB tags of a list of nodes, in source order. -/
def Node.erbTagsOfAll (nodes : List Node) : List ErbTag :=
  (entriesOfAll nodes).filterMap Entry.erbTag?

theorem TagItem.snd_refillAll (items : List TagItem) (tags supply : List ErbTag)
    (h : tags.length = ((items.map Entry.ofItem).filterMap Entry.erbTag?).length) :
    (refillAll items (tags ++ supply)).2 = supply := by
  induction items generalizing tags with
  | nil =>
    have hnone : tags = [] := List.eq_nil_of_length_eq_zero h
    rw [hnone]
    rfl
  | cons item items ih =>
    cases item with
    | whitespace span => exact ih tags h
    | attr value => exact ih tags h
    | erb tag =>
      cases tags with
      | nil => cases h
      | cons first tags => exact ih tags (Nat.succ.inj h)

mutual

/-- Tags that stand where the tags of a node stood keep its coverage, and are used up. -/
theorem Node.refill_keeps (node : Node) (tags supply : List ErbTag)
    (h : tags.map ErbTag.span = (node.entries.filterMap Entry.erbTag?).map ErbTag.span) :
    (node.refill (tags ++ supply)).1.coverage = node.coverage
      ∧ (node.refill (tags ++ supply)).2 = supply := by
  match node with
  | .text span =>
    have hnone : tags = [] := List.map_eq_nil_iff.1 h
    rw [hnone]
    exact ⟨rfl, rfl⟩
  | .comment value =>
    have hnone : tags = [] := List.map_eq_nil_iff.1 h
    rw [hnone]
    exact ⟨rfl, rfl⟩
  | .erb tag =>
    obtain ⟨first, rest, rfl, hspan, hrest⟩ := List.map_eq_cons_iff.1 h
    have hnone : rest = [] := List.map_eq_nil_iff.1 hrest
    rw [hnone]
    refine ⟨?_, rfl⟩
    exact congrArg (fun span => [span]) hspan
  | .element info children =>
    have hsplit : (entries (.element info children)).filterMap Entry.erbTag?
        = (info.openTag.items.map Entry.ofItem).filterMap Entry.erbTag?
          ++ erbTagsOfAll children := by
      rw [entries, List.cons_append, List.filterMap_cons_none rfl, List.filterMap_append]
      rfl
    rw [hsplit, List.map_append] at h
    obtain ⟨inTag, inside, rfl, hinTag, hinside⟩ := List.map_eq_append_iff.1 h
    -- the items of the opening tag come first and leave the supply for the children
    have hitems := TagItem.snd_refillAll info.openTag.items inTag (inside ++ supply)
      (by simpa using congrArg List.length hinTag)
    obtain ⟨hcover, hsupply⟩ := refillAll_keeps children inside supply hinside
    rw [List.append_assoc]
    simp only [refill, hitems]
    exact ⟨by simp only [coverage, hcover], hsupply⟩

theorem Node.refillAll_keeps (nodes : List Node) (tags supply : List ErbTag)
    (h : tags.map ErbTag.span = (erbTagsOfAll nodes).map ErbTag.span) :
    coverageOfAll (refillAll nodes (tags ++ supply)).1 = coverageOfAll nodes
      ∧ (refillAll nodes (tags ++ supply)).2 = supply := by
  match nodes with
  | [] =>
    have hnone : tags = [] := List.map_eq_nil_iff.1 h
    rw [hnone]
    exact ⟨rfl, rfl⟩
  | node :: nodes =>
    rw [erbTagsOfAll, entriesOfAll, List.filterMap_append, List.map_append] at h
    obtain ⟨own, others, rfl, hown, hothers⟩ := List.map_eq_append_iff.1 h
    obtain ⟨hnode, hsupply⟩ := refill_keeps node own (others ++ supply) hown
    obtain ⟨hnodes, hrest⟩ := refillAll_keeps nodes others supply hothers
    rw [List.append_assoc]
    simp only [refillAll, hsupply, coverageOfAll_cons, hnode, hnodes]
    exact ⟨trivial, hrest⟩

end

theorem Document.coverage_withErbTags {document : Document} {tags : List ErbTag}
    (h : tags.map ErbTag.span = document.erbTags.map ErbTag.span) :
    (document.withErbTags tags).coverage = document.coverage := by
  obtain ⟨hkeeps, -⟩ := Node.refillAll_keeps document.children tags [] h
  rw [List.append_nil] at hkeeps
  simp only [coverage, withErbTags, hkeeps]

theorem Document.coverage_analyze (source : List Char) (document : Document) :
    (document.analyze source).coverage = document.coverage := by
  have hspans : ∀ change : ErbTag × Nat → ErbTag, (∀ pair, (change pair).span = pair.1.span) →
      (document.erbTags.zipIdx.map change).map ErbTag.span = document.erbTags.map ErbTag.span := by
    intro change hchange
    calc (document.erbTags.zipIdx.map change).map ErbTag.span
      _ = document.erbTags.zipIdx.map (fun pair => pair.1.span) := by
          rw [List.map_map]
          exact List.map_congr_left fun pair _ => hchange pair
      _ = (document.erbTags.zipIdx.map Prod.fst).map ErbTag.span := by rw [List.map_map]; rfl
      _ = document.erbTags.map ErbTag.span := by rw [List.zipIdx_map_fst]
  exact coverage_withErbTags (hspans _ fun _ => rfl)

/-! ## 5. The contract -/

theorem eq_parsed_of_parse {source : List Char} {options : ParserOptions} {memory : Memory}
    {document : Document} (h : (parse source options).outcome memory = .ok document) :
    document = parsed source options := by
  rw [Alloc.outcome, parse, Alloc.run_bind] at h
  generalize (lex source).run.run memory = answer at h
  obtain ⟨_ | _, _⟩ := answer
  · cases h
  · cases h
    rfl

theorem outcome_parse {source : List Char} {memory : Memory} {list : TokenList}
    (options : ParserOptions) (h : (lex source).outcome memory = .ok list) :
    (parse source options).outcome memory = .ok (parsed source options) := by
  rw [Alloc.outcome] at h
  rw [Alloc.outcome, parse, Alloc.run_bind]
  generalize (lex source).run.run memory = answer at h
  obtain ⟨_ | _, _⟩ := answer
  · cases h
  · rfl

/-- Parsing returns the document of the source, and it does so where a memory grants the room for
    the tokens. -/
theorem yields_parse (source : List Char) (options : ParserOptions) :
    (parse source options).Yields (2 * TokenList.tokenSize * (Text.byteLength source + 1))
      fun document => document = parsed source options := by
  intro memory
  constructor
  · intro document h
    exact eq_parsed_of_parse h
  · intro hblock hgrants
    obtain ⟨list, after, hrun, -⟩ := exists_run_lex hgrants hblock (Nat.le_refl _)
    exact ⟨_, outcome_parse options (congrArg Prod.fst hrun)⟩

theorem outcome_parse_eq_map (source : List Char) (options : ParserOptions) (memory : Memory) :
    (parse source options).outcome memory
      = ((lex source).outcome memory).map fun _ => parsed source options := by
  rw [Alloc.outcome, Alloc.outcome, parse, Alloc.run_bind]
  generalize (lex source).run.run memory = answer
  obtain ⟨_ | _, _⟩ := answer <;> rfl

theorem exists_lex_of_parse {source : List Char} {options : ParserOptions} {memory : Memory}
    {document : Document} (h : (parse source options).outcome memory = .ok document) :
    ∃ list, (lex source).outcome memory = .ok list := by
  rw [outcome_parse_eq_map] at h
  cases hlex : (lex source).outcome memory with
  | error fault =>
    rw [hlex] at h
    cases h
  | ok list => exact ⟨list, rfl⟩

theorem span_parsed (source : List Char) (options : ParserOptions) :
    (parsed source options).span = ⟨.origin, Point.origin.advance source⟩ := by
  unfold parsed
  simp only
  split <;> rfl

theorem exists_tiles_parsed (source : List Char) (options : ParserOptions) :
    ∃ row, row.Perm (parsed source options).coverage
      ∧ Tiles .origin row (parsed source options).span.stop := by
  have h := Document.exists_tiles_ofSource options source
  unfold parsed
  simp only
  split
  · rw [Document.coverage_analyze]
    exact h
  · exact h

/-- **Parsing loses and duplicates nothing.** The stretches that the parts of a document stand for,
    sorted by where they begin, follow each other without gap and overlap from the beginning of the
    source to the end of the document; none is empty, none occurs twice, and there are none exactly
    if the source is empty. Where the bytes can be counted in 32 bits, all of this can be seen in
    the lines and columns that are reported. -/
theorem parse_covers_source (source : List Char) (options : ParserOptions) (memory : Memory)
    (document : Document) (h : (parse source options).outcome memory = .ok document) :
    document.span.stop = Point.origin.advance source
      ∧ (∃ row : List Span, row.Perm document.coverage
          ∧ row.Pairwise (fun first second => first.start.Precedes second.start)
          ∧ Tiles .origin row document.span.stop
          ∧ (Text.byteLength source < 2 ^ 32 →
              row.Pairwise (fun first second => first.location.start.Before second.location.start)
                ∧ TilesLocations ⟨1, 0⟩ (row.map Span.location) document.span.location.stop))
      ∧ document.coverage.Nodup
      ∧ (Text.byteLength source < 2 ^ 32 → (document.coverage.map Span.location).Nodup)
      ∧ (document.coverage = [] ↔ source = []) := by
  rw [eq_parsed_of_parse h]
  obtain ⟨row, hrow, htiles⟩ := exists_tiles_parsed source options
  have hstop := congrArg Span.stop (span_parsed source options)
  have hbytes : (parsed source options).span.stop.offset = Text.byteLength source := by
    rw [hstop, Point.offset_advance_origin]
  have hreported : Text.byteLength source < 2 ^ 32 →
      row.Pairwise fun first second => first.location.start.Before second.location.start := by
    intro hlength
    have hfits : ∀ span ∈ row, span.start.Fits := by
      intro span hmem
      have hlast := htiles.offset_start_lt hmem
      exact Point.fits_of_offset_lt (htiles.leadsTo_start hmem) (by omega)
    refine htiles.pairwise.imp_of_mem ?_
    intro first second hfirst hsecond hreaches
    exact hreaches.precedes.position (hfits first hfirst) (hfits second hsecond)
  refine ⟨hstop, ⟨row, hrow, htiles.pairwise.imp Point.Reaches.precedes, htiles, ?_⟩,
    hrow.nodup_iff.1 htiles.nodup, ?_, ?_⟩
  · intro hlength
    exact ⟨hreported hlength, htiles.locations (.refl _) (hbytes ▸ hlength)⟩
  · intro hlength
    refine (hrow.map Span.location).nodup_iff.1 (List.pairwise_map.2 ?_)
    refine (hreported hlength).imp ?_
    intro first second hbefore hsame
    rw [hsame] at hbefore
    exact Place.Before.irrefl hbefore
  · rw [span_parsed] at htiles
    constructor
    · intro hnone
      rw [hnone, List.perm_nil] at hrow
      rw [hrow] at htiles
      have hoffset := congrArg Point.offset htiles
      rw [Point.offset_advance] at hoffset
      exact Text.eq_nil_of_byteLength_eq_zero (by omega)
    · rintro rfl
      rw [htiles.eq_nil, List.nil_perm] at hrow
      exact hrow

/-- An element that ends with the one around it, and a closing tag that closes nothing. -/
theorem parse_covers_source_stray :
    ∃ document, ∃ row : List Span,
      (parse ['<', 'p', '>', 'a', '<', 'b', '>', '<', '/', 'p', '>', '<', '/', 'i', '>'] {}).outcome
          .standard = .ok document
        ∧ document.coverage.length = 5
        ∧ row.Perm document.coverage
        ∧ TilesLocations ⟨1, 0⟩ (row.map Span.location) ⟨1, 15⟩ := by
  have hlex : ∃ list,
      (lex ['<', 'p', '>', 'a', '<', 'b', '>', '<', '/', 'p', '>', '<', '/', 'i', '>']).outcome
        .standard = .ok list :=
    exists_lex (by decide) (Memory.grantsUpTo_standard (by decide))
  obtain ⟨list, hlist⟩ := hlex
  have h := outcome_parse {} hlist
  obtain ⟨hstop, ⟨row, hrow, -, -, hreported⟩, -⟩ := parse_covers_source _ _ _ _ h
  refine ⟨_, row, h, by decide +kernel, hrow, ?_⟩
  have htiles := (hreported (by decide)).2
  rw [Span.location, hstop] at htiles
  exact htiles

end ErbTemplate
