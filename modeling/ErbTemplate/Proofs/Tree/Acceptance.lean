import ErbTemplate.Proofs.Tree.Brackets
import ErbTemplate.Proofs.Tree.Coverage
import ErbTemplate.Proofs.Tree.Unclosed

/-!
# Which templates are accepted

A template is accepted when parsing it reports nothing. This file says which ones these are without
a stack: no segment runs into the end of the source, and the tags are a word of brackets that is
balanced once some opening tags, whose closing tag may be left out, are deleted from it.

A builder is *silent* while it has nothing to report. Issues are only ever added, so a run that
ends silent was silent all the way, and on the way the only state that matters are the names of the
open elements. One segment is therefore described by one equivalence, read backwards:

> **`Builder.silent_step`** — after a segment a builder is silent and its names accept the rest of
> the word iff before it was silent, the segment is not unclosed, and its names accept the word.

The rest is `accepts_iff`: the stack takes the innermost partner, and that is as good as any choice.
-/

set_option autoImplicit false

namespace ErbTemplate

/-! ## 1. Segments do not depend on the stack -/

/-- Reads the next segment and takes it in, until no piece is left: all segments that were read, and
    the builder in the end. -/
def Builder.readAll (options : ParserOptions) :
    Builder → List (Piece Token) → List Segment × Builder
  | builder, [] => ([], builder)
  | builder, .erb opening mark ending :: pieces =>
    let segment := Segment.erb (Segment.erbTag opening mark ending)
    let (others, built) := readAll options (builder.step options segment) pieces
    (segment :: others, built)
  | builder, .markup token :: pieces =>
    let segment := (Segment.next options.trackWhitespace token pieces).1
    let (others, built) :=
      readAll options (builder.step options segment)
        (Segment.next options.trackWhitespace token pieces).2
    (segment :: others, built)
termination_by _ pieces => pieces.length
decreasing_by
  · simp
  · have h := Segment.length_next_le options.trackWhitespace token pieces
    simp only [List.length_cons]
    omega

/-- **Whatever is open, the same segments are read.** -/
theorem Builder.readAll_eq (options : ParserOptions) (builder : Builder)
    (pieces : List (Piece Token)) :
    builder.readAll options pieces
      = (segments options.trackWhitespace pieces,
          (segments options.trackWhitespace pieces).foldl (step options) builder) := by
  fun_induction readAll options builder pieces with
  | case1 builder => simp [segments]
  | case2 builder opening mark ending pieces segment others built heq ih =>
    rw [heq] at ih
    cases ih
    rw [segments]
    rfl
  | case3 builder token pieces segment others built heq ih =>
    rw [heq] at ih
    cases ih
    rw [segments]
    rfl

/-! ## 2. Silence -/

namespace Node

/-- The issues of a node and of all that is inside of it. -/
def allIssues (node : Node) : List Issue :=
  node.entries.flatMap Entry.issues

/-- The issues of some nodes and of all that is inside of them. -/
def issuesOfAll (nodes : List Node) : List Issue :=
  (entriesOfAll nodes).flatMap Entry.issues

theorem issuesOfAll_eq_nil_iff (nodes : List Node) :
    issuesOfAll nodes = [] ↔ ∀ node ∈ nodes, node.allIssues = [] := by
  induction nodes with
  | nil => simp [issuesOfAll, entriesOfAll]
  | cons node nodes ih =>
    rw [List.forall_mem_cons, ← ih, issuesOfAll, entriesOfAll, List.flatMap_append,
      List.append_eq_nil_iff]
    rfl

theorem issuesOfAll_reverse (nodes : List Node) :
    issuesOfAll nodes.reverse = [] ↔ issuesOfAll nodes = [] := by
  rw [issuesOfAll_eq_nil_iff, issuesOfAll_eq_nil_iff]
  simp only [List.mem_reverse]

theorem allIssues_element (info : ElementInfo) (children : List Node) :
    (element info children).allIssues
      = info.issues ++ TagItem.issuesOfAll info.openTag.items ++ issuesOfAll children := by
  rw [allIssues, entries, List.flatMap_append, List.flatMap_cons]
  rfl

end Node

/-- Whether an element of this name may be left without a closing tag. -/
def omitsEnd (strict : Bool) (name : List Char) : Bool :=
  !strict && isOptionalEndName name

namespace Frame

/-- An open element has nothing to report. -/
def Silent (frame : Frame) : Prop :=
  TagItem.issuesOfAll frame.openTag.items = [] ∧ Node.issuesOfAll frame.children = []

theorem allIssues_toNode_eq_nil_iff (frame : Frame) (issues : List Issue) :
    (frame.toNode issues).allIssues = [] ↔ frame.Silent ∧ issues = [] := by
  rw [toNode, Node.allIssues_element, List.append_eq_nil_iff, List.append_eq_nil_iff,
    Node.issuesOfAll_reverse, Silent]
  tauto

theorem allIssues_closeWith_eq_nil_iff (tag : CloseTag) (frame : Frame) :
    (frame.closeWith tag).allIssues = [] ↔ frame.Silent ∧ True := by
  rw [closeWith, Node.allIssues_element, List.append_eq_nil_iff, List.append_eq_nil_iff,
    Node.issuesOfAll_reverse, Silent]
  tauto

theorem allIssues_toNode_unless (strict : Bool) (frame : Frame) (issue : Issue) :
    (frame.toNode (if frame.mayOmitEnd strict then [] else [issue])).allIssues = []
      ↔ frame.Silent ∧ omitsEnd strict frame.name = true := by
  rw [allIssues_toNode_eq_nil_iff, mayOmitEnd, omitsEnd]
  simp

theorem allIssues_closeImplicitly_eq_nil_iff (strict : Bool) (outer : List Char) (frame : Frame) :
    (frame.closeImplicitly strict outer).allIssues = []
      ↔ frame.Silent ∧ omitsEnd strict frame.name = true :=
  frame.allIssues_toNode_unless strict _

theorem allIssues_closeAtEnd_eq_nil_iff (strict : Bool) (frame : Frame) :
    (frame.closeAtEnd strict).allIssues = []
      ↔ frame.Silent ∧ omitsEnd strict frame.name = true :=
  frame.allIssues_toNode_unless strict _

end Frame

namespace Builder

variable {options : ParserOptions} {builder : Builder}

/-- A builder has nothing to report. -/
def Silent (builder : Builder) : Prop :=
  builder.issues = [] ∧ Node.issuesOfAll builder.children = []
    ∧ ∀ frame ∈ builder.frames, frame.Silent

theorem silent_onChildren {change : List Node → List Node} {good : Prop}
    (h : ∀ nodes, Node.issuesOfAll (change nodes) = [] ↔ Node.issuesOfAll nodes = [] ∧ good) :
    (builder.onChildren change).Silent ↔ builder.Silent ∧ good := by
  obtain ⟨frames, children, issues⟩ := builder
  cases frames with
  | nil =>
    simp only [onChildren, Silent, h]
    tauto
  | cons frame frames =>
    simp only [onChildren, Silent, List.forall_mem_cons, Frame.Silent, h]
    tauto

theorem silent_add (node : Node) :
    (builder.add node).Silent ↔ builder.Silent ∧ node.allIssues = [] := by
  refine silent_onChildren fun nodes => ?_
  rw [Node.issuesOfAll_eq_nil_iff, Node.issuesOfAll_eq_nil_iff, List.forall_mem_cons]
  exact And.comm

theorem silent_joinText (span : Span) :
    (builder.onChildren (joinText span)).Silent ↔ builder.Silent ∧ True := by
  refine silent_onChildren fun nodes => ?_
  rcases joinText_cases span nodes with heq | ⟨last, older, rfl, -, heq⟩
  · simp [heq, Node.issuesOfAll_eq_nil_iff, Node.allIssues, Node.entries, Entry.issues]
  · simp [heq, Node.issuesOfAll_eq_nil_iff, Node.allIssues, Node.entries, Entry.issues]

theorem silent_pop {finish : Frame → Node} (good : List Char → Prop)
    (h : ∀ frame, (finish frame).allIssues = [] ↔ frame.Silent ∧ good frame.name) :
    (builder.pop finish).Silent ↔ builder.Silent ∧ ∀ name ∈ builder.names.take 1, good name := by
  obtain ⟨frames, children, issues⟩ := builder
  cases frames with
  | nil => simp [pop, names]
  | cons frame frames =>
    rw [pop, silent_add, h]
    simp only [Silent, names, List.forall_mem_cons, List.map_cons, List.take_succ_cons,
      List.take_zero, List.mem_singleton, forall_eq]
    tauto

theorem silent_foldl_pop {α : Type} {finish : Frame → Node} (good : List Char → Prop)
    (h : ∀ frame, (finish frame).allIssues = [] ↔ frame.Silent ∧ good frame.name)
    (items : List α) (builder : Builder) :
    (items.foldl (fun builder _ => builder.pop finish) builder).Silent
      ↔ builder.Silent ∧ ∀ name ∈ builder.names.take items.length, good name := by
  induction items generalizing builder with
  | nil => simp
  | cons item items ih =>
    rw [List.foldl_cons, ih (builder.pop finish), silent_pop good h, names_pop]
    cases builder.names with
    | nil => simp
    | cons name names => simp [and_assoc]

theorem silent_openElement (name : List Char) (tag : OpenTag) (terminated : Bool) :
    (builder.openElement name tag terminated).Silent
      ↔ builder.Silent ∧ terminated = true ∧ TagItem.issuesOfAll tag.items = [] := by
  unfold openElement
  simp only
  split
  next =>
    rw [silent_add, Node.allIssues_element]
    cases terminated <;> simp [Node.issuesOfAll, Node.entriesOfAll]
  next hcontent =>
    have hterminated : terminated = true := by
      cases terminated with
      | true => rfl
      | false => exact absurd (by simp) hcontent
    simp only [Silent, List.forall_mem_cons, Frame.Silent]
    have hnone : Node.issuesOfAll [] = [] := rfl
    tauto

theorem silent_closeElement (name : List Char) (tag : CloseTag) :
    (builder.closeElement options name tag).Silent
      ↔ builder.Silent ∧ name ∈ builder.names
        ∧ ∀ inner ∈ builder.names.takeWhile (· != name), omitsEnd options.strict inner = true := by
  unfold closeElement
  by_cases hmem : name ∈ builder.names
  · have htake : builder.names.take
        (builder.frames.takeWhile fun frame => frame.name != name).length
          = builder.names.takeWhile (· != name) := by
      rw [length_takeWhile_frames]
      exact (List.prefix_iff_eq_take.1 (List.takeWhile_prefix _)).symm
    rw [if_pos ((any_frames name builder).2 hmem),
      silent_pop (fun _ => True) (Frame.allIssues_closeWith_eq_nil_iff tag),
      silent_foldl_pop (omitsEnd options.strict · = true)
        (Frame.allIssues_closeImplicitly_eq_nil_iff options.strict name), htake]
    simp [hmem]
  · rw [if_neg (fun h => hmem ((any_frames name builder).1 h))]
    simp [Silent, hmem]

theorem silent_finish :
    (builder.finish options).Silent
      ↔ builder.Silent ∧ ∀ name ∈ builder.names, omitsEnd options.strict name = true := by
  rw [finish, silent_foldl_pop (omitsEnd options.strict · = true)
    (Frame.allIssues_closeAtEnd_eq_nil_iff options.strict)]
  have hall : builder.names.take builder.frames.length = builder.names :=
    List.take_of_length_le (by simp [names])
  rw [hall]

end Builder

/-! ## 3. Segments as brackets -/

/-- The bracket of a segment: opening tags of elements that have content, and closing tags. -/
def Segment.bracket? : Segment → Option TagBracket
  | openTag name tag _ => if isVoidName name || tag.selfClosing then none else some (.opens name)
  | closeTag name _ => some (.closes name)
  | text _ | erb _ | comment _ => none

/-- The word of brackets of a row of segments. -/
def bracketWord (row : List Segment) : List TagBracket :=
  row.filterMap Segment.bracket?

theorem bracketWord_cons (segment : Segment) (row : List Segment) :
    bracketWord (segment :: row) = segment.bracket?.toList ++ bracketWord row := by
  rw [bracketWord, List.filterMap_cons]
  cases segment.bracket? <;> rfl

namespace Builder

variable {options : ParserOptions} {builder : Builder}

/-- **One segment.** After it, a builder is silent and its names accept what comes, iff before it
    the builder was silent, the segment is not unclosed, and its names accept the segment and what
    comes. -/
theorem silent_step (options : ParserOptions) (builder : Builder) {segment : Segment}
    (h : segment.Faithful) (word : List TagBracket) :
    (builder.step options segment).Silent
        ∧ Accepts (omitsEnd options.strict) (builder.step options segment).names word
      ↔ builder.Silent ∧ ¬ segment.Unclosed
        ∧ Accepts (omitsEnd options.strict) builder.names (segment.bracket?.toList ++ word) := by
  cases segment with
  | text token =>
    rw [step, silent_joinText, names_onChildren]
    simp [Segment.Unclosed, Segment.bracket?]
  | erb tag =>
    have htag : tag.issues = [] ↔ ¬ tag.closing = none := h
    have hissues : (Node.erb tag).allIssues = [] ↔ ¬ tag.closing = none := by
      rw [← htag]
      simp [Node.allIssues, Node.entries, Entry.issues]
    rw [step, silent_add, names_add, hissues, and_assoc]
    rfl
  | comment value =>
    have hvalue : value.issues = [] ↔ ¬ value.content.stop = value.span.stop := h
    have hissues : (Node.comment value).allIssues = []
        ↔ ¬ value.content.stop = value.span.stop := by
      rw [← hvalue]
      simp [Node.allIssues, Node.entries, Entry.issues]
    rw [step, silent_add, names_add, hissues, and_assoc]
    rfl
  | openTag name tag terminated =>
    rw [step, silent_openElement, names_openElement]
    cases terminated with
    -- an opening tag that is cut off is a bracket but opens no element; it is reported either way
    | false => simp [Segment.Unclosed]
    | true =>
      have hitems : TagItem.issuesOfAll tag.items = [] := h rfl
      by_cases hcontent : (isVoidName name || tag.selfClosing) = true
      · simp [Segment.Unclosed, Segment.bracket?, hitems, hcontent]
      · simp [Segment.Unclosed, Segment.bracket?, hitems, hcontent, Accepts]
  | closeTag name tag =>
    rw [step, silent_closeElement, names_closeElement]
    by_cases hmem : name ∈ builder.names
    · simp [Segment.Unclosed, Segment.bracket?, hmem, Accepts, and_assoc]
    · simp [Segment.Unclosed, Segment.bracket?, hmem, Accepts]

/-- **A run.** -/
theorem silent_run {row : List Segment} (h : ∀ segment ∈ row, segment.Faithful) :
    ((row.foldl (step options) builder).finish options).Silent
      ↔ builder.Silent ∧ (∀ segment ∈ row, ¬ segment.Unclosed)
        ∧ Accepts (omitsEnd options.strict) builder.names (bracketWord row) := by
  induction row generalizing builder with
  | nil =>
    rw [List.foldl_nil, silent_finish]
    simp [bracketWord, Accepts]
  | cons segment row ih =>
    obtain ⟨hfirst, hrest⟩ := List.forall_mem_cons.1 h
    -- the hypothesis speaks of the builder after the first segment, the step of the one before
    have hstep := silent_step options builder hfirst (bracketWord row)
    rw [List.foldl_cons, ih hrest, bracketWord_cons, List.forall_mem_cons]
    tauto

end Builder

theorem Document.allIssues_ofSource_eq_nil_iff (options : ParserOptions) (source : List Char) :
    (ofSource options source).allIssues = []
      ↔ (Builder.build options (options.segments source)).Silent := by
  have hframes : (Builder.build options (options.segments source)).frames = [] :=
    List.map_eq_nil_iff.1 (Builder.names_finish options _)
  rw [Builder.Silent, hframes, allIssues, List.append_eq_nil_iff]
  simp only [ofSource, List.reverse_eq_nil_iff, List.not_mem_nil, false_implies, implies_true,
    and_true]
  exact and_congr_right fun _ => Node.issuesOfAll_reverse _

/-! ## 4. The contract -/

/-- **A template is accepted exactly if it is complete and balanced.** The segments of a source are
    the same whatever elements are open while they are read. An unclosed segment reaches the end of
    the source. And nothing is reported iff no segment is unclosed and the tags are a balanced word
    once some opening tags, of elements whose closing tag may be left out, are deleted; a strict
    parser lets none be deleted. -/
theorem parse_silent_iff_balanced (source : List Char) (options : ParserOptions)
    (memory : Memory) (document : Document) (hanalyze : options.analyze = false)
    (h : (parse source options).outcome memory = .ok document) :
    (∀ builder : Builder, builder.readAll options (locatedPieces source)
        = (options.segments source,
          (options.segments source).foldl (Builder.step options) builder))
      ∧ (∀ segment ∈ options.segments source,
          segment.Unclosed → segment.span.stop = document.span.stop)
      ∧ (document.allIssues = []
        ↔ (∀ segment ∈ options.segments source, ¬ segment.Unclosed)
          ∧ ∃ kept, Deletes (TagBracket.mayBeOpen (omitsEnd options.strict))
              (bracketWord (options.segments source)) kept
            ∧ Balanced kept) := by
  have hfaithful := faithful_of_mem_segments options.trackWhitespace (tiles_locatedPieces source)
    (openLast_locatedPieces source)
  have hspan := span_parsed source options
  have hdocument : parsed source options = Document.ofSource options source := by
    simp [parsed, hanalyze]
  rw [eq_parsed_of_parse h, hspan, hdocument]
  refine ⟨fun builder => builder.readAll_eq options _,
    fun segment hmem => (hfaithful segment hmem).2, ?_⟩
  rw [Document.allIssues_ofSource_eq_nil_iff, Builder.build,
    Builder.silent_run fun segment hmem => (hfaithful segment hmem).1, Builder.names_empty,
    accepts_iff]
  have hempty : Builder.empty.Silent := ⟨rfl, rfl, by simp [Builder.empty]⟩
  exact ⟨fun ⟨_, hrest⟩ => hrest, fun hrest => ⟨hempty, hrest⟩⟩

/-- Two elements inside of each other, both without a closing tag. -/
theorem parse_silent_iff_balanced_omitted :
    ∃ document,
      (parse ['<', 'b', '>', '<', 'p', '>', '<', 'p', '>', '<', '/', 'b', '>']
          { analyze := false }).outcome .standard = .ok document
        ∧ document.allIssues = []
        ∧ ∃ kept, Deletes (TagBracket.mayBeOpen (omitsEnd false))
            [.opens ['b'], .opens ['p'], .opens ['p'], .closes ['b']] kept ∧ Balanced kept := by
  have hlex : ∃ list,
      (lex ['<', 'b', '>', '<', 'p', '>', '<', 'p', '>', '<', '/', 'b', '>']).outcome .standard
        = .ok list :=
    exists_lex (by decide) (Memory.grantsUpTo_standard (by decide))
  obtain ⟨list, hlist⟩ := hlex
  have h := outcome_parse { analyze := false } hlist
  obtain ⟨-, -, hiff⟩ := parse_silent_iff_balanced _ _ _ _ rfl h
  have hsilent : (parsed ['<', 'b', '>', '<', 'p', '>', '<', 'p', '>', '<', '/', 'b', '>']
      { analyze := false }).allIssues = [] := by decide +kernel
  have hword : bracketWord (segments false (locatedPieces
      ['<', 'b', '>', '<', 'p', '>', '<', 'p', '>', '<', '/', 'b', '>']))
        = [.opens ['b'], .opens ['p'], .opens ['p'], .closes ['b']] := by decide +kernel
  rw [hword] at hiff
  exact ⟨_, h, hsilent, (hiff.1 hsilent).2⟩

end ErbTemplate
