import ErbTemplate.Proofs.Tree.Nesting

/-!
# Everything that is reported lies in the source

A tree reports places in three ways: each node its own span, each issue the span it is about, and
the document the closing tags that closed nothing. This file puts all of them between the beginning
and the end of the source (`upTo_parsed`).

The spans of nodes are known from the picture of the stack. An issue brings a span of its own, so
something has to be said about where it took it from: an issue of a node points to the node, or to
its opening tag if the node is an element (`Entry.anchor`).
-/

set_option autoImplicit false

namespace ErbTemplate

/-- A span lies between the beginning of a source and a point, and goes forward. -/
structure Span.UpTo (stop : Point) (span : Span) : Prop where
  after : Point.origin.LeadsTo span.start
  forward : span.start.Reaches span.stop
  before : span.stop.LeadsTo stop

theorem Ascends.upTo {stop : Point} {start : Point} {row : List Span} {span : Span}
    (h : Ascends start row stop) (hstart : Point.origin.LeadsTo start) (hmem : span ∈ row) :
    span.UpTo stop := by
  obtain ⟨hafter, hforward, hbefore⟩ := h.of_mem hmem
  exact ⟨hstart.trans hafter, hforward, hbefore⟩

theorem Tiles.upTo {stop : Point} {row : List Span} {span : Span} (h : Tiles .origin row stop)
    (hmem : span ∈ row) : span.UpTo stop := by
  obtain ⟨front, back, rfl⟩ := List.append_of_mem hmem
  obtain ⟨middle, hfront, rfl, hforward, hback⟩ := tiles_append_iff.1 h
  exact ⟨hfront.leadsTo, hforward, hback.leadsTo⟩

theorem Span.UpTo.trans {stop later : Point} {span : Span} (h : span.UpTo stop)
    (hlater : stop.LeadsTo later) : span.UpTo later :=
  ⟨h.after, h.forward, h.before.trans hlater⟩

/-- **A span of a source begins at a line and a column that can be told**, where the bytes of the
    source can be counted in 32 bits. -/
theorem Span.UpTo.fits {source : List Char} {span : Span}
    (h : span.UpTo (Point.origin.advance source)) (hbytes : Text.byteLength source < 2 ^ 32) :
    span.start.Fits := by
  have hforward := h.forward.offset_lt
  have hbefore := h.before.offset_le
  rw [Point.offset_advance_origin] at hbefore
  exact Point.fits_of_offset_lt h.after (by omega)

/-! ## 1. Nodes -/

/-- What the issues of a node point to: the node, or the opening tag of an element. -/
def Entry.anchor : Entry → Span
  | element info _ => info.openTag.span
  | text span | whitespace span => span
  | attr value => value.span
  | comment value => value.span
  | erb tag => tag.span

theorem Entry.anchor_ofItem (item : TagItem) : (ofItem item).anchor = (ofItem item).span := by
  cases item <;> rfl

/-- A node and what its issues point to lie before a point. -/
def Entry.UpTo (stop : Point) (entry : Entry) : Prop :=
  entry.span.UpTo stop ∧ entry.anchor.UpTo stop

mutual

theorem Node.upTo_of_mem_entries {stop : Point} (node : Node)
    (h : ∀ sub ∈ node.subnodes, sub.Laid stop) : ∀ entry ∈ node.entries, entry.UpTo stop := by
  obtain ⟨hafter, hforward, hbefore, hinside⟩ := h node node.mem_subnodes_self
  have hself : node.span.UpTo stop := ⟨hafter, hforward, hbefore⟩
  match node with
  | .text span => exact List.forall_mem_singleton.2 ⟨hself, hself⟩
  | .comment value => exact List.forall_mem_singleton.2 ⟨hself, hself⟩
  | .erb tag => exact List.forall_mem_singleton.2 ⟨hself, hself⟩
  | .element info children =>
    obtain ⟨htag, hstart, hparts, -⟩ := hinside
    have hopen : info.openTag.span.UpTo stop :=
      (hparts.upTo hself.after List.mem_cons_self).trans hbefore
    have hitems : ∀ entry ∈ info.openTag.items.map Entry.ofItem, entry.UpTo stop := by
      intro entry hmem
      obtain ⟨item, hitem, rfl⟩ := List.mem_map.1 hmem
      have hspan : (Entry.ofItem item).span.UpTo stop :=
        (htag.items.upTo hopen.after (List.mem_map_of_mem hitem)).trans hopen.before
      exact ⟨hspan, (Entry.anchor_ofItem item).symm ▸ hspan⟩
    have hchildren := upTo_of_mem_entriesOfAll children
      fun sub hsub => h sub (List.mem_cons_of_mem _ hsub)
    rw [entries]
    exact List.forall_mem_append.2 ⟨List.forall_mem_cons.2 ⟨⟨hself, hopen⟩, hitems⟩, hchildren⟩

theorem Node.upTo_of_mem_entriesOfAll {stop : Point} (nodes : List Node)
    (h : ∀ sub ∈ subnodesOfAll nodes, sub.Laid stop) :
    ∀ entry ∈ entriesOfAll nodes, entry.UpTo stop := by
  match nodes with
  | [] => exact fun entry hmem => by cases hmem
  | node :: nodes =>
    rw [subnodesOfAll, List.forall_mem_append] at h
    rw [entriesOfAll]
    exact List.forall_mem_append.2
      ⟨upTo_of_mem_entries node h.1, upTo_of_mem_entriesOfAll nodes h.2⟩

end

/-! ## 2. Issues -/

/-- The issues of a node point to its anchor. -/
def Entry.Anchored (entry : Entry) : Prop :=
  ∀ issue ∈ entry.issues, issue.span = entry.anchor

theorem Segment.anchored_erbTag (opening : Opening) (mark : Token) (ending : Ending Token) :
    (Entry.erb (erbTag opening mark ending)).Anchored := by
  intro issue hmem
  cases hclosing : ending.closing? with
  | some closing =>
    simp [Entry.issues, erbTag, hclosing] at hmem
  | none =>
    simp only [Entry.issues, erbTag, hclosing, List.mem_singleton] at hmem
    rw [hmem]
    simp [Entry.anchor, erbTag, ErbTag.span, hclosing]

theorem Segment.anchored_readComment (mark : Token) (rest : List (Piece Token)) :
    (Entry.comment (readComment mark rest).1).Anchored := by
  intro issue hmem
  simp only [Entry.anchor, Entry.issues, readComment] at hmem ⊢
  split at hmem
  · cases hmem
  · rw [List.mem_singleton.1 hmem]

theorem ElementInfo.Made.anchored {options : ParserOptions} {row : List Segment}
    {info : ElementInfo} (h : info.Made options row) (count : Nat) :
    (Entry.element info count).Anchored := by
  intro issue hmem
  cases h with
  | @atOnce name tag terminated hopen =>
    simp only [Entry.issues] at hmem
    split at hmem
    · cases hmem
    · rw [List.mem_singleton.1 hmem]
      rfl
  | ended hopen hcause =>
    simp only [Entry.issues] at hmem
    split at hmem
    · cases hmem
    · rw [List.mem_singleton.1 hmem]
      rfl
  | closed hopen hclose => cases hmem

theorem anchored_ofSource {options : ParserOptions} {source : List Char} :
    ∀ entry ∈ (Document.ofSource options source).entries, entry.Anchored := by
  have hnone : ∀ entry : Entry, entry.issues = [] → entry.Anchored := by
    intro entry hissues issue hmem
    rw [hissues] at hmem
    cases hmem
  refine Document.forall_mem_entries_ofSource (fun _ _ _ _ => hnone _ rfl) ?_
    fun info count hmade => hmade.anchored count
  exact Segment.forall_mem_leaves options.trackWhitespace
    (fun _ _ => hnone _ rfl) (fun _ _ => hnone _ rfl)
    (fun opening mark ending _ => Segment.anchored_erbTag opening mark ending)
    (fun mark rest _ => Segment.anchored_readComment mark rest) (fun _ _ _ => hnone _ rfl)

theorem anchored_of_mem_erbTags {options : ParserOptions} {source : List Char} {tag : ErbTag}
    (h : tag ∈ (parsed source options).erbTags) : (Entry.erb tag).Anchored := by
  have hbase : ∀ base ∈ (Document.ofSource options source).erbTags, (Entry.erb base).Anchored := by
    intro base hbase
    exact anchored_ofSource _ (List.mem_of_mem_filter (Document.mem_leaves_of_mem_erbTags hbase))
  unfold parsed at h
  simp only at h
  split at h
  · rw [Document.erbTags_analyze] at h
    obtain ⟨⟨base, place⟩, hmem, rfl⟩ := List.mem_map.1 h
    have hanchored := hbase base ((List.mem_zipIdx' hmem).2 ▸ List.getElem_mem _)
    intro issue hissue
    -- what analysis adds points to the tag as well
    rcases List.mem_append.1 hissue with hown | hadded
    · exact hanchored issue hown
    · rcases Matching.cases_of_mem_issuesAt hadded with rfl | rfl <;> rfl
  · exact hbase tag h

/-- **The issues of a node point to the node**, those of analysis included. -/
theorem anchored_of_mem_entries {options : ParserOptions} {source : List Char} {entry : Entry}
    (h : entry ∈ (parsed source options).entries) : entry.Anchored := by
  obtain ⟨other, hother, hplain⟩ := exists_plain_of_mem_entries h
  have hanchored := anchored_ofSource other hother
  cases entry with
  | text span | whitespace span | attr value =>
    intro issue hmem
    cases hmem
  | comment value =>
    cases other <;> cases hplain
    exact hanchored
  | element info count =>
    cases other with
    | element info' count' =>
      injection hplain with hinfo
      have hissues : info'.issues = info.issues := congrArg (fun info => info.issues) hinfo
      have hspan : info'.openTag.span = info.openTag.span :=
        congrArg (fun info => info.openTag.span) hinfo
      intro issue hmem
      rw [Entry.issues, ← hissues] at hmem
      rw [Entry.anchor, ← hspan]
      exact hanchored issue hmem
    | text | whitespace | attr | comment | erb => cases hplain
  | erb tag =>
    exact anchored_of_mem_erbTags (List.mem_filterMap.2 ⟨_, h, rfl⟩)

/-! ## 3. Documents -/

/-- **All that a document reports lies in its source**: its nodes, the issues of its nodes, and its
    own issues. -/
theorem upTo_parsed (options : ParserOptions) (source : List Char) :
    (∀ entry ∈ (parsed source options).entries, entry.span.UpTo (Point.origin.advance source))
      ∧ ∀ issue ∈ (parsed source options).allIssues,
          issue.span.UpTo (Point.origin.advance source) := by
  have hentries := Node.upTo_of_mem_entriesOfAll _ (laidOut_parsed source options).laid
  refine ⟨fun entry hmem => (hentries entry hmem).1, ?_⟩
  rw [Document.allIssues, issues_parsed]
  refine List.forall_mem_append.2 ⟨?_, ?_⟩
  · intro issue hmem
    obtain ⟨name, tag, htag, rfl⟩ := Document.exists_closeTag_of_mem_issues hmem
    exact (tiles_segments_locatedPieces options.trackWhitespace source).upTo
      (List.mem_map_of_mem htag)
  · intro issue hmem
    obtain ⟨entry, hentry, hissue⟩ := List.mem_flatMap.1 hmem
    rw [anchored_of_mem_entries hentry issue hissue]
    exact (hentries entry hentry).2

end ErbTemplate
