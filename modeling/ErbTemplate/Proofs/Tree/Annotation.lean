import ErbTemplate.Proofs.Tree.Leaves

/-!
# Analysis annotates

Analysis walks over a tree twice, once to collect the ERB tags and once to put them back. What it
changes is the kind of each tag and what is reported of it. To say that nothing else changes, and
that both walks meet the tags in the same order, trees are compared after the annotations have been
taken off (`Entry.plain`):

> **`Node.refillAll_plain`** — tags that differ from those of a tree only in their annotations go
> exactly where these stood; the tree is the same without annotations, and its tags are the new
> ones.
-/

set_option autoImplicit false

namespace ErbTemplate

/-! ## 1. Without annotations -/

/-- An ERB tag as the parser makes it, apart from its issues. -/
def ErbTag.plain (tag : ErbTag) : ErbTag :=
  { tag with kind := none, issues := [] }

def TagItem.plain : TagItem → TagItem
  | erb tag => erb tag.plain
  | item => item

theorem TagItem.attr_mem_plain_iff {items : List TagItem} {attr : Attribute} :
    .attr attr ∈ items.map TagItem.plain ↔ .attr attr ∈ items := by
  rw [List.mem_map]
  constructor
  · rintro ⟨item, hmem, heq⟩
    cases item <;> cases heq
    exact hmem
  · intro hmem
    exact ⟨_, hmem, rfl⟩

def ElementInfo.plain (info : ElementInfo) : ElementInfo :=
  { info with openTag := { info.openTag with items := info.openTag.items.map TagItem.plain } }

/-- An entry without what analysis says of ERB tags. -/
def Entry.plain : Entry → Entry
  | erb tag => erb tag.plain
  | element info count => element info.plain count
  | entry => entry

theorem Entry.span_plain (entry : Entry) : entry.plain.span = entry.span := by
  cases entry <;> rfl

theorem Entry.isElement_plain (entry : Entry) : entry.plain.isElement = entry.isElement := by
  cases entry <;> rfl

theorem Entry.plain_ofItem (item : TagItem) : (ofItem item).plain = ofItem item.plain := by
  cases item <;> rfl

/-- The ERB tags of a row of entries. -/
def Entry.erbTags (entries : List Entry) : List ErbTag :=
  entries.filterMap erbTag?

theorem Entry.erbTags_append (front back : List Entry) :
    erbTags (front ++ back) = erbTags front ++ erbTags back :=
  List.filterMap_append

theorem Entry.map_plain_erbTags (entries : List Entry) :
    (erbTags entries).map ErbTag.plain = erbTags (entries.map plain) := by
  induction entries with
  | nil => rfl
  | cons entry entries ih =>
    cases entry with
    | erb tag => exact congrArg (tag.plain :: ·) ih
    | text span => exact ih
    | whitespace span => exact ih
    | element info count => exact ih
    | attr value => exact ih
    | comment value => exact ih

/-! ## 2. Putting tags back -/

theorem TagItem.refillAll_plain (items : List TagItem) (tags supply : List ErbTag)
    (h : tags.map ErbTag.plain = (Entry.erbTags (items.map Entry.ofItem)).map ErbTag.plain) :
    (refillAll items (tags ++ supply)).1.map plain = items.map plain
      ∧ Entry.erbTags ((refillAll items (tags ++ supply)).1.map Entry.ofItem) = tags
      ∧ (refillAll items (tags ++ supply)).2 = supply := by
  induction items generalizing tags with
  | nil =>
    have hnone : tags = [] := List.map_eq_nil_iff.1 h
    rw [hnone]
    exact ⟨rfl, rfl, rfl⟩
  | cons item items ih =>
    cases item with
    | whitespace span =>
      obtain ⟨hplain, htags, hsupply⟩ := ih tags h
      exact ⟨congrArg (TagItem.whitespace span :: ·) hplain, htags, hsupply⟩
    | attr value =>
      obtain ⟨hplain, htags, hsupply⟩ := ih tags h
      exact ⟨congrArg (TagItem.attr value :: ·) hplain, htags, hsupply⟩
    | erb tag =>
      obtain ⟨first, others, rfl, hfirst, hothers⟩ := List.map_eq_cons_iff.1 h
      obtain ⟨hplain, htags, hsupply⟩ := ih others hothers
      refine ⟨?_, congrArg (first :: ·) htags, hsupply⟩
      exact List.cons_eq_cons.2 ⟨congrArg TagItem.erb hfirst, hplain⟩

theorem Node.erbTags_element (info : ElementInfo) (children : List Node) :
    Entry.erbTags (entries (.element info children))
      = Entry.erbTags (info.openTag.items.map Entry.ofItem)
        ++ Entry.erbTags (entriesOfAll children) := by
  rw [entries, Entry.erbTags_append]
  rfl

theorem Node.plain_element (info : ElementInfo) (children : List Node) :
    (entries (.element info children)).map Entry.plain
      = .element info.plain children.length
        :: ((info.openTag.items.map TagItem.plain).map Entry.ofItem
          ++ (entriesOfAll children).map Entry.plain) := by
  have hitems : (info.openTag.items.map Entry.ofItem).map Entry.plain
      = (info.openTag.items.map TagItem.plain).map Entry.ofItem := by
    rw [List.map_map, List.map_map]
    exact List.map_congr_left fun item _ => Entry.plain_ofItem item
  rw [entries, List.map_append, List.map_cons, hitems]
  rfl

theorem Node.length_refillAll (nodes : List Node) (supply : List ErbTag) :
    (refillAll nodes supply).1.length = nodes.length := by
  induction nodes generalizing supply with
  | nil => simp [refillAll]
  | cons node nodes ih => simp [refillAll, ih]

mutual

/-- A node takes as many tags from a supply as it has, and is the same without annotations. -/
theorem Node.refill_plain (node : Node) (tags supply : List ErbTag)
    (h : tags.map ErbTag.plain = (Entry.erbTags node.entries).map ErbTag.plain) :
    (node.refill (tags ++ supply)).1.entries.map Entry.plain = node.entries.map Entry.plain
      ∧ Entry.erbTags (node.refill (tags ++ supply)).1.entries = tags
      ∧ (node.refill (tags ++ supply)).2 = supply := by
  match node with
  | .text span =>
    have hnone : tags = [] := List.map_eq_nil_iff.1 h
    rw [hnone]
    exact ⟨rfl, rfl, rfl⟩
  | .comment value =>
    have hnone : tags = [] := List.map_eq_nil_iff.1 h
    rw [hnone]
    exact ⟨rfl, rfl, rfl⟩
  | .erb tag =>
    obtain ⟨first, rest, rfl, hfirst, hrest⟩ := List.map_eq_cons_iff.1 h
    have hnone : rest = [] := List.map_eq_nil_iff.1 hrest
    rw [hnone]
    exact ⟨congrArg (fun tag => [Entry.erb tag]) hfirst, rfl, rfl⟩
  | .element info children =>
    rw [erbTags_element, List.map_append] at h
    obtain ⟨inTag, inside, rfl, hinTag, hinside⟩ := List.map_eq_append_iff.1 h
    -- the items of the opening tag come first and leave the supply for the children
    obtain ⟨hitems, hown, hleft⟩ :=
      TagItem.refillAll_plain info.openTag.items inTag (inside ++ supply) hinTag
    obtain ⟨hchildren, hothers, hsupply⟩ := refillAll_plain children inside supply hinside
    rw [List.append_assoc]
    simp only [refill, hleft]
    refine ⟨?_, ?_, hsupply⟩
    · rw [plain_element, plain_element, length_refillAll]
      simp only [ElementInfo.plain, hitems, hchildren]
    · rw [erbTags_element]
      simp only [hown, hothers]

theorem Node.refillAll_plain (nodes : List Node) (tags supply : List ErbTag)
    (h : tags.map ErbTag.plain = (Entry.erbTags (entriesOfAll nodes)).map ErbTag.plain) :
    (entriesOfAll (refillAll nodes (tags ++ supply)).1).map Entry.plain
        = (entriesOfAll nodes).map Entry.plain
      ∧ Entry.erbTags (entriesOfAll (refillAll nodes (tags ++ supply)).1) = tags
      ∧ (refillAll nodes (tags ++ supply)).2 = supply := by
  match nodes with
  | [] =>
    have hnone : tags = [] := List.map_eq_nil_iff.1 h
    rw [hnone]
    exact ⟨rfl, rfl, rfl⟩
  | node :: nodes =>
    rw [entriesOfAll, Entry.erbTags_append, List.map_append] at h
    obtain ⟨own, others, rfl, hown, hothers⟩ := List.map_eq_append_iff.1 h
    obtain ⟨hnode, htags, hleft⟩ := refill_plain node own (others ++ supply) hown
    obtain ⟨hnodes, hrest, hsupply⟩ := refillAll_plain nodes others supply hothers
    rw [List.append_assoc]
    simp only [refillAll, hleft, entriesOfAll]
    refine ⟨?_, ?_, hsupply⟩
    · rw [List.map_append, List.map_append, hnode, hnodes]
    · rw [Entry.erbTags_append, htags, hrest]

end

/-! ## 3. Documents -/

namespace Document

variable {source : List Char} {options : ParserOptions}

/-- The ERB tag at a place of a document, with its kind and what the matching finds. -/
def annotate (source : List Char) (matching : Matching) (tag : ErbTag) (place : Nat) : ErbTag :=
  { tag with
    kind := some (tag.classify source)
    issues := tag.issues ++ matching.issuesAt tag (tag.code source) place }

/-- The ERB tags of a document after analysis. -/
def annotatedTags (source : List Char) (document : Document) : List ErbTag :=
  document.erbTags.zipIdx.map fun (tag, place) =>
    annotate source (Matching.ofWord (document.brackets source)) tag place

theorem plain_annotatedTags (source : List Char) (document : Document) :
    (document.annotatedTags source).map ErbTag.plain = document.erbTags.map ErbTag.plain := by
  calc (document.annotatedTags source).map ErbTag.plain
    _ = document.erbTags.zipIdx.map (fun pair => pair.1.plain) := by
        rw [annotatedTags, List.map_map]
        rfl
    _ = (document.erbTags.zipIdx.map Prod.fst).map ErbTag.plain := by
        rw [List.map_map]
        rfl
    _ = document.erbTags.map ErbTag.plain := by rw [List.zipIdx_map_fst]

/-- **Both walks of analysis meet the same tags.** -/
theorem erbTags_analyze (source : List Char) (document : Document) :
    (document.analyze source).erbTags = document.annotatedTags source := by
  obtain ⟨-, htags, -⟩ := Node.refillAll_plain document.children (document.annotatedTags source) []
    (plain_annotatedTags source document)
  rw [List.append_nil] at htags
  exact htags

theorem plain_entries_analyze (source : List Char) (document : Document) :
    (document.analyze source).entries.map Entry.plain = document.entries.map Entry.plain := by
  obtain ⟨hplain, -, -⟩ := Node.refillAll_plain document.children (document.annotatedTags source) []
    (plain_annotatedTags source document)
  rw [List.append_nil] at hplain
  exact hplain

end Document

/-- **With or without analysis a tree has the same entries, apart from annotations.** -/
theorem plain_entries_parsed (source : List Char) (options : ParserOptions) :
    (parsed source options).entries.map Entry.plain
      = (Document.ofSource options source).entries.map Entry.plain := by
  unfold parsed
  simp only
  split
  · exact Document.plain_entries_analyze source _
  · rfl

theorem exists_plain_of_mem_entries {source : List Char} {options : ParserOptions} {entry : Entry}
    (h : entry ∈ (parsed source options).entries) :
    ∃ other ∈ (Document.ofSource options source).entries, other.plain = entry.plain := by
  have hmem := List.mem_map_of_mem (f := Entry.plain) h
  rw [plain_entries_parsed] at hmem
  exact List.mem_map.1 hmem

theorem plain_erbTags_parsed (source : List Char) (options : ParserOptions) :
    (parsed source options).erbTags.map ErbTag.plain
      = (Document.ofSource options source).erbTags.map ErbTag.plain := by
  have h := congrArg Entry.erbTags (plain_entries_parsed source options)
  rw [← Entry.map_plain_erbTags, ← Entry.map_plain_erbTags] at h
  exact h

theorem issues_parsed (source : List Char) (options : ParserOptions) :
    (parsed source options).issues = (Document.ofSource options source).issues := by
  unfold parsed
  simp only
  split <;> rfl

theorem spans_leaves_parsed (source : List Char) (options : ParserOptions) :
    (parsed source options).leaves.map Entry.span
      = (Document.ofSource options source).leaves.map Entry.span := by
  have hspans : ∀ entries : List Entry,
      (Entry.leaves entries).map Entry.span
        = (Entry.leaves (entries.map Entry.plain)).map Entry.span := by
    intro entries
    rw [Entry.leaves, Entry.leaves, List.filter_map, List.map_map]
    simp only [Function.comp_def, Entry.isElement_plain, Entry.span_plain]
  rw [Document.leaves, hspans, plain_entries_parsed, ← hspans]
  rfl

/-- **The leaves of a parsed source ascend, whatever is nested in what.** -/
theorem ascends_leaves_parsed (source : List Char) (options : ParserOptions) :
    Ascends .origin ((parsed source options).leaves.map Entry.span)
      (Point.origin.advance source) := by
  rw [spans_leaves_parsed]
  exact Document.ascends_leaves_ofSource options source

/-! ## 4. The tags of a parsed source -/

/-- Whether an issue is one that analysis reports. -/
def Issue.fromAnalysis (issue : Issue) : Bool :=
  issue.kind == .unmatchedErbEnd || issue.kind == .missingErbEnd

/-- A matching finds two things with a tag. -/
theorem Matching.cases_of_mem_issuesAt {matching : Matching} {tag : ErbTag} {code : List Char}
    {place : Nat} {issue : Issue} (h : issue ∈ matching.issuesAt tag code place) :
    issue = ⟨.unmatchedEnd, tag.span⟩ ∨ issue = ⟨.missingEnd code, tag.span⟩ := by
  unfold issuesAt at h
  rcases List.mem_append.1 h with hmem | hmem
  · split at hmem
    · exact Or.inl (List.mem_singleton.1 hmem)
    · cases hmem
  · split at hmem
    · exact Or.inr (List.mem_singleton.1 hmem)
    · cases hmem

theorem Matching.fromAnalysis_of_mem_issuesAt {matching : Matching} {tag : ErbTag}
    {code : List Char} {place : Nat} {issue : Issue}
    (h : issue ∈ matching.issuesAt tag code place) : issue.fromAnalysis = true := by
  rcases cases_of_mem_issuesAt h with rfl | rfl <;> rfl

/-- A tag is one that the parser made, and analysis can only have added issues of its own. -/
theorem exists_base_of_mem_erbTags {source : List Char} {options : ParserOptions} {tag : ErbTag}
    (h : tag ∈ (parsed source options).erbTags) :
    ∃ base ∈ (Document.ofSource options source).erbTags, tag.plain = base.plain
      ∧ ∃ added, tag.issues = base.issues ++ added
        ∧ ∀ issue ∈ added, issue.fromAnalysis = true := by
  unfold parsed at h
  simp only at h
  split at h
  · rw [Document.erbTags_analyze] at h
    obtain ⟨⟨base, place⟩, hbase, rfl⟩ := List.mem_map.1 h
    exact ⟨base, (List.mem_zipIdx' hbase).2 ▸ List.getElem_mem _, rfl, _, rfl,
      fun issue => Matching.fromAnalysis_of_mem_issuesAt⟩
  · exact ⟨tag, h, rfl, [], (List.append_nil _).symm, fun issue hmem => by cases hmem⟩

theorem Entry.erbTag?_eq_some_iff {entry : Entry} {tag : ErbTag} :
    entry.erbTag? = some tag ↔ entry = .erb tag := by
  cases entry <;> simp [erbTag?]

theorem Document.mem_leaves_of_mem_erbTags {document : Document} {tag : ErbTag}
    (h : tag ∈ document.erbTags) : .erb tag ∈ document.leaves := by
  obtain ⟨entry, hentry, htag⟩ := List.mem_filterMap.1 h
  rw [Entry.erbTag?_eq_some_iff.1 htag] at hentry
  exact List.mem_filter.2 ⟨hentry, rfl⟩

theorem Document.erbTags_eq_filterMap_leaves (document : Document) :
    document.erbTags = document.leaves.filterMap Entry.erbTag? := by
  rw [leaves, Entry.leaves, List.filterMap_filter]
  refine List.filterMap_congr fun entry _ => ?_
  cases entry <;> rfl

/-- **The ERB tags of a parsed source stand one behind the other, whatever is nested in what.** -/
theorem pairwise_erbTags_parsed (source : List Char) (options : ParserOptions) :
    (parsed source options).erbTags.Pairwise fun first second =>
      first.span.stop.LeadsTo second.span.start := by
  have hleaves := List.pairwise_map.1 (ascends_leaves_parsed source options).pairwise
  rw [Document.erbTags_eq_filterMap_leaves]
  refine List.pairwise_filterMap.2 (hleaves.imp ?_)
  intro first second hapart tag htag other hother
  rw [Entry.erbTag?_eq_some_iff.1 htag, Entry.erbTag?_eq_some_iff.1 hother] at hapart
  exact hapart

theorem span_of_mem_erbTags {source : List Char} {options : ParserOptions} {tag : ErbTag}
    (h : tag ∈ (parsed source options).erbTags) :
    tag.span.start.Reaches tag.span.stop
      ∧ tag.span.stop.LeadsTo (Point.origin.advance source) := by
  have hleaf := List.mem_map_of_mem (f := Entry.span) (Document.mem_leaves_of_mem_erbTags h)
  exact ((ascends_leaves_parsed source options).of_mem hleaf).2

end ErbTemplate
