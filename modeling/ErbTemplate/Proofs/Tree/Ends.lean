import ErbTemplate.Proofs.Tree.Annotation
import ErbTemplate.Proofs.Tree.Matching
import ErbTemplate.Proofs.Tree.Origins

/-!
# Analysis reports the brackets without a partner

The ERB tags of a document, in source order, are a word of brackets (`Document.brackets`). Analysis
matches that word and writes down next to each tag whether it found a partner. Three things have to
fit together for a report to be about the right tag: the walk that collects the tags, the places
that the matching talks of, and the walk that puts the tags back. `Document.erbTags_analyze` settles
the two walks, so the tag at a place is annotated with what the matching says of this place
(`Document.getElem?_annotatedTags`).

Reports are then counted. Nothing else in a document is reported under one of the two kinds of
analysis (`Document.quiet_of_mem_entries`), so the numbers are those of the matching.
-/

set_option autoImplicit false

namespace ErbTemplate

/-! ## 1. The contract -/

/-- The number of issues of a kind in a document. -/
def Document.countKind (kind : IssueKind) (document : Document) : Nat :=
  document.allIssues.countP fun issue => issue.kind == kind

/-- What analysis says of a document is the matching of its brackets. -/
structure EndsMatched (source : List Char) (document : Document) : Prop where
  /-- Every ERB tag has a kind. -/
  kinds : ∀ tag ∈ document.erbTags, tag.kind = some (tag.classify source)
  /-- The tags are in source order, whatever is nested in what. -/
  ordered : document.erbTags.Pairwise fun first second =>
    first.mark.range.start < second.mark.range.start
  /-- A tag is reported as an `end` too many exactly if it closes and has no partner. -/
  unmatched : ∀ place tag, document.erbTags[place]? = some tag →
    (tag.issues.filter Issue.fromAnalysis = [⟨.unmatchedEnd, tag.span⟩]
      ↔ Bracket.ClosesAlone (document.brackets source) place)
  /-- A tag is reported to lack its `end` exactly if it opens and has no partner. -/
  missing : ∀ place tag, document.erbTags[place]? = some tag →
    (tag.issues.filter Issue.fromAnalysis = [⟨.missingEnd (tag.code source), tag.span⟩]
      ↔ Bracket.OpensAlone (document.brackets source) place)
  /-- Of every other tag nothing is reported. -/
  otherwise : ∀ place tag, document.erbTags[place]? = some tag →
    (tag.issues.filter Issue.fromAnalysis = []
      ↔ ¬ Bracket.ClosesAlone (document.brackets source) place
        ∧ ¬ Bracket.OpensAlone (document.brackets source) place)
  /-- There are as many `end`s too many as some front of the word has, at most. -/
  countUnmatched :
    IsGreatest
      { excess | ∃ front, front <+: document.brackets source
        ∧ excess = front.count .closes - front.count .opens }
      (document.countKind .unmatchedErbEnd)
  /-- The openings and the closings that are left over make up for the difference. -/
  countMissing : document.countKind .missingErbEnd + (document.brackets source).count .closes
    = (document.brackets source).count .opens + document.countKind .unmatchedErbEnd
  /-- Nothing is reported exactly if the word is balanced. -/
  silent : (∀ issue ∈ document.allIssues, issue.fromAnalysis = false)
    ↔ Bracket.Balanced (document.brackets source)

/-! ## 2. Everything else is quiet -/

/-- None of these issues is one of analysis. -/
def Quiet (issues : List Issue) : Prop :=
  ∀ issue ∈ issues, issue.fromAnalysis = false

theorem quiet_singleton {issue : Issue} (h : issue.fromAnalysis = false) : Quiet [issue] :=
  List.forall_mem_singleton.2 h

theorem quiet_nil : Quiet [] :=
  fun _ hmem => by cases hmem

theorem Segment.quiet_erbTag (opening : Opening) (mark : Token) (ending : Ending Token) :
    Quiet (erbTag opening mark ending).issues := by
  cases ending with
  | bare => exact quiet_singleton rfl
  | running content => exact quiet_singleton rfl
  | closed content closing => exact quiet_nil

theorem Segment.quiet_readComment (mark : Token) (pieces : List (Piece Token)) :
    Quiet (readComment mark pieces).1.issues := by
  unfold readComment
  simp only
  split
  · exact quiet_nil
  · exact quiet_singleton rfl

theorem ElementInfo.Made.quiet {options : ParserOptions} {row : List Segment} {info : ElementInfo}
    (h : info.Made options row) : Quiet info.issues := by
  cases h with
  | @atOnce name tag terminated _ =>
    cases terminated with
    | true => exact quiet_nil
    | false => exact quiet_singleton rfl
  | ended _ hcause =>
    simp only
    split
    · exact quiet_nil
    · rcases hcause with rfl | ⟨outer, rfl⟩
      · refine quiet_singleton ?_
        simp only [Issue.fromAnalysis, Issue.kind, IssueCause.kind]
        split <;> rfl
      · exact quiet_singleton rfl
  | closed _ _ => exact quiet_nil

namespace Document

variable {source : List Char} {options : ParserOptions}

/-- **Nothing that the parser reports is a report of analysis.** -/
theorem quiet_of_mem_entries {entry : Entry} (h : entry ∈ (ofSource options source).entries) :
    Quiet entry.issues := by
  refine forall_mem_entries_ofSource (P := fun entry => Quiet entry.issues)
    (fun _ _ _ _ => quiet_nil) ?_ (fun _ _ hmade => hmade.quiet) entry h
  exact Segment.forall_mem_leaves options.trackWhitespace
    (fun _ _ => quiet_nil) (fun _ _ => quiet_nil)
    (fun opening mark ending _ => Segment.quiet_erbTag opening mark ending)
    (fun mark rest _ => Segment.quiet_readComment mark rest) (fun _ _ _ => quiet_nil)

theorem quiet_of_mem_erbTags {tag : ErbTag} (h : tag ∈ (ofSource options source).erbTags) :
    Quiet tag.issues := by
  obtain ⟨entry, hentry, htag⟩ := List.mem_filterMap.1 h
  have hquiet := quiet_of_mem_entries hentry
  rwa [Entry.erbTag?_eq_some_iff.1 htag] at hquiet

theorem quiet_issues : Quiet (ofSource options source).issues := by
  intro issue hmem
  obtain ⟨name, hcause⟩ := cause_of_mem_issues hmem
  rw [Issue.fromAnalysis, Issue.kind, hcause]
  rfl

end Document

theorem Entry.erbTag?_plain (entry : Entry) :
    entry.plain.erbTag? = entry.erbTag?.map ErbTag.plain := by
  cases entry <;> rfl

theorem Entry.issues_plain {entry : Entry} (h : entry.erbTag? = none) :
    entry.plain.issues = entry.issues := by
  cases entry with
  | erb tag => cases h
  | text span => rfl
  | whitespace span => rfl
  | element info count => rfl
  | attr value => rfl
  | comment value => rfl

/-- Only ERB tags bring reports of analysis. -/
theorem quiet_of_mem_entries_parsed {source : List Char} {options : ParserOptions} {entry : Entry}
    (h : entry ∈ (parsed source options).entries) (hentry : entry.erbTag? = none) :
    Quiet entry.issues := by
  obtain ⟨other, hother, hplain⟩ := exists_plain_of_mem_entries h
  have hnone : other.erbTag? = none := by
    have hsame := congrArg Entry.erbTag? hplain
    rw [Entry.erbTag?_plain, Entry.erbTag?_plain, hentry] at hsame
    exact Option.map_eq_none_iff.1 hsame
  rw [← Entry.issues_plain hentry, ← hplain, Entry.issues_plain hnone]
  exact Document.quiet_of_mem_entries hother

/-! ## 3. The report of one tag -/

theorem Document.brackets_eq_map_plain (document : Document) (source : List Char) :
    document.brackets source = (document.erbTags.map ErbTag.plain).map fun tag =>
      Bracket.of (tag.classify source) (tag.code source) := by
  rw [List.map_map]
  rfl

theorem brackets_parsed (source : List Char) (options : ParserOptions) :
    (parsed source options).brackets source
      = (Document.ofSource options source).brackets source := by
  rw [Document.brackets_eq_map_plain, plain_erbTags_parsed, ← Document.brackets_eq_map_plain]

theorem erbTags_parsed {source : List Char} {options : ParserOptions}
    (h : options.analyze = true) :
    (parsed source options).erbTags = (Document.ofSource options source).annotatedTags source := by
  rw [parsed, if_pos h]
  exact Document.erbTags_analyze source _

theorem Document.getElem?_annotatedTags (source : List Char) (document : Document) (place : Nat) :
    (document.annotatedTags source)[place]? = document.erbTags[place]?.map fun tag =>
      annotate source (Matching.ofWord (document.brackets source)) tag place := by
  rw [annotatedTags, List.getElem?_map, List.getElem?_zipIdx, Option.map_map, Nat.zero_add]
  rfl

theorem Matching.filter_issuesAt (matching : Matching) (tag : ErbTag) (code : List Char)
    (place : Nat) :
    (matching.issuesAt tag code place).filter Issue.fromAnalysis
      = matching.issuesAt tag code place :=
  List.filter_eq_self.2 fun _ hmem => fromAnalysis_of_mem_issuesAt hmem

/-- **The tag at a place is reported on as the matching of the word says of this place.** -/
theorem filter_issues_of_getElem? {source : List Char} {options : ParserOptions} {place : Nat}
    {tag : ErbTag} (hanalyze : options.analyze = true)
    (h : (parsed source options).erbTags[place]? = some tag) :
    tag.kind = some (tag.classify source)
      ∧ tag.issues.filter Issue.fromAnalysis
        = (Matching.ofWord ((parsed source options).brackets source)).issuesAt tag
            (tag.code source) place := by
  rw [erbTags_parsed hanalyze, Document.getElem?_annotatedTags] at h
  obtain ⟨base, hbase, rfl⟩ := Option.map_eq_some_iff.1 h
  have hquiet := Document.quiet_of_mem_erbTags (List.mem_of_getElem? hbase)
  have hnone : base.issues.filter Issue.fromAnalysis = [] :=
    List.filter_eq_nil_iff.2 fun issue hmem => by simp [hquiet issue hmem]
  refine ⟨rfl, ?_⟩
  rw [brackets_parsed, Document.annotate, List.filter_append, hnone, Matching.filter_issuesAt]
  rfl

theorem Matching.issuesAt_ofWord (word : List Bracket) (tag : ErbTag) (code : List Char)
    (place : Nat) :
    ((ofWord word).issuesAt tag code place = [⟨.unmatchedEnd, tag.span⟩]
        ↔ Bracket.ClosesAlone word place)
      ∧ ((ofWord word).issuesAt tag code place = [⟨.missingEnd code, tag.span⟩]
        ↔ Bracket.OpensAlone word place)
      ∧ ((ofWord word).issuesAt tag code place = []
        ↔ ¬ Bracket.ClosesAlone word place ∧ ¬ Bracket.OpensAlone word place) := by
  have hdiffer : ¬ (Bracket.ClosesAlone word place ∧ Bracket.OpensAlone word place) := by
    rintro ⟨hcloses, hopens⟩
    have heq := hcloses.1.symm.trans hopens.1
    cases heq
  rw [← mem_orphans_iff, ← mem_waiting_iff] at hdiffer ⊢
  by_cases horphan : place ∈ (ofWord word).orphans
  · have hwaiting : place ∉ (ofWord word).waiting := fun hmem => hdiffer ⟨horphan, hmem⟩
    simp [issuesAt, horphan, hwaiting]
  · by_cases hwaiting : place ∈ (ofWord word).waiting
    · simp [issuesAt, horphan, hwaiting]
    · simp [issuesAt, horphan, hwaiting]

/-! ## 4. Numbers -/

theorem countP_eq_zero_of_quiet {issues : List Issue} {kind : IssueKind} (h : Quiet issues)
    (hkind : kind = .unmatchedErbEnd ∨ kind = .missingErbEnd) :
    issues.countP (fun issue => issue.kind == kind) = 0 := by
  refine List.countP_eq_zero.2 fun issue hmem hissue => ?_
  have hquiet := h issue hmem
  rw [Issue.fromAnalysis, beq_iff_eq.1 hissue] at hquiet
  rcases hkind with rfl | rfl <;> cases hquiet

theorem Entry.countP_flatMap_issues {entries : List Entry} {p : Issue → Bool}
    (h : ∀ entry ∈ entries, entry.erbTag? = none → entry.issues.countP p = 0) :
    (entries.flatMap issues).countP p = ((erbTags entries).flatMap ErbTag.issues).countP p := by
  induction entries with
  | nil => rfl
  | cons entry entries ih =>
    obtain ⟨hentry, hothers⟩ := List.forall_mem_cons.1 h
    rw [List.flatMap_cons, List.countP_append, ih hothers]
    cases entry with
    | erb tag => exact (List.countP_append ..).symm
    | text span => rw [hentry rfl, Nat.zero_add]; rfl
    | whitespace span => rw [hentry rfl, Nat.zero_add]; rfl
    | element info count => rw [hentry rfl, Nat.zero_add]; rfl
    | attr value => rw [hentry rfl, Nat.zero_add]; rfl
    | comment value => rw [hentry rfl, Nat.zero_add]; rfl

theorem countP_range_mem {places : List Nat} {stop : Nat} (h : Matching.Descends places stop) :
    (List.range stop).countP (fun place => decide (place ∈ places)) = places.length := by
  have hnodup : places.Nodup := by
    refine h.1.imp ?_
    intro first second hlt heq
    omega
  rw [List.countP_eq_length_filter]
  refine List.Perm.length_eq ((List.perm_ext_iff_of_nodup (List.nodup_range.filter _) hnodup).2 ?_)
  intro place
  simp only [List.mem_filter, List.mem_range, decide_eq_true_eq]
  exact ⟨fun hmem => hmem.2, fun hmem => ⟨h.2 place hmem, hmem⟩⟩

/-- The annotated tags have as many issues as there are places that the matching reports. -/
theorem countP_annotate {source : List Char} {matching : Matching} {places : List Nat}
    {p : Issue → Bool}
    (hat : ∀ tag code place,
      (matching.issuesAt tag code place).countP p = if place ∈ places then 1 else 0)
    {tags : List ErbTag} (hquiet : ∀ tag ∈ tags, tag.issues.countP p = 0) (start : Nat) :
    (((tags.zipIdx start).map fun (tag, place) =>
        Document.annotate source matching tag place).flatMap ErbTag.issues).countP p
      = (List.range' start tags.length).countP fun place => decide (place ∈ places) := by
  induction tags generalizing start with
  | nil => rfl
  | cons tag tags ih =>
    obtain ⟨htag, hothers⟩ := List.forall_mem_cons.1 hquiet
    have hfirst : (Document.annotate source matching tag start).issues.countP p
        = if start ∈ places then 1 else 0 := by
      rw [Document.annotate, List.countP_append, htag, hat, Nat.zero_add]
    rw [List.zipIdx_cons, List.map_cons, List.flatMap_cons, List.countP_append, ih hothers, hfirst,
      List.length_cons, List.range'_succ, List.countP_cons]
    simp only [decide_eq_true_eq]
    exact Nat.add_comm _ _

theorem countKind_parsed {source : List Char} {options : ParserOptions} {kind : IssueKind}
    {places : List Nat} (hanalyze : options.analyze = true)
    (hkind : kind = .unmatchedErbEnd ∨ kind = .missingErbEnd)
    (hplaces : Matching.Descends places ((parsed source options).brackets source).length)
    (hat : ∀ tag code place,
      ((Matching.ofWord ((parsed source options).brackets source)).issuesAt tag code place).countP
        (fun issue => issue.kind == kind) = if place ∈ places then 1 else 0) :
    (parsed source options).countKind kind = places.length := by
  rw [brackets_parsed] at hplaces hat
  have hdocument : (parsed source options).issues.countP (fun issue => issue.kind == kind) = 0 := by
    rw [issues_parsed]
    exact countP_eq_zero_of_quiet Document.quiet_issues hkind
  have hentries : ∀ entry ∈ (parsed source options).entries, entry.erbTag? = none →
      entry.issues.countP (fun issue => issue.kind == kind) = 0 :=
    fun entry hmem hentry =>
      countP_eq_zero_of_quiet (quiet_of_mem_entries_parsed hmem hentry) hkind
  have hbases : ∀ tag ∈ (Document.ofSource options source).erbTags,
      tag.issues.countP (fun issue => issue.kind == kind) = 0 :=
    fun tag hmem => countP_eq_zero_of_quiet (Document.quiet_of_mem_erbTags hmem) hkind
  calc (parsed source options).countKind kind
    _ = ((parsed source options).erbTags.flatMap ErbTag.issues).countP
          (fun issue => issue.kind == kind) := by
        rw [Document.countKind, Document.allIssues, List.countP_append, hdocument, Nat.zero_add]
        exact Entry.countP_flatMap_issues hentries
    _ = (List.range' 0 (Document.ofSource options source).erbTags.length).countP
          (fun place => decide (place ∈ places)) := by
        rw [erbTags_parsed hanalyze]
        exact countP_annotate hat hbases 0
    _ = places.length := by
        rw [Document.brackets, List.length_map] at hplaces
        rw [← List.range_eq_range']
        exact countP_range_mem hplaces

theorem Matching.countP_issuesAt (matching : Matching) (tag : ErbTag) (code : List Char)
    (place : Nat) :
    (matching.issuesAt tag code place).countP (fun issue => issue.kind == .unmatchedErbEnd)
        = (if place ∈ matching.orphans then 1 else 0)
      ∧ (matching.issuesAt tag code place).countP (fun issue => issue.kind == .missingErbEnd)
        = if place ∈ matching.waiting then 1 else 0 := by
  rw [issuesAt, List.countP_append, List.countP_append]
  by_cases horphan : place ∈ matching.orphans <;> by_cases hwaiting : place ∈ matching.waiting <;>
    simp [horphan, hwaiting, Issue.kind, IssueCause.kind]

theorem countKind_unmatched {source : List Char} {options : ParserOptions}
    (h : options.analyze = true) :
    (parsed source options).countKind .unmatchedErbEnd
      = (Matching.ofWord ((parsed source options).brackets source)).orphans.length :=
  countKind_parsed h (Or.inl rfl) (Matching.descends_ofWord _).2
    fun tag code place => (Matching.countP_issuesAt _ tag code place).1

theorem countKind_missing {source : List Char} {options : ParserOptions}
    (h : options.analyze = true) :
    (parsed source options).countKind .missingErbEnd
      = (Matching.ofWord ((parsed source options).brackets source)).waiting.length :=
  countKind_parsed h (Or.inr rfl) (Matching.descends_ofWord _).1
    fun tag code place => (Matching.countP_issuesAt _ tag code place).2

theorem Document.forall_fromAnalysis_iff (document : Document) :
    (∀ issue ∈ document.allIssues, issue.fromAnalysis = false)
      ↔ document.countKind .unmatchedErbEnd = 0 ∧ document.countKind .missingErbEnd = 0 := by
  rw [countKind, countKind, List.countP_eq_zero, List.countP_eq_zero, ← forall₂_and]
  refine forall₂_congr fun issue _ => ?_
  rw [Issue.fromAnalysis, Bool.or_eq_false_iff, Bool.not_eq_true, Bool.not_eq_true]

/-! ## 5. The theorem -/

/-- **Analysis is bracket matching on the ERB tags in source order.** -/
theorem analysis_matches_ends (source : List Char) (options : ParserOptions) (memory : Memory)
    (document : Document) (hanalyze : options.analyze = true)
    (h : (parse source options).outcome memory = .ok document) : EndsMatched source document := by
  rw [eq_parsed_of_parse h]
  constructor
  · intro tag hmem
    obtain ⟨place, hplace⟩ := List.getElem?_of_mem hmem
    exact (filter_issues_of_getElem? hanalyze hplace).1
  · refine (pairwise_erbTags_parsed source options).imp_of_mem ?_
    intro first second hfirst _ hleads
    have hlt := (span_of_mem_erbTags hfirst).1.offset_lt
    have hle := hleads.offset_le
    exact Nat.lt_of_lt_of_le hlt hle
  · intro place tag hplace
    rw [(filter_issues_of_getElem? hanalyze hplace).2]
    exact (Matching.issuesAt_ofWord _ tag (tag.code source) place).1
  · intro place tag hplace
    rw [(filter_issues_of_getElem? hanalyze hplace).2]
    exact (Matching.issuesAt_ofWord _ tag (tag.code source) place).2.1
  · intro place tag hplace
    rw [(filter_issues_of_getElem? hanalyze hplace).2]
    exact (Matching.issuesAt_ofWord _ tag (tag.code source) place).2.2
  · rw [countKind_unmatched hanalyze]
    exact Matching.isGreatest_length_orphans _
  · rw [countKind_unmatched hanalyze, countKind_missing hanalyze]
    exact Matching.length_waiting_add _
  · rw [Document.forall_fromAnalysis_iff, countKind_unmatched hanalyze,
      countKind_missing hanalyze, ← Matching.ofWord_eq_empty_iff, List.length_eq_zero_iff,
      List.length_eq_zero_iff]
    generalize Matching.ofWord ((parsed source options).brackets source) = matching
    obtain ⟨waiting, orphans⟩ := matching
    simp [and_comm]

/-- A block over an element with a conditional in its opening tag, an `end` too many and a loop
    without one. -/
theorem analysis_matches_ends_interleaved :
    ∃ document,
      (parse "<%x do%><a <%if b%>c<%end%>><%end%></a><%end%><%while d%>".toList {}).outcome
          .standard = .ok document
        ∧ document.brackets "<%x do%><a <%if b%>c<%end%>><%end%></a><%end%><%while d%>".toList
          = [.opens, .opens, .closes, .closes, .closes, .opens]
        ∧ document.countKind .unmatchedErbEnd = 1
        ∧ document.countKind .missingErbEnd = 1
        ∧ EndsMatched "<%x do%><a <%if b%>c<%end%>><%end%></a><%end%><%while d%>".toList
          document := by
  have hlex : ∃ list,
      (lex "<%x do%><a <%if b%>c<%end%>><%end%></a><%end%><%while d%>".toList).outcome .standard
        = .ok list :=
    exists_lex (by decide) (Memory.grantsUpTo_standard (by decide))
  obtain ⟨list, hlist⟩ := hlex
  have hparse := outcome_parse {} hlist
  have hmatched := analysis_matches_ends _ _ _ _ rfl hparse
  exact ⟨_, hparse, by decide +kernel, by decide +kernel, by decide +kernel, hmatched⟩

end ErbTemplate
