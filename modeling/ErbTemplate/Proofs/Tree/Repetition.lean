import ErbTemplate.Proofs.Tree.Ends
import Mathlib.Logic.Function.Iterate

/-!
# Analysing again

A document can be analysed any number of times. A later pass meets tags that carry kinds and issues
already, so it has to be said that it does not look at them: the kind of a tag is read off its
opening and its code, and the matching off the kinds that were just read. Both are part of what a
tag is without annotations (`ErbTag.plain`), and analysis changes nothing of that
(`Document.plain_analyze`).

Every pass therefore does the same to the tag at a place, and many passes do it many times:

> **`Document.getElem?_erbTags_iterate`** — after some passes the tag at a place is the old tag,
> annotated so many times, each time by the matching of the first pass.

Kinds are set and issues are added, so the kind is that of one pass, and what one pass adds is there
once for each pass.
-/

set_option autoImplicit false

namespace ErbTemplate

/-! ## 1. The rule -/

mutual

/-- A node without what analysis says of ERB tags. -/
def Node.plain : Node → Node
  | .text span => .text span
  | .comment value => .comment value
  | .erb tag => .erb tag.plain
  | .element info children => .element info.plain (plainOfAll children)

/-- The nodes of a list without what analysis says of ERB tags. -/
def Node.plainOfAll : List Node → List Node
  | [] => []
  | node :: nodes => node.plain :: plainOfAll nodes

end

/-- A document as it is before any analysis: no kinds, no issues of ERB tags, and the rest as it
    is. -/
def Document.plain (document : Document) : Document :=
  { document with children := Node.plainOfAll document.children, analyzed := false }

/-- What some passes of analysis make of a tag, compared with what one pass makes of it. -/
structure ErbTag.Repeats (passes : Nat) (tag once after : ErbTag) : Prop where
  kind : after.kind = once.kind
  issues : ∃ added : List Issue, added.length ≤ 1 ∧ once.issues = tag.issues ++ added
    ∧ after.issues = tag.issues ++ (List.replicate passes added).flatten

/-- What some passes of analysis make of a document, compared with what one pass makes of it. -/
structure Document.Repeats (passes : Nat) (document once after : Document) : Prop where
  analyzed : after.analyzed = true
  /-- Nothing changes but the kinds and the issues of ERB tags. -/
  plain : after.plain = document.plain
  length_once : once.erbTags.length = document.erbTags.length
  length_after : after.erbTags.length = document.erbTags.length
  tags : ∀ (place : Nat) tag single many, document.erbTags[place]? = some tag →
    once.erbTags[place]? = some single → after.erbTags[place]? = some many →
      ErbTag.Repeats passes tag single many

/-! ## 2. One pass -/

mutual

/-- Putting back tags that differ only in their annotations gives the same node without them. -/
theorem Node.plain_refill (node : Node) (tags supply : List ErbTag)
    (h : tags.map ErbTag.plain = (Entry.erbTags node.entries).map ErbTag.plain) :
    (node.refill (tags ++ supply)).1.plain = node.plain := by
  match node with
  | .text span => rfl
  | .comment value => rfl
  | .erb tag =>
    obtain ⟨first, rest, rfl, hfirst, -⟩ := List.map_eq_cons_iff.1 h
    exact congrArg Node.erb hfirst
  | .element info children =>
    rw [erbTags_element, List.map_append] at h
    obtain ⟨inTag, inside, rfl, hinTag, hinside⟩ := List.map_eq_append_iff.1 h
    obtain ⟨hitems, -, hleft⟩ :=
      TagItem.refillAll_plain info.openTag.items inTag (inside ++ supply) hinTag
    have hchildren := plainOfAll_refillAll children inside supply hinside
    rw [List.append_assoc]
    simp only [refill, hleft, plain, ElementInfo.plain, hitems, hchildren]

theorem Node.plainOfAll_refillAll (nodes : List Node) (tags supply : List ErbTag)
    (h : tags.map ErbTag.plain = (Entry.erbTags (entriesOfAll nodes)).map ErbTag.plain) :
    plainOfAll (refillAll nodes (tags ++ supply)).1 = plainOfAll nodes := by
  match nodes with
  | [] => rfl
  | node :: nodes =>
    rw [entriesOfAll, Entry.erbTags_append, List.map_append] at h
    obtain ⟨own, others, rfl, hown, hothers⟩ := List.map_eq_append_iff.1 h
    obtain ⟨-, -, hleft⟩ := refill_plain node own (others ++ supply) hown
    have hnode := plain_refill node own (others ++ supply) hown
    have hnodes := plainOfAll_refillAll nodes others supply hothers
    rw [List.append_assoc]
    simp only [refillAll, hleft, plainOfAll, hnode, hnodes]

end

/-- A matching finds at most one thing with a tag. -/
theorem Matching.length_issuesAt_ofWord_le (word : List Bracket) (tag : ErbTag) (code : List Char)
    (place : Nat) : ((ofWord word).issuesAt tag code place).length ≤ 1 := by
  obtain ⟨hcloses, hopens, hneither⟩ := issuesAt_ofWord word tag code place
  by_cases hclosing : Bracket.ClosesAlone word place
  · rw [hcloses.2 hclosing]
    exact Nat.le_refl 1
  · by_cases hopening : Bracket.OpensAlone word place
    · rw [hopens.2 hopening]
      exact Nat.le_refl 1
    · rw [hneither.2 ⟨hclosing, hopening⟩]
      exact Nat.zero_le 1

namespace Document

variable {source : List Char} {document : Document} {passes place : Nat} {tag : ErbTag}

/-- **One pass changes annotations only.** -/
theorem plain_analyze (source : List Char) (document : Document) :
    (document.analyze source).plain = document.plain := by
  have hnodes := Node.plainOfAll_refillAll document.children (document.annotatedTags source) []
    (plain_annotatedTags source document)
  rw [List.append_nil] at hnodes
  exact congrArg (fun children => { document with children, analyzed := false }) hnodes

theorem brackets_analyze (source : List Char) (document : Document) :
    (document.analyze source).brackets source = document.brackets source := by
  rw [brackets_eq_map_plain, erbTags_analyze, plain_annotatedTags, ← brackets_eq_map_plain]

/-! ## 3. Many passes -/

theorem plain_iterate (source : List Char) (document : Document) (passes : Nat) :
    ((analyze source)^[passes] document).plain = document.plain := by
  induction passes with
  | zero => rfl
  | succ passes ih => rw [Function.iterate_succ_apply', plain_analyze, ih]

theorem brackets_iterate (source : List Char) (document : Document) (passes : Nat) :
    ((analyze source)^[passes] document).brackets source = document.brackets source := by
  induction passes with
  | zero => rfl
  | succ passes ih => rw [Function.iterate_succ_apply', brackets_analyze, ih]

theorem analyzed_iterate (source : List Char) (document : Document) (h : 0 < passes) :
    ((analyze source)^[passes] document).analyzed = true := by
  obtain ⟨earlier, rfl⟩ := Nat.exists_eq_succ_of_ne_zero (Nat.ne_of_gt h)
  rw [Function.iterate_succ_apply']
  rfl

/-- What a pass makes of the tag at a place, by the matching of a document. -/
def pass (source : List Char) (document : Document) (place : Nat) (tag : ErbTag) : ErbTag :=
  annotate source (Matching.ofWord (document.brackets source)) tag place

/-- **Every pass does to the tag at a place what the first one does.** -/
theorem getElem?_erbTags_iterate (source : List Char) (document : Document) (passes place : Nat) :
    ((analyze source)^[passes] document).erbTags[place]?
      = document.erbTags[place]?.map (pass source document place)^[passes] := by
  induction passes with
  | zero => simp
  | succ passes ih =>
    rw [Function.iterate_succ_apply', erbTags_analyze, getElem?_annotatedTags, brackets_iterate, ih,
      Option.map_map, Function.iterate_succ']
    rfl

theorem plain_pass_iterate (source : List Char) (document : Document) (place : Nat) (tag : ErbTag)
    (passes : Nat) : ((pass source document place)^[passes] tag).plain = tag.plain := by
  induction passes with
  | zero => rfl
  | succ passes ih =>
    rw [Function.iterate_succ_apply']
    exact ih

/-- What a pass reads of a tag is the same with and without annotations. -/
theorem kind_pass (source : List Char) (document : Document) (place : Nat) (tag : ErbTag) :
    (pass source document place tag).kind = some (tag.plain.classify source) :=
  rfl

theorem issues_pass (source : List Char) (document : Document) (place : Nat) (tag : ErbTag) :
    (pass source document place tag).issues
      = tag.issues ++ (Matching.ofWord (document.brackets source)).issuesAt tag.plain
          (tag.plain.code source) place :=
  rfl

theorem kind_pass_iterate (h : 0 < passes) :
    ((pass source document place)^[passes] tag).kind = some (tag.classify source) := by
  obtain ⟨earlier, rfl⟩ := Nat.exists_eq_succ_of_ne_zero (Nat.ne_of_gt h)
  rw [Function.iterate_succ_apply', kind_pass, plain_pass_iterate]
  rfl

theorem issues_pass_iterate (passes : Nat) :
    ((pass source document place)^[passes] tag).issues
      = tag.issues ++ (List.replicate passes
          ((Matching.ofWord (document.brackets source)).issuesAt tag (tag.code source)
            place)).flatten := by
  induction passes with
  | zero => simp
  | succ passes ih =>
    rw [Function.iterate_succ_apply', issues_pass, plain_pass_iterate, ih, List.append_assoc,
      List.replicate_succ', List.flatten_append, List.flatten_singleton]
    rfl

theorem length_erbTags_iterate (source : List Char) (document : Document) (passes : Nat) :
    ((analyze source)^[passes] document).erbTags.length = document.erbTags.length := by
  induction passes with
  | zero => rfl
  | succ passes ih =>
    rw [Function.iterate_succ_apply', erbTags_analyze, annotatedTags, List.length_map,
      List.length_zipIdx, ih]

end Document

/-! ## 4. The theorem -/

/-- **Analysing again changes nothing, and adds the same issues again.** -/
theorem analysis_repeats_itself (source : List Char) (document : Document) {passes : Nat}
    (h : 0 < passes) :
    document.Repeats passes (document.analyze source)
      ((Document.analyze source)^[passes] document) := by
  have hone := Document.getElem?_erbTags_iterate source document 1
  refine ⟨Document.analyzed_iterate source document h,
    Document.plain_iterate source document passes,
    Document.length_erbTags_iterate source document 1,
    Document.length_erbTags_iterate source document passes, ?_⟩
  intro place tag single many htag hsingle hmany
  rw [Document.getElem?_erbTags_iterate, htag] at hmany
  have hfirst := hone place
  rw [Function.iterate_one, hsingle, htag] at hfirst
  obtain rfl := Option.some.inj hmany
  obtain rfl := Option.some.inj hfirst
  refine ⟨?_, _, Matching.length_issuesAt_ofWord_le _ tag (tag.code source) place, rfl,
    Document.issues_pass_iterate passes⟩
  rw [Document.kind_pass_iterate h]
  rfl

/-- An `end` too many, a tag inside of an opening tag, and a conditional without its `end`: parsing
    reports two of the three, and two more passes do it again. -/
theorem analysis_repeats_itself_twice :
    ∃ document, (parse "<%end%><a <%=b%>><%if c%></a>".toList {}).outcome .standard = .ok document
      ∧ ((Document.analyze "<%end%><a <%=b%>><%if c%></a>".toList)^[2] document).erbTags.map
          (fun tag => (tag.kind, tag.issues.length))
        = [(some .blockEnd, 3), (some .output, 0), (some .control, 3)]
      ∧ document.Repeats 2 (document.analyze "<%end%><a <%=b%>><%if c%></a>".toList)
          ((Document.analyze "<%end%><a <%=b%>><%if c%></a>".toList)^[2] document) := by
  obtain ⟨list, hlist⟩ :
      ∃ list, (lex "<%end%><a <%=b%>><%if c%></a>".toList).outcome .standard = .ok list :=
    exists_lex (by decide) (Memory.grantsUpTo_standard (by decide))
  have hparse := outcome_parse {} hlist
  exact ⟨_, hparse, by decide +kernel, analysis_repeats_itself _ _ (by decide)⟩

end ErbTemplate
