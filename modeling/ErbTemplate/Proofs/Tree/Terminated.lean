import ErbTemplate.Proofs.Tree.Annotation
import ErbTemplate.Proofs.Tree.Cursor
import ErbTemplate.Proofs.Tree.Origins
import ErbTemplate.Proofs.Tree.Unclosed

/-!
# Opening tags that are cut off

An opening tag is *terminated* when a token `>` or `/>` ends it. That the last character is a `>` is
not enough: it may be the end of `-->`, which ends no tag, and it may stand in a quoted value that
is never closed. `OpenTag.Terminated` is said of the tag in the tree and of the tokens of the
source; that it agrees with what the reader found out is `Segment.ends_of_mem_segments`.

A tag that is not terminated takes all that is left of the source. So there is at most one, and in
the tree nothing comes behind it but its own items (`eq_items_of_not_terminated`), however
many elements are still open around it.
-/

set_option autoImplicit false

namespace ErbTemplate

/-! ## 1. The rule -/

/-- Whether tokens of a kind end an opening tag. -/
def TokenKind.EndsTag (kind : TokenKind) : Prop :=
  kind = .tagEnd ∨ kind = .tagSelfClose

/-- An opening tag ends with a token that ends tags, and this token is not part of an item. -/
def OpenTag.Terminated (source : List Char) (tag : OpenTag) : Prop :=
  (∃ token ∈ tokens source, token.kind.EndsTag ∧ token.span.stop = tag.span.stop)
    ∧ ∀ item ∈ tag.items, (Entry.ofItem item).span.stop ≠ tag.span.stop

/-! ## 2. Places in a row of pieces -/

theorem Tiles.reaches_of_mem {start stop : Point} {row : List Span} {span : Span}
    (h : Tiles start row stop) (hmem : span ∈ row) : start.Reaches span.stop := by
  induction row generalizing start with
  | nil => cases hmem
  | cons first row ih =>
    obtain ⟨rfl, hforward, hrest⟩ := h
    rcases List.mem_cons.1 hmem with rfl | hmem
    · exact hforward
    · exact hforward.trans_leadsTo (ih hrest hmem).leadsTo

/-- **No two pieces end at the same place.** -/
theorem Piece.eq_of_stop {pieces : List (Piece Token)} {start last : Point}
    (h : Tiles start (pieces.map span) last) {first second : Piece Token} (hfirst : first ∈ pieces)
    (hsecond : second ∈ pieces) (heq : first.stop = second.stop) : first = second := by
  induction pieces generalizing start with
  | nil => cases hfirst
  | cons piece pieces ih =>
    obtain ⟨-, -, hrest⟩ := h
    have hlater : ∀ other ∈ pieces, piece.stop ≠ other.stop :=
      fun other hmem => (hrest.reaches_of_mem (List.mem_map_of_mem hmem)).ne
    rcases List.mem_cons.1 hfirst with rfl | hearlier
    · rcases List.mem_cons.1 hsecond with rfl | hmem
      · rfl
      · exact absurd heq (hlater second hmem)
    · rcases List.mem_cons.1 hsecond with rfl | hmem
      · exact absurd heq.symm (hlater first hearlier)
      · exact ih hrest hearlier hmem

/-- A token that ends tags is a piece of its own. -/
theorem mem_locatedPieces_of_endsTag {source : List Char} {token : Token}
    (h : token ∈ tokens source) (hkind : token.kind.EndsTag) :
    .markup token ∈ locatedPieces source := by
  rcases List.mem_append.1 h with hmem | hmem
  · obtain ⟨piece, hpiece, htoken⟩ := List.mem_flatMap.1 hmem
    cases piece with
    | markup other => rwa [List.mem_singleton.1 htoken]
    | erb opening mark ending =>
      have herb := isErb_of_mem_parts (typed_of_mem_locatedPieces hpiece) htoken
      rcases hkind with hkind | hkind <;> rw [hkind] at herb <;> cases herb
  · rw [List.mem_singleton.1 hmem] at hkind
    rcases hkind with hkind | hkind <;> cases hkind

/-! ## 3. Reading -/

namespace Segment

open Piece

variable {track : Bool}

/-- A body ends with a token that ends tags, and all of its items stand before that. -/
def TagBody.Closes (start : Point) (pieces : List (Piece Token)) (body : TagBody) : Prop :=
  ∃ token, .markup token ∈ pieces ∧ token.kind.EndsTag ∧ token.span.start.Reaches token.span.stop
    ∧ token.span.stop = body.stop
    ∧ Ascends start (body.items.map fun item => (Entry.ofItem item).span) token.span.start

/-- A body ends with one of its items, or with a token that ends no tag. -/
def TagBody.BreaksOff (pieces : List (Piece Token)) (body : TagBody) : Prop :=
  (∃ item ∈ body.items, (Entry.ofItem item).span.stop = body.stop)
    ∨ ∃ token, .markup token ∈ pieces ∧ ¬ token.kind.EndsTag ∧ token.span.stop = body.stop

theorem TagBody.Closes.cons {start : Point} {pieces rest : List (Piece Token)} {body : TagBody}
    {item : TagItem} (h : body.Closes (Entry.ofItem item).span.stop rest)
    (hstart : (Entry.ofItem item).span.start = start)
    (hforward : (Entry.ofItem item).span.start.Reaches (Entry.ofItem item).span.stop)
    (hrest : rest ⊆ pieces) : (body.cons item).Closes start pieces := by
  obtain ⟨token, hmem, hkind, hlong, hstop, hitems⟩ := h
  exact ⟨token, hrest hmem, hkind, hlong, hstop, hstart ▸ .refl _, hforward, hitems⟩

theorem TagBody.Closes.of_leadsTo {start middle : Point} {pieces rest : List (Piece Token)}
    {body : TagBody} (h : body.Closes middle rest) (hstart : start.LeadsTo middle)
    (hrest : rest ⊆ pieces) : body.Closes start pieces := by
  obtain ⟨token, hmem, hkind, hlong, hstop, hitems⟩ := h
  exact ⟨token, hrest hmem, hkind, hlong, hstop, hitems.of_leadsTo hstart⟩

/-- Tracked or not, white space in front of a body does not change how it ends. -/
theorem TagBody.Closes.consSpace {start last : Point} {pieces : List (Piece Token)} {body : TagBody}
    {space : Token} (h : body.Closes space.span.stop pieces)
    (htiles : Tiles start ((Piece.markup space :: pieces).map Piece.span) last) :
    (body.consSpace track space.span).Closes start (.markup space :: pieces) := by
  obtain ⟨hstart, hforward, -⟩ := htiles
  cases track with
  | true =>
    have hspace : body.Closes (Entry.ofItem (.whitespace space.span)).span.stop pieces := h
    exact hspace.cons hstart hforward (List.subset_cons_self _ _)
  | false => exact h.of_leadsTo (hstart ▸ hforward.leadsTo) (List.subset_cons_self _ _)

theorem TagBody.BreaksOff.mono {pieces rest : List (Piece Token)} {body : TagBody}
    (h : body.BreaksOff rest) (hrest : rest ⊆ pieces) : body.BreaksOff pieces := by
  rcases h with hitem | ⟨token, hmem, htoken⟩
  · exact Or.inl hitem
  · exact Or.inr ⟨token, hrest hmem, htoken⟩

theorem TagBody.BreaksOff.cons {pieces rest : List (Piece Token)} {body : TagBody}
    (h : body.BreaksOff rest) (item : TagItem) (hrest : rest ⊆ pieces) :
    (body.cons item).BreaksOff pieces := by
  rcases h.mono hrest with ⟨other, hmem, hother⟩ | htoken
  · exact Or.inl ⟨other, List.mem_cons_of_mem _ hmem, hother⟩
  · exact Or.inr htoken

theorem TagBody.BreaksOff.consSpace {pieces : List (Piece Token)} {body : TagBody} {space : Token}
    (h : body.stop = space.span.stop ∨ body.BreaksOff pieces) (hends : ¬ space.kind.EndsTag) :
    (body.consSpace track space.span).BreaksOff (.markup space :: pieces) := by
  rcases h with hstop | hbreaks
  · exact Or.inr ⟨space, List.mem_cons_self, hends, (stop_consSpace .. ▸ hstop).symm⟩
  · cases track with
    | true => exact hbreaks.cons _ (List.subset_cons_self _ _)
    | false => exact hbreaks.mono (List.subset_cons_self _ _)

theorem closes_readTagBody {stop last : Point} {pieces : List (Piece Token)}
    (htiles : Tiles stop (pieces.map Piece.span) last)
    (h : (readTagBody track stop pieces).terminated = true) :
    (readTagBody track stop pieces).Closes stop pieces := by
  fun_induction readTagBody track stop pieces with
  | case1 => cases h
  | case2 stop opening mark ending pieces tag ih =>
    have hspan : tag.span = (Piece.erb opening mark ending).span := span_erbTag opening mark ending
    obtain ⟨hstart, hforward, hrest⟩ := htiles
    rw [← hspan] at hstart hforward hrest
    exact TagBody.Closes.cons (ih hrest h) hstart hforward (List.subset_cons_self _ _)
  | case3 stop token pieces hkind =>
    obtain ⟨hstart, hforward, -⟩ := htiles
    exact ⟨token, List.mem_cons_self, Or.inl hkind, hforward, rfl, hstart ▸ .refl _⟩
  | case4 stop token pieces hkind =>
    obtain ⟨hstart, hforward, -⟩ := htiles
    exact ⟨token, List.mem_cons_self, Or.inr hkind, hforward, rfl, hstart ▸ .refl _⟩
  | case5 stop space pieces _ ih | case6 stop space pieces _ ih =>
    rw [TagBody.terminated_consSpace] at h
    exact (ih htiles.2.2 h).consSpace htiles
  | case7 stop name pieces _ attr ih =>
    obtain ⟨hstart, hforward, hrest⟩ := htiles
    have hpasses := passes_readAttribute name pieces
    obtain ⟨hleads, hafter⟩ := hpasses.tiles hrest
    have hbegin : attr.span.start = stop := (start_readAttribute name pieces).2.trans hstart
    have hattr : attr.span.start.Reaches attr.span.stop := by
      rw [hbegin, ← hstart]
      exact hforward.trans_leadsTo hleads
    exact TagBody.Closes.cons (ih hafter h) hbegin hattr
      (hpasses.suffix.trans (List.suffix_cons _ _)).subset
  | case8 stop other pieces _ _ _ _ _ ih =>
    obtain ⟨hstart, hforward, hrest⟩ := htiles
    exact (ih hrest h).of_leadsTo (hstart ▸ hforward.leadsTo) (List.subset_cons_self _ _)

theorem breaksOff_readTagBody {stop : Point} {pieces : List (Piece Token)}
    (h : (readTagBody track stop pieces).terminated = false) :
    (readTagBody track stop pieces).stop = stop
      ∨ (readTagBody track stop pieces).BreaksOff pieces := by
  fun_induction readTagBody track stop pieces with
  | case1 => exact Or.inl rfl
  | case2 stop opening mark ending pieces tag ih =>
    rcases ih h with hstop | hbreaks
    · exact Or.inr (Or.inl ⟨.erb tag, List.mem_cons_self, hstop.symm⟩)
    · exact Or.inr (hbreaks.cons _ (List.subset_cons_self _ _))
  | case3 => cases h
  | case4 => cases h
  | case5 stop space pieces hkind ih | case6 stop space pieces hkind ih =>
    rw [TagBody.terminated_consSpace] at h
    exact Or.inr (TagBody.BreaksOff.consSpace (ih h) (by simp [TokenKind.EndsTag, hkind]))
  | case7 stop name pieces _ attr ih =>
    have hsuffix := (passes_readAttribute name pieces).suffix
    rcases ih h with hstop | hbreaks
    · exact Or.inr (Or.inl ⟨.attr attr, List.mem_cons_self, hstop.symm⟩)
    · exact Or.inr (hbreaks.cons _ (hsuffix.trans (List.suffix_cons _ _)).subset)
  | case8 stop other pieces hend hself _ _ _ ih =>
    rcases ih h with hstop | hbreaks
    · have hends : ¬ other.kind.EndsTag := fun hkind => hkind.elim hend hself
      exact Or.inr (Or.inr ⟨other, List.mem_cons_self, hends, hstop.symm⟩)
    · exact Or.inr (hbreaks.mono (List.subset_cons_self _ _))

/-- If a segment is an opening tag, it knows whether it is terminated. -/
def Ends (source : List Char) : Segment → Prop
  | openTag _ tag terminated => tag.Terminated source ↔ terminated = true
  | text _ | erb _ | comment _ | closeTag .. => True

theorem ends_readOpenTag {source : List Char} {mark name : Token}
    {rest : List (Piece Token)}
    (hsuffix : (.markup mark :: .markup name :: rest) <:+ locatedPieces source)
    (hname : name.kind = .identifier) :
    (readOpenTag track mark name rest).1.Ends source := by
  have htiles := tiles_locatedPieces source
  obtain ⟨middle, -, -, -, -, hrest⟩ := exists_tiles_of_suffix htiles hsuffix
  have htail : rest ⊆ locatedPieces source :=
    (((List.suffix_cons _ _).trans (List.suffix_cons _ _)).trans hsuffix).subset
  constructor
  · rintro ⟨⟨token, htoken, hkind, hstop⟩, hitems⟩
    -- the token that ends the tag is the only piece that ends there
    have hpiece := mem_locatedPieces_of_endsTag htoken hkind
    have honly : ∀ other, .markup other ∈ locatedPieces source → other.span.stop = token.span.stop →
        other.kind.EndsTag := by
      intro other hother heq
      cases eq_of_stop htiles hother hpiece heq
      exact hkind
    by_contra hopen
    rcases breaksOff_readTagBody (Bool.eq_false_iff.2 hopen) with hbare | ⟨item, hmem, hend⟩
      | ⟨other, hmem, hends, hend⟩
    · have hends := honly name (hsuffix.subset (by simp)) (hbare.symm.trans hstop.symm)
      rw [hname] at hends
      rcases hends with hends | hends <;> cases hends
    · exact hitems item hmem hend
    · exact hends (honly other (htail hmem) (hend.trans hstop.symm))
  · intro hterminated
    obtain ⟨token, hmem, hkind, hlong, hstop, hitems⟩ := closes_readTagBody hrest hterminated
    refine ⟨⟨token, mem_tokens_of_markup (htail hmem), hkind, hstop⟩, fun item hitem => ?_⟩
    obtain ⟨-, -, hbefore⟩ := hitems.of_mem (List.mem_map_of_mem hitem)
    intro hend
    have hle := hbefore.offset_le
    have hlt := hlong.offset_lt
    rw [hend.trans hstop.symm] at hle
    omega

theorem ends_of_mem_segments (source : List Char) (options : ParserOptions) :
    ∀ segment ∈ options.segments source, segment.Ends source :=
  forall_mem_segments (fun _ _ => trivial) (fun _ _ _ _ => trivial) (fun _ _ _ _ => trivial)
    (fun _ _ _ hsuffix _ hname => ends_readOpenTag hsuffix hname)
    (fun _ _ _ _ _ _ _ => trivial) (List.suffix_refl _)

end Segment

/-- **Nothing follows an unclosed segment.** -/
theorem eq_nil_of_unclosed {options : ParserOptions} {source : List Char}
    {front back : List Segment} {segment : Segment}
    (h : options.segments source = front ++ segment :: back) (hopen : segment.Unclosed) :
    back = [] := by
  have hmem : segment ∈ options.segments source := by
    rw [h]
    exact List.mem_append_right _ List.mem_cons_self
  have hstop := (faithful_of_mem_segments options.trackWhitespace (tiles_locatedPieces source)
    (openLast_locatedPieces source) segment hmem).2 hopen
  have htiles : Tiles _ ((options.segments source).map Segment.span) _ :=
    tiles_segments_locatedPieces options.trackWhitespace source
  rw [h, List.map_append, List.map_cons] at htiles
  obtain ⟨middle, -, -, -, hback⟩ := tiles_append_iff.1 htiles
  rw [hstop] at hback
  exact List.map_eq_nil_iff.1 hback.eq_nil

/-- An opening tag that is cut off is the last segment, and the only one of its kind. -/
theorem exists_concat_of_not_terminated {options : ParserOptions} {source name : List Char}
    {tag : OpenTag}
    (h : .openTag name tag false ∈ options.segments source) :
    ∃ front, options.segments source = front ++ [.openTag name tag false]
      ∧ ∀ other inner terminated, .openTag other inner terminated ∈ front → terminated = true := by
  obtain ⟨front, back, hrow⟩ := List.append_of_mem h
  cases eq_nil_of_unclosed hrow rfl
  refine ⟨front, hrow, fun other inner terminated hmem => ?_⟩
  by_contra hopen
  obtain ⟨before, after, rfl⟩ := List.append_of_mem hmem
  rw [List.append_assoc, List.cons_append] at hrow
  have hnone := eq_nil_of_unclosed hrow (Bool.eq_false_iff.2 hopen)
  simp at hnone

/-! ## 4. The last node of a tree -/

theorem Entry.element_notMem_ofItem (info : ElementInfo) (count : Nat) (items : List TagItem) :
    Entry.element info count ∉ items.map ofItem := by
  intro hmem
  obtain ⟨item, -, hitem⟩ := List.mem_map.1 hmem
  cases item <;> cases hitem

/-- A member of two rows put together stands in the first or in the second. -/
theorem Entry.split_append {first second front back : List Entry} {entry : Entry}
    (h : first ++ second = front ++ entry :: back) :
    (∃ between, first = front ++ entry :: between ∧ back = between ++ second)
      ∨ ∃ between, second = between ++ entry :: back := by
  rcases List.append_eq_append_iff.1 h with ⟨between, -, hsecond⟩ | ⟨between, hfirst, hback⟩
  · exact Or.inr ⟨between, hsecond⟩
  · cases between with
    | nil => exact Or.inr ⟨[], hback.symm⟩
    | cons other between =>
      obtain ⟨rfl, rfl⟩ := List.cons_eq_cons.1 hback
      exact Or.inl ⟨between, hfirst, rfl⟩

theorem ElementInfo.Made.exists_openTag {options : ParserOptions} {row : List Segment}
    {info : ElementInfo} (h : info.Made options row) :
    ∃ name terminated, .openTag name info.openTag terminated ∈ row := by
  cases h with
  | atOnce hopen | ended hopen | closed hopen => exact ⟨_, _, hopen⟩

theorem Node.entriesOfAll_reverse_cons (node : Node) (nodes : List Node) :
    entriesOfAll (node :: nodes).reverse = entriesOfAll nodes.reverse ++ node.entries := by
  rw [List.reverse_cons, entriesOfAll_append, entriesOfAll_singleton]

theorem Node.forall_mem_entriesOfAll_reverse {P : Entry → Prop} {nodes : List Node} :
    (∀ entry ∈ entriesOfAll nodes.reverse, P entry)
      ↔ ∀ node ∈ nodes, ∀ entry ∈ node.entries, P entry := by
  rw [forall_mem_entriesOfAll]
  simp only [List.mem_reverse]

/-- An element ends with what its last child ends with. -/
theorem Node.exists_entries_element {options : ParserOptions} {row : List Segment}
    {info : ElementInfo} {nodes : List Node} (hinfo : info.Made options row)
    (hnodes : ∀ node ∈ nodes, node.Made options row) (last : Node) :
    ∃ front, (Node.element info (nodes ++ [last])).entries = front ++ last.entries
      ∧ ∀ entry ∈ front, entry.Made options row := by
  refine ⟨.element info (nodes ++ [last]).length :: info.openTag.items.map Entry.ofItem
    ++ entriesOfAll nodes, ?_, ?_⟩
  · rw [entries, entriesOfAll_append, entriesOfAll_singleton, List.append_assoc]
  · refine List.forall_mem_append.2 ⟨List.forall_mem_cons.2 ⟨hinfo, fun entry hmem => ?_⟩,
      forall_mem_entriesOfAll.2 hnodes⟩
    obtain ⟨item, -, rfl⟩ := List.mem_map.1 hmem
    exact Entry.made_ofItem item

namespace Builder

variable {options : ParserOptions} {row : List Segment}

/-- What stands at the end of a node that was added last stands at the end of the tree, after all
    elements around it have ended. -/
theorem entries_foldl_pop_add {α : Type} {items : List α} {frames : List Frame}
    {children : List Node} {issues : List Issue} {node : Node} {head tail : List Entry}
    (hlength : items.length = frames.length)
    (h : (Builder.mk frames children issues).Made options row)
    (hnode : node.entries = head ++ tail) (hhead : ∀ entry ∈ head, entry.Made options row) :
    ∃ front, Node.entriesOfAll (items.foldl (fun builder _ =>
          builder.pop (Frame.closeAtEnd options.strict))
          ((Builder.mk frames children issues).add node)).children.reverse = front ++ tail
      ∧ ∀ entry ∈ front, entry.Made options row := by
  obtain ⟨hchildren, hframes, hissues⟩ := h
  induction frames generalizing items node head with
  | nil =>
    cases List.length_eq_zero_iff.1 hlength
    refine ⟨Node.entriesOfAll children.reverse ++ head, ?_, ?_⟩
    · rw [List.append_assoc, ← hnode]
      exact Node.entriesOfAll_reverse_cons node children
    · exact List.forall_mem_append.2 ⟨Node.forall_mem_entriesOfAll_reverse.2 hchildren, hhead⟩
  | cons frame frames ih =>
    obtain ⟨item, items, rfl⟩ := List.exists_cons_of_length_eq_add_one hlength
    obtain ⟨hframe, hothers⟩ := List.forall_mem_cons.1 hframes
    obtain ⟨hopen, hinside⟩ := hframe
    have hinfo : ElementInfo.Made options row ⟨frame.openTag, none, false,
        ⟨frame.openTag.span.start, node.span.stop⟩,
        if frame.mayOmitEnd options.strict then []
        else [⟨.neverClosed frame.name, frame.openTag.span⟩]⟩ := .ended hopen (Or.inl rfl)
    -- the element around the node ends with it, and is the next node to be added
    obtain ⟨front, hentries, hfront⟩ := Node.exists_entries_element hinfo
      (fun child hmem => hinside child (List.mem_reverse.1 hmem)) node
    rw [hnode, ← List.append_assoc, ← List.reverse_cons] at hentries
    exact ih (Nat.succ.inj hlength) hentries (List.forall_mem_append.2 ⟨hfront, hhead⟩)
      hchildren hothers hissues

theorem entries_finish_add {builder : Builder} (h : builder.Made options row) (node : Node) :
    ∃ front, Node.entriesOfAll ((builder.add node).finish options).children.reverse
        = front ++ node.entries
      ∧ ∀ entry ∈ front, entry.Made options row := by
  have hlength : (builder.add node).frames.length = builder.frames.length := by
    have hnames := congrArg List.length (names_add node builder)
    rwa [names, names, List.length_map, List.length_map] at hnames
  exact entries_foldl_pop_add hlength h (List.nil_append _).symm fun entry hmem => by cases hmem

end Builder

namespace Document

variable {source : List Char} {options : ParserOptions}

/-- A tag that is cut off stands at the end of the tree, and all others are terminated. -/
theorem exists_entries_of_not_terminated {name : List Char} {tag : OpenTag}
    (h : .openTag name tag false ∈ options.segments source) :
    ∃ front info, (ofSource options source).entries
        = front ++ .element info 0 :: info.openTag.items.map Entry.ofItem
      ∧ ∀ info count, .element info count ∈ front → info.openTag.Terminated source := by
  obtain ⟨row, hrow, hterminated⟩ := exists_concat_of_not_terminated h
  have hmade := (Builder.Made.empty options row).run (List.Subset.refl row)
  let info : ElementInfo := ⟨tag, none, isVoidName name, tag.span,
    [⟨.unterminatedTag name, tag.span⟩]⟩
  have hbuild : Builder.build options (options.segments source)
      = ((row.foldl (Builder.step options) .empty).add (.element info [])).finish options := by
    have hstep : ∀ builder : Builder, builder.step options (.openTag name tag false)
        = builder.add (.element info []) := by
      intro builder
      simp [Builder.step, Builder.openElement, info]
    rw [Builder.build, hrow, List.foldl_append, List.foldl_cons, List.foldl_nil, hstep]
  obtain ⟨front, hentries, hfront⟩ := Builder.entries_finish_add hmade (.element info [])
  refine ⟨front, info, ?_, fun other count hmem => ?_⟩
  · rw [← hbuild, Node.entries, Node.entriesOfAll, List.append_nil] at hentries
    exact hentries
  · have hmade : other.Made options row := hfront _ hmem
    obtain ⟨label, terminated, hopening⟩ := hmade.exists_openTag
    have hsource : .openTag label other.openTag terminated ∈ options.segments source := by
      rw [hrow]
      exact List.mem_append_left _ hopening
    exact (Segment.ends_of_mem_segments source options _ hsource).2
      (hterminated label other.openTag terminated hopening)

/-- Behind a tag that is cut off there is nothing but its items. -/
theorem eq_items_of_not_terminated_ofSource {front back : List Entry} {info : ElementInfo}
    {count : Nat} (h : (ofSource options source).entries = front ++ .element info count :: back)
    (hopen : ¬ info.openTag.Terminated source) : back = info.openTag.items.map Entry.ofItem := by
  have hmem : .element info count ∈ (ofSource options source).entries := by
    rw [h]
    exact List.mem_append_right _ List.mem_cons_self
  have hmade : info.Made options (options.segments source) := made_of_mem_entries hmem
  obtain ⟨name, terminated, htag⟩ := hmade.exists_openTag
  have hends := Segment.ends_of_mem_segments source options _ htag
  cases terminated with
  | true => exact absurd (hends.2 rfl) hopen
  | false =>
    obtain ⟨before, last, hentries, hbefore⟩ := exists_entries_of_not_terminated htag
    rw [h] at hentries
    rcases Entry.split_append hentries.symm with ⟨between, rfl, -⟩ | ⟨between, hlast⟩
    · exact absurd (hbefore info count (by simp)) hopen
    · cases between with
      | nil =>
        cases hlast
        rfl
      | cons entry between =>
        have hmem : .element info count ∈ last.openTag.items.map Entry.ofItem := by
          rw [(List.cons_eq_cons.1 hlast).2]
          exact List.mem_append_right _ List.mem_cons_self
        exact absurd hmem (Entry.element_notMem_ofItem _ _ _)

end Document

/-! ## 5. After analysis -/

mutual

/-- An element stands before the items of its opening tag. -/
theorem Node.exists_rest_of_entries (node : Node) {front back : List Entry} {info : ElementInfo}
    {count : Nat} (h : node.entries = front ++ .element info count :: back) :
    ∃ rest, back = info.openTag.items.map Entry.ofItem ++ rest := by
  have hmem : .element info count ∈ node.entries := by
    rw [h]
    exact List.mem_append_right _ List.mem_cons_self
  match node with
  | .text span => cases List.mem_singleton.1 hmem
  | .comment value => cases List.mem_singleton.1 hmem
  | .erb tag => cases List.mem_singleton.1 hmem
  | .element other children =>
    rw [entries] at h
    cases front with
    | nil =>
      obtain ⟨heq, rfl⟩ := List.cons_eq_cons.1 h
      cases heq
      exact ⟨_, rfl⟩
    | cons entry front =>
      obtain ⟨-, hrest⟩ := List.cons_eq_cons.1 h
      rcases Entry.split_append hrest with ⟨between, hitems, -⟩ | ⟨between, hinside⟩
      · have hitem : .element info count ∈ other.openTag.items.map Entry.ofItem := by
          rw [hitems]
          exact List.mem_append_right _ List.mem_cons_self
        exact absurd hitem (Entry.element_notMem_ofItem _ _ _)
      · exact exists_rest_of_entriesOfAll children hinside

theorem Node.exists_rest_of_entriesOfAll (nodes : List Node) {front back : List Entry}
    {info : ElementInfo} {count : Nat}
    (h : entriesOfAll nodes = front ++ .element info count :: back) :
    ∃ rest, back = info.openTag.items.map Entry.ofItem ++ rest := by
  match nodes with
  | [] => exact absurd h (by simp [entriesOfAll])
  | node :: nodes =>
    rw [entriesOfAll] at h
    rcases Entry.split_append h with ⟨between, hnode, rfl⟩ | ⟨between, hlater⟩
    · obtain ⟨rest, rfl⟩ := exists_rest_of_entries node hnode
      exact ⟨_, List.append_assoc _ _ _⟩
    · exact exists_rest_of_entriesOfAll nodes hlater

end

theorem OpenTag.Terminated.of_plain {source : List Char} {info other : ElementInfo}
    (h : other.openTag.Terminated source) (heq : info.plain = other.plain) :
    info.openTag.Terminated source := by
  have hspan : info.openTag.span = other.openTag.span :=
    congrArg (fun info => info.openTag.span) heq
  have hitems : info.openTag.items.map TagItem.plain = other.openTag.items.map TagItem.plain :=
    congrArg (fun info => info.openTag.items) heq
  obtain ⟨htoken, hother⟩ := h
  rw [← hspan] at htoken hother
  refine ⟨htoken, fun item hmem => ?_⟩
  have hplain := List.mem_map_of_mem (f := TagItem.plain) hmem
  rw [hitems] at hplain
  obtain ⟨before, hbefore, hitem⟩ := List.mem_map.1 hplain
  have hends : (Entry.ofItem before).span = (Entry.ofItem item).span := by
    rw [← Entry.span_plain, Entry.plain_ofItem, hitem, ← Entry.plain_ofItem, Entry.span_plain]
  rw [← hends]
  exact hother before hbefore

section

variable {source : List Char} {options : ParserOptions}

/-- **Behind a tag that is cut off there is nothing but its items.** -/
theorem eq_items_of_not_terminated {front back : List Entry} {info : ElementInfo} {count : Nat}
    (h : (parsed source options).entries = front ++ .element info count :: back)
    (hopen : ¬ info.openTag.Terminated source) : back = info.openTag.items.map Entry.ofItem := by
  have hplain := plain_entries_parsed source options
  rw [h, List.map_append, List.map_cons, eq_comm] at hplain
  obtain ⟨before, _, hentries, -, hrest⟩ := List.map_eq_append_iff.1 hplain
  obtain ⟨entry, after, rfl, hentry, hafter⟩ := List.map_eq_cons_iff.1 hrest
  cases entry with
  | element other children =>
    obtain ⟨hinfo, -⟩ := Entry.element.inj hentry
    have hother := Document.eq_items_of_not_terminated_ofSource hentries
      fun hterminated => hopen (hterminated.of_plain hinfo.symm)
    -- the items come first, and there are as many of them as there is left
    obtain ⟨rest, hback⟩ := Node.exists_rest_of_entriesOfAll _ h
    have hlength := congrArg List.length hafter
    have hcount : info.openTag.items.length = other.openTag.items.length := by
      simpa [ElementInfo.plain] using congrArg (fun info => info.openTag.items.length) hinfo.symm
    rw [hother, hback] at hlength
    have hnil : rest = [] := by
      rw [← List.length_eq_zero_iff]
      simp only [List.length_map, List.length_append] at hlength
      omega
    rw [hback, hnil, List.append_nil]
  | text span => cases hentry
  | whitespace span => cases hentry
  | attr value => cases hentry
  | comment value => cases hentry
  | erb tag => cases hentry

theorem not_element_behind {i j count others : Nat} {info other : ElementInfo}
    (hi : (parsed source options).entries[i]? = some (.element info count))
    (hopen : ¬ info.openTag.Terminated source) (hlt : i < j) :
    (parsed source options).entries[j]? ≠ some (.element other others) := by
  intro hj
  obtain ⟨hlength, hget⟩ := List.getElem?_eq_some_iff.1 hi
  have hsplit : (parsed source options).entries = (parsed source options).entries.take i
      ++ .element info count :: (parsed source options).entries.drop (i + 1) := by
    rw [← hget, ← List.drop_eq_getElem_cons hlength, List.take_append_drop]
  have hlater : ((parsed source options).entries.drop (i + 1))[j - (i + 1)]?
      = some (.element other others) := by
    rw [List.getElem?_drop, Nat.add_sub_cancel' hlt]
    exact hj
  have hmem := List.mem_of_getElem? hlater
  rw [eq_items_of_not_terminated hsplit hopen] at hmem
  exact Entry.element_notMem_ofItem _ _ _ hmem

/-- **At most one tag is cut off.** -/
theorem index_eq_of_not_terminated {i j count others : Nat} {info other : ElementInfo}
    (hi : (parsed source options).entries[i]? = some (.element info count))
    (hj : (parsed source options).entries[j]? = some (.element other others))
    (hopen : ¬ info.openTag.Terminated source) (hother : ¬ other.openTag.Terminated source) :
    i = j := by
  rcases Nat.lt_trichotomy i j with hlt | heq | hlt
  · exact absurd hj (not_element_behind hi hopen hlt)
  · exact heq
  · exact absurd hi (not_element_behind hj hother hlt)

end
end ErbTemplate
