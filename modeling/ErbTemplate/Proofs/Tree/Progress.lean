import ErbTemplate.Proofs.Tree.Cursor

/-!
# Reading by index comes to the same, and to an end

A reader by index can fail in three ways, and it can stay where it is. It does neither. What it has
found and what the readers of pieces would still find from where it stands are the segments of the
source, and each round keeps this up:

> **`Cursor.Stands.goes`** — from where a reader can stand, a round of its loop returns, passes a
> token or leaves the loop, and leads to where a reader can stand.

Where a reader can stand is a matter of its loop, and `Cursor.Ahead` says it for each: what the
tokens ahead are, and which segments are still to be found. In two of the loops the reader may be
inside of a piece, since they pass over the parts of an ERB tag one by one; what these have passed
is known token by token, and is put together into pieces again when they end (`scan_of_split`).

Rounds can be counted. Each of them brings a number down (`Cursor.roundsLeft`), so every reader
comes to its end (`Cursor.Stands.exists_finished`).
-/

set_option autoImplicit false

namespace ErbTemplate

open Text

namespace Cursor

/-! ## 1. What a cursor has ahead -/

/-- Where the last token of a row ends. -/
def lastStop (start : Point) (row : List Token) : Point :=
  row.foldl (fun _ token => token.span.stop) start

theorem lastStop_concat (start : Point) (row : List Token) (token : Token) :
    lastStop start (row ++ [token]) = token.span.stop := by
  simp [lastStop]

theorem lastStop_flatMap_parts (start : Point) (pieces : List (Piece Token)) :
    lastStop start (pieces.flatMap Piece.parts) = Piece.stopOfAll start pieces := by
  induction pieces generalizing start with
  | nil => rfl
  | cons piece pieces ih =>
    have hpiece : lastStop start piece.parts = piece.stop := by
      cases piece with
      | markup token => rfl
      | erb opening mark ending => cases ending <;> rfl
    have happ : lastStop start ((piece :: pieces).flatMap Piece.parts)
        = lastStop (lastStop start piece.parts) (pieces.flatMap Piece.parts) := by
      simp [lastStop]
    rw [happ, hpiece, ih, Piece.stopOfAll_cons]

/-- The segments that begin with an opening tag of which the rest is still to be read. -/
def Tag.finish (track : Bool) (tag : Tag) (body : Segment.TagBody) : List Segment :=
  .openTag tag.label ⟨tag.name.span, tag.items.reverse ++ body.items, body.selfClosing,
    ⟨tag.mark.span.start, body.stop⟩⟩ body.terminated :: segments track body.rest

/-- The segments that begin with an opening tag of which an attribute has been read. -/
def Tag.goOn (track : Bool) (tag : Tag) (attr : Attribute) (rest : List (Piece Token)) :
    List Segment :=
  (tag.add (.attr attr) attr.span.stop).finish track (Segment.readTagBody track attr.span.stop rest)

theorem Tag.finish_consSpace (track : Bool) (tag : Tag) (span : Span) (body : Segment.TagBody) :
    tag.finish track (body.consSpace track span) = (tag.addSpace track span).finish track body := by
  cases track <;> simp [finish, addSpace, add, Segment.TagBody.cons]

theorem Tag.stop_addSpace (track : Bool) (tag : Tag) (span : Span) :
    (tag.addSpace track span).stop = span.stop := by
  cases track <;> rfl

theorem Tag.finish_cons (track : Bool) (tag : Tag) (item : TagItem) (stop : Point)
    (body : Segment.TagBody) :
    tag.finish track (body.cons item) = (tag.add item stop).finish track body := by
  simp [finish, add, Segment.TagBody.cons]

/-- What the readers of pieces still find where a reader by index is in a loop and has these tokens
    ahead. The tokens that a comment or a quoted value has passed need not be whole pieces. -/
inductive Ahead (track : Bool) (source : List Char) : Loop → List Token → List Segment → Prop
  | document {pieces : List (Piece Token)} (suffix : pieces <:+ locatedPieces source) :
      Ahead track source .document (rowOf source pieces) (segments track pieces)
  | comment {mark : Token} {pieces : List (Piece Token)} {passed ahead : List Token}
      (suffix : (.markup mark :: pieces) <:+ locatedPieces source)
      (split : rowOf source pieces = passed ++ ahead)
      (inside : ∀ token ∈ passed, token.kind ≠ .commentEnd ∧ token.kind ≠ .eof) :
      Ahead track source (.comment mark (lastStop mark.span.stop passed)) ahead
        (.comment (Segment.readComment mark pieces).1
          :: segments track (Segment.readComment mark pieces).2)
  | tag {tag : Tag} {pieces : List (Piece Token)} (suffix : pieces <:+ locatedPieces source) :
      Ahead track source (.tag tag) (rowOf source pieces)
        (tag.finish track (Segment.readTagBody track tag.stop pieces))
  | quoted {tag : Tag} {name quote : Token} {pieces : List (Piece Token)}
      {passed ahead : List Token} (suffix : (.markup quote :: pieces) <:+ locatedPieces source)
      (split : rowOf source pieces = passed ++ ahead)
      (inside : ∀ token ∈ passed,
        ¬ (token.kind = .quote ∧ token.text = quote.text) ∧ token.kind ≠ .eof) :
      Ahead track source (.quoted tag name quote quote.text (lastStop quote.span.stop passed)) ahead
        (tag.goOn track ⟨name.span, some (Segment.readQuoted quote pieces).1,
            ⟨name.span.start, (Segment.readQuoted quote pieces).1.span.stop⟩⟩
          (Segment.readQuoted quote pieces).2)
  | bare {tag : Tag} {name equals first : Token} {inside rest : List (Piece Token)}
      (suffix : (.markup equals :: (inside ++ rest)) <:+ locatedPieces source)
      (kind : equals.kind = .equals) (head : (rowOf source (inside ++ rest)).head? = some first)
      (notQuote : first.kind ≠ .quote) (takes : ∀ piece ∈ inside, Segment.isBareValue piece) :
      Ahead track source (.bare tag name equals first (Piece.stopOfAll first.span.start inside))
        (rowOf source rest)
        (tag.goOn track (Segment.readAttribute name (.markup equals :: (inside ++ rest))).1
          (Segment.readAttribute name (.markup equals :: (inside ++ rest))).2)
  | finished : Ahead track source .finished (rowOf source []) []

/-- A cursor stands where the readers of pieces can stand: what it has found and what is still to be
    found are the segments of the source. -/
def Stands (track : Bool) (source : List Char) (cursor : Cursor) : Prop :=
  ∃ rest, Ahead track source cursor.loop ((tokens source).drop cursor.position) rest
    ∧ cursor.found.reverse ++ rest = segments track (locatedPieces source)

/-- A round takes at least one token, or it leaves its loop. -/
def Advances (cursor next : Cursor) : Prop :=
  cursor.position < next.position
    ∨ cursor.position = next.position ∧ next.loop.depth < cursor.loop.depth

/-- A round returns, and leads on. -/
def Goes (track : Bool) (source : List Char) (cursor : Cursor) : Prop :=
  ∃ next, cursor.step track source (tokens source) = .ok next ∧ next.Stands track source
    ∧ cursor.Advances next

variable {track : Bool} {source : List Char} {position : Nat} {found : List Segment}
variable {pieces : List (Piece Token)} {token : Token} {tag : Tag}

/-- A segment that has been read to its end leaves the reader in the document. -/
theorem goes_emit {cursor : Cursor} {segment : Segment}
    (hstep : cursor.step track source (tokens source) = .ok (cursor.emit segment position))
    (hsuffix : pieces <:+ locatedPieces source)
    (hahead : (tokens source).drop position = rowOf source pieces)
    (hfound : cursor.found.reverse ++ segment :: segments track pieces
      = segments track (locatedPieces source))
    (hadvance : cursor.Advances (cursor.emit segment position)) : Goes track source cursor := by
  refine ⟨_, hstep, ⟨segments track pieces, ?_, ?_⟩, hadvance⟩
  · show Ahead track source .document ((tokens source).drop position) _
    rw [hahead]
    exact .document hsuffix
  · rw [← hfound]
    simp [emit]

/-- An item that has been read to its end leaves the reader in its tag. -/
theorem goes_inTag {cursor : Cursor}
    (hstep : cursor.step track source (tokens source) = .ok (cursor.inTag tag position))
    (hsuffix : pieces <:+ locatedPieces source)
    (hahead : (tokens source).drop position = rowOf source pieces)
    (hfound : cursor.found.reverse ++ tag.finish track (Segment.readTagBody track tag.stop pieces)
      = segments track (locatedPieces source))
    (hadvance : cursor.Advances (cursor.inTag tag position)) : Goes track source cursor := by
  refine ⟨_, hstep, ⟨_, ?_, hfound⟩, hadvance⟩
  show Ahead track source (.tag tag) ((tokens source).drop position) _
  rw [hahead]
  exact .tag hsuffix

/-! ## 2. ERB tags -/

theorem of?_text (opening : Opening) : Opening.of? opening.text = some opening := by
  cases opening <;> decide

/-- **An ERB tag is read from its tokens as from its piece.** -/
theorem readErb_of_drop {opening : Opening} {mark : Token} {ending : Ending Token}
    (hsuffix : (.erb opening mark ending :: pieces) <:+ locatedPieces source)
    (hahead : (tokens source).drop position = rowOf source (.erb opening mark ending :: pieces)) :
    readErb source (tokens source) position
      = .ok (Segment.erbTag opening mark ending,
          position + (Piece.erb opening mark ending).parts.length) := by
  have hpiece : .erb opening mark ending ∈ locatedPieces source :=
    hsuffix.subset List.mem_cons_self
  obtain ⟨hmark, hcontent, hclosing⟩ := typed_of_mem_locatedPieces hpiece
  have hvalue : valueOf source mark = .ok opening.text := by
    rw [valueOf_of_mem (mem_tokens_of_mem_parts hpiece List.mem_cons_self),
      text_mark_of_mem hpiece]
  obtain ⟨next, more, hrow, hnext, hend⟩ :=
    exists_head_rowOf ((List.suffix_cons _ _).trans hsuffix)
  rw [rowOf_cons, hrow] at hahead
  have hfirst := tokenAt_head hahead
  have hempty := spanOf_of_leadsTo (.refl mark.span.stop)
  cases ending with
  | bare =>
    have hafter : tokenAt (tokens source) (position + 1) = .ok next := tokenAt_add hahead rfl
    simp only [readErb, hfirst, hvalue, of?_text, hafter, if_neg hnext, hempty, if_neg hend, bind,
      Except.bind, pure, Except.pure]
    rfl
  | running content =>
    have hinside : tokenAt (tokens source) (position + 1) = .ok content := tokenAt_add hahead rfl
    have hafter : tokenAt (tokens source) (position + 2) = .ok next := tokenAt_add hahead rfl
    simp only [readErb, hfirst, hvalue, of?_text, hinside, if_pos (hcontent content rfl), hafter,
      if_neg hend, bind, Except.bind, pure, Except.pure]
    rfl
  | closed content closing =>
    have hinside : tokenAt (tokens source) (position + 1) = .ok content := tokenAt_add hahead rfl
    have hafter : tokenAt (tokens source) (position + 2) = .ok closing := tokenAt_add hahead rfl
    simp only [readErb, hfirst, hvalue, of?_text, hinside, if_pos (hcontent content rfl), hafter,
      if_pos (hclosing closing rfl), bind, Except.bind, pure, Except.pure]
    rfl

/-! ## 3. The document -/

section Document

variable (hsuffix : (.markup token :: pieces) <:+ locatedPieces source)
variable (hahead : (tokens source).drop position = rowOf source (.markup token :: pieces))
variable (hfound : found.reverse ++ segments track (.markup token :: pieces)
  = segments track (locatedPieces source))

include hsuffix hahead hfound

/-- A token that begins nothing is a text. -/
theorem goes_text (hnext : Segment.next track token pieces = (.text token, pieces))
    (hstep : stepDocument source (tokens source) ⟨position, .document, found⟩
      = .ok (emit ⟨position, .document, found⟩ (.text token) (position + 1))) :
    Goes track source ⟨position, .document, found⟩ := by
  rw [segments, hnext] at hfound
  exact goes_emit hstep ((List.suffix_cons _ _).trans hsuffix) (drop_succ hahead) hfound
    (Or.inl (Nat.lt_succ_self _))

theorem goes_commentStart (hkind : token.kind = .commentStart) :
    Goes track source ⟨position, .document, found⟩ := by
  refine ⟨⟨position + 1, .comment token token.span.stop, found⟩, ?_, ⟨_, ?_, hfound⟩,
    Or.inl (Nat.lt_succ_self _)⟩
  · simp only [step, stepDocument, tokenAt_head hahead, hkind, bind, Except.bind, pure, Except.pure]
  · have hnext : Segment.next track token pieces = (.comment (Segment.readComment token pieces).1,
        (Segment.readComment token pieces).2) := by
      simp [Segment.next, hkind]
    rw [segments, hnext, drop_succ hahead]
    exact @Ahead.comment track source token pieces [] _ hsuffix rfl (by simp)

theorem goes_tagStart (hkind : token.kind = .tagStart) :
    Goes track source ⟨position, .document, found⟩ := by
  have hrest : pieces <:+ locatedPieces source := (List.suffix_cons _ _).trans hsuffix
  have hpeek : kindAt (tokens source) (position + 1) = kindAt (rowOf source pieces) 0 :=
    kindAt_add hahead 1
  have hcurrent := tokenAt_head hahead
  by_cases hname : kindAt (rowOf source pieces) 0 = .identifier
  · obtain ⟨name, more, rfl, hkindName⟩ := exists_markup_of_kindAt hrest hname rfl (by simp)
    have htoken : tokenAt (tokens source) (position + 1) = .ok name := tokenAt_add hahead rfl
    have hvalue := valueOf_of_mem (mem_tokens_of_markup (hrest.subset List.mem_cons_self))
    refine ⟨⟨position + 2, .tag ⟨token, name, lower name.text, [], name.span.stop⟩, found⟩, ?_,
      ⟨_, ?_, hfound⟩, Or.inl (by simp)⟩
    · simp only [step, stepDocument, hcurrent, hkind, hpeek, if_pos hname, htoken, hvalue, bind,
        Except.bind, pure, Except.pure]
    · have hnext : segments track (.markup token :: .markup name :: more)
          = Tag.finish track ⟨token, name, lower name.text, [], name.span.stop⟩
            (Segment.readTagBody track name.span.stop more) := by
        rw [segments]
        simp [Segment.next, hkind, hkindName, Segment.readOpenTag, Tag.finish]
      rw [hnext, drop_succ (drop_succ hahead)]
      exact .tag ((List.suffix_cons _ _).trans hrest)
  · have hnext : Segment.next track token pieces = (.text token, pieces) := by
      match pieces with
      | [] | .erb .. :: _ => simp [Segment.next, hkind]
      | .markup name :: more =>
        have hother : name.kind ≠ .identifier := hname
        simp [Segment.next, hkind, hother]
    apply goes_text hsuffix hahead hfound hnext
    simp only [stepDocument, hcurrent, hkind, hpeek, if_neg hname, bind, Except.bind, pure,
      Except.pure]

theorem goes_tagStartClose (hkind : token.kind = .tagStartClose) :
    Goes track source ⟨position, .document, found⟩ := by
  have hrest : pieces <:+ locatedPieces source := (List.suffix_cons _ _).trans hsuffix
  have hpeek : kindAt (tokens source) (position + 1) = kindAt (rowOf source pieces) 0 :=
    kindAt_add hahead 1
  have hpeekStop : kindAt (tokens source) (position + 2) = kindAt (rowOf source pieces) 1 :=
    kindAt_add hahead 2
  have hcurrent := tokenAt_head hahead
  by_cases hends : kindAt (rowOf source pieces) 0 = .identifier
      ∧ kindAt (rowOf source pieces) 1 = .tagEnd
  · obtain ⟨hname, hstop⟩ := hends
    obtain ⟨name, more, rfl, hkindName⟩ := exists_markup_of_kindAt hrest hname rfl (by simp)
    have hmore : more <:+ locatedPieces source := (List.suffix_cons _ _).trans hrest
    have hlast : kindAt (rowOf source more) 0 = .tagEnd := hstop
    obtain ⟨stop, others, rfl, hkindStop⟩ := exists_markup_of_kindAt hmore hlast rfl (by simp)
    have htoken : tokenAt (tokens source) (position + 1) = .ok name := tokenAt_add hahead rfl
    have htokenStop : tokenAt (tokens source) (position + 2) = .ok stop := tokenAt_add hahead rfl
    have hvalue := valueOf_of_mem (mem_tokens_of_markup (hrest.subset List.mem_cons_self))
    have hread : found.reverse
        ++ .closeTag (lower name.text) ⟨name.span, token.span.start, stop.span.stop⟩
          :: segments track others = segments track (locatedPieces source) := by
      rw [segments] at hfound
      simpa [Segment.next, hkind, hkindName, hkindStop] using hfound
    refine goes_emit ?_ ((List.suffix_cons _ _).trans hmore)
      (drop_succ (drop_succ (drop_succ hahead))) hread
      (Or.inl (Nat.lt_add_of_pos_right (Nat.succ_pos 2)))
    simp only [step, stepDocument, hcurrent, hkind, hpeek, hpeekStop,
      if_pos (And.intro hname hstop), htoken, htokenStop, hvalue, bind, Except.bind, pure,
      Except.pure]
  · have hnext : Segment.next track token pieces = (.text token, pieces) := by
      rcases Segment.next_cases track token pieces with ⟨hother, -⟩ | ⟨_, _, hother, -⟩
        | ⟨name, stop, more, -, hname, hstop, rfl, -⟩ | htext
      · rw [hkind] at hother
        cases hother
      · rw [hkind] at hother
        cases hother
      · exact absurd ⟨hname, hstop⟩ hends
      · exact htext
    apply goes_text hsuffix hahead hfound hnext
    simp only [stepDocument, hcurrent, hkind, hpeek, hpeekStop, if_neg hends, bind, Except.bind,
      pure, Except.pure]

theorem goes_markup : Goes track source ⟨position, .document, found⟩ := by
  have hcurrent := tokenAt_head hahead
  have hmem : .markup token ∈ locatedPieces source := hsuffix.subset List.mem_cons_self
  have htyped : token.kind.isErb = false := typed_of_mem_locatedPieces hmem
  have heof : token.kind ≠ .eof := kind_ne_eof_of_mem_parts hmem List.mem_cons_self
  cases hkind : token.kind
  case commentStart => exact goes_commentStart hsuffix hahead hfound hkind
  case tagStart => exact goes_tagStart hsuffix hahead hfound hkind
  case tagStartClose => exact goes_tagStartClose hsuffix hahead hfound hkind
  case eof => exact absurd hkind heof
  case erbStart | erbContent | erbEnd => rw [hkind] at htyped; cases htyped
  all_goals
    apply goes_text hsuffix hahead hfound (by simp [Segment.next, hkind])
    simp only [stepDocument, hcurrent, hkind, bind, Except.bind, pure, Except.pure]

end Document

theorem goes_document (hsuffix : pieces <:+ locatedPieces source)
    (hahead : (tokens source).drop position = rowOf source pieces)
    (hfound : found.reverse ++ segments track pieces = segments track (locatedPieces source)) :
    Goes track source ⟨position, .document, found⟩ := by
  match pieces with
  | [] =>
    have hkind : (Token.eofAt (Point.origin.advance source)).kind = .eof := rfl
    refine ⟨⟨position, .finished, found⟩, ?_, ⟨[], ?_, ?_⟩, Or.inr ⟨rfl, Nat.zero_lt_one⟩⟩
    · simp only [step, stepDocument, tokenAt_head hahead, hkind, bind, Except.bind, pure,
        Except.pure]
    · rw [hahead]
      exact .finished
    · rw [← hfound, segments]
  | .markup token :: more => exact goes_markup hsuffix hahead hfound
  | .erb opening mark ending :: more =>
    have hread := readErb_of_drop hsuffix hahead
    have hkind : mark.kind = .erbStart :=
      (typed_of_mem_locatedPieces (hsuffix.subset List.mem_cons_self)).1
    rw [rowOf_cons] at hahead
    rw [segments] at hfound
    refine goes_emit ?_ ((List.suffix_cons _ _).trans hsuffix) (drop_add hahead) hfound
      (Or.inl (Nat.lt_add_of_pos_right (Nat.succ_pos _)))
    simp only [step, stepDocument, tokenAt_head hahead, hkind, hread, bind, Except.bind, pure,
      Except.pure]

/-! ## 4. Comments and quoted values -/

section Passing

variable {mark quote name : Token} {passed ahead more : List Token}

/-- Whatever has been passed, the end of the source is still ahead. -/
theorem exists_cons_of_split (hsplit : rowOf source pieces = passed ++ ahead)
    (hinside : ∀ token ∈ passed, token.kind ≠ .eof) : ∃ token more, ahead = token :: more := by
  cases ahead with
  | cons token more => exact ⟨token, more, rfl⟩
  | nil =>
    rw [List.append_nil] at hsplit
    have hmem : .eofAt (Point.origin.advance source) ∈ passed := by
      rw [← hsplit, rowOf]
      simp
    exact absurd rfl (hinside _ hmem)

theorem leadsTo_stopOfAll (hsuffix : (.markup mark :: pieces) <:+ locatedPieces source)
    (takes : Piece Token → Bool) :
    mark.span.stop.LeadsTo (Piece.stopOfAll mark.span.stop (pieces.takeWhile takes)) := by
  obtain ⟨_, -, -, htiles⟩ := Piece.exists_tiles_of_suffix (tiles_locatedPieces source) hsuffix
  exact ((Piece.Passes.dropWhile mark.span.stop takes pieces).tiles htiles).1

/-- A scan that takes what is inside and is stopped behind it takes nothing else. -/
theorem span_of_stopped {takes : Piece Token → Bool} {inside rest : List (Piece Token)}
    (hinside : ∀ piece ∈ inside, takes piece = true)
    (hstop : ∀ piece, rest.head? = some piece → takes piece = false) :
    (inside ++ rest).takeWhile takes = inside ∧ (inside ++ rest).dropWhile takes = rest := by
  rw [List.takeWhile_append_of_pos hinside, List.dropWhile_append_of_pos hinside]
  cases rest with
  | nil => simp
  | cons piece rest => simp [hstop piece rfl]

section Scans

variable (takes : Piece Token → Bool) {passes : Token → Prop}
variable (hrest : pieces <:+ locatedPieces source)
variable (hsplit : rowOf source pieces = passed ++ token :: more)
variable (herbs : ∀ opening mark ending, takes (.erb opening mark ending) = true)
variable (htakes : ∀ token, passes token → takes (.markup token) = true)
variable (hpassed : ∀ token ∈ passed, passes token)

include htakes herbs in
theorem takes_of_passes {inside : List (Piece Token)}
    (h : ∀ token ∈ inside.flatMap Piece.parts, passes token) :
    ∀ piece ∈ inside, takes piece = true := by
  intro piece hpiece
  cases piece with
  | erb opening mark ending => exact herbs opening mark ending
  | markup token =>
    exact htakes token (h token (List.mem_flatMap.2 ⟨_, hpiece, List.mem_cons_self⟩))

include hrest hsplit herbs htakes hpassed

/-- A loop that comes to a token which stops it has passed the pieces that a scan takes. -/
theorem scan_of_split (hstop : takes (.markup token) = false) (herb : token.kind.isErb = false)
    (heof : token.kind ≠ .eof) :
    ∃ rest, passed = (pieces.takeWhile takes).flatMap Piece.parts
      ∧ pieces.dropWhile takes = .markup token :: rest ∧ more = rowOf source rest
      ∧ rest <:+ locatedPieces source := by
  obtain ⟨inside, rest, rfl, rfl, rfl⟩ := exists_markup_of_split hrest hsplit herb heof
  obtain ⟨htake, hdrop⟩ := @span_of_stopped takes inside (.markup token :: rest)
    (takes_of_passes takes herbs htakes hpassed) (by simpa using hstop)
  refine ⟨rest, by rw [htake], hdrop, rfl, ?_⟩
  exact (List.suffix_append_of_suffix (List.suffix_cons _ _)).trans hrest

/-- A loop that comes to the end has passed everything. -/
theorem scan_of_split_eof (heof : token.kind = .eof) :
    passed = (pieces.takeWhile takes).flatMap Piece.parts ∧ pieces.dropWhile takes = []
      ∧ token :: more = rowOf source [] := by
  obtain ⟨rfl, hlast⟩ := eq_of_split_eof hrest hsplit heof
  have hall := takes_of_passes takes herbs htakes hpassed
  refine ⟨?_, List.dropWhile_eq_nil_iff.2 hall, hlast⟩
  rw [List.takeWhile_eq_self_iff.2 hall]

end Scans

/-- A comment ends with its end mark, or with the source. -/
theorem goes_comment (hsuffix : (.markup mark :: pieces) <:+ locatedPieces source)
    (hsplit : rowOf source pieces = passed ++ ahead)
    (hinside : ∀ token ∈ passed, token.kind ≠ .commentEnd ∧ token.kind ≠ .eof)
    (hahead : (tokens source).drop position = ahead)
    (hfound : found.reverse ++ .comment (Segment.readComment mark pieces).1
        :: segments track (Segment.readComment mark pieces).2
      = segments track (locatedPieces source)) :
    Goes track source ⟨position, .comment mark (lastStop mark.span.stop passed), found⟩ := by
  have hrest : pieces <:+ locatedPieces source := (List.suffix_cons _ _).trans hsuffix
  have hspan := spanOf_of_leadsTo
    (leadsTo_stopOfAll hsuffix fun piece => !piece.isMarkup .commentEnd)
  have htakes : ∀ token : Token, token.kind ≠ .commentEnd ∧ token.kind ≠ .eof →
      (!(Piece.markup token).isMarkup .commentEnd) = true := by
    intro token hpasses
    simpa [Piece.isMarkup] using hpasses.1
  obtain ⟨token, more, rfl⟩ := exists_cons_of_split hsplit fun token hmem => (hinside token hmem).2
  have hcurrent := tokenAt_head hahead
  by_cases hend : token.kind = .commentEnd
  · obtain ⟨rest, rfl, hdrop, rfl, hmore⟩ :=
      scan_of_split (fun piece => !piece.isMarkup .commentEnd) hrest hsplit (fun _ _ _ => rfl)
        htakes hinside (by simp [Piece.isMarkup, hend]) (by simp [hend, TokenKind.isErb])
        (by simp [hend])
    rw [lastStop_flatMap_parts]
    simp only [Segment.readComment, hdrop] at hfound
    refine goes_emit ?_ hmore (drop_succ hahead) hfound (Or.inl (Nat.lt_succ_self _))
    simp only [step, stepComment, hcurrent, if_pos hend, hspan, bind, Except.bind, pure,
      Except.pure]
    rfl
  · by_cases heof : token.kind = .eof
    · obtain ⟨rfl, hdrop, hlast⟩ := scan_of_split_eof (fun piece => !piece.isMarkup .commentEnd)
        hrest hsplit (fun _ _ _ => rfl) htakes hinside heof
      rw [hlast] at hahead
      rw [lastStop_flatMap_parts]
      simp only [Segment.readComment, hdrop] at hfound
      refine goes_emit ?_ List.nil_suffix hahead hfound (Or.inr ⟨rfl, Nat.lt_succ_self 1⟩)
      simp only [step, stepComment, hcurrent, if_neg hend, if_pos heof, hspan, bind, Except.bind,
        pure, Except.pure]
    · -- the token may be a part of an ERB tag, so only the tokens passed are known to be whole
      refine ⟨⟨position + 1, .comment mark token.span.stop, found⟩, ?_, ⟨_, ?_, hfound⟩,
        Or.inl (Nat.lt_succ_self _)⟩
      · simp only [step, stepComment, hcurrent, if_neg hend, if_neg heof, bind, Except.bind, pure,
          Except.pure]
      · have hnext : ∀ other ∈ passed ++ [token], other.kind ≠ .commentEnd ∧ other.kind ≠ .eof :=
          List.forall_mem_append.2 ⟨hinside, List.forall_mem_singleton.2 ⟨hend, heof⟩⟩
        rw [drop_succ hahead, ← lastStop_concat mark.span.stop passed token]
        exact .comment hsuffix (by simpa using hsplit) hnext

/-- A quoted value ends with the same quote, or with the source. -/
theorem goes_quoted (hsuffix : (.markup quote :: pieces) <:+ locatedPieces source)
    (hsplit : rowOf source pieces = passed ++ ahead)
    (hinside : ∀ token ∈ passed,
      ¬ (token.kind = .quote ∧ token.text = quote.text) ∧ token.kind ≠ .eof)
    (hahead : (tokens source).drop position = ahead)
    (hfound : found.reverse ++ tag.goOn track ⟨name.span, some (Segment.readQuoted quote pieces).1,
        ⟨name.span.start, (Segment.readQuoted quote pieces).1.span.stop⟩⟩
        (Segment.readQuoted quote pieces).2 = segments track (locatedPieces source)) :
    Goes track source
      ⟨position, .quoted tag name quote quote.text (lastStop quote.span.stop passed), found⟩ := by
  have hrest : pieces <:+ locatedPieces source := (List.suffix_cons _ _).trans hsuffix
  have hspan := spanOf_of_leadsTo
    (leadsTo_stopOfAll hsuffix fun piece => !Segment.closesQuote quote piece)
  have htakes : ∀ token : Token,
      ¬ (token.kind = .quote ∧ token.text = quote.text) ∧ token.kind ≠ .eof →
        (!Segment.closesQuote quote (.markup token)) = true := by
    intro token hpasses
    simpa [Segment.closesQuote, ← not_and_or] using hpasses.1
  obtain ⟨token, more, rfl⟩ := exists_cons_of_split hsplit fun token hmem => (hinside token hmem).2
  have hcurrent := tokenAt_head hahead
  have hvalue : valueOf source token = .ok token.text :=
    valueOf_of_mem (List.mem_of_mem_drop (hahead ▸ List.mem_cons_self))
  by_cases heof : token.kind = .eof
  · obtain ⟨rfl, hdrop, hlast⟩ := scan_of_split_eof (fun piece => !Segment.closesQuote quote piece)
      hrest hsplit (fun _ _ _ => rfl) htakes hinside heof
    rw [hlast] at hahead
    rw [lastStop_flatMap_parts]
    simp only [Segment.readQuoted, hdrop] at hfound
    refine goes_inTag ?_ List.nil_suffix hahead hfound (Or.inr ⟨rfl, Nat.lt_succ_self 2⟩)
    simp only [step, stepQuoted, hcurrent, hvalue, if_pos heof, hspan, bind, Except.bind, pure,
      Except.pure]
    rfl
  · by_cases hend : token.kind = .quote ∧ token.text = quote.text
    · obtain ⟨rest, rfl, hdrop, rfl, hmore⟩ :=
        scan_of_split (fun piece => !Segment.closesQuote quote piece) hrest hsplit
          (fun _ _ _ => rfl) htakes hinside (by simp [Segment.closesQuote, hend])
          (by simp [hend.1, TokenKind.isErb]) heof
      rw [lastStop_flatMap_parts]
      simp only [Segment.readQuoted, hdrop] at hfound
      refine goes_inTag ?_ hmore (drop_succ hahead) hfound (Or.inl (Nat.lt_succ_self _))
      simp only [step, stepQuoted, hcurrent, hvalue, if_neg heof, if_pos hend, hspan, bind,
        Except.bind, pure, Except.pure]
      rfl
    · refine ⟨⟨position + 1, .quoted tag name quote quote.text token.span.stop, found⟩, ?_,
        ⟨_, ?_, hfound⟩, Or.inl (Nat.lt_succ_self _)⟩
      · simp only [step, stepQuoted, hcurrent, hvalue, if_neg heof, if_neg hend, bind, Except.bind,
          pure, Except.pure]
      · have hnext : ∀ other ∈ passed ++ [token],
            ¬ (other.kind = .quote ∧ other.text = quote.text) ∧ other.kind ≠ .eof :=
          List.forall_mem_append.2 ⟨hinside, List.forall_mem_singleton.2 ⟨hend, heof⟩⟩
        rw [drop_succ hahead, ← lastStop_concat quote.span.stop passed token]
        exact .quoted hsuffix (by simpa using hsplit) hnext

end Passing

/-! ## 5. Values without quotes -/

section Bare

variable {name equals first : Token} {inside rest : List (Piece Token)}

theorem start_of_head {piece : Piece Token}
    (hhead : (rowOf source (piece :: rest)).head? = some first) :
    first.span.start = piece.start := by
  cases piece with
  | markup token =>
    cases hhead
    rfl
  | erb opening mark ending =>
    cases hhead
    rfl

/-- A value without quotes that is not empty takes some room. -/
theorem reaches_stopOfAll {piece : Piece Token}
    (hsuffix : (piece :: (inside ++ rest)) <:+ locatedPieces source) :
    piece.start.Reaches (Piece.stopOfAll piece.start (piece :: inside)) := by
  obtain ⟨_, -, hforward, htiles⟩ :=
    Piece.exists_tiles_of_suffix (tiles_locatedPieces source) hsuffix
  rw [Piece.stopOfAll_cons]
  exact hforward.trans_leadsTo (Piece.Passes.tiles ⟨inside, rfl, rfl⟩ htiles).1

theorem readValue_of_stopped (hhead : (rowOf source (inside ++ rest)).head? = some first)
    (hquote : first.kind ≠ .quote) (htakes : ∀ piece ∈ inside, Segment.isBareValue piece = true)
    (hstop : ∀ piece, rest.head? = some piece → Segment.isBareValue piece = false) :
    Segment.readValue (inside ++ rest) =
      (if inside.isEmpty then none
        else some ⟨⟨first.span.start, Piece.stopOfAll first.span.start inside⟩, false,
          ⟨first.span.start, Piece.stopOfAll first.span.start inside⟩⟩, rest) := by
  obtain ⟨htake, hdrop⟩ := span_of_stopped htakes hstop
  cases hrow : inside ++ rest with
  | nil =>
    obtain ⟨rfl, rfl⟩ := List.append_eq_nil_iff.1 hrow
    rfl
  | cons piece more =>
    rw [hrow] at hhead htake hdrop
    rw [start_of_head hhead]
    cases piece with
    | markup token =>
      cases hhead
      simp only [Segment.readValue, if_neg hquote, htake, hdrop]
    | erb opening mark ending =>
      -- no part of such a value is an ERB tag
      have hnone : inside = [] := by
        rw [← htake]
        rfl
      subst hnone
      simp only [Segment.readValue, List.isEmpty_nil, if_true, ← hrow, List.nil_append]

variable (hsuffix : (.markup equals :: (inside ++ rest)) <:+ locatedPieces source)
variable (hequals : equals.kind = .equals)
variable (hhead : (rowOf source (inside ++ rest)).head? = some first)
variable (hquote : first.kind ≠ .quote)
variable (htakes : ∀ piece ∈ inside, Segment.isBareValue piece = true)
variable (hahead : (tokens source).drop position = rowOf source rest)
variable (hfound : found.reverse
    ++ tag.goOn track (Segment.readAttribute name (.markup equals :: (inside ++ rest))).1
      (Segment.readAttribute name (.markup equals :: (inside ++ rest))).2
  = segments track (locatedPieces source))

include hsuffix hequals hhead hquote htakes hahead hfound

/-- What cannot be part of the value ends it. -/
theorem goes_bare_end (htoken : tokenAt (tokens source) position = .ok token)
    (hkind : ¬ (token.kind = .identifier ∨ token.kind = .character ∨ token.kind = .slash))
    (hstop : ∀ piece, rest.head? = some piece → Segment.isBareValue piece = false) :
    Goes track source ⟨position,
      .bare tag name equals first (Piece.stopOfAll first.span.start inside), found⟩ := by
  have hmore : (inside ++ rest) <:+ locatedPieces source := (List.suffix_cons _ _).trans hsuffix
  have hrest : rest <:+ locatedPieces source := (List.suffix_append _ _).trans hmore
  simp only [Segment.readAttribute, if_pos hequals,
    readValue_of_stopped hhead hquote htakes hstop] at hfound
  cases inside with
  | nil =>
    refine goes_inTag ?_ hrest hahead hfound (Or.inr ⟨rfl, Nat.lt_succ_self 2⟩)
    have hempty : ¬ first.span.start.offset < (Piece.stopOfAll first.span.start []).offset :=
      Nat.lt_irrefl _
    simp only [step, stepBare, htoken, if_neg hkind, if_neg hempty, bind, Except.bind, pure,
      Except.pure]
    rfl
  | cons piece inside =>
    have hreaches := reaches_stopOfAll hmore
    rw [← start_of_head hhead] at hreaches
    have hspan := spanOf_of_leadsTo hreaches.leadsTo
    refine goes_inTag ?_ hrest hahead hfound (Or.inr ⟨rfl, Nat.lt_succ_self 2⟩)
    simp only [step, stepBare, htoken, if_neg hkind, if_pos hreaches.offset_lt, hspan, bind,
      Except.bind, pure, Except.pure]
    rfl

theorem goes_bare : Goes track source ⟨position,
    .bare tag name equals first (Piece.stopOfAll first.span.start inside), found⟩ := by
  cases rest with
  | nil =>
    exact goes_bare_end hsuffix hequals hhead hquote htakes hahead hfound (tokenAt_head hahead)
      (by simp [Token.eofAt, Token.ofLexeme]) (by simp)
  | cons piece rest =>
    cases piece with
    | erb opening mark ending =>
      have hpiece : .erb opening mark ending ∈ locatedPieces source := hsuffix.subset (by simp)
      have hmark : mark.kind = .erbStart := (typed_of_mem_locatedPieces hpiece).1
      exact goes_bare_end hsuffix hequals hhead hquote htakes hahead hfound (tokenAt_head hahead)
        (by simp [hmark]) (by simp [Segment.isBareValue])
    | markup token =>
      have htoken := tokenAt_head hahead
      by_cases hkind : token.kind = .identifier ∨ token.kind = .character ∨ token.kind = .slash
      · refine ⟨⟨position + 1, .bare tag name equals first token.span.stop, found⟩, ?_,
          ⟨_, ?_, hfound⟩, Or.inl (Nat.lt_succ_self _)⟩
        · simp only [step, stepBare, htoken, if_pos hkind, bind, Except.bind, pure, Except.pure]
        · rw [drop_succ hahead]
          have hbare : Segment.isBareValue (.markup token) = true := by
            simpa [Segment.isBareValue, or_assoc] using hkind
          have happend : inside ++ .markup token :: rest = (inside ++ [.markup token]) ++ rest := by
            simp
          rw [happend] at hsuffix hhead ⊢
          have hall : ∀ piece ∈ inside ++ [.markup token], Segment.isBareValue piece = true :=
            List.forall_mem_append.2 ⟨htakes, List.forall_mem_singleton.2 hbare⟩
          have hnext := @Ahead.bare track source tag name _ _ _ _ hsuffix hequals hhead hquote hall
          rw [Piece.stopOfAll_append] at hnext
          exact hnext
      · have hbare : Segment.isBareValue (.markup token) = false := by
          simpa [Segment.isBareValue, and_assoc] using hkind
        exact goes_bare_end hsuffix hequals hhead hquote htakes hahead hfound htoken hkind
          (by simpa using hbare)

end Bare

/-! ## 6. Opening tags -/

section Tags

variable (hsuffix : (.markup token :: pieces) <:+ locatedPieces source)
variable (hahead : (tokens source).drop position = rowOf source (.markup token :: pieces))

include hsuffix hahead

/-- A token that closes the tag leads back to the document. -/
theorem goes_close {selfClosing : Bool}
    (hfound : found.reverse ++ tag.finish track ⟨[], selfClosing, true, token.span.stop, pieces⟩
      = segments track (locatedPieces source))
    (hstep : stepTag track source (tokens source) ⟨position, .tag tag, found⟩ tag
      = .ok (emit ⟨position, .tag tag, found⟩ (tag.close selfClosing true token.span.stop)
          (position + 1))) : Goes track source ⟨position, .tag tag, found⟩ := by
  have hread : found.reverse ++ tag.close selfClosing true token.span.stop :: segments track pieces
      = segments track (locatedPieces source) := by
    simpa [Tag.finish, Tag.close] using hfound
  exact goes_emit hstep ((List.suffix_cons _ _).trans hsuffix) (drop_succ hahead) hread
    (Or.inl (Nat.lt_succ_self _))

/-- A name without an equals sign is an attribute without a value. -/
theorem goes_name {next : Token} (hkind : token.kind = .identifier)
    (hnext : tokenAt (tokens source) (position + 1) = .ok next) (hequals : next.kind ≠ .equals)
    (hattr : Segment.readAttribute token pieces = (⟨token.span, none, token.span⟩, pieces))
    (hfound : found.reverse
        ++ tag.goOn track (Segment.readAttribute token pieces).1
          (Segment.readAttribute token pieces).2
      = segments track (locatedPieces source)) : Goes track source ⟨position, .tag tag, found⟩ := by
  rw [hattr] at hfound
  refine goes_inTag ?_ ((List.suffix_cons _ _).trans hsuffix) (drop_succ hahead) hfound
    (Or.inl (Nat.lt_succ_self _))
  simp only [step, stepTag, tokenAt_head hahead, hkind, hnext, if_neg hequals, bind, Except.bind,
    pure, Except.pure]

/-- A name and an equals sign lead into the loop of the value. -/
theorem goes_equals {equals : Token} {more : List (Piece Token)}
    (hpieces : pieces = .markup equals :: more) (hkind : token.kind = .identifier)
    (hequals : equals.kind = .equals)
    (hfound : found.reverse
        ++ tag.goOn track (Segment.readAttribute token pieces).1
          (Segment.readAttribute token pieces).2
      = segments track (locatedPieces source)) : Goes track source ⟨position, .tag tag, found⟩ := by
  subst hpieces
  have hrest : (.markup equals :: more) <:+ locatedPieces source :=
    (List.suffix_cons _ _).trans hsuffix
  have hmore : more <:+ locatedPieces source := (List.suffix_cons _ _).trans hrest
  have hcurrent := tokenAt_head hahead
  have hnext : tokenAt (tokens source) (position + 1) = .ok equals := tokenAt_add hahead rfl
  have hbehind : (tokens source).drop (position + 2) = rowOf source more :=
    drop_succ (drop_succ hahead)
  obtain ⟨first, others, hrow, -, -⟩ := exists_head_rowOf hmore
  have hfirst : tokenAt (tokens source) (position + 2) = .ok first :=
    tokenAt_head (hbehind.trans hrow)
  by_cases hquote : first.kind = .quote
  · have hpeek : kindAt (rowOf source more) 0 = .quote := by
      rw [hrow]
      exact hquote
    obtain ⟨quote, inside, rfl, -⟩ := exists_markup_of_kindAt hmore hpeek rfl (by simp)
    obtain ⟨rfl, -⟩ := List.cons.inj ((rowOf_markup source quote inside).symm.trans hrow)
    have hvalue := valueOf_of_mem (mem_tokens_of_markup (hmore.subset List.mem_cons_self))
    refine ⟨⟨position + 3, .quoted tag token quote quote.text quote.span.stop, found⟩, ?_,
      ⟨_, ?_, hfound⟩, Or.inl (Nat.lt_add_of_pos_right (Nat.succ_pos 2))⟩
    · simp only [step, stepTag, hcurrent, hkind, hnext, if_pos hequals, hfirst, if_pos hquote,
        hvalue, bind, Except.bind, pure, Except.pure]
    · have hattr : Segment.readAttribute token (.markup equals :: .markup quote :: inside)
          = (⟨token.span, some (Segment.readQuoted quote inside).1,
              ⟨token.span.start, (Segment.readQuoted quote inside).1.span.stop⟩⟩,
            (Segment.readQuoted quote inside).2) := by
        simp [Segment.readAttribute, Segment.readValue, hequals, hquote]
      rw [hattr, drop_succ hbehind]
      exact @Ahead.quoted track source tag token quote inside [] _ hmore rfl (by simp)
  · refine ⟨⟨position + 2, .bare tag token equals first first.span.start, found⟩, ?_,
      ⟨_, ?_, hfound⟩, Or.inl (Nat.lt_add_of_pos_right (Nat.succ_pos 1))⟩
    · simp only [step, stepTag, hcurrent, hkind, hnext, if_pos hequals, hfirst, if_neg hquote, bind,
        Except.bind, pure, Except.pure]
    · rw [hbehind]
      exact @Ahead.bare track source tag token equals first [] more hrest hequals
        (by simp [hrow]) hquote
        (by simp)

theorem goes_identifier (hkind : token.kind = .identifier)
    (hfound : found.reverse
        ++ tag.goOn track (Segment.readAttribute token pieces).1
          (Segment.readAttribute token pieces).2
      = segments track (locatedPieces source)) : Goes track source ⟨position, .tag tag, found⟩ := by
  match pieces with
  | [] =>
    exact goes_name hsuffix hahead hkind (tokenAt_add hahead rfl)
      (by simp [Token.eofAt, Token.ofLexeme]) rfl hfound
  | .erb opening mark ending :: more =>
    have hpiece : .erb opening mark ending ∈ locatedPieces source := hsuffix.subset (by simp)
    have hmark : mark.kind = .erbStart := (typed_of_mem_locatedPieces hpiece).1
    exact goes_name hsuffix hahead hkind (tokenAt_add hahead rfl) (by simp [hmark]) rfl hfound
  | .markup equals :: more =>
    by_cases hequals : equals.kind = .equals
    · exact goes_equals hsuffix hahead rfl hkind hequals hfound
    · exact goes_name hsuffix hahead hkind (tokenAt_add hahead rfl) hequals
        (by simp [Segment.readAttribute, hequals]) hfound

/-- By the kind of the token: it closes the tag, is an item of it, begins an attribute, or is passed
    over. -/
theorem goes_tag_markup
    (hfound : found.reverse
        ++ tag.finish track (Segment.readTagBody track tag.stop (.markup token :: pieces))
      = segments track (locatedPieces source)) : Goes track source ⟨position, .tag tag, found⟩ := by
  have hcurrent := tokenAt_head hahead
  have hmem : .markup token ∈ locatedPieces source := hsuffix.subset List.mem_cons_self
  have htyped : token.kind.isErb = false := typed_of_mem_locatedPieces hmem
  have heof : token.kind ≠ .eof := kind_ne_eof_of_mem_parts hmem List.mem_cons_self
  rw [Segment.readTagBody.eq_def] at hfound
  cases hkind : token.kind <;> simp only [hkind] at hfound
  case eof => exact absurd hkind heof
  case erbStart | erbContent | erbEnd => rw [hkind] at htyped; cases htyped
  case tagEnd | tagSelfClose =>
    apply goes_close hsuffix hahead hfound
    simp only [stepTag, hcurrent, hkind, bind, Except.bind, pure, Except.pure]
  case identifier =>
    rw [Tag.finish_cons track tag _ (Segment.readAttribute token pieces).1.span.stop] at hfound
    exact goes_identifier hsuffix hahead hkind hfound
  case whitespace | newline =>
    rw [Tag.finish_consSpace, ← Tag.stop_addSpace track tag token.span] at hfound
    refine goes_inTag ?_ ((List.suffix_cons _ _).trans hsuffix) (drop_succ hahead) hfound
      (Or.inl (Nat.lt_succ_self _))
    simp only [step, stepTag, hcurrent, hkind, bind, Except.bind, pure, Except.pure]
  all_goals
    refine @goes_inTag _ _ _ _ { tag with stop := token.span.stop } _ ?_
      ((List.suffix_cons _ _).trans hsuffix) (drop_succ hahead) hfound (Or.inl (Nat.lt_succ_self _))
    simp only [step, stepTag, hcurrent, hkind, bind, Except.bind, pure, Except.pure]

end Tags

theorem goes_tag (hsuffix : pieces <:+ locatedPieces source)
    (hahead : (tokens source).drop position = rowOf source pieces)
    (hfound : found.reverse ++ tag.finish track (Segment.readTagBody track tag.stop pieces)
      = segments track (locatedPieces source)) : Goes track source ⟨position, .tag tag, found⟩ := by
  match pieces with
  | [] =>
    have hkind : (Token.eofAt (Point.origin.advance source)).kind = .eof := rfl
    have hread : found.reverse ++ tag.close false false tag.stop :: segments track []
        = segments track (locatedPieces source) := by
      simpa [Segment.readTagBody, Tag.finish, Tag.close] using hfound
    refine goes_emit ?_ List.nil_suffix hahead hread (Or.inr ⟨rfl, Nat.lt_succ_self 1⟩)
    simp only [step, stepTag, tokenAt_head hahead, hkind, bind, Except.bind, pure, Except.pure]
  | .markup token :: more => exact goes_tag_markup hsuffix hahead hfound
  | .erb opening mark ending :: more =>
    have hread := readErb_of_drop hsuffix hahead
    have hkind : mark.kind = .erbStart :=
      (typed_of_mem_locatedPieces (hsuffix.subset List.mem_cons_self)).1
    rw [rowOf_cons] at hahead
    rw [Segment.readTagBody,
      Tag.finish_cons track tag _ (Segment.erbTag opening mark ending).span.stop]
      at hfound
    refine goes_inTag ?_ ((List.suffix_cons _ _).trans hsuffix) (drop_add hahead) hfound
      (Or.inl (Nat.lt_add_of_pos_right (Nat.succ_pos _)))
    simp only [step, stepTag, tokenAt_head hahead, hkind, hread, bind, Except.bind, pure,
      Except.pure]

/-! ## 7. Rounds without number -/

/-- Where the row ends. -/
def endIndex (row : List Token) : Nat :=
  row.findIdx fun token => token.kind == .eof

theorem endIndex_tokens (source : List Char) :
    endIndex (tokens source) + 1 = (tokens source).length := by
  obtain ⟨others, last, hrow, hlast, -, hkinds⟩ := (tiling_tokens source).ending
  have hothers : others.findIdx (fun token => token.kind == .eof) = others.length := by
    rw [List.findIdx_eq_length]
    intro token hmem
    simpa using hkinds token hmem
  rw [endIndex, hrow, List.findIdx_append, hothers, if_neg (Nat.lt_irrefl _)]
  simp [hlast]

theorem stands_start (track : Bool) (source : List Char) : start.Stands track source :=
  ⟨segments track (locatedPieces source), .document (List.suffix_refl _), rfl⟩

variable {cursor : Cursor}

/-- **A round of any loop returns and leads on**, from wherever a reader can stand. -/
theorem Stands.goes (h : cursor.Stands track source) (hloop : cursor.loop ≠ .finished) :
    Goes track source cursor := by
  obtain ⟨position, loop, found⟩ := cursor
  obtain ⟨rest, hahead, hfound⟩ := h
  generalize hdrop : (tokens source).drop position = ahead at hahead
  cases hahead with
  | document suffix => exact goes_document suffix hdrop hfound
  | comment suffix split inside => exact goes_comment suffix split inside hdrop hfound
  | tag suffix => exact goes_tag suffix hdrop hfound
  | quoted suffix split inside => exact goes_quoted suffix split inside hdrop hfound
  | bare suffix kind head notQuote takes =>
    exact goes_bare suffix kind head notQuote takes hdrop hfound
  | finished => exact absurd rfl hloop

/-- There is always a token ahead, at the latest the end. -/
theorem Ahead.ne_nil {loop : Loop} {ahead : List Token} {rest : List Segment}
    (h : Ahead track source loop ahead rest) : ahead ≠ [] := by
  have hrow : ∀ pieces, rowOf source pieces ≠ [] := by
    intro pieces
    simp [rowOf]
  cases h with
  | document suffix | tag suffix | bare suffix kind head notQuote takes | finished => exact hrow _
  | comment suffix split inside | quoted suffix split inside =>
    obtain ⟨token, more, rfl⟩ := exists_cons_of_split split fun token hmem => (inside token hmem).2
    simp

theorem Stands.position_le (h : cursor.Stands track source) :
    cursor.position ≤ endIndex (tokens source) := by
  obtain ⟨rest, hahead, -⟩ := h
  have hlt : cursor.position < (tokens source).length := by
    rw [← Nat.not_le]
    intro hle
    exact hahead.ne_nil (List.drop_eq_nil_of_le hle)
  rw [← endIndex_tokens] at hlt
  exact Nat.le_of_lt_succ hlt

/-- A reader that has finished stands at the end and has found everything. -/
theorem Stands.finished (h : cursor.Stands track source) (hloop : cursor.loop = .finished) :
    cursor.position = endIndex (tokens source)
      ∧ cursor.found.reverse = segments track (locatedPieces source) := by
  obtain ⟨position, loop, found⟩ := cursor
  obtain ⟨rest, hahead, hfound⟩ := h
  obtain rfl : loop = .finished := hloop
  generalize hdrop : (tokens source).drop position = ahead at hahead
  cases hahead
  refine ⟨?_, by simpa using hfound⟩
  have hlength := congrArg List.length hdrop
  have hend := endIndex_tokens source
  have hone : (rowOf source []).length = 1 := rfl
  rw [List.length_drop, hone] at hlength
  show position = endIndex (tokens source)
  omega

/-- **However many rounds there are, none breaks off.** -/
theorem Stands.run (h : cursor.Stands track source) (count : Nat) :
    ∃ last, Cursor.run track source (tokens source) count cursor = .ok last
      ∧ last.Stands track source := by
  induction count generalizing cursor with
  | zero => exact ⟨cursor, rfl, h⟩
  | succ count ih =>
    by_cases hloop : cursor.loop = .finished
    · have hstep : cursor.step track source (tokens source) = .ok cursor := by
        rw [step, hloop]
        rfl
      obtain ⟨last, hrun, hlast⟩ := ih h
      refine ⟨last, ?_, hlast⟩
      rw [Cursor.run, hstep]
      exact hrun
    · obtain ⟨next, hstep, hnext, -⟩ := h.goes hloop
      obtain ⟨last, hrun, hlast⟩ := ih hnext
      refine ⟨last, ?_, hlast⟩
      rw [Cursor.run, hstep]
      exact hrun

/-- How many rounds there can still be: a token is passed in one round, and there are three loops to
    leave at most. -/
def roundsLeft (row : List Token) (cursor : Cursor) : Nat :=
  4 * (endIndex row - cursor.position) + cursor.loop.depth

theorem Loop.depth_le (loop : Loop) : loop.depth ≤ 3 := by
  cases loop <;> simp [depth]

theorem Advances.roundsLeft_lt {row : List Token} {next : Cursor} (h : cursor.Advances next)
    (hnext : next.position ≤ endIndex row) : next.roundsLeft row < cursor.roundsLeft row := by
  have hdepth := next.loop.depth_le
  unfold roundsLeft
  rcases h with hlt | ⟨heq, hdeeper⟩
  · omega
  · rw [heq]
    omega

/-- **Every reader comes to its end**, after a number of rounds that is known beforehand. -/
theorem Stands.exists_finished (h : cursor.Stands track source) :
    ∃ count ≤ cursor.roundsLeft (tokens source), ∃ last,
      Cursor.run track source (tokens source) count cursor = .ok last ∧ last.Stands track source
        ∧ last.loop = .finished := by
  induction hsize : cursor.roundsLeft (tokens source) using Nat.strong_induction_on
    generalizing cursor with
  | _ size ih =>
    by_cases hloop : cursor.loop = .finished
    · exact ⟨0, Nat.zero_le _, cursor, rfl, h, hloop⟩
    · obtain ⟨next, hstep, hnext, hadvance⟩ := h.goes hloop
      have hlt := hadvance.roundsLeft_lt hnext.position_le
      obtain ⟨count, hcount, last, hrun, hlast⟩ := ih _ (hsize ▸ hlt) hnext rfl
      refine ⟨count + 1, ?_, last, ?_, hlast⟩
      · rw [← hsize]
        exact Nat.succ_le_of_lt (Nat.lt_of_le_of_lt hcount hlt)
      · rw [Cursor.run, hstep]
        exact hrun

end Cursor
end ErbTemplate
