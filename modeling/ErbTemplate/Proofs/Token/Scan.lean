import ErbTemplate.Proofs.Token.Tiling

/-!
# The lexer finds the ERB tags of a plain scan

The lexer never looks for an ERB opening. It meets one, if every token of markup before it ends in
time. `ErbScan` is the search that it does not make: go to the first `<%` at or after an offset,
take the longest opening that stands there, go to the first `%>` behind it, and start again behind
that. The relation speaks of byte offsets and of least ones, and of nothing that the lexer uses.

**`erb_tokens_eq_scan`** says that both find the same parts in the same order. It rests on two
facts about one step of the lexer:

* a token of markup ends before the next opening (`le_of_occursAt_markup`), since no token of
  markup holds a `<` behind its first character;
* an ERB piece is the first tag of the scan, whichever of its four endings it has
  (`erbScan_erb`).
-/

set_option autoImplicit false

namespace ErbTemplate

open Text

/-! ## 1. The scan -/

/-- The two characters that begin every ERB tag. -/
def openMark : List Char := ['<', '%']

/-- The longest opening that stands at an offset ends at another. -/
def LongestOpening (source : List Char) (start stop : Nat) : Prop :=
  ∃ opening : Opening, OccursAt opening.text source start
    ∧ stop = start + byteLength opening.text
    ∧ ∀ other : Opening, OccursAt other.text source start →
        byteLength other.text ≤ byteLength opening.text

/-- The character right before an offset is one that belongs to the closing. -/
def TrimmedAt (source : List Char) (offset : Nat) : Prop :=
  OccursAt ['-'] source (offset - 1) ∨ OccursAt ['='] source (offset - 1)

/-- The parts of a tag behind its opening, which ends at `q`, and where the scan goes on. -/
inductive EndingAt (source : List Char) (q : Nat) : List (TokenKind × Range) → Option Nat → Prop
  /-- The source ends with the opening. -/
  | bare (ends : q = byteLength source) : EndingAt source q [] none
  /-- The source ends inside of the tag. -/
  | running (more : q < byteLength source)
      (never : ∀ offset, q ≤ offset → ¬ OccursAt Lexer.closeMark source offset) :
      EndingAt source q [(.erbContent, ⟨q, byteLength source⟩)] none
  /-- The closing has two bytes. -/
  | closed {r : Nat} (closing : FirstFrom Lexer.closeMark source q r)
      (plain : ¬ (q < r ∧ TrimmedAt source r)) :
      EndingAt source q [(.erbContent, ⟨q, r⟩), (.erbEnd, ⟨r, r + 2⟩)] (some (r + 2))
  /-- The closing has three bytes, the first of which is a `-` or `=`. -/
  | trimmed {r : Nat} (closing : FirstFrom Lexer.closeMark source q r)
      (trim : q < r ∧ TrimmedAt source r) :
      EndingAt source q [(.erbContent, ⟨q, r - 1⟩), (.erbEnd, ⟨r - 1, r + 2⟩)] (some (r + 2))

/-- The parts of ERB tags that a scan from an offset on finds. -/
inductive ErbScan (source : List Char) : Nat → List (TokenKind × Range) → Prop
  /-- There is no opening any more. -/
  | done {start : Nat} (never : ∀ offset, start ≤ offset → ¬ OccursAt openMark source offset) :
      ErbScan source start []
  /-- The source ends with the tag. -/
  | last {start p q : Nat} {parts : List (TokenKind × Range)}
      (first : FirstFrom openMark source start p) (opening : LongestOpening source p q)
      (ending : EndingAt source q parts none) :
      ErbScan source start ((.erbStart, ⟨p, q⟩) :: parts)
  /-- The scan goes on behind the tag. -/
  | next {start p q stop : Nat} {parts found : List (TokenKind × Range)}
      (first : FirstFrom openMark source start p) (opening : LongestOpening source p q)
      (ending : EndingAt source q parts (some stop)) (rest : ErbScan source stop found) :
      ErbScan source start ((.erbStart, ⟨p, q⟩) :: parts ++ found)

/-- The parts of ERB tags in a row of tokens. -/
def erbRanges (row : List Token) : List (TokenKind × Range) :=
  (row.filter fun token => token.kind.isErb).map fun token => (token.kind, token.range)

theorem erbRanges_append (front back : List Token) :
    erbRanges (front ++ back) = erbRanges front ++ erbRanges back := by
  simp [erbRanges]

/-! ## 2. A scan has one result -/

theorem LongestOpening.unique {source : List Char} {start stop other : Nat}
    (h : LongestOpening source start stop) (h' : LongestOpening source start other) :
    stop = other := by
  obtain ⟨opening, hoccurs, rfl, hlongest⟩ := h
  obtain ⟨opening', hoccurs', rfl, hlongest'⟩ := h'
  have hle := hlongest opening' hoccurs'
  have hle' := hlongest' opening hoccurs
  omega

theorem EndingAt.unique {source : List Char} {q : Nat} {parts parts' : List (TokenKind × Range)}
    {stop stop' : Option Nat} (h : EndingAt source q parts stop)
    (h' : EndingAt source q parts' stop') : parts = parts' ∧ stop = stop' := by
  -- where the source ends with the opening there is no room for a closing
  have hroom : ∀ {r}, FirstFrom Lexer.closeMark source q r → q < byteLength source := by
    intro r closing
    have hle := closing.1.2.add_le
    have htwo : byteLength Lexer.closeMark = 2 := by decide
    have hge := closing.1.1
    omega
  cases h with
  | bare ends =>
    cases h' with
    | bare => exact ⟨rfl, rfl⟩
    | running more => exact absurd ends (Nat.ne_of_lt more)
    | closed closing | trimmed closing => exact absurd ends (Nat.ne_of_lt (hroom closing))
  | running more never =>
    cases h' with
    | bare ends => exact absurd ends (Nat.ne_of_lt more)
    | running => exact ⟨rfl, rfl⟩
    | closed closing | trimmed closing => exact absurd closing.1.2 (never _ closing.1.1)
  | closed closing plain =>
    cases h' with
    | bare ends => exact absurd ends (Nat.ne_of_lt (hroom closing))
    | running _ never => exact absurd closing.1.2 (never _ closing.1.1)
    | closed closing' =>
      obtain rfl := closing.unique closing'
      exact ⟨rfl, rfl⟩
    | trimmed closing' trim =>
      obtain rfl := closing.unique closing'
      exact absurd trim plain
  | trimmed closing trim =>
    cases h' with
    | bare ends => exact absurd ends (Nat.ne_of_lt (hroom closing))
    | running _ never => exact absurd closing.1.2 (never _ closing.1.1)
    | closed closing' plain =>
      obtain rfl := closing.unique closing'
      exact absurd trim plain
    | trimmed closing' =>
      obtain rfl := closing.unique closing'
      exact ⟨rfl, rfl⟩

theorem EndingAt.content_free {source : List Char} {q : Nat} {parts : List (TokenKind × Range)}
    {stop : Option Nat} (h : EndingAt source q parts stop) (range : Range)
    (hmem : (.erbContent, range) ∈ parts) : FreeOf Lexer.closeMark source range := by
  intro offset hoccurs
  have htwo : byteLength Lexer.closeMark = 2 := by decide
  by_cases hbefore : offset < q
  · left
    cases h with
    | bare => exact absurd hmem (by simp)
    | running | closed | trimmed =>
      obtain rfl : range = ⟨q, _⟩ := by simpa using hmem
      exact hbefore
  · right
    cases h with
    | bare => exact absurd hmem (by simp)
    | running _ never => exact absurd hoccurs (never offset (Nat.le_of_not_lt hbefore))
    | closed closing | trimmed closing =>
      have hleast := closing.2 ⟨Nat.le_of_not_lt hbefore, hoccurs⟩
      obtain rfl : range = ⟨q, _⟩ := by simpa using hmem
      simp only [htwo]
      omega

namespace ErbScan

variable {source : List Char} {start : Nat}

theorem tag_unique {p p' q q' : Nat} {parts parts' : List (TokenKind × Range)}
    {stop stop' : Option Nat} (first : FirstFrom openMark source start p)
    (first' : FirstFrom openMark source start p') (opening : LongestOpening source p q)
    (opening' : LongestOpening source p' q') (ending : EndingAt source q parts stop)
    (ending' : EndingAt source q' parts' stop') :
    p = p' ∧ q = q' ∧ parts = parts' ∧ stop = stop' := by
  obtain rfl := first.unique first'
  obtain rfl := opening.unique opening'
  obtain ⟨rfl, rfl⟩ := ending.unique ending'
  exact ⟨rfl, rfl, rfl, rfl⟩

/-- **A scan has one result.** -/
theorem unique {found other : List (TokenKind × Range)} (h : ErbScan source start found)
    (h' : ErbScan source start other) : found = other := by
  induction h generalizing other with
  | done never =>
    cases h' with
    | done => rfl
    | last first | next first => exact absurd first.1.2 (never _ first.1.1)
  | last first opening ending =>
    cases h' with
    | done never => exact absurd first.1.2 (never _ first.1.1)
    | last first' opening' ending' =>
      obtain ⟨rfl, rfl, rfl, -⟩ := tag_unique first first' opening opening' ending ending'
      rfl
    | next first' opening' ending' =>
      obtain ⟨-, -, -, hstop⟩ := tag_unique first first' opening opening' ending ending'
      cases hstop
  | next first opening ending _ ih =>
    cases h' with
    | done never => exact absurd first.1.2 (never _ first.1.1)
    | last first' opening' ending' =>
      obtain ⟨-, -, -, hstop⟩ := tag_unique first first' opening opening' ending ending'
      cases hstop
    | next first' opening' ending' rest =>
      obtain ⟨rfl, rfl, rfl, hstop⟩ := tag_unique first first' opening opening' ending ending'
      cases hstop
      rw [ih rest]

/-- A scan that starts before the next opening finds what it would find from there. -/
theorem of_later {later : Nat} {found : List (TokenKind × Range)} (hle : start ≤ later)
    (hskip : ∀ offset, start ≤ offset → OccursAt openMark source offset → later ≤ offset)
    (h : ErbScan source later found) : ErbScan source start found := by
  have hfirst : ∀ {p}, FirstFrom openMark source later p → FirstFrom openMark source start p := by
    rintro p ⟨⟨hlater, hoccurs⟩, hleast⟩
    refine ⟨⟨Nat.le_trans hle hlater, hoccurs⟩, ?_⟩
    rintro offset ⟨hstart, hoffset⟩
    exact hleast ⟨hskip offset hstart hoffset, hoffset⟩
  cases h with
  | done never =>
    refine .done ?_
    intro offset hstart hoccurs
    exact never offset (hskip offset hstart hoccurs) hoccurs
  | last first opening ending => exact .last (hfirst first) opening ending
  | next first opening ending rest => exact .next (hfirst first) opening ending rest

theorem content_free {found : List (TokenKind × Range)} (h : ErbScan source start found) :
    ∀ range, (.erbContent, range) ∈ found → FreeOf Lexer.closeMark source range := by
  induction h with
  | done => intro range hmem; exact absurd hmem (by simp)
  | last _ _ ending =>
    intro range hmem
    exact ending.content_free range (by simpa using hmem)
  | next _ _ ending _ ih =>
    intro range hmem
    simp only [List.cons_append, List.mem_cons, Prod.mk.injEq, reduceCtorEq, false_and, false_or,
      List.mem_append] at hmem
    rcases hmem with hmem | hmem
    · exact ending.content_free range hmem
    · exact ih range hmem

end ErbScan

/-! ## 3. Markup ends before the next opening -/

namespace Lexer

theorem not_mem_tail_of_mem_marks {mark : Lexeme} (h : mark ∈ marks) : '<' ∉ mark.text.tail := by
  revert mark
  decide

theorem not_mem_spanUntil_endsGap (text : List Char) : '<' ∉ (spanUntil endsGap text).1 := by
  intro hmem
  obtain ⟨rest, hstop⟩ := exists_not_stop_of_mem hmem
  simp [endsGap, isGapChar] at hstop

theorem not_mem_spanUntil_endsName (text : List Char) : '<' ∉ (spanUntil endsName text).1 := by
  intro hmem
  obtain ⟨rest, hstop⟩ := exists_not_stop_of_mem hmem
  simp [endsName, isNameChar] at hstop

theorem not_mem_tail_markup (c : Char) (text : List Char) : '<' ∉ (markup c text).1.text.tail := by
  unfold markup
  split
  next mark h => exact not_mem_tail_of_mem_marks (List.mem_of_find?_eq_some h)
  next =>
    split
    · exact not_mem_spanUntil_endsGap text
    · split
      · exact not_mem_spanUntil_endsName text
      · exact List.not_mem_nil

theorem startsWith_openMark_of_none {text : List Char} (h : Opening.of? text = none) :
    startsWith openMark text = false := by
  have hplain := List.find?_eq_none.1 h .plain (by decide)
  show startsWith Opening.plain.text text = false
  simpa using hplain

/-- **A token of markup ends before the next opening.** -/
theorem le_of_occursAt_markup {front : List Char} {c : Char} {text : List Char} {offset : Nat}
    (hopen : Opening.of? (c :: text) = none) (hle : byteLength front ≤ offset)
    (h : OccursAt openMark (front ++ c :: text) offset) :
    byteLength front + byteLength (markup c text).1.text ≤ offset := by
  obtain ⟨middle, back, hsplit, rfl⟩ := (occursAt_append_iff hle).1 h
  have hstart := startsWith_openMark_of_none hopen
  have htext := text_markup c text
  have htail := not_mem_tail_markup c text
  generalize (markup c text).1.text = lexeme at htext htail ⊢
  by_contra hshort
  -- the opening would begin inside of the token
  rw [hsplit, List.append_assoc] at htext
  obtain ⟨inside, rfl, hinside⟩ := exists_append_of_byteLength_le htext.symm (by omega)
  cases inside with
  | nil =>
    rw [List.append_nil] at hshort
    omega
  | cons d inside =>
    obtain ⟨rfl, -⟩ : '<' = d ∧ _ := List.cons.inj hinside
    cases middle with
    | nil =>
      -- right at its beginning: there the lexer would have seen it
      rw [hsplit] at hstart
      simp [startsWith, openMark] at hstart
    | cons first middle => exact htail (by simp)

end Lexer

/-! ## 4. An ERB piece is the first tag of the scan -/

/-- Openings are tried longest first. -/
theorem Opening.byteLength_le_of_of? {text : List Char} {opening other : Opening}
    (h : of? text = some opening) (hother : startsWith other.text text = true) :
    byteLength other.text ≤ byteLength opening.text := by
  have hsorted : all.Pairwise fun a b => byteLength b.text ≤ byteLength a.text := by decide
  obtain ⟨-, before, after, hall, hbefore⟩ := List.find?_eq_some_iff_append.1 h
  have hmem : other ∈ all := by cases other <;> decide
  rw [hall] at hsorted hmem
  rcases List.mem_append.1 hmem with hmem | hmem
  · exact absurd hother (by simpa using hbefore other hmem)
  · rcases List.mem_cons.1 hmem with rfl | hmem
    · exact Nat.le_refl _
    · exact List.rel_of_pairwise_cons (List.pairwise_append.1 hsorted).2.1 hmem

theorem longestOpening_of_of? (front : List Char) {text : List Char} {opening : Opening}
    (h : Opening.of? text = some opening) :
    LongestOpening (front ++ text) (byteLength front)
      (byteLength front + byteLength opening.text) := by
  refine ⟨opening, occursAt_append_self_iff.2 (Lexer.startsWith_of_opening h), rfl, ?_⟩
  intro other hoccurs
  exact Opening.byteLength_le_of_of? h (occursAt_append_self_iff.1 hoccurs)

theorem firstFrom_openMark_of_of? (front : List Char) {text : List Char} {opening : Opening}
    (h : Opening.of? text = some opening) :
    FirstFrom openMark (front ++ text) (byteLength front) (byteLength front) := by
  have hstart : startsWith openMark text = true := by
    obtain ⟨rest, rfl⟩ := List.isPrefixOf_iff_prefix.1 (Lexer.startsWith_of_opening h)
    cases opening <;> simp [startsWith, openMark, Opening.text]
  exact ⟨⟨Nat.le_refl _, occursAt_append_self_iff.2 hstart⟩, fun _ hplace => hplace.1⟩

namespace Lexer

theorem splitTrim_cases (content : List Char) :
    (∃ code c, content = code ++ [c] ∧ (c = '-' ∨ c = '=') ∧ splitTrim content = (code, [c]))
      ∨ ((∀ code c, content = code ++ [c] → c ≠ '-' ∧ c ≠ '=')
        ∧ splitTrim content = (content, [])) := by
  rcases List.eq_nil_or_concat content with rfl | ⟨code, c, rfl⟩
  · exact Or.inr ⟨by simp, rfl⟩
  · by_cases hc : c = '-' ∨ c = '='
    · exact Or.inl ⟨code, c, by simp, hc, by simp [splitTrim, hc]⟩
    · refine Or.inr ⟨?_, by simp [splitTrim, hc]⟩
      intro code' c' heq
      obtain ⟨-, rfl⟩ : code = code' ∧ c = c' := by simpa using heq
      exact not_or.1 hc

theorem erbEnding_cases (text : List Char) :
    (text = [] ∧ erbEnding text = (.bare, []))
      ∨ (text ≠ [] ∧ (spanUntil (startsWith closeMark) text).2 = []
        ∧ erbEnding text = (.running ⟨.erbContent, text⟩, []))
      ∨ ∃ content back, spanUntil (startsWith closeMark) text = (content, closeMark ++ back)
        ∧ erbEnding text = (.closed ⟨.erbContent, (splitTrim content).1⟩
            ⟨.erbEnd, (splitTrim content).2 ++ closeMark⟩, back) := by
  cases text with
  | nil => exact Or.inl ⟨rfl, rfl⟩
  | cons c text =>
    right
    have htext := spanUntil_append (startsWith closeMark) (c :: text)
    have hstop := @stop_of_spanUntil (startsWith closeMark) (c :: text)
    simp only [erbEnding]
    generalize spanUntil (startsWith closeMark) (c :: text) = found at htext hstop
    obtain ⟨content, rest⟩ := found
    cases rest with
    | nil =>
      refine Or.inl ⟨by simp, rfl, ?_⟩
      rw [List.append_nil] at htext
      rw [htext]
    | cons d rest =>
      have hclose := append_drop_of_startsWith (hstop (by simp))
      exact Or.inr ⟨content, _, by rw [hclose], rfl⟩

end Lexer

theorem eq_of_occursAt_pred {front back : List Char} {c d : Char} (hc : c.utf8Size = 1)
    (h : OccursAt [c] (front ++ [d] ++ back) (byteLength (front ++ [d]) - 1)) : d = c := by
  obtain ⟨front', back', hsplit, hlength⟩ := h
  have hd := Char.utf8Size_pos d
  have heq : byteLength (front ++ [d]) = byteLength (front' ++ [c]) := by
    simp only [byteLength_append, byteLength_cons, byteLength_nil, hc] at hlength ⊢
    omega
  have hinj := (append_inj_of_byteLength hsplit heq).1
  simpa using (List.append_inj_right' hinj rfl)

theorem erbRanges_content (front content : List Char) :
    erbRanges (Token.rowFrom (Point.origin.advance front) [⟨.erbContent, content⟩])
      = [(.erbContent, ⟨byteLength front, byteLength front + byteLength content⟩)] := by
  simp [erbRanges, Token.ofLexeme, Token.range, Span.range, TokenKind.isErb, Point.origin]

theorem erbRanges_content_closing (front content closing : List Char) :
    erbRanges (Token.rowFrom (Point.origin.advance front)
        [⟨.erbContent, content⟩, ⟨.erbEnd, closing⟩])
      = [(.erbContent, ⟨byteLength front, byteLength front + byteLength content⟩),
         (.erbEnd, ⟨byteLength front + byteLength content,
           byteLength front + byteLength content + byteLength closing⟩)] := by
  simp [erbRanges, Token.ofLexeme, Token.range, Span.range, TokenKind.isErb, Point.origin]

section Closed

variable {text content back : List Char} (front : List Char)
  (hspan : spanUntil (startsWith Lexer.closeMark) text = (content, Lexer.closeMark ++ back))

include hspan

theorem text_eq_of_spanUntil_closeMark : text = content ++ (Lexer.closeMark ++ back) := by
  have happ := spanUntil_append (startsWith Lexer.closeMark) text
  rw [hspan] at happ
  exact happ.symm

theorem firstFrom_closeMark_of_spanUntil :
    FirstFrom Lexer.closeMark (front ++ text) (byteLength front)
      (byteLength front + byteLength content) := by
  have hfirst := @firstFrom_spanUntil Lexer.closeMark front text (by decide)
    (by rw [hspan]; simp [Lexer.closeMark])
  rw [hspan] at hfirst
  exact hfirst

/-- The tag is closed by three bytes if its content ends with a `-` or `=`, else by two. -/
theorem endingAt_of_spanUntil :
    EndingAt (front ++ text) (byteLength front)
      (erbRanges (Token.rowFrom (Point.origin.advance front)
        [⟨.erbContent, (Lexer.splitTrim content).1⟩,
         ⟨.erbEnd, (Lexer.splitTrim content).2 ++ Lexer.closeMark⟩]))
      (some (byteLength front + byteLength content + 2)) := by
  have hfirst := firstFrom_closeMark_of_spanUntil front hspan
  have htext := text_eq_of_spanUntil_closeMark hspan
  have hclose : byteLength Lexer.closeMark = 2 := by decide
  rw [erbRanges_content_closing, byteLength_append, hclose]
  rcases Lexer.splitTrim_cases content with ⟨code, c, rfl, hc, htrim⟩ | ⟨hplain, htrim⟩
  · rw [htrim]
    have hsize : c.utf8Size = 1 := by rcases hc with rfl | rfl <;> decide
    have hpred : byteLength front + byteLength (code ++ [c]) - 1
        = byteLength front + byteLength code := by
      rw [byteLength_append, byteLength_cons, byteLength_nil, hsize]
      omega
    have hoccurs : OccursAt [c] (front ++ text) (byteLength front + byteLength code) := by
      refine ⟨front ++ code, Lexer.closeMark ++ back, ?_, byteLength_append _ _⟩
      rw [htext]
      simp
    have htrimmed : TrimmedAt (front ++ text) (byteLength front + byteLength (code ++ [c])) := by
      rw [TrimmedAt, hpred]
      rcases hc with rfl | rfl
      · exact Or.inl hoccurs
      · exact Or.inr hoccurs
    have hinside : byteLength front < byteLength front + byteLength (code ++ [c]) := by
      rw [byteLength_append, byteLength_cons, hsize]
      omega
    have hending := EndingAt.trimmed hfirst ⟨hinside, htrimmed⟩
    rw [hpred] at hending
    have hlength : byteLength (code ++ [c]) = byteLength code + 1 := by
      rw [byteLength_append, byteLength_cons, byteLength_nil, hsize]
    rw [hlength] at hending ⊢
    simpa [hsize, Nat.add_assoc] using hending
  · rw [htrim]
    refine EndingAt.closed hfirst ?_
    rintro ⟨hinside, htrimmed⟩
    rcases List.eq_nil_or_concat content with rfl | ⟨code, c, rfl⟩
    · exact absurd hinside (by simp)
    · rw [List.concat_eq_append] at *
      obtain ⟨hdash, hequals⟩ := hplain code c rfl
      have hsource : front ++ text = front ++ code ++ [c] ++ (Lexer.closeMark ++ back) := by
        rw [htext]
        simp
      have hoffset : byteLength front + byteLength (code ++ [c])
          = byteLength (front ++ code ++ [c]) := by
        simp
      simp only [TrimmedAt, hsource, hoffset] at htrimmed
      rcases htrimmed with h | h
      · exact hdash (eq_of_occursAt_pred (by decide) h)
      · exact hequals (eq_of_occursAt_pred (by decide) h)

end Closed

namespace Lexer

theorem next_of_some {c : Char} {text : List Char} {opening : Opening}
    (h : Opening.of? (c :: text) = some opening) :
    ∃ rest, c :: text = opening.text ++ rest
      ∧ next c text
        = (.erb opening ⟨.erbStart, opening.text⟩ (erbEnding rest).1, (erbEnding rest).2) := by
  refine ⟨(c :: text).drop opening.text.length, ?_, ?_⟩
  · exact (append_drop_of_startsWith (startsWith_of_opening h)).symm
  · rw [next, h]

theorem next_of_none {c : Char} {text : List Char} (h : Opening.of? (c :: text) = none) :
    next c text = (.markup (markup c text).1, (markup c text).2) := by
  rw [next, h]

theorem isErb_markup (c : Char) (text : List Char) : (markup c text).1.kind.isErb = false := by
  have hmarks : ∀ mark ∈ marks, mark.kind.isErb = false := by decide
  unfold markup
  split
  next mark h => exact hmarks mark (List.mem_of_find?_eq_some h)
  next =>
    split
    · rfl
    · split <;> rfl

theorem isErb_erbEnding (text : List Char) :
    ∀ lexeme ∈ (erbEnding text).1.parts, lexeme.kind.isErb = true := by
  rcases erbEnding_cases text with ⟨-, hending⟩ | ⟨-, -, hending⟩ | ⟨content, back, -, hending⟩ <;>
    rw [hending] <;> simp [Ending.parts, TokenKind.isErb]

theorem exists_text_erbEnding {text : List Char} (h : (erbEnding text).2 ≠ []) :
    ∃ front, (erbEnding text).1.parts.flatMap Lexeme.text = front ++ ['>'] := by
  rcases erbEnding_cases text with ⟨-, hending⟩ | ⟨-, -, hending⟩ | ⟨content, back, -, hending⟩
  · rw [hending] at h
    exact absurd rfl h
  · rw [hending] at h
    exact absurd rfl h
  · rw [hending]
    refine ⟨(splitTrim content).1 ++ (splitTrim content).2 ++ ['%'], ?_⟩
    simp [Ending.parts, closeMark]

end Lexer

/-- **An ERB piece is the first tag of the scan,** and the scan goes on behind it. -/
theorem erbScan_erb {front rest : List Char} {opening : Opening}
    {found : List (TokenKind × Range)} (h : Opening.of? (opening.text ++ rest) = some opening)
    (hfound : (Lexer.erbEnding rest).2 = [] → found = [])
    (hscan : ErbScan (front ++ (opening.text ++ rest))
      (byteLength front + byteLength opening.text
        + byteLength ((Lexer.erbEnding rest).1.parts.flatMap Lexeme.text)) found) :
    ErbScan (front ++ (opening.text ++ rest)) (byteLength front)
      (erbRanges (Token.rowFrom (Point.origin.advance front)
        (⟨.erbStart, opening.text⟩ :: (Lexer.erbEnding rest).1.parts)) ++ found) := by
  have hfirst := firstFrom_openMark_of_of? front h
  have hlongest := longestOpening_of_of? front h
  have hranges : erbRanges (Token.rowFrom (Point.origin.advance front)
        (⟨.erbStart, opening.text⟩ :: (Lexer.erbEnding rest).1.parts))
      = (.erbStart, ⟨byteLength front, byteLength front + byteLength opening.text⟩)
        :: erbRanges (Token.rowFrom (Point.origin.advance (front ++ opening.text))
            (Lexer.erbEnding rest).1.parts) := by
    simp [erbRanges, Token.ofLexeme, Token.range, Span.range, TokenKind.isErb, Point.origin]
  have hsource : front ++ (opening.text ++ rest) = front ++ opening.text ++ rest := by simp
  rw [hranges]
  rw [hsource] at hfirst hlongest hscan ⊢
  rw [← byteLength_append] at hlongest hscan ⊢
  rcases Lexer.erbEnding_cases rest with ⟨rfl, hending⟩ | ⟨hrest, hspan, hending⟩
    | ⟨content, back, hspan, hending⟩
  · rw [hending] at hfound ⊢
    obtain rfl := hfound rfl
    exact .last hfirst hlongest (.bare (by simp))
  · rw [hending] at hfound ⊢
    obtain rfl := hfound rfl
    refine .last hfirst hlongest ?_
    rw [Ending.parts, erbRanges_content, ← byteLength_append]
    have hpos := byteLength_pos hrest
    refine .running (by rw [byteLength_append _ rest]; omega) ?_
    intro offset hle
    exact not_occursAt_of_spanUntil (by decide) hspan hle
  · have hend := endingAt_of_spanUntil (front ++ opening.text) hspan
    have hlength : byteLength ((Lexer.erbEnding rest).1.parts.flatMap Lexeme.text)
        = byteLength content + 2 := by
      have htrim := congrArg byteLength (Lexer.splitTrim_append content)
      have hclose : byteLength Lexer.closeMark = 2 := by decide
      rw [byteLength_append] at htrim
      rw [hending]
      simp only [Ending.parts, List.flatMap_cons, List.flatMap_nil, byteLength_append,
        byteLength_nil, hclose]
      omega
    rw [hlength, ← Nat.add_assoc] at hscan
    rw [hending]
    exact .next hfirst hlongest hend hscan

/-! ## 5. The lexer is the scan -/

/-- **The ERB tokens of a text are what a scan finds**, from any front part of a source on. -/
theorem erbScan_lexemes (text front : List Char) :
    ErbScan (front ++ text) (byteLength front)
      (erbRanges (Token.rowFrom (Point.origin.advance front) (lexemes text))) := by
  unfold lexemes
  fun_induction pieces text generalizing front with
  | case1 =>
    refine .done ?_
    intro offset hle hoccurs
    have hadd := hoccurs.add_le
    have htwo : byteLength openMark = 2 := by decide
    rw [List.append_nil] at hadd
    omega
  | case2 c text ih =>
    have hscan := ih (front ++ (Lexer.next c text).1.text)
    rw [List.append_assoc, Lexer.text_next, byteLength_append, Point.advance_append] at hscan
    rw [List.flatMap_cons, Token.rowFrom_append, erbRanges_append]
    cases hopen : Opening.of? (c :: text) with
    | none =>
      rw [Lexer.next_of_none hopen] at hscan ⊢
      have hmarkup : erbRanges (Token.rowFrom (Point.origin.advance front)
          (Piece.markup (Lexer.markup c text).1).parts) = [] := by
        simp [erbRanges, Piece.parts, Token.ofLexeme, Lexer.isErb_markup]
      have htext : (Piece.markup (Lexer.markup c text).1).text = (Lexer.markup c text).1.text := by
        simp [Piece.text, Piece.parts]
      rw [hmarkup, List.nil_append]
      refine ErbScan.of_later (Nat.le_add_right _ _) ?_ hscan
      intro offset hle hoccurs
      rw [htext]
      exact Lexer.le_of_occursAt_markup hopen hle hoccurs
    | some opening =>
      obtain ⟨rest, htext, hnext⟩ := Lexer.next_of_some hopen
      rw [hnext, htext] at hscan ⊢
      rw [htext] at hopen
      refine erbScan_erb hopen ?_ ?_
      · intro hnil
        simp only [hnil]
        rw [pieces]
        rfl
      · simpa [Piece.text, Piece.parts, Nat.add_assoc] using hscan

/-- No opening begins with the last character of a piece that has something behind it. -/
theorem add_two_le_of_occursAt {front : List Char} {c : Char} {text : List Char} {offset : Nat}
    (hrest : (Lexer.next c text).2 ≠ []) (hle : byteLength front ≤ offset)
    (hlt : offset < byteLength front + byteLength (Lexer.next c text).1.text)
    (h : OccursAt openMark (front ++ c :: text) offset) :
    offset + 2 ≤ byteLength front + byteLength (Lexer.next c text).1.text := by
  have htext := Lexer.text_next c text
  cases hopen : Opening.of? (c :: text) with
  | none =>
    have hmarkup := Lexer.le_of_occursAt_markup hopen hle h
    rw [Lexer.next_of_none hopen] at hlt
    simp only [Piece.text, Piece.parts, List.flatMap_cons, List.flatMap_nil,
      List.append_nil] at hlt
    omega
  | some opening =>
    obtain ⟨rest, -, hnext⟩ := Lexer.next_of_some hopen
    rw [hnext] at hrest hlt htext ⊢
    obtain ⟨inner, hinner⟩ := Lexer.exists_text_erbEnding hrest
    simp only [Piece.text, Piece.parts, List.flatMap_cons, hinner] at hlt htext ⊢
    by_contra hshort
    -- the opening would begin with the `>` that ends the tag
    have hoffset : offset = byteLength (front ++ (opening.text ++ inner) ++ ['>']) - 1 := by
      have hone : '>'.utf8Size = 1 := by decide
      simp only [byteLength_append, byteLength_cons, byteLength_nil, hone] at hlt hshort ⊢
      omega
    obtain ⟨before, after, hsplit, hbefore⟩ := h
    have hoccurs : OccursAt ['<']
        (front ++ (opening.text ++ inner) ++ ['>'] ++ (Lexer.erbEnding rest).2)
        (byteLength (front ++ (opening.text ++ inner) ++ ['>']) - 1) := by
      refine ⟨before, '%' :: after, ?_, hbefore.trans hoffset⟩
      rw [← htext] at hsplit
      simpa [openMark] using hsplit
    exact absurd (eq_of_occursAt_pred (by decide) hoccurs) (by decide)

theorem offset_le_of_mem_rowFrom {start : Point} {lexemes : List Lexeme} {token : Token}
    (h : token ∈ Token.rowFrom start lexemes) : start.offset ≤ token.range.start := by
  obtain ⟨before, lexeme, after, -, rfl⟩ := Token.mem_rowFrom_iff.1 h
  simp only [Token.range, Token.ofLexeme, Span.range, Point.offset_advance]
  omega

theorem apart_of_mem_lexemes (text front : List Char) :
    ∀ token ∈ Token.rowFrom (Point.origin.advance front) (lexemes text),
      token.kind.isErb = false → ∀ offset, byteLength front ≤ offset →
        OccursAt openMark (front ++ text) offset →
          offset + 2 ≤ token.range.start ∨ token.range.stop ≤ offset := by
  unfold lexemes
  fun_induction pieces text generalizing front with
  | case1 => intro token hmem; exact absurd hmem (by simp)
  | case2 c text ih =>
    intro token hmem hkind offset hle hoccurs
    rw [List.flatMap_cons, Token.rowFrom_append] at hmem
    rcases List.mem_append.1 hmem with hmem | hmem
    · -- a token of the first piece, which is markup: the opening stands behind it
      right
      cases hopen : Opening.of? (c :: text) with
      | none =>
        have hmarkup := Lexer.le_of_occursAt_markup hopen hle hoccurs
        rw [Lexer.next_of_none hopen] at hmem
        obtain rfl := List.mem_singleton.1 hmem
        simpa [Token.ofLexeme, Token.range, Span.range, Point.origin] using hmarkup
      | some opening =>
        obtain ⟨rest, -, hnext⟩ := Lexer.next_of_some hopen
        rw [hnext] at hmem
        obtain ⟨before, lexeme, after, hsplit, rfl⟩ := Token.mem_rowFrom_iff.1 hmem
        have hpart : lexeme ∈ (⟨.erbStart, opening.text⟩ :: (Lexer.erbEnding rest).1.parts) := by
          show lexeme ∈ (Piece.erb opening ⟨.erbStart, opening.text⟩ (Lexer.erbEnding rest).1).parts
          rw [hsplit]
          simp
        have herb : lexeme.kind.isErb = true := by
          rcases List.mem_cons.1 hpart with rfl | hpart
          · rfl
          · exact Lexer.isErb_erbEnding rest lexeme hpart
        exact absurd hkind (by simp [Token.ofLexeme, herb])
    · -- a token of a later piece: the opening stands in the first piece or behind it
      by_cases hlt : offset < byteLength front + byteLength (Lexer.next c text).1.text
      · left
        have hrest : (Lexer.next c text).2 ≠ [] := by
          intro hnil
          rw [hnil, pieces] at hmem
          exact absurd hmem (by simp)
        have hfirst := add_two_le_of_occursAt hrest hle hlt hoccurs
        have hstart := offset_le_of_mem_rowFrom hmem
        simp only [Point.offset_advance, Point.origin, Nat.zero_add] at hstart
        exact Nat.le_trans hfirst hstart
      · have htext := Lexer.text_next c text
        have hlater := ih (front ++ (Lexer.next c text).1.text) token
        rw [Point.advance_append, byteLength_append, List.append_assoc, htext] at hlater
        exact hlater hmem hkind offset (Nat.le_of_not_lt hlt) hoccurs

/-! ## 6. The contract -/

/-- **The lexer finds exactly the ERB tags that a plain scan finds.** The parts of ERB tags among
    the tokens are the parts that the scan finds, which has one result. An opening touches no other
    token, and no content holds a closing. -/
theorem erb_tokens_eq_scan (source : List Char) (memory : Memory) (list : TokenList)
    (h : (lex source).outcome memory = .ok list) :
    (∀ found, ErbScan source 0 found ↔ found = erbRanges list.toList)
      ∧ (∀ token ∈ list.toList, token.kind.isErb = false → ApartFrom openMark source token.range)
      ∧ ∀ token ∈ list.toList, token.kind = .erbContent →
          FreeOf Lexer.closeMark source token.range := by
  rw [toList_of_lex h, tokens_eq_rowFrom, Token.rowFrom_append, flatMap_text_lexemes]
  have hscan := erbScan_lexemes source []
  have heof : erbRanges (Token.rowFrom (Point.origin.advance source) [⟨.eof, []⟩]) = [] := by
    simp [erbRanges, Token.ofLexeme, TokenKind.isErb]
  refine ⟨?_, ?_, ?_⟩
  · intro found
    rw [erbRanges_append, heof, List.append_nil]
    constructor
    · intro hfound
      exact hfound.unique hscan
    · rintro rfl
      exact hscan
  · intro token hmem hkind offset hoccurs
    rcases List.mem_append.1 hmem with hmem | hmem
    · exact apart_of_mem_lexemes source [] token hmem hkind offset (Nat.zero_le _) hoccurs
    · -- the end of the source, behind every opening
      left
      obtain rfl := List.mem_singleton.1 hmem
      simpa [Token.ofLexeme, Token.range, Span.range, Point.origin] using hoccurs.add_le
  · intro token hmem hkind
    refine hscan.content_free token.range ?_
    rcases List.mem_append.1 hmem with hmem | hmem
    · refine List.mem_map.2 ⟨token, List.mem_filter.2 ⟨hmem, ?_⟩, by rw [hkind]⟩
      simp [hkind, TokenKind.isErb]
    · obtain rfl := List.mem_singleton.1 hmem
      exact absurd hkind (by simp [Token.ofLexeme])

/-- A `<` right before an opening, a content that is empty because its `-` belongs to the closing,
    and an opening inside of a tag that is never closed. -/
theorem erb_tokens_eq_scan_nested :
    ∃ list,
      (lex ['<', '<', '%', '=', '-', '%', '>', '<', '%', '<', '%']).outcome .standard = .ok list
      ∧ ErbScan ['<', '<', '%', '=', '-', '%', '>', '<', '%', '<', '%'] 0
          [(.erbStart, ⟨1, 4⟩), (.erbContent, ⟨4, 4⟩), (.erbEnd, ⟨4, 7⟩), (.erbStart, ⟨7, 9⟩),
           (.erbContent, ⟨9, 11⟩)] := by
  have hlex : ∃ list,
      (lex ['<', '<', '%', '=', '-', '%', '>', '<', '%', '<', '%']).outcome .standard = .ok list :=
    exists_lex (by decide) (Memory.grantsUpTo_standard (by decide))
  obtain ⟨list, h⟩ := hlex
  refine ⟨list, h, ((erb_tokens_eq_scan _ _ list h).1 _).2 ?_⟩
  rw [toList_of_lex h]
  decide +kernel

end ErbTemplate
