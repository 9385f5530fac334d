import ErbTemplate.Proofs.Source.Shift
import ErbTemplate.Proofs.Token.Pieces
import ErbTemplate.Proofs.Tree.Unclosed
import Mathlib.Data.List.Find

/-!
# A closed ERB tag is a cut point

Every decision of the lexer looks ahead: for an opening of four characters, for the `-->` or `-%>`
that ends a name, for the line feed behind a carriage return, for the next `%>` however far away. So
what is read from a text can depend on what follows it. Not so behind a closed ERB tag:

> **`pieces_append_of_endsClosed`** — if the last piece of a text is a closed ERB tag, whatever is
> appended to the text is cut as if it stood alone.

All conditions but one look at four characters at most (`LooksAhead`), and a closed tag has four.
The one that looks further stops at the closing delimiter. A step of the lexer that leaves enough
behind is therefore the same step when more is appended (`Lexer.next_append`).
-/

set_option autoImplicit false

namespace ErbTemplate

open Text

/-! ## 1. Looking ahead -/

namespace Text

/-- A condition on what is left of a text that depends on so many characters only. -/
def LooksAhead (depth : Nat) (stop : List Char → Bool) : Prop :=
  ∀ text more, depth ≤ text.length → stop (text ++ more) = stop text

theorem startsWith_append {mark text : List Char} (more : List Char)
    (h : mark.length ≤ text.length) : startsWith mark (text ++ more) = startsWith mark text := by
  rw [Bool.eq_iff_iff, startsWith, startsWith, List.isPrefixOf_iff_prefix,
    List.isPrefixOf_iff_prefix]
  constructor
  · intro hprefix
    exact List.prefix_of_prefix_length_le hprefix (List.prefix_append text more) h
  · intro hprefix
    exact hprefix.trans (List.prefix_append text more)

theorem looksAhead_startsWith (mark : List Char) : LooksAhead mark.length (startsWith mark) :=
  fun _ more h => startsWith_append more h

/-- **A scan that leaves enough behind stops at the same place when more is appended.** -/
theorem spanUntil_append_of_looksAhead {depth : Nat} {stop : List Char → Bool}
    (hstop : LooksAhead (depth + 1) stop) {text : List Char} (more : List Char)
    (hrest : depth + 1 ≤ (spanUntil stop text).2.length) :
    spanUntil stop (text ++ more) = ((spanUntil stop text).1, (spanUntil stop text).2 ++ more) := by
  induction text with
  | nil => simp [spanUntil] at hrest
  | cons c text ih =>
    have hlength := Nat.le_trans hrest (length_spanUntil_snd stop (c :: text))
    have hsame := hstop (c :: text) more hlength
    rw [List.cons_append] at hsame ⊢
    by_cases hc : stop (c :: text) = true
    · simp [spanUntil, hsame, hc]
    · simp only [spanUntil, hc] at hrest
      have hback := ih hrest
      simp [spanUntil, hsame, hc, hback]

end Text

namespace Lexer

theorem looksAhead_endsGap : LooksAhead 4 endsGap := by
  intro text more h
  cases text with
  | nil => simp at h
  | cons c text =>
    have hline : startsWith ['\r', '\n'] (c :: text ++ more)
        = startsWith ['\r', '\n'] (c :: text) :=
      startsWith_append more (Nat.le_trans (by decide) h)
    simp only [endsGap, hline]
    rfl

theorem looksAhead_endsName : LooksAhead 4 endsName := by
  intro text more h
  cases text with
  | nil => simp at h
  | cons c text =>
    have hcomment :
        startsWith ['-', '-', '>'] (c :: text ++ more) = startsWith ['-', '-', '>'] (c :: text) :=
      startsWith_append more (Nat.le_trans (by decide) h)
    have hclosing :
        startsWith ['-', '%', '>'] (c :: text ++ more) = startsWith ['-', '%', '>'] (c :: text) :=
      startsWith_append more (Nat.le_trans (by decide) h)
    simp only [endsName, hcomment, hclosing]
    rfl

/-! ## 2. A step of the lexer -/

section Step

variable {c : Char} {text : List Char} (more : List Char)

theorem markOf?_append (h : 4 ≤ text.length) : markOf? (text ++ more) = markOf? text := by
  have hshort : ∀ mark ∈ marks, mark.text.length ≤ 4 := by decide
  refine List.find?_congr ?_
  intro mark hmem
  exact startsWith_append more (Nat.le_trans (hshort mark hmem) h)

theorem of?_append (h : 4 ≤ text.length) : Opening.of? (text ++ more) = Opening.of? text := by
  refine List.find?_congr ?_
  intro opening _
  have hshort : opening.text.length ≤ 4 := by cases opening <;> decide
  exact startsWith_append more (Nat.le_trans hshort h)

theorem markup_append (h : 4 ≤ (markup c text).2.length) :
    markup c (text ++ more) = ((markup c text).1, (markup c text).2 ++ more) := by
  have htext := congrArg List.length (text_markup c text)
  rw [List.length_append] at htext
  have hlong : 4 ≤ (c :: text).length := by omega
  have hmark := markOf?_append more hlong
  rw [List.cons_append] at hmark
  unfold markup at h ⊢
  rw [hmark]
  cases hfound : markOf? (c :: text) with
  | some mark =>
    rw [hfound] at h
    simp only [List.length_drop] at h
    simp only [Prod.mk.injEq, true_and]
    rw [← List.cons_append, List.drop_append_of_le_length (by omega)]
  | none =>
    rw [hfound] at h
    simp only at h ⊢
    split at h
    next hgap =>
      rw [if_pos hgap, if_pos hgap, spanUntil_append_of_looksAhead looksAhead_endsGap more h]
    next hgap =>
      rw [if_neg hgap, if_neg hgap]
      split at h
      next hname =>
        rw [if_pos hname, if_pos hname, spanUntil_append_of_looksAhead looksAhead_endsName more h]
      next hname => rw [if_neg hname, if_neg hname]

/-- The search for the closing delimiter ends with it. -/
theorem erbEnding_append (h : (erbEnding text).1.closing?.isSome = true) :
    erbEnding (text ++ more) = ((erbEnding text).1, (erbEnding text).2 ++ more) := by
  rcases erbEnding_cases text with ⟨-, hending⟩ | ⟨-, -, hending⟩ | ⟨content, back, hspan, hending⟩
  · rw [hending] at h
    cases h
  · rw [hending] at h
    cases h
  · have hlater : spanUntil (startsWith closeMark) (text ++ more)
        = (content, closeMark ++ (back ++ more)) := by
      have hlong : 2 ≤ (spanUntil (startsWith closeMark) text).2.length := by
        rw [hspan]
        simp [closeMark]
      have happend := spanUntil_append_of_looksAhead (looksAhead_startsWith closeMark) more hlong
      rw [happend, hspan, List.append_assoc]
    rw [hending]
    rcases erbEnding_cases (text ++ more) with ⟨hnil, -⟩ | ⟨-, hnone, -⟩
      | ⟨content', back', hspan', hending'⟩
    · rw [hnil] at hlater
      cases hlater
    · rw [hlater] at hnone
      cases hnone
    · rw [hlater] at hspan'
      obtain ⟨rfl, hback⟩ := Prod.mk.inj hspan'
      rw [hending', List.append_cancel_left hback]

theorem four_le_of_closed {opening : Opening} (h : (erbEnding text).1.closing?.isSome = true) :
    4 ≤ (opening.text ++ text).length := by
  have hopening : 2 ≤ opening.text.length := by cases opening <;> decide
  rcases erbEnding_cases text with ⟨-, hending⟩ | ⟨-, -, hending⟩ | ⟨content, back, hspan, -⟩
  · rw [hending] at h
    cases h
  · rw [hending] at h
    cases h
  · have hclosing := congrArg List.length (spanUntil_append (startsWith closeMark) text)
    rw [hspan] at hclosing
    simp only [List.length_append, closeMark, List.length_cons, List.length_nil] at hclosing
    rw [List.length_append]
    omega

/-- **A step that closes a tag, or leaves four characters behind, is the same when more is
    appended.** -/
theorem next_append (hclosed : (next c text).1.isClosed = true)
    (hrest : ∀ lexeme, (next c text).1 = .markup lexeme → 4 ≤ (next c text).2.length) :
    next c (text ++ more) = ((next c text).1, (next c text).2 ++ more) := by
  cases hopen : Opening.of? (c :: text) with
  | none =>
    rw [next_of_none hopen] at hrest ⊢
    have hlong : 4 ≤ (markup c text).2.length := hrest _ rfl
    have htext := congrArg List.length (text_markup c text)
    rw [List.length_append] at htext
    have hnone : Opening.of? (c :: (text ++ more)) = none := by
      rw [← List.cons_append, of?_append more (by omega)]
      exact hopen
    rw [next_of_none hnone, markup_append more hlong]
  | some opening =>
    obtain ⟨rest, htext, hnext⟩ := next_of_some hopen
    rw [hnext] at hclosed ⊢
    have hlong : 4 ≤ (c :: text).length := by
      rw [htext]
      exact four_le_of_closed hclosed
    have hsome : Opening.of? (c :: (text ++ more)) = some opening := by
      rw [← List.cons_append, of?_append more hlong]
      exact hopen
    obtain ⟨rest', htext', hnext'⟩ := next_of_some hsome
    have hrest' : rest' = rest ++ more := by
      rw [← List.cons_append, htext, List.append_assoc] at htext'
      exact (List.append_cancel_left htext').symm
    rw [hnext', hrest', erbEnding_append more hclosed]

end Step

end Lexer

/-! ## 3. Behind a closed tag -/

/-- The last piece of a text is a closed ERB tag. -/
def EndsClosed (text : List Char) : Prop :=
  ∃ opening mark content closing,
    (pieces text).getLast? = some (.erb opening mark (.closed content closing))

namespace EndsClosed

variable {c : Char} {text : List Char}

theorem ne_nil (h : EndsClosed text) : text ≠ [] := by
  rintro rfl
  obtain ⟨_, _, _, _, hlast⟩ := h
  rw [pieces] at hlast
  cases hlast

/-- The first piece is the closed tag at the end, or the rest ends with one. -/
theorem cases (h : EndsClosed (c :: text)) :
    ((Lexer.next c text).2 = [] ∧ ∃ opening mark content closing,
        (Lexer.next c text).1 = .erb opening mark (.closed content closing))
      ∨ EndsClosed (Lexer.next c text).2 := by
  obtain ⟨opening, mark, content, closing, hlast⟩ := h
  rw [pieces, List.getLast?_cons] at hlast
  cases hrest : (Lexer.next c text).2 with
  | nil =>
    refine Or.inl ⟨rfl, opening, mark, content, closing, ?_⟩
    rw [hrest, pieces] at hlast
    simpa using hlast
  | cons d rest =>
    refine Or.inr ⟨opening, mark, content, closing, ?_⟩
    rw [hrest, pieces] at hlast
    rw [pieces]
    simpa [List.getLast?_cons] using hlast

theorem four_le_length (h : EndsClosed text) : 4 ≤ text.length := by
  fun_induction pieces text with
  | case1 => exact absurd rfl h.ne_nil
  | case2 c text ih =>
    rcases h.cases with ⟨-, opening, mark, content, closing, hpiece⟩ | hrest
    · cases hopen : Opening.of? (c :: text) with
      | none =>
        rw [Lexer.next_of_none hopen] at hpiece
        cases hpiece
      | some other =>
        obtain ⟨rest, htext, hnext⟩ := Lexer.next_of_some hopen
        rw [hnext] at hpiece
        injection hpiece with _ _ hending
        rw [htext]
        apply Lexer.four_le_of_closed
        rw [hending]
        rfl
    · exact Nat.le_trans (ih hrest) (Nat.le_of_lt (Lexer.length_next_lt c text))

/-- Appending to a text that ends closed does not change its first piece. -/
theorem next_append (h : EndsClosed (c :: text)) (more : List Char) :
    Lexer.next c (text ++ more) = ((Lexer.next c text).1, (Lexer.next c text).2 ++ more) := by
  rcases h.cases with ⟨-, opening, mark, content, closing, hpiece⟩ | hrest
  · refine Lexer.next_append more ?_ ?_
    · rw [hpiece]
      rfl
    · intro lexeme hmarkup
      rw [hpiece] at hmarkup
      cases hmarkup
  · refine Lexer.next_append more ?_ ?_
    · -- an open tag would have taken the rest
      cases hclosed : (Lexer.next c text).1.isClosed with
      | true => rfl
      | false => exact absurd (Lexer.next_eq_nil_of_open hclosed) hrest.ne_nil
    · intro _ _
      exact hrest.four_le_length

end EndsClosed

/-- **Behind a closed tag everything is cut as if it stood alone.** -/
theorem pieces_append_of_endsClosed {text : List Char} (more : List Char) (h : EndsClosed text) :
    pieces (text ++ more) = pieces text ++ pieces more := by
  fun_induction pieces text with
  | case1 => exact absurd rfl h.ne_nil
  | case2 c text ih =>
    have hrest : pieces ((Lexer.next c text).2 ++ more)
        = pieces (Lexer.next c text).2 ++ pieces more := by
      rcases h.cases with ⟨hnil, -⟩ | hlater
      · rw [hnil, pieces]
        rfl
      · exact ih hlater
    rw [List.cons_append, pieces, h.next_append more, hrest]
    rfl

/-! ## 4. Tokens -/

/-- Only a closed tag ends with a closing delimiter. -/
theorem exists_closed_of_getLast? {text : List Char} :
    ∀ piece ∈ pieces text, ∀ last, piece.parts.getLast? = some last → last.kind = .erbEnd →
      ∃ opening mark content closing, piece = .erb opening mark (.closed content closing) := by
  refine forall_mem_pieces ?_ ?_ text
  · intro c text last hlast hkind
    have hmarkup := Lexer.isErb_markup c text
    obtain rfl : (Lexer.markup c text).1 = last := by simpa [Piece.parts] using hlast
    rw [hkind] at hmarkup
    cases hmarkup
  · intro opening rest last hlast hkind
    rcases Lexer.erbEnding_cases rest with ⟨-, hending⟩ | ⟨-, -, hending⟩
      | ⟨content, back, -, hending⟩
    · rw [hending] at hlast
      obtain rfl := Option.some.inj hlast
      cases hkind
    · rw [hending] at hlast
      obtain rfl := Option.some.inj hlast
      cases hkind
    · rw [hending]
      exact ⟨_, _, _, _, rfl⟩

theorem dropLast_tokens (text : List Char) :
    (tokens text).dropLast = Token.rowFrom .origin (lexemes text) := by
  rw [tokens_eq_rowFrom, Token.rowFrom_append]
  exact List.dropLast_concat

/-- The last token of a row before the one that marks the end is a closing delimiter. -/
def EndsWithClosing (row : List Token) : Prop :=
  row.dropLast.getLast?.map Token.kind = some .erbEnd

instance (row : List Token) : Decidable (EndsWithClosing row) :=
  inferInstanceAs (Decidable (_ = _))

theorem endsClosed_of_tokens {text : List Char} (h : EndsWithClosing (tokens text)) :
    EndsClosed text := by
  rw [EndsWithClosing, dropLast_tokens, lexemes] at h
  rcases List.eq_nil_or_concat (pieces text) with hnil | ⟨row, piece, hpieces⟩
  · rw [hnil] at h
    cases h
  · -- the last lexeme of the last piece is the last one of all
    have hparts : piece.parts ≠ [] := by cases piece <;> exact List.cons_ne_nil _ _
    obtain ⟨before, lexeme, hlexeme⟩ := (List.eq_nil_or_concat piece.parts).resolve_left hparts
    rw [List.concat_eq_append] at hpieces hlexeme
    have hkind : lexeme.kind = .erbEnd := by
      rw [hpieces, List.flatMap_append, List.flatMap_singleton, hlexeme, ← List.append_assoc,
        Token.rowFrom_append] at h
      simpa [Token.ofLexeme] using h
    obtain ⟨opening, mark, content, closing, hpiece⟩ := exists_closed_of_getLast? piece
      (by rw [hpieces]; simp) lexeme (by rw [hlexeme]; simp) hkind
    exact ⟨opening, mark, content, closing, by rw [hpieces, hpiece]; simp⟩

/-- **Behind a closed tag the tokens are those of what follows, shifted.** -/
theorem tokens_append_of_endsClosed {text : List Char} (more : List Char) (h : EndsClosed text) :
    tokens (text ++ more)
      = (tokens text).dropLast ++ (tokens more).map (·.shift (.behind text)) := by
  have hlexemes : lexemes (text ++ more) = lexemes text ++ lexemes more := by
    rw [lexemes, pieces_append_of_endsClosed more h, List.flatMap_append]
    rfl
  rw [dropLast_tokens, tokens_eq_rowFrom, tokens_eq_rowFrom, hlexemes, List.append_assoc,
    Token.rowFrom_append, flatMap_text_lexemes, Point.advance_origin,
    Token.rowFrom_eq_map_shift (.behind text)]

end ErbTemplate
