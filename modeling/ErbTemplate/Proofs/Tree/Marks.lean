import ErbTemplate.Proofs.Extraction.Mask
import ErbTemplate.Proofs.Tree.Terminated

/-!
# Marks outside of ERB tags

Comments, quoted values and opening tags all end at a mark that stands outside of ERB tags. Whoever
reads a template byte by byte knows such a mark when he sees it; the readers of this library see
only tokens. This file says that the two see the same:

* a quote outside of ERB is a token of its own (`freeByte_quote_iff`);
* a `<!--` outside of ERB is a token of its own (`freeMark_commentOpen_iff`);
* a `-->` outside of ERB is one unless it has a byte in common with a `<!--` outside of ERB, since
  tokens are cut from left to right (`commentEnd_iff`);
* a `>` outside of ERB is the last byte of a token, and that is `>`, `/>` or `-->`
  (`freeByte_gt_iff`).

None of them asks in which comment, value or tag the mark stands: the lexer does not know.
-/

set_option autoImplicit false

namespace ErbTemplate

open Text

/-! ## 1. The rules -/

/-- The byte at an offset belongs to an ERB tag. -/
def InErb (row : List Token) (offset : Nat) : Prop :=
  ∃ token ∈ row, token.kind.isErb = true ∧ token.range.Holds offset

/-- The byte at an offset is this ASCII character, and belongs to no ERB tag. -/
structure FreeByte (row : List Token) (source : List Char) (c : Char) (offset : Nat) : Prop where
  byte : (toBytes source)[offset]? = some (Extraction.byteOf c)
  outside : ¬ InErb row offset

/-- A mark stands at an offset, and none of its bytes belongs to an ERB tag. -/
structure FreeMark (row : List Token) (source mark : List Char) (offset : Nat) : Prop where
  occurs : OccursAt mark source offset
  outside : ∀ place, offset ≤ place → place < offset + byteLength mark → ¬ InErb row place

/-- What a comment begins with. -/
def commentOpen : List Char := ['<', '!', '-', '-']

/-- What a comment ends with. -/
def commentClose : List Char := ['-', '-', '>']

/-- A `-->` outside of ERB that has no byte in common with a `<!--` outside of ERB. -/
structure CommentEnd (row : List Token) (source : List Char) (offset : Nat) : Prop where
  mark : FreeMark row source commentClose offset
  apart : ∀ place, FreeMark row source commentOpen place → offset + 3 ≤ place ∨ place + 4 ≤ offset

/-- The first place of a kind that is not before `start`, or the end of the source if there is
    none. -/
def FirstOrEnd (source : List Char) (found : Nat → Prop) (start stop : Nat) : Prop :=
  IsLeast { place | start ≤ place ∧ found place } stop
    ∨ (∀ place, start ≤ place → ¬ found place) ∧ stop = byteLength source

/-! ## 2. Bytes and characters -/

/-- **An ASCII byte is an ASCII character.** -/
theorem occursAt_singleton_iff {source : List Char} {c : Char} {offset : Nat} (hc : c.toNat ≤ 127) :
    OccursAt [c] source offset ↔ (toBytes source)[offset]? = some (Extraction.byteOf c) := by
  constructor
  · rintro ⟨front, back, rfl, rfl⟩
    rw [List.append_assoc]
    exact getElem?_toBytes_append hc front back
  · intro hbyte
    induction source generalizing offset with
    | nil => cases hbyte
    | cons d source ih =>
      rw [toBytes_cons] at hbyte
      by_cases hlt : offset < (String.utf8EncodeChar d).length
      · rw [List.getElem?_append_left hlt] at hbyte
        obtain rfl : d = c := eq_of_mem_utf8EncodeChar hc (List.mem_of_getElem? hbyte)
        rw [utf8EncodeChar_of_ascii hc, List.length_singleton, Nat.lt_one_iff] at hlt
        exact ⟨[], source, rfl, hlt.symm⟩
      · have hle := Nat.le_of_not_lt hlt
        rw [List.getElem?_append_right hle] at hbyte
        obtain ⟨front, back, hsource, hfront⟩ := ih hbyte
        rw [String.length_utf8EncodeChar] at hle hfront
        refine ⟨d :: front, back, by rw [hsource]; rfl, ?_⟩
        rw [byteLength_cons, hfront, Nat.add_sub_cancel' hle]

/-! ## 3. What a token of markup can hold -/

namespace Lexer

variable {c d : Char} {text middle back : List Char}

/-- **What one step can do:** it takes a mark, or where there is none, a run of blanks, a run of
    name characters, or a character of neither. -/
theorem markup_inv (c : Char) (text : List Char) :
    markOf? (c :: text) = some (markup c text).1
      ∨ markOf? (c :: text) = none
        ∧ (isGapChar c = true ∧ markup c text
              = (⟨.whitespace, c :: (spanUntil endsGap text).1⟩, (spanUntil endsGap text).2)
          ∨ isNameChar c = true ∧ markup c text
              = (⟨.identifier, c :: (spanUntil endsName text).1⟩, (spanUntil endsName text).2)
          ∨ isGapChar c = false ∧ isNameChar c = false
            ∧ markup c text = (⟨.character, [c]⟩, text)) := by
  unfold markup
  split
  next mark hmark => exact Or.inl hmark
  next hnone =>
    refine Or.inr ⟨hnone, ?_⟩
    split
    next hgap => exact Or.inl ⟨hgap, rfl⟩
    next hgap =>
      split
      next hname => exact Or.inr (Or.inl ⟨hname, rfl⟩)
      next hname =>
        exact Or.inr (Or.inr ⟨Bool.eq_false_iff.2 hgap, Bool.eq_false_iff.2 hname, rfl⟩)

/-- What the token of markup at the beginning of a text can be. -/
theorem markup_cases (c : Char) (text : List Char) :
    markOf? (c :: text) = some (markup c text).1
      ∨ markOf? (c :: text) = none
        ∧ (isGapChar c = true
            ∧ (markup c text).1 = ⟨.whitespace, c :: (spanUntil endsGap text).1⟩
          ∨ isNameChar c = true
            ∧ (markup c text).1 = ⟨.identifier, c :: (spanUntil endsName text).1⟩
          ∨ isNameChar c = false ∧ (markup c text).1 = ⟨.character, [c]⟩) := by
  rcases markup_inv c text with hmark | ⟨hnone, ⟨hgap, heq⟩ | ⟨hname, heq⟩ | ⟨-, hname, heq⟩⟩
  · exact Or.inl hmark
  · exact Or.inr ⟨hnone, Or.inl ⟨hgap, congrArg Prod.fst heq⟩⟩
  · exact Or.inr ⟨hnone, Or.inr (Or.inl ⟨hname, congrArg Prod.fst heq⟩)⟩
  · exact Or.inr ⟨hnone, Or.inr (Or.inr ⟨hname, congrArg Prod.fst heq⟩)⟩

theorem mem_marks_of_kind (h : (markup c text).1.kind ≠ .whitespace
    ∧ (markup c text).1.kind ≠ .identifier ∧ (markup c text).1.kind ≠ .character) :
    (markup c text).1 ∈ marks := by
  obtain ⟨hgap, hname, hsingle⟩ := h
  rcases markup_cases c text with hmark | ⟨-, ⟨-, heq⟩ | ⟨-, heq⟩ | ⟨-, heq⟩⟩
  · exact List.mem_of_find?_eq_some hmark
  · exact absurd (congrArg Lexeme.kind heq) hgap
  · exact absurd (congrArg Lexeme.kind heq) hname
  · exact absurd (congrArg Lexeme.kind heq) hsingle

/-- A text without a mark at its beginning does not begin with the character of one. -/
theorem ne_of_markOf?_eq_none (hnone : markOf? (c :: text) = none)
    (hmark : ∃ mark ∈ marks, mark.text = [d]) : d ≠ c := by
  rintro rfl
  obtain ⟨mark, hmem, htext⟩ := hmark
  have hstart := List.find?_eq_none.1 hnone mark hmem
  rw [htext] at hstart
  exact hstart (by simp [startsWith])

/-- A character that is a mark, and none of a run, stands in marks only. -/
theorem mem_marks_of_mem_text (hgap : isGapChar d = false) (hname : isNameChar d = false)
    (hmark : ∃ mark ∈ marks, mark.text = [d]) (h : d ∈ (markup c text).1.text) :
    (markup c text).1 ∈ marks := by
  rcases markup_cases c text with hfound | ⟨hnone, hcases⟩
  · exact List.mem_of_find?_eq_some hfound
  · have hne := ne_of_markOf?_eq_none hnone hmark
    rcases hcases with ⟨-, heq⟩ | ⟨-, heq⟩ | ⟨-, heq⟩
    · rw [heq] at h
      obtain ⟨rest, hstop⟩ := exists_not_stop_of_mem ((List.mem_cons.1 h).resolve_left hne)
      simp [endsGap, hgap] at hstop
    · rw [heq] at h
      obtain ⟨rest, hstop⟩ := exists_not_stop_of_mem ((List.mem_cons.1 h).resolve_left hne)
      simp [endsName, hname] at hstop
    · rw [heq] at h
      exact absurd (List.mem_singleton.1 h) hne

/-- A name ends before the next `-->`. -/
theorem le_of_endsName (h : text = middle ++ commentClose ++ back) :
    byteLength (spanUntil endsName text).1 ≤ byteLength middle := by
  have hstop : endsName (commentClose ++ back) = true := by
    simp [endsName, startsWith, commentClose]
  rw [List.append_assoc] at h
  obtain ⟨more, rfl⟩ := exists_append_of_stop h (by simp [commentClose]) hstop
  rw [byteLength_append]
  exact Nat.le_add_right _ _

/-- **Where a `-->` begins inside of a token, the token is that mark or a `<!--`.** -/
theorem markup_of_commentClose (hsplit : c :: text = middle ++ commentClose ++ back)
    (hlt : byteLength middle < byteLength (markup c text).1.text) :
    middle = [] ∧ (markup c text).1 = ⟨.commentEnd, commentClose⟩
      ∨ (markup c text).1 = ⟨.commentStart, commentOpen⟩ := by
  have htext := text_markup c text
  rw [hsplit, List.append_assoc] at htext
  obtain ⟨inside, hinside, hrest⟩ := exists_append_of_byteLength_le htext.symm (Nat.le_of_lt hlt)
  obtain ⟨inside, rfl⟩ : ∃ more, inside = '-' :: more := by
    cases inside with
    | nil =>
      rw [hinside, List.append_nil] at hlt
      exact absurd hlt (Nat.lt_irrefl _)
    | cons d more =>
      obtain ⟨rfl, -⟩ : '-' = d ∧ _ := List.cons.inj hrest
      exact ⟨more, rfl⟩
  have hdash : '-' ∈ (markup c text).1.text := by
    rw [hinside]
    simp
  rcases markup_cases c text with hmark | ⟨hnone, hcases⟩
  · -- two marks have a dash, and in the end mark the `-->` can only be the mark itself
    have hmarks : ∀ mark ∈ marks, '-' ∈ mark.text → mark = ⟨.commentStart, commentOpen⟩
        ∨ mark = ⟨.commentEnd, commentClose⟩ := by decide
    rcases hmarks _ (List.mem_of_find?_eq_some hmark) hdash with hopen | hclose
    · exact Or.inr hopen
    · refine Or.inl ⟨?_, hclose⟩
      rw [hclose] at hinside
      rcases middle with _ | ⟨a, _ | ⟨b, middle⟩⟩
      · rfl
      · obtain ⟨-, rfl⟩ : a = '-' ∧ inside = ['>'] := by simpa [commentClose] using hinside.symm
        simp [commentClose] at hrest
      · simp [commentClose, List.cons_eq_append_iff] at hinside
  · rcases hcases with ⟨hgap, heq⟩ | ⟨-, heq⟩ | ⟨hname, heq⟩
    · rw [heq] at hdash
      rcases List.mem_cons.1 hdash with rfl | hdash
      · exact absurd hgap (by decide)
      · obtain ⟨rest, hstop⟩ := exists_not_stop_of_mem hdash
        simp [endsGap, isGapChar] at hstop
    · cases middle with
      | nil =>
        -- at its beginning the lexer would have found the mark
        have hstart := List.find?_eq_none.1 hnone ⟨.commentEnd, commentClose⟩ (by decide)
        rw [hsplit] at hstart
        exact absurd (by simp [startsWith, commentClose]) hstart
      | cons a middle =>
        obtain ⟨rfl, hbehind⟩ := List.cons.inj hsplit
        have hle := le_of_endsName hbehind
        rw [heq, byteLength_cons, byteLength_cons] at hlt
        omega
    · rw [heq] at hdash
      obtain rfl := List.mem_singleton.1 hdash
      exact absurd hname (by decide)

/-- A text that begins with `<!--` has it as its first token. -/
theorem markup_of_commentOpen (h : c :: text = commentOpen ++ back) :
    (markup c text).1 = ⟨.commentStart, commentOpen⟩ := by
  have hmark : markOf? (c :: text) = some ⟨.commentStart, commentOpen⟩ := by
    rw [h]
    simp [markOf?, marks, startsWith, commentOpen]
  rw [markup, hmark]

end Lexer

/-! ## 4. Tokens of a source -/

theorem exists_next_of_pieces {text : List Char} {before after : List (Piece Lexeme)}
    {first : Piece Lexeme} (h : pieces text = before ++ first :: after) :
    ∃ c rest, text = before.flatMap Piece.text ++ c :: rest ∧ first = (Lexer.next c rest).1 := by
  fun_induction pieces text generalizing before with
  | case1 => exact absurd h.symm (by simp)
  | case2 c text ih =>
    cases before with
    | nil =>
      obtain ⟨rfl, -⟩ := List.cons.inj h
      exact ⟨c, text, rfl, rfl⟩
    | cons piece before =>
      obtain ⟨rfl, hrest⟩ := List.cons.inj h
      obtain ⟨d, rest, htext, hfirst⟩ := ih hrest
      refine ⟨d, rest, ?_, hfirst⟩
      rw [List.flatMap_cons, List.append_assoc, ← htext, Lexer.text_next]

/-- **A token of markup is cut at its place of the source.** -/
theorem exists_lexed_of_markup {source : List Char} {token : Token}
    (h : .markup token ∈ locatedPieces source) :
    ∃ front c text, source = front ++ c :: text
      ∧ token = .ofLexeme (Point.origin.advance front) (Lexer.markup c text).1 := by
  obtain ⟨before, first, after, hrow, hlocate⟩ := exists_of_mem_locateAll h
  obtain ⟨c, text, hsource, rfl⟩ := exists_next_of_pieces hrow
  refine ⟨before.flatMap Piece.text, c, text, hsource, ?_⟩
  cases hopen : Opening.of? (c :: text) with
  | none =>
    rw [Lexer.next_of_none hopen] at hlocate
    exact Piece.markup.inj hlocate
  | some opening =>
    obtain ⟨rest, -, hnext⟩ := Lexer.next_of_some hopen
    rw [hnext] at hlocate
    cases hlocate

namespace Token

variable {start : Point} {lexemes : List Lexeme} {offset : Nat}

theorem exists_holds_rowFrom (start : Point) (hle : start.offset ≤ offset)
    (hlt : offset < start.offset + byteLength (lexemes.flatMap Lexeme.text)) :
    ∃ token ∈ rowFrom start lexemes, token.range.Holds offset := by
  induction lexemes generalizing start with
  | nil => exact absurd hlt (Nat.not_lt.2 hle)
  | cons lexeme lexemes ih =>
    rw [List.flatMap_cons, byteLength_append, ← Nat.add_assoc] at hlt
    by_cases hfirst : offset < start.offset + byteLength lexeme.text
    · refine ⟨.ofLexeme start lexeme, List.mem_cons_self, ?_⟩
      rw [range_ofLexeme]
      exact ⟨hle, hfirst⟩
    · rw [← Point.offset_advance] at hfirst hlt
      obtain ⟨token, hmem, hholds⟩ := ih _ (Nat.le_of_not_lt hfirst) hlt
      exact ⟨token, List.mem_cons_of_mem _ hmem, hholds⟩

theorem eq_of_holds {first second : Token} (hfirst : first ∈ rowFrom start lexemes)
    (hsecond : second ∈ rowFrom start lexemes) (hholds : first.range.Holds offset)
    (hholds' : second.range.Holds offset) : first = second := by
  have hapart : ∀ (start : Point) lexeme lexemes, ∀ token ∈ rowFrom (start.advance
      lexeme.text) lexemes, (ofLexeme start lexeme).range.stop ≤ token.range.start :=
    fun start lexeme lexemes token hmem => offset_le_of_mem_rowFrom hmem
  induction lexemes generalizing start with
  | nil => cases hfirst
  | cons lexeme lexemes ih =>
    rcases List.mem_cons.1 hfirst with rfl | hlater
    · rcases List.mem_cons.1 hsecond with rfl | hmem
      · rfl
      · have hle := hapart start lexeme lexemes second hmem
        exact absurd (hholds.2.trans_le (hle.trans hholds'.1)) (Nat.lt_irrefl _)
    · rcases List.mem_cons.1 hsecond with rfl | hmem
      · have hle := hapart start lexeme lexemes first hlater
        exact absurd (hholds'.2.trans_le (hle.trans hholds.1)) (Nat.lt_irrefl _)
      · exact ih hlater hmem

end Token

section

variable {source : List Char} {token : Token} {offset : Nat}

theorem offset_stop_of_mem_tokens (h : token ∈ tokens source) :
    token.span.stop.offset = token.span.start.offset + byteLength token.text := by
  obtain ⟨before, lexeme, after, -, rfl, -⟩ := exists_split_of_mem_tokens h
  exact Point.offset_advance _ _

/-- **Two tokens of a source share no byte.** -/
theorem eq_of_shared_byte {first second : Token} (hfirst : first ∈ tokens source)
    (hsecond : second ∈ tokens source)
    (h : ∃ place, first.range.Holds place ∧ second.range.Holds place) : first = second := by
  obtain ⟨place, hholds, hholds'⟩ := h
  rw [tokens_eq_rowFrom] at hfirst hsecond
  exact Token.eq_of_holds hfirst hsecond hholds hholds'

/-- A token is one of markup, a part of an ERB tag, or the end. -/
theorem cases_of_mem_tokens (h : token ∈ tokens source) :
    .markup token ∈ locatedPieces source ∨ token.kind.isErb = true
      ∨ token = .eofAt (Point.origin.advance source) := by
  rcases List.mem_append.1 h with hpart | hlast
  · obtain ⟨piece, hpiece, htoken⟩ := List.mem_flatMap.1 hpart
    cases piece with
    | markup other =>
      obtain rfl := List.mem_singleton.1 htoken
      exact Or.inl hpiece
    | erb opening mark ending =>
      exact Or.inr (Or.inl (isErb_of_mem_parts (typed_of_mem_locatedPieces hpiece) htoken))
  · exact Or.inr (Or.inr (List.mem_singleton.1 hlast))

/-- What does not belong to an ERB tag belongs to a token of markup. -/
theorem exists_markup_of_not_inErb (hlt : offset < byteLength source)
    (h : ¬ InErb (tokens source) offset) :
    ∃ token, .markup token ∈ locatedPieces source ∧ token.range.Holds offset := by
  have hlength : byteLength ((lexemes source ++ [(⟨.eof, []⟩ : Lexeme)]).flatMap Lexeme.text)
      = byteLength source := by
    rw [List.flatMap_append, flatMap_text_lexemes]
    simp
  obtain ⟨token, hmem, hholds⟩ := Token.exists_holds_rowFrom .origin
    (Nat.zero_le offset) (by rw [hlength]; simpa [Point.origin] using hlt)
  rw [← tokens_eq_rowFrom] at hmem
  rcases cases_of_mem_tokens hmem with hmarkup | herb | rfl
  · exact ⟨token, hmarkup, hholds⟩
  · exact absurd ⟨token, hmem, herb, hholds⟩ h
  · -- the end of the source holds nothing
    exact absurd (hholds.1.trans_lt hholds.2) (Nat.lt_irrefl _)

theorem not_inErb_of_markup (h : .markup token ∈ locatedPieces source)
    (hholds : token.range.Holds offset) : ¬ InErb (tokens source) offset := by
  rintro ⟨other, hother, herb, hholds'⟩
  have hsame := eq_of_shared_byte (mem_tokens_of_markup h) hother ⟨offset, hholds, hholds'⟩
  have hkind : token.kind.isErb = false := typed_of_mem_locatedPieces h
  rw [hsame, herb] at hkind
  cases hkind

theorem mem_marks_of_markup (h : .markup token ∈ locatedPieces source)
    (hkind : token.kind ≠ .whitespace ∧ token.kind ≠ .identifier ∧ token.kind ≠ .character) :
    ⟨token.kind, token.text⟩ ∈ Lexer.marks := by
  obtain ⟨front, c, text, -, rfl⟩ := exists_lexed_of_markup h
  exact Lexer.mem_marks_of_kind hkind

/-! ## 5. Marks are tokens -/

theorem freeByte_iff_freeMark {c : Char} (hc : c.toNat ≤ 127) {row : List Token} :
    FreeByte row source c offset ↔ FreeMark row source [c] offset := by
  have hone : byteLength [c] = 1 := by
    rw [← length_toBytes, toBytes_cons, utf8EncodeChar_of_ascii hc]
    rfl
  constructor
  · rintro ⟨hbyte, houtside⟩
    refine ⟨(occursAt_singleton_iff hc).2 hbyte, fun place hle hlt => ?_⟩
    obtain rfl : place = offset := by omega
    exact houtside
  · rintro ⟨hoccurs, houtside⟩
    exact ⟨(occursAt_singleton_iff hc).1 hoccurs, houtside offset (Nat.le_refl _) (by omega)⟩

/-- What stands in a token of markup stands outside of ERB. -/
theorem freeMark_of_markup (front back : List Char) {mark : List Char}
    (h : .markup token ∈ locatedPieces source) (htext : token.text = front ++ mark ++ back) :
    FreeMark (tokens source) source mark (token.span.start.offset + byteLength front) := by
  have hmem := mem_tokens_of_markup h
  constructor
  · obtain ⟨before, lexeme, after, rfl, rfl, -⟩ := exists_split_of_mem_tokens hmem
    rw [Token.text_ofLexeme] at htext
    refine ⟨before ++ front, back ++ after, by simp [htext], ?_⟩
    simp [Token.ofLexeme, Point.origin]
  · intro place hle hlt
    have hstop := offset_stop_of_mem_tokens hmem
    rw [htext, byteLength_append, byteLength_append] at hstop
    refine not_inErb_of_markup h ?_
    constructor <;> simp only [Token.range, Span.range] <;> omega

theorem freeByte_of_markup {c : Char} (hc : c.toNat ≤ 127)
    (h : .markup token ∈ locatedPieces source) (htext : token.text = [c]) :
    FreeByte (tokens source) source c token.span.start.offset :=
  (freeByte_iff_freeMark hc).2 (freeMark_of_markup [] [] h (by simp [htext]))

/-- A mark outside of ERB begins inside of a token of markup. -/
theorem FreeMark.exists_cut {mark : List Char} (hmark : mark ≠ [])
    (h : FreeMark (tokens source) source mark offset) :
    ∃ token c text middle back, .markup token ∈ locatedPieces source
      ∧ (Lexer.markup c text).1 = ⟨token.kind, token.text⟩ ∧ c :: text = middle ++ mark ++ back
      ∧ offset = token.span.start.offset + byteLength middle
      ∧ byteLength middle < byteLength token.text := by
  have hpos := byteLength_pos hmark
  have hend := h.occurs.add_le
  obtain ⟨token, hmem, hholds⟩ := exists_markup_of_not_inErb (by omega)
    (h.outside offset (Nat.le_refl _) (by omega))
  obtain ⟨front, c, text, rfl, rfl⟩ := exists_lexed_of_markup hmem
  rw [Token.range_ofLexeme, Point.offset_advance, Point.origin, Nat.zero_add] at hholds
  obtain ⟨middle, back, hsplit, rfl⟩ := (occursAt_append_iff hholds.1).1 h.occurs
  refine ⟨_, c, text, middle, back, hmem, rfl, hsplit, ?_, Nat.lt_of_add_lt_add_left hholds.2⟩
  simp [Token.ofLexeme, Point.origin]

/-- The token holds the first character of the mark. -/
theorem exists_text_of_cut {c d : Char} {text middle mark back : List Char} {token : Token}
    (hlexeme : (Lexer.markup c text).1 = ⟨token.kind, token.text⟩)
    (hsplit : c :: text = middle ++ (d :: mark) ++ back)
    (hlt : byteLength middle < byteLength token.text) :
    ∃ inside, token.text = middle ++ d :: inside := by
  have htext := Lexer.text_markup c text
  rw [hlexeme, hsplit, List.append_assoc] at htext
  obtain ⟨inside, hinside, hrest⟩ := exists_append_of_byteLength_le htext.symm (Nat.le_of_lt hlt)
  cases inside with
  | nil =>
    simp only at hinside
    rw [hinside, List.append_nil] at hlt
    exact absurd hlt (Nat.lt_irrefl _)
  | cons e inside =>
    obtain ⟨rfl, -⟩ : d = e ∧ _ := List.cons.inj hrest
    exact ⟨inside, hinside⟩

/-- **A quote outside of ERB is a token of its own.** -/
theorem freeByte_quote_iff {q : Char} (hq : q = '"' ∨ q = '\'') :
    FreeByte (tokens source) source q offset
      ↔ ∃ token, .markup token ∈ locatedPieces source ∧ token.kind = .quote ∧ token.text = [q]
        ∧ token.span.start.offset = offset := by
  have hascii : q.toNat ≤ 127 := by rcases hq with rfl | rfl <;> decide
  have hmarks : (∃ mark ∈ Lexer.marks, mark.text = [q])
      ∧ ∀ mark ∈ Lexer.marks, q ∈ mark.text → mark = ⟨.quote, [q]⟩ := by
    rcases hq with rfl | rfl <;> decide
  constructor
  · intro h
    obtain ⟨token, c, text, middle, back, hmem, hlexeme, hsplit, rfl, hlt⟩ :=
      ((freeByte_iff_freeMark hascii).1 h).exists_cut (by simp)
    obtain ⟨inside, hinside⟩ := exists_text_of_cut hlexeme hsplit hlt
    have hheld : q ∈ (Lexer.markup c text).1.text := by
      rw [hlexeme]
      simp [hinside]
    have hmark := hmarks.2 _ (Lexer.mem_marks_of_mem_text
      (by rcases hq with rfl | rfl <;> decide) (by rcases hq with rfl | rfl <;> decide)
      hmarks.1 hheld) hheld
    rw [hlexeme] at hmark
    obtain ⟨hkind, htext⟩ := Lexeme.mk.inj hmark
    have hfront : middle = [] := by
      rw [htext, List.singleton_eq_append_iff] at hinside
      rcases hinside with ⟨hnil, -⟩ | ⟨-, hnil⟩
      · exact hnil
      · cases hnil
    exact ⟨token, hmem, hkind, htext, by rw [hfront]; rfl⟩
  · rintro ⟨token, hmem, -, htext, rfl⟩
    exact freeByte_of_markup hascii hmem htext

/-- **A `<!--` outside of ERB is a token of its own.** -/
theorem freeMark_commentOpen_iff :
    FreeMark (tokens source) source commentOpen offset
      ↔ ∃ token, .markup token ∈ locatedPieces source ∧ token.kind = .commentStart
        ∧ token.span.start.offset = offset := by
  constructor
  · intro h
    obtain ⟨token, c, text, middle, back, hmem, hlexeme, hsplit, rfl, hlt⟩ :=
      h.exists_cut (by simp [commentOpen])
    obtain ⟨inside, hinside⟩ := exists_text_of_cut hlexeme hsplit hlt
    -- a `<` is the first character of its token
    have htail := Lexer.not_mem_tail_markup c text
    rw [hlexeme] at htail
    cases middle with
    | nil =>
      have hmark := Lexer.markup_of_commentOpen hsplit
      rw [hlexeme] at hmark
      exact ⟨token, hmem, congrArg Lexeme.kind hmark, rfl⟩
    | cons d middle => exact absurd (by simp [hinside]) htail
  · rintro ⟨token, hmem, hkind, rfl⟩
    have hmarks : ∀ mark ∈ Lexer.marks, mark.kind = .commentStart → mark.text = commentOpen := by
      decide
    have htext := hmarks _ (mem_marks_of_markup hmem (by rw [hkind]; decide)) hkind
    exact freeMark_of_markup [] [] hmem (by simpa using htext)

/-- **A comment end is a token of its own, and there are no others.** -/
theorem commentEnd_iff :
    CommentEnd (tokens source) source offset
      ↔ ∃ token, .markup token ∈ locatedPieces source ∧ token.kind = .commentEnd
        ∧ token.span.start.offset = offset := by
  constructor
  · rintro ⟨hmark, hapart⟩
    obtain ⟨token, c, text, middle, back, hmem, hlexeme, hsplit, rfl, hlt⟩ :=
      hmark.exists_cut (by simp [commentClose])
    have htext : (Lexer.markup c text).1.text = token.text := congrArg Lexeme.text hlexeme
    rw [← htext] at hlt
    rcases Lexer.markup_of_commentClose hsplit hlt with ⟨rfl, hclose⟩ | hopen
    · rw [hlexeme] at hclose
      exact ⟨token, hmem, congrArg Lexeme.kind hclose, rfl⟩
    · -- it would begin in the `<!--`
      have hfour : byteLength commentOpen = 4 := by decide
      rw [hopen] at hlexeme hlt
      obtain ⟨hkind, -⟩ := Lexeme.mk.inj hlexeme
      have hplace := hapart _ (freeMark_commentOpen_iff.2 ⟨token, hmem, hkind.symm, rfl⟩)
      simp only [hfour] at hlt
      omega
  · rintro ⟨token, hmem, hkind, rfl⟩
    have hmarks : ∀ mark ∈ Lexer.marks, mark.kind = .commentEnd → mark.text = commentClose := by
      decide
    have htext := hmarks _ (mem_marks_of_markup hmem (by rw [hkind]; decide)) hkind
    refine ⟨freeMark_of_markup [] [] hmem (by simpa using htext), ?_⟩
    intro place hopen
    obtain ⟨other, hother, hstart, rfl⟩ := freeMark_commentOpen_iff.1 hopen
    have hstop := offset_stop_of_width? (mem_tokens_of_markup hmem) (by rw [hkind]; rfl)
    have hstop' := offset_stop_of_width? (mem_tokens_of_markup hother) (by rw [hstart]; rfl)
    by_contra hshare
    -- a byte of both would belong to one token
    have hbyte : ∃ place, token.range.Holds place ∧ other.range.Holds place := by
      refine ⟨max token.span.start.offset other.span.start.offset, ?_, ?_⟩ <;>
        constructor <;> simp only [Token.range, Span.range] <;> omega
    rw [eq_of_shared_byte (mem_tokens_of_markup hmem) (mem_tokens_of_markup hother) hbyte,
      hstart] at hkind
    cases hkind

/-- **A `>` outside of ERB is the last byte of a token.** -/
theorem freeByte_gt_iff :
    FreeByte (tokens source) source '>' offset
      ↔ ∃ token, .markup token ∈ locatedPieces source
        ∧ (token.kind.EndsTag ∨ token.kind = .commentEnd)
        ∧ token.span.stop.offset = offset + 1 := by
  have hmarks : ∀ mark ∈ Lexer.marks, '>' ∈ mark.text →
      (mark.kind = .tagEnd ∨ mark.kind = .tagSelfClose ∨ mark.kind = .commentEnd)
        ∧ '>' ∉ mark.text.dropLast := by decide
  have hends : ∀ mark ∈ Lexer.marks, mark.kind = .tagEnd ∨ mark.kind = .tagSelfClose
      ∨ mark.kind = .commentEnd → mark.text.getLast? = some '>' := by decide
  have hone : byteLength ['>'] = 1 := by decide
  rw [freeByte_iff_freeMark (by decide)]
  constructor
  · intro h
    obtain ⟨token, c, text, middle, back, hmem, hlexeme, hsplit, rfl, hlt⟩ :=
      h.exists_cut (by simp)
    obtain ⟨inside, hinside⟩ := exists_text_of_cut hlexeme hsplit hlt
    have hheld : '>' ∈ (Lexer.markup c text).1.text := by
      rw [hlexeme]
      simp [hinside]
    obtain ⟨hkind, hlast⟩ := hmarks _ (Lexer.mem_marks_of_mem_text (by decide) (by decide)
      (by decide) hheld) hheld
    rw [hlexeme] at hkind hlast
    refine ⟨token, hmem, or_assoc.2 hkind, ?_⟩
    cases inside with
    | nil => rw [offset_stop_of_mem_tokens (mem_tokens_of_markup hmem), hinside, byteLength_append,
        hone, Nat.add_assoc]
    | cons d inside =>
      refine absurd ?_ hlast
      simp [hinside, List.dropLast_append_of_ne_nil]
  · rintro ⟨token, hmem, hkind, hstop⟩
    have hmark : ⟨token.kind, token.text⟩ ∈ Lexer.marks := by
      refine mem_marks_of_markup hmem ?_
      rcases hkind with (hkind | hkind) | hkind <;> rw [hkind] <;> decide
    have hlast : token.text.getLast? = some '>' := hends _ hmark (or_assoc.1 hkind)
    obtain ⟨front, htext⟩ := List.getLast?_eq_some_iff.1 hlast
    have hplace : offset = token.span.start.offset + byteLength front := by
      rw [offset_stop_of_mem_tokens (mem_tokens_of_markup hmem), htext, byteLength_append, hone]
        at hstop
      omega
    rw [hplace]
    exact freeMark_of_markup front [] hmem (by rw [List.append_nil]; exact htext)

end

end ErbTemplate
