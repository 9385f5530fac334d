import ErbTemplate.Proofs.Tree.Marks

/-!
# What a token of each kind can be

The kind of a token is not a label beside its text: whoever knows the kind knows what the text can
be, and whoever sees a mark of markup outside of ERB knows the kind of the token it stands in. This
file says so for all kinds of markup at once, in one structure, `Classified`:

* the fixed kinds have the texts of `TokenKind.spellings?`, and no others;
* blanks and names are runs, and a run is as long as it can be. Two rules cut one short: a carriage
  return is left to the line break it belongs to, and a dash to the `-->` or `-%>` it belongs to.
  So two runs of blanks never meet, and two names meet only before the `-` of a `-%>`;
* what is left is a single character, and that is neither in a run nor in a mark.

The argument is about one step of the lexer, and `Lexer.markup_inv` says what a step can do. A step
knows nothing of the one before it, which is why the facts about neighbours need the place where
the first of them stopped (`exists_lexed_of_adjacent`).
-/

set_option autoImplicit false

namespace ErbTemplate

open Text

/-! ## 1. The rules -/

/-- The texts of a kind, where they are fixed. -/
def TokenKind.spellings? : TokenKind → Option (List (List Char))
  | newline => some [['\n'], ['\r', '\n']]
  | equals => some [['=']]
  | quote => some [['"'], ['\'']]
  | slash => some [['/']]
  | tagStart => some [['<']]
  | tagStartClose => some [['<', '/']]
  | tagEnd => some [['>']]
  | tagSelfClose => some [['/', '>']]
  | commentStart => some [commentOpen]
  | commentEnd => some [commentClose]
  | _ => none

/-- The kinds of tokens in which a character of punctuation can stand. -/
def punctuationKinds (c : Char) : List TokenKind :=
  match c with
  | '<' => [.tagStart, .tagStartClose, .commentStart]
  | '>' => [.tagEnd, .tagSelfClose, .commentEnd]
  | '/' => [.slash, .tagStartClose, .tagSelfClose]
  | '=' => [.equals]
  | '"' | '\'' => [.quote]
  | _ => []

/-- The characters of punctuation. -/
def punctuation : List Char := ['<', '>', '/', '=', '"', '\'']

/-- A character of a run of blanks. -/
def InGap (c : Char) : Prop :=
  c = ' ' ∨ c = '\t' ∨ c = '\r'

/-- A character of a name. -/
def InName (c : Char) : Prop :=
  c.isAlphanum = true ∨ c = '_' ∨ c = '-' ∨ c = ':'

/-- A range is the range of a token of this kind, and no other token has a byte of it. -/
def IsOneToken (row : List Token) (kind : TokenKind) (range : Range) : Prop :=
  ∃ token ∈ row, token.kind = kind ∧ token.range = range
    ∧ ∀ other ∈ row, ∀ place, range.Holds place → other.range.Holds place → other = token

/-- The kinds of a row of tokens agree with its texts, and its runs are as long as they can be. -/
structure Classified (source : List Char) (row : List Token) : Prop where
  /-- The texts are those of the source. -/
  values : ∀ token ∈ row, token.range.slice? source = some token.text
  /-- Marks and line breaks have their fixed texts. -/
  spelled : ∀ token ∈ row, ∀ texts, token.kind.spellings? = some texts → token.text ∈ texts
  /-- A carriage return and a newline outside of ERB are one token. -/
  lineBreaks : ∀ offset, FreeMark row source ['\r', '\n'] offset →
    IsOneToken row .newline ⟨offset, offset + 2⟩
  /-- White space is a run of blanks. -/
  gaps : ∀ token ∈ row, token.kind = .whitespace →
    token.text ≠ [] ∧ ∀ c ∈ token.text, InGap c
  /-- No run of blanks follows on another. -/
  gapsApart : row.IsChain fun token follower =>
    token.kind = .whitespace → follower.kind ≠ .whitespace
  /-- A run of blanks does not end inside of a line break. -/
  gapsEnd : ∀ token ∈ row, token.kind = .whitespace → token.text.getLast? = some '\r' →
    ¬ OccursAt ['\n'] source token.range.stop
  /-- An identifier is a run of name characters. -/
  names : ∀ token ∈ row, token.kind = .identifier → token.text ≠ [] ∧ ∀ c ∈ token.text, InName c
  /-- No comment end begins inside of an identifier. -/
  namesEnd : ∀ token ∈ row, token.kind = .identifier →
    ∀ place, token.range.Holds place → ¬ OccursAt commentClose source place
  /-- An identifier that follows on another is the dash of a `-%>`. -/
  namesApart : row.IsChain fun token follower =>
    token.kind = .identifier → follower.kind = .identifier →
      follower.text = ['-'] ∧ OccursAt ['-', '%', '>'] source follower.range.start
  /-- A single character is none of a run, of a line break and of a mark. -/
  singles : ∀ token ∈ row, token.kind = .character → ∃ c, token.text = [c]
    ∧ ¬ InGap c ∧ ¬ InName c ∧ c ≠ '\n' ∧ c ∉ punctuation
  /-- Punctuation outside of ERB stands in tokens of its kinds. -/
  marks : ∀ c ∈ punctuation, ∀ offset, FreeByte row source c offset →
    ∃ token ∈ row, token.range.Holds offset ∧ token.kind ∈ punctuationKinds c
  /-- A comment end outside of ERB is one token unless it begins in a `<!--`. -/
  commentEnds : ∀ offset, FreeMark row source commentClose offset →
    (∀ token ∈ row, token.kind = .commentStart →
      token.range.start < offset → token.range.stop ≤ offset) →
    IsOneToken row .commentEnd ⟨offset, offset + 3⟩

/-! ## 2. One step of the lexer -/

theorem inGap_iff {c : Char} : InGap c ↔ Lexer.isGapChar c = true := by
  simp [InGap, Lexer.isGapChar, or_assoc]

theorem inName_iff {c : Char} : InName c ↔ Lexer.isNameChar c = true := by
  simp [InName, Lexer.isNameChar, or_assoc]

theorem forall_punctuation_iff {P : Char → Prop} :
    (∀ c ∈ punctuation, P c) ↔ P '<' ∧ P '>' ∧ P '/' ∧ P '=' ∧ P '"' ∧ P '\'' := by
  simp [punctuation]

namespace Lexer

variable {c d : Char} {text middle inside back : List Char}

theorem kind_of_mem_marks {mark : Lexeme} (h : mark ∈ marks) :
    mark.kind ≠ .whitespace ∧ mark.kind ≠ .identifier ∧ mark.kind ≠ .character := by
  revert mark
  decide

theorem markup_of_whitespace (h : (markup c text).1.kind = .whitespace) :
    markOf? (c :: text) = none ∧ isGapChar c = true ∧ markup c text
      = (⟨.whitespace, c :: (spanUntil endsGap text).1⟩, (spanUntil endsGap text).2) := by
  rcases markup_inv c text with hmark | ⟨hnone, ⟨hgap, heq⟩ | ⟨-, heq⟩ | ⟨-, -, heq⟩⟩
  · exact absurd h (kind_of_mem_marks (List.mem_of_find?_eq_some hmark)).1
  · exact ⟨hnone, hgap, heq⟩
  · rw [heq] at h
    cases h
  · rw [heq] at h
    cases h

theorem markup_of_identifier (h : (markup c text).1.kind = .identifier) :
    markOf? (c :: text) = none ∧ isNameChar c = true ∧ markup c text
      = (⟨.identifier, c :: (spanUntil endsName text).1⟩, (spanUntil endsName text).2) := by
  rcases markup_inv c text with hmark | ⟨hnone, ⟨-, heq⟩ | ⟨hname, heq⟩ | ⟨-, -, heq⟩⟩
  · exact absurd h (kind_of_mem_marks (List.mem_of_find?_eq_some hmark)).2.1
  · rw [heq] at h
    cases h
  · exact ⟨hnone, hname, heq⟩
  · rw [heq] at h
    cases h

theorem markup_of_character (h : (markup c text).1.kind = .character) :
    markOf? (c :: text) = none ∧ isGapChar c = false ∧ isNameChar c = false
      ∧ (markup c text).1.text = [c] := by
  rcases markup_inv c text with hmark | ⟨hnone, ⟨-, heq⟩ | ⟨-, heq⟩ | ⟨hgap, hname, heq⟩⟩
  · exact absurd h (kind_of_mem_marks (List.mem_of_find?_eq_some hmark)).2.2
  · rw [heq] at h
    cases h
  · rw [heq] at h
    cases h
  · exact ⟨hnone, hgap, hname, congrArg (·.1.text) heq⟩

/-- Where no mark was found, the text begins with none. -/
theorem not_startsWith_of_markOf? (hnone : markOf? text = none) :
    ∀ mark ∈ marks, ¬ startsWith mark.text text = true :=
  List.find?_eq_none.1 hnone

/-! ### Blanks -/

theorem isGapChar_of_mem (hc : isGapChar c = true) (h : d ∈ c :: (spanUntil endsGap text).1) :
    isGapChar d = true := by
  rcases List.mem_cons.1 h with rfl | hmem
  · exact hc
  · obtain ⟨rest, hstop⟩ := exists_not_stop_of_mem hmem
    by_contra hgap
    simp [endsGap, hgap] at hstop

/-- **A run of blanks leaves a line break alone:** none begins in it. -/
theorem le_of_lineBreak (hkind : (markup c text).1.kind = .whitespace)
    (hsplit : c :: text = middle ++ ['\r', '\n'] ++ back) :
    byteLength (markup c text).1.text ≤ byteLength middle := by
  obtain ⟨hnone, -, heq⟩ := markup_of_whitespace hkind
  rw [heq]
  cases middle with
  | nil =>
    have hbreak := not_startsWith_of_markOf? hnone ⟨.newline, ['\r', '\n']⟩ (by decide)
    rw [hsplit] at hbreak
    exact absurd (by simp [startsWith]) hbreak
  | cons d middle =>
    have hstop : endsGap (['\r', '\n'] ++ back) = true := by simp [endsGap, startsWith]
    rw [List.append_assoc, List.cons_append] at hsplit
    obtain ⟨rfl, hrest⟩ := List.cons.inj hsplit
    obtain ⟨more, rfl⟩ := exists_append_of_stop hrest (by simp) hstop
    simp only [byteLength_cons, byteLength_append]
    omega

/-- **A line break that begins in a token is that token.** -/
theorem markup_of_lineBreak (hsplit : c :: text = middle ++ ['\r', '\n'] ++ back)
    (htext : (markup c text).1.text = middle ++ '\r' :: inside) :
    middle = [] ∧ (markup c text).1 = ⟨.newline, ['\r', '\n']⟩ := by
  have hheld : '\r' ∈ (markup c text).1.text := by simp [htext]
  rcases markup_inv c text with hmark | ⟨-, ⟨-, heq⟩ | ⟨hname, heq⟩ | ⟨hgap, -, heq⟩⟩
  · have hmarks : ∀ mark ∈ marks, '\r' ∈ mark.text → mark = ⟨.newline, ['\r', '\n']⟩ := by decide
    have hbreak := hmarks _ (List.mem_of_find?_eq_some hmark) hheld
    refine ⟨?_, hbreak⟩
    rw [hbreak] at htext
    cases middle with
    | nil => rfl
    | cons d middle =>
      obtain ⟨-, hrest⟩ := List.cons.inj htext
      simp [List.singleton_eq_append_iff] at hrest
  · -- the run of blanks would end before it
    have hle := le_of_lineBreak (by rw [heq]) hsplit
    rw [htext, byteLength_append] at hle
    have hpos := byteLength_pos (List.cons_ne_nil '\r' inside)
    omega
  · rw [heq] at hheld
    rcases List.mem_cons.1 hheld with rfl | hmem
    · exact absurd hname (by decide)
    · obtain ⟨rest, hstop⟩ := exists_not_stop_of_mem hmem
      simp [endsName, isNameChar] at hstop
  · rw [heq] at hheld
    obtain rfl := List.mem_singleton.1 hheld
    exact absurd hgap (by decide)

theorem endsGap_of_whitespace (hkind : (markup c text).1.kind = .whitespace)
    (hleft : (markup c text).2 = d :: back) : endsGap (d :: back) = true := by
  obtain ⟨-, -, heq⟩ := markup_of_whitespace hkind
  simp only [heq] at hleft
  rw [← hleft]
  exact stop_of_spanUntil (by simp [hleft])

/-- What a run of blanks leaves does not begin with another one. -/
theorem kind_ne_whitespace_of_endsGap (h : endsGap (d :: back) = true) :
    (markup d back).1.kind ≠ .whitespace := by
  intro hkind
  obtain ⟨hnone, hgap, -⟩ := markup_of_whitespace hkind
  have hbreak := not_startsWith_of_markOf? hnone ⟨.newline, ['\r', '\n']⟩ (by decide)
  simp only [endsGap, List.head?_cons, Option.any_some, hgap, Bool.not_true, Bool.false_or] at h
  exact hbreak h

/-! ### Names -/

theorem isNameChar_of_mem (hc : isNameChar c = true)
    (h : d ∈ c :: (spanUntil endsName text).1) : isNameChar d = true := by
  rcases List.mem_cons.1 h with rfl | hmem
  · exact hc
  · obtain ⟨rest, hstop⟩ := exists_not_stop_of_mem hmem
    by_contra hname
    simp [endsName, hname] at hstop

theorem endsName_of_identifier (hkind : (markup c text).1.kind = .identifier)
    (hleft : (markup c text).2 = d :: back) : endsName (d :: back) = true := by
  obtain ⟨-, -, heq⟩ := markup_of_identifier hkind
  simp only [heq] at hleft
  rw [← hleft]
  exact stop_of_spanUntil (by simp [hleft])

/-- **What a name leaves begins with another one only at a `-%>`.** -/
theorem dash_of_endsName (h : endsName (d :: back) = true)
    (hkind : (markup d back).1.kind = .identifier) :
    startsWith ['-', '%', '>'] (d :: back) = true ∧ (markup d back).1.text = ['-'] := by
  obtain ⟨hnone, hname, heq⟩ := markup_of_identifier hkind
  have hend := not_startsWith_of_markOf? hnone ⟨.commentEnd, ['-', '-', '>']⟩ (by decide)
  have hdash : startsWith ['-', '%', '>'] (d :: back) = true := by
    simp only [endsName, List.head?_cons, Option.any_some, hname, Bool.not_true, Bool.false_or,
      Bool.or_eq_true] at h
    exact h.resolve_left hend
  refine ⟨hdash, ?_⟩
  obtain ⟨rest, hrest⟩ := List.isPrefixOf_iff_prefix.1 hdash
  obtain ⟨rfl, rfl⟩ := List.cons.inj hrest
  rw [heq]
  simp [spanUntil, endsName, isNameChar]

end Lexer

/-! ## 3. Neighbours -/

section

variable {source : List Char} {token follower : Token}

/-- A token that is neither of ERB nor the end is one of markup. -/
theorem mem_locatedPieces_of_kind {kind : TokenKind} (h : token ∈ tokens source)
    (hkind : token.kind = kind) (hmarkup : kind.isErb = false ∧ kind ≠ .eof) :
    .markup token ∈ locatedPieces source := by
  obtain ⟨herb, heof⟩ := hmarkup
  rcases cases_of_mem_tokens h with hpiece | hpart | rfl
  · exact hpiece
  · rw [hkind, herb] at hpart
    cases hpart
  · exact absurd hkind.symm heof

/-- **Where one token of markup follows on another, it is cut from what the other has left.** -/
theorem exists_lexed_of_adjacent (h : .markup token ∈ locatedPieces source)
    (hfollower : .markup follower ∈ locatedPieces source)
    (hmeet : token.span.stop = follower.span.start) :
    ∃ front c text d rest, (⟨token.kind, token.text⟩ : Lexeme) = (Lexer.markup c text).1
      ∧ (Lexer.markup c text).2 = d :: rest
      ∧ (⟨follower.kind, follower.text⟩ : Lexeme) = (Lexer.markup d rest).1
      ∧ source = (front ++ token.text) ++ d :: rest
      ∧ follower.range.start = byteLength (front ++ token.text) := by
  obtain ⟨front, c, text, hsource, rfl⟩ := exists_lexed_of_markup h
  obtain ⟨before, d, rest, hbefore, rfl⟩ := exists_lexed_of_markup hfollower
  have hlexed := Lexer.text_markup c text
  have hplace := congrArg Point.offset hmeet
  simp only [Token.ofLexeme, Point.offset_advance, Point.origin, Nat.zero_add] at hplace
  rw [← byteLength_append] at hplace
  have hcut : (front ++ (Lexer.markup c text).1.text) ++ (Lexer.markup c text).2
      = before ++ d :: rest := by
    rw [List.append_assoc, hlexed, ← hsource, hbefore]
  obtain ⟨rfl, hrest⟩ := append_inj_of_byteLength hcut hplace
  refine ⟨front, c, text, d, rest, rfl, hrest, rfl, hbefore, ?_⟩
  simp [Token.range, Span.range, Token.ofLexeme, Point.origin]

/-- What holds of every two tokens that meet holds along the row. -/
theorem isChain_tokens {R : Token → Token → Prop}
    (h : ∀ token ∈ tokens source, ∀ follower ∈ tokens source,
      token.span.stop = follower.span.start → R token follower) :
    (tokens source).IsChain R := by
  have hchain : (tokens source).IsChain fun a b => a.span.stop = b.span.start := by
    rw [tokens_eq_rowFrom]
    exact Token.isChain_rowFrom _ _
  exact hchain.imp_of_mem_imp fun a b ha hb hmeet => h a ha b hb hmeet

theorem whitespace_apart (h : token ∈ tokens source) (hfollower : follower ∈ tokens source)
    (hmeet : token.span.stop = follower.span.start) (hkind : token.kind = .whitespace) :
    follower.kind ≠ .whitespace := by
  intro hother
  obtain ⟨front, c, text, d, rest, hlexeme, hleft, hnext, -⟩ := exists_lexed_of_adjacent
    (mem_locatedPieces_of_kind h hkind (by decide))
    (mem_locatedPieces_of_kind hfollower hother (by decide)) hmeet
  have hstop := Lexer.endsGap_of_whitespace (by rw [← hlexeme]; exact hkind) hleft
  refine Lexer.kind_ne_whitespace_of_endsGap hstop ?_
  rw [← hnext]
  exact hother

theorem identifier_apart (h : token ∈ tokens source) (hfollower : follower ∈ tokens source)
    (hmeet : token.span.stop = follower.span.start) (hkind : token.kind = .identifier)
    (hother : follower.kind = .identifier) :
    follower.text = ['-'] ∧ OccursAt ['-', '%', '>'] source follower.range.start := by
  obtain ⟨front, c, text, d, rest, hlexeme, hleft, hnext, hsource, hplace⟩ :=
    exists_lexed_of_adjacent
      (mem_locatedPieces_of_kind h hkind (by decide))
      (mem_locatedPieces_of_kind hfollower hother (by decide)) hmeet
  have hstop := Lexer.endsName_of_identifier (by rw [← hlexeme]; exact hkind) hleft
  obtain ⟨hdash, htext⟩ := Lexer.dash_of_endsName hstop (by rw [← hnext]; exact hother)
  rw [← hnext] at htext
  refine ⟨htext, ?_⟩
  rw [hplace, hsource]
  exact occursAt_append_self_iff.2 hdash

/-! ## 4. Runs and characters -/

theorem inGap_of_mem_text (h : token ∈ tokens source) (hkind : token.kind = .whitespace) :
    token.text ≠ [] ∧ ∀ c ∈ token.text, InGap c := by
  obtain ⟨front, c, text, -, rfl⟩ := exists_lexed_of_markup
    (mem_locatedPieces_of_kind h hkind (by decide))
  obtain ⟨-, hgap, heq⟩ := Lexer.markup_of_whitespace hkind
  rw [Token.text_ofLexeme, heq]
  exact ⟨by simp, fun d hd => inGap_iff.2 (Lexer.isGapChar_of_mem hgap hd)⟩

theorem not_lineBreak_of_whitespace (h : token ∈ tokens source) (hkind : token.kind = .whitespace)
    (hlast : token.text.getLast? = some '\r') : ¬ OccursAt ['\n'] source token.range.stop := by
  intro hoccurs
  obtain ⟨front, c, text, rfl, rfl⟩ := exists_lexed_of_markup
    (mem_locatedPieces_of_kind h hkind (by decide))
  obtain ⟨inside, hinside⟩ := List.getLast?_eq_some_iff.1 hlast
  have hlexed := Lexer.text_markup c text
  rw [Token.text_ofLexeme] at hinside
  rw [hinside, List.append_assoc] at hlexed
  -- the line break would begin at the last blank of the run
  have hbreak : startsWith ['\n'] (Lexer.markup c text).2 = true := by
    rw [← @occursAt_append_self_iff _ (front ++ (Lexer.markup c text).1.text),
      List.append_assoc, Lexer.text_markup]
    simpa [Token.range_ofLexeme, Point.origin] using hoccurs
  obtain ⟨back, hback⟩ := List.isPrefixOf_iff_prefix.1 hbreak
  have hsplit : c :: text = inside ++ ['\r', '\n'] ++ back := by
    rw [← hlexed, ← hback]
    simp
  have hle := Lexer.le_of_lineBreak hkind hsplit
  rw [hinside, byteLength_append] at hle
  have hpos := byteLength_pos (List.cons_ne_nil '\r' [])
  omega

theorem inName_of_mem_text (h : token ∈ tokens source) (hkind : token.kind = .identifier) :
    token.text ≠ [] ∧ ∀ c ∈ token.text, InName c := by
  obtain ⟨front, c, text, -, rfl⟩ := exists_lexed_of_markup
    (mem_locatedPieces_of_kind h hkind (by decide))
  obtain ⟨-, hname, heq⟩ := Lexer.markup_of_identifier hkind
  rw [Token.text_ofLexeme, heq]
  exact ⟨by simp, fun d hd => inName_iff.2 (Lexer.isNameChar_of_mem hname hd)⟩

theorem not_commentClose_of_identifier (h : token ∈ tokens source)
    (hkind : token.kind = .identifier) {place : Nat} (hholds : token.range.Holds place) :
    ¬ OccursAt commentClose source place := by
  intro hoccurs
  obtain ⟨front, c, text, rfl, rfl⟩ := exists_lexed_of_markup
    (mem_locatedPieces_of_kind h hkind (by decide))
  rw [Token.range_ofLexeme, Point.offset_advance, Point.origin, Nat.zero_add] at hholds
  obtain ⟨middle, back, hsplit, rfl⟩ := (occursAt_append_iff hholds.1).1 hoccurs
  have hcases := Lexer.markup_of_commentClose hsplit (Nat.lt_of_add_lt_add_left hholds.2)
  rcases hcases with ⟨-, hclose⟩ | hopen
  · exact absurd (hkind.symm.trans (congrArg Lexeme.kind hclose)) (by decide)
  · exact absurd (hkind.symm.trans (congrArg Lexeme.kind hopen)) (by decide)

theorem single_of_character (h : token ∈ tokens source) (hkind : token.kind = .character) :
    ∃ c, token.text = [c] ∧ ¬ InGap c ∧ ¬ InName c ∧ c ≠ '\n' ∧ c ∉ punctuation := by
  obtain ⟨front, c, text, -, rfl⟩ := exists_lexed_of_markup
    (mem_locatedPieces_of_kind h hkind (by decide))
  obtain ⟨hnone, hgap, hname, htext⟩ := Lexer.markup_of_character hkind
  have hmarks : ∀ d ∈ punctuation, ∃ mark ∈ Lexer.marks, mark.text = [d] := by
    rw [forall_punctuation_iff]
    decide
  refine ⟨c, htext, ?_, ?_, (Lexer.ne_of_markOf?_eq_none hnone (by decide)).symm, fun hmem =>
    Lexer.ne_of_markOf?_eq_none hnone (hmarks c hmem) rfl⟩
  · rw [inGap_iff, hgap]
    decide
  · rw [inName_iff, hname]
    decide

/-! ## 5. Marks -/

theorem mem_spellings (h : token ∈ tokens source) {texts : List (List Char)}
    (htexts : token.kind.spellings? = some texts) : token.text ∈ texts := by
  have hmarks : ∀ mark ∈ Lexer.marks, ∀ texts ∈ mark.kind.spellings?, mark.text ∈ texts := by
    decide
  have hkinds : token.kind.isErb = false ∧ token.kind ≠ .eof ∧ token.kind ≠ .whitespace
      ∧ token.kind ≠ .identifier ∧ token.kind ≠ .character := by
    cases hkind : token.kind <;> rw [hkind] at htexts <;> cases htexts <;> decide
  obtain ⟨herb, heof, hruns⟩ := hkinds
  exact hmarks _ (mem_marks_of_markup (mem_locatedPieces_of_kind h rfl ⟨herb, heof⟩) hruns)
    texts htexts

theorem isOneToken_of_markup (h : .markup token ∈ locatedPieces source) :
    IsOneToken (tokens source) token.kind token.range := by
  have hmem := mem_tokens_of_markup h
  exact ⟨token, hmem, rfl, rfl, fun other hother place hholds hholds' =>
    eq_of_shared_byte hother hmem ⟨place, hholds', hholds⟩⟩

theorem isOneToken_of_lineBreak {offset : Nat}
    (h : FreeMark (tokens source) source ['\r', '\n'] offset) :
    IsOneToken (tokens source) .newline ⟨offset, offset + 2⟩ := by
  obtain ⟨token, c, text, middle, back, hmem, hlexeme, hsplit, rfl, hlt⟩ :=
    h.exists_cut (by simp)
  obtain ⟨inside, hinside⟩ := exists_text_of_cut hlexeme hsplit hlt
  obtain ⟨rfl, hbreak⟩ := Lexer.markup_of_lineBreak hsplit
    (by rw [hlexeme]; exact hinside)
  rw [hlexeme] at hbreak
  obtain ⟨hkind, htext⟩ := Lexeme.mk.inj hbreak
  have htwo : byteLength ['\r', '\n'] = 2 := by decide
  have hrange : token.range = ⟨token.span.start.offset, token.span.start.offset + 2⟩ := by
    rw [Token.range, Span.range, offset_stop_of_mem_tokens (mem_tokens_of_markup hmem), htext, htwo]
  have hone := isOneToken_of_markup hmem
  rwa [hkind, hrange] at hone

theorem exists_kind_of_punctuation {c : Char} (hc : c ∈ punctuation) {offset : Nat}
    (h : FreeByte (tokens source) source c offset) :
    ∃ token ∈ tokens source, token.range.Holds offset ∧ token.kind ∈ punctuationKinds c := by
  have hchars : ∀ c ∈ punctuation, c.toNat ≤ 127 ∧ Lexer.isGapChar c = false
      ∧ Lexer.isNameChar c = false ∧ ∃ mark ∈ Lexer.marks, mark.text = [c] := by
    rw [forall_punctuation_iff]
    decide
  have hkinds : ∀ c ∈ punctuation, ∀ mark ∈ Lexer.marks, c ∈ mark.text →
      mark.kind ∈ punctuationKinds c := by
    rw [forall_punctuation_iff]
    decide
  obtain ⟨hascii, hgap, hname, hmark⟩ := hchars c hc
  obtain ⟨token, d, text, middle, back, hmem, hlexeme, hsplit, rfl, hlt⟩ :=
    ((freeByte_iff_freeMark hascii).1 h).exists_cut (by simp)
  obtain ⟨inside, hinside⟩ := exists_text_of_cut hlexeme hsplit hlt
  have hheld : c ∈ (Lexer.markup d text).1.text := by
    rw [hlexeme]
    simp [hinside]
  have hkind := hkinds c hc _ (Lexer.mem_marks_of_mem_text hgap hname hmark hheld) hheld
  rw [hlexeme] at hkind
  refine ⟨token, mem_tokens_of_markup hmem, ⟨Nat.le_add_right _ _, ?_⟩, hkind⟩
  rw [Token.range, Span.range, offset_stop_of_mem_tokens (mem_tokens_of_markup hmem)]
  exact Nat.add_lt_add_left hlt _

theorem isOneToken_of_commentClose {offset : Nat}
    (h : FreeMark (tokens source) source commentClose offset)
    (hapart : ∀ token ∈ tokens source, token.kind = .commentStart →
      token.range.start < offset → token.range.stop ≤ offset) :
    IsOneToken (tokens source) .commentEnd ⟨offset, offset + 3⟩ := by
  obtain ⟨token, c, text, middle, back, hmem, hlexeme, hsplit, rfl, hlt⟩ :=
    h.exists_cut (by simp [commentClose])
  have hmem' := mem_tokens_of_markup hmem
  have htext : (Lexer.markup c text).1.text = token.text := congrArg Lexeme.text hlexeme
  rcases Lexer.markup_of_commentClose hsplit (by rw [htext]; exact hlt) with
    ⟨rfl, hclose⟩ | hopen
  · rw [hlexeme] at hclose
    obtain ⟨hkind, -⟩ := Lexeme.mk.inj hclose
    have hrange : token.range = ⟨token.span.start.offset, token.span.start.offset + 3⟩ := by
      rw [Token.range, Span.range, offset_stop_of_width? hmem' (by rw [hkind]; rfl)]
    have hone := isOneToken_of_markup hmem
    rwa [hkind, hrange] at hone
  · -- it begins behind the `<` of a `<!--`, and inside of it
    rw [hopen] at hlexeme
    obtain ⟨hkind, hstart⟩ := Lexeme.mk.inj hlexeme
    obtain ⟨inside, hinside⟩ := exists_text_of_cut (hopen.trans hlexeme) hsplit hlt
    have hne : middle ≠ [] := by
      rintro rfl
      rw [← hstart] at hinside
      exact absurd (List.cons.inj hinside).1 (by decide)
    have hpos := byteLength_pos hne
    have hstop := hapart token hmem' hkind.symm (Nat.lt_add_of_pos_right hpos)
    rw [Token.range, Span.range, offset_stop_of_mem_tokens hmem'] at hstop
    exact absurd (Nat.lt_of_add_lt_add_left (Nat.lt_of_lt_of_le
      (Nat.add_lt_add_left hlt _) hstop)) (Nat.lt_irrefl _)

/-! ## 6. Rows of tokens -/

theorem classified_tokens (source : List Char) : Classified source (tokens source) where
  values _ h := slice?_of_mem_tokens h
  spelled _ h _ htexts := mem_spellings h htexts
  lineBreaks _ h := isOneToken_of_lineBreak h
  gaps _ h hkind := inGap_of_mem_text h hkind
  gapsApart := isChain_tokens fun _ h _ hfollower hmeet => whitespace_apart h hfollower hmeet
  gapsEnd _ h hkind hlast := not_lineBreak_of_whitespace h hkind hlast
  names _ h hkind := inName_of_mem_text h hkind
  namesEnd _ h hkind _ hholds := not_commentClose_of_identifier h hkind hholds
  namesApart := isChain_tokens fun _ h _ hfollower hmeet => identifier_apart h hfollower hmeet
  singles _ h hkind := single_of_character h hkind
  marks _ hc _ h := exists_kind_of_punctuation hc h
  commentEnds _ h hapart := isOneToken_of_commentClose h hapart

/-- **Kinds agree with texts, and runs are as long as they can be,** in whatever lexing returns; and
    it does return where the memory grants the room for the tokens. -/
theorem lex_classifies_source (source : List Char) :
    (lex source).Yields (2 * TokenList.tokenSize * (byteLength source + 1)) fun list =>
      Classified source list.toList := by
  apply (yields_lex source).imp
  intro list hlist
  rw [hlist]
  exact classified_tokens source

end

end ErbTemplate
