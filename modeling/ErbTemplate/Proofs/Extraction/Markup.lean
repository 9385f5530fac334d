import ErbTemplate.Proofs.Extraction.Code

/-!
# Extracted markup is free of ERB

The extraction of markup blanks the tags of a template and keeps the rest. Byte by byte that is said
by its mask, one entry for each token (`masked_markupOnly`).

That the result can be extracted again, and stays as it is, is a statement about characters. Call a
text *free* when no `<%` stands in it:

* the markup of a template is free (`free_markupText`), because a `%` that is kept right behind a
  kept `<` stood right behind it in the template, too;
* a free text is all markup to the lexer (`exists_markup_of_free`), so its markup is the text itself
  and its code is nothing.
-/

set_option autoImplicit false

namespace ErbTemplate

open Text TextBuffer

namespace Extraction

/-! ## 1. The mask of markup -/

/-- What markup extracted at its place has in common with its template, byte by byte. -/
structure MarkupAlone (source : List Char) (output : List UInt8) : Prop where
  utf8 : ∃ text, ofBytes? output = some text
  length : output.length = byteLength source
  /-- What belongs to no ERB tag is kept. -/
  outside : ∀ i, (∀ token ∈ tokens source, token.kind.isErb = true → ¬ token.range.Holds i) →
    output[i]? = (toBytes source)[i]?
  /-- What belongs to an ERB tag is blank. -/
  inside : ∀ i, ∀ token ∈ tokens source, token.kind.isErb = true → token.range.Holds i →
    output[i]? = (toBytes source)[i]?.map blankByte

def tokenMask (token : Token) : Treatment × Range :=
  (if token.kind.isErb then .blank else .keep, token.range)

theorem tokenMask_of_erb {token : Token} (h : token.kind.isErb = true) :
    tokenMask token = (.blank, token.range) := by
  rw [tokenMask, h]
  rfl

theorem tokenMask_of_markup {token : Token} (h : token.kind.isErb = false) :
    tokenMask token = (.keep, token.range) := by
  rw [tokenMask, h]
  rfl

def markupMask (piece : Piece Token) : List (Treatment × Range) :=
  piece.parts.map tokenMask

/-- What the lexer promises of the kinds of a piece. -/
def Kinded : Piece Lexeme → Prop
  | .markup lexeme => lexeme.kind.isErb = false
  | .erb _ mark ending => ∀ part ∈ mark :: ending.parts, part.kind.isErb = true

theorem kinded_of_mem_pieces (source : List Char) : ∀ piece ∈ pieces source, Kinded piece := by
  refine forall_mem_pieces (fun c text => Lexer.isErb_markup c text) ?_ source
  intro opening rest part hmem
  rcases List.mem_cons.1 hmem with rfl | hmem
  · rfl
  · exact Lexer.isErb_erbEnding rest part hmem

/-- Lexemes of ERB that stand one after the other, all blanked. -/
theorem masked_rowFrom {parts : List Lexeme} (h : ∀ part ∈ parts, part.kind.isErb = true)
    (start : Point) :
    Masked start.offset ((Token.rowFrom start parts).map tokenMask)
      (toBytes (parts.flatMap Lexeme.text))
      ((parts.flatMap fun part => blank part.text).flatMap Write.bytes) := by
  induction parts generalizing start with
  | nil => exact Masked.nil _
  | cons part parts ih =>
    obtain ⟨hpart, hparts⟩ := List.forall_mem_cons.1 h
    have hmask : tokenMask (.ofLexeme start part) = (.blank, (Token.ofLexeme start part).range) :=
      tokenMask_of_erb hpart
    rw [Token.rowFrom_cons, List.map_cons, hmask, List.flatMap_cons, List.flatMap_cons,
      toBytes_append, List.flatMap_append]
    exact (masked_blank start part).append_text (ih hparts _)

/-- **The writes of a piece are its mask.** -/
theorem masked_markupOnly {piece : Piece Lexeme} (h : Kinded piece) (start : Point) :
    Masked start.offset (markupMask (piece.locate start)) (toBytes piece.text)
      ((markupOnly piece).flatMap Write.bytes) := by
  rw [markupMask, Piece.parts_locate]
  cases piece with
  | markup lexeme =>
    have htext : (Piece.markup lexeme).text = lexeme.text := List.append_nil _
    have hmask :
        tokenMask (.ofLexeme start lexeme) = (.keep, (Token.ofLexeme start lexeme).range) :=
      tokenMask_of_markup h
    rw [htext, Piece.parts, Token.rowFrom_cons, List.map_cons, hmask]
    exact masked_keep start lexeme
  | erb opening mark ending => exact masked_rowFrom h start

theorem masked_markupWrites (source : List Char) :
    Masked 0 ((locatedPieces source).flatMap markupMask) (toBytes source)
      ((markupWrites source).flatMap Write.bytes) := by
  have hpieces := masked_locateAll (fun piece hmem =>
    masked_markupOnly (kinded_of_mem_pieces source piece hmem)) .origin
  rw [flatMap_text_pieces] at hpieces
  have hempty : [Write.text []].flatMap Write.bytes = [] := rfl
  rw [markupWrites, List.flatMap_append, hempty, List.append_nil]
  exact hpieces

/-- The mask has an entry for each token, but for the end. -/
theorem mem_markupMask_iff {source : List Char} {entry : Treatment × Range} :
    entry ∈ (locatedPieces source).flatMap markupMask
      ↔ ∃ token ∈ (locatedPieces source).flatMap Piece.parts, tokenMask token = entry := by
  have hmask : (locatedPieces source).flatMap markupMask
      = ((locatedPieces source).flatMap Piece.parts).map tokenMask := List.map_flatMap.symm
  rw [hmask, List.mem_map]

theorem markupAlone_of_masked {source : List Char} {output : List UInt8}
    (hmask : Masked 0 ((locatedPieces source).flatMap markupMask) (toBytes source) output)
    (hutf8 : ∃ text, ofBytes? output = some text) : MarkupAlone source output where
  utf8 := hutf8
  length := by rw [hmask.length_eq, length_toBytes]
  outside := by
    intro i hfree
    by_cases hi : i < (toBytes source).length
    · obtain ⟨treatment, range, hmem, hholds⟩ := hmask.exists_mem hi
      obtain ⟨token, htoken, hentry⟩ := mem_markupMask_iff.1 hmem
      have hrange : token.range = range := congrArg Prod.snd hentry
      cases hkind : token.kind.isErb with
      | true =>
        rw [Nat.zero_add, ← hrange] at hholds
        exact absurd hholds (hfree token (List.mem_append_left _ htoken) hkind)
      | false =>
        rw [tokenMask_of_markup hkind] at hentry
        cases hentry
        rw [hmask.getElem?_eq hmem hholds]
        exact Option.map_id'
    · have hlength := hmask.length_eq
      rw [List.getElem?_eq_none (by omega), List.getElem?_eq_none (by omega)]
  inside := by
    intro i token htoken hkind hholds
    rcases List.mem_append.1 htoken with htoken | hlast
    · have hmem := mem_markupMask_iff.2 ⟨token, htoken, tokenMask_of_erb hkind⟩
      rw [← Nat.zero_add i] at hholds
      exact hmask.getElem?_eq hmem hholds
    · rw [List.mem_singleton.1 hlast] at hkind
      cases hkind

/-! ## 2. The text of the markup -/

/-- A text as spaces and newlines of as many bytes. -/
def blankText (text : List Char) : List Char :=
  text.flatMap fun c => if c = '\n' then ['\n'] else List.replicate c.utf8Size ' '

def markupOf : Piece Lexeme → List Char
  | .markup lexeme => lexeme.text
  | piece => blankText piece.text

def markupText (row : List (Piece Lexeme)) : List Char :=
  row.flatMap markupOf

theorem toBytes_blankText (text : List Char) :
    toBytes (blankText text) = (toBytes text).map blankByte := by
  induction text with
  | nil => rfl
  | cons c text ih =>
    rw [blankText, List.flatMap_cons, toBytes_append, toBytes_cons, List.map_append]
    refine congrArg₂ (· ++ ·) ?_ ih
    by_cases hc : c = '\n'
    · subst hc
      decide
    · rw [if_neg hc, map_blankByte_utf8EncodeChar hc]
      induction c.utf8Size with
      | zero => rfl
      | succ count ih =>
        rw [List.replicate_succ, List.replicate_succ, toBytes_cons, ih]
        rfl

theorem bytes_blank_parts (parts : List Lexeme) :
    (parts.flatMap fun part => blank part.text).flatMap Write.bytes
      = (toBytes (parts.flatMap Lexeme.text)).map blankByte := by
  induction parts with
  | nil => rfl
  | cons part parts ih =>
    rw [List.flatMap_cons, List.flatMap_append, bytes_blank, ih, List.flatMap_cons, toBytes_append,
      List.map_append]

theorem bytes_markupOnly (piece : Piece Lexeme) :
    (markupOnly piece).flatMap Write.bytes = toBytes (markupOf piece) := by
  cases piece with
  | markup lexeme => exact List.append_nil _
  | erb opening mark ending =>
    show _ = toBytes (blankText (Piece.erb opening mark ending).text)
    rw [toBytes_blankText]
    exact bytes_blank_parts (Piece.erb opening mark ending).parts

/-- **What is written is the text of the markup.** -/
theorem bytes_markupWrites (source : List Char) :
    (markupWrites source).flatMap Write.bytes = toBytes (markupText (pieces source)) := by
  have hempty : [Write.text []].flatMap Write.bytes = [] := rfl
  rw [markupWrites, List.flatMap_append, hempty, List.append_nil]
  induction pieces source with
  | nil => rfl
  | cons piece row ih =>
    rw [List.flatMap_cons, List.flatMap_append, bytes_markupOnly, ih, ← toBytes_append]
    rfl

/-! ## 3. Markup is free of openings -/

/-- No `<%` stands in a text. -/
def Free (text : List Char) : Prop :=
  ∀ front back, text ≠ front ++ '<' :: '%' :: back

theorem Free.not_occursAt {text : List Char} (h : Free text) (offset : Nat) :
    ¬ OccursAt openMark text offset := by
  rintro ⟨front, back, rfl, -⟩
  exact h front back (List.append_assoc _ _ _)

theorem Free.append {front text : List Char} (hfront : '<' ∉ front) (h : Free text) :
    Free (front ++ text) := by
  intro before back heq
  rcases List.append_eq_append_iff.1 heq with ⟨middle, -, htext⟩ | ⟨middle, rfl, hmark⟩
  · exact h middle back htext
  · cases middle with
    | nil => exact h [] back hmark.symm
    | cons d middle =>
      obtain ⟨rfl, -⟩ := List.cons.inj hmark
      exact hfront (List.mem_append_right before List.mem_cons_self)

/-- A token that is kept makes no opening, unless it did so before. -/
theorem Free.cons {c : Char} {tail text : List Char} (htail : '<' ∉ tail) (h : Free text)
    (hstart : c = '<' → (tail ++ text).head? ≠ some '%') : Free (c :: tail ++ text) := by
  intro before back heq
  cases before with
  | nil =>
    obtain ⟨rfl, hback⟩ := List.cons.inj heq
    exact hstart rfl (congrArg List.head? hback)
  | cons d before =>
    obtain ⟨-, hback⟩ := List.cons.inj heq
    exact Free.append htail h before back hback

theorem not_mem_blankText (text : List Char) : '<' ∉ blankText text := by
  intro hmem
  obtain ⟨c, -, hmem⟩ := List.mem_flatMap.1 hmem
  split at hmem
  · simp at hmem
  · exact absurd (List.eq_of_mem_replicate hmem) (by decide)

/-- Nothing but a `%` becomes a `%` at the beginning of the markup. -/
theorem head?_of_markupText {text : List Char} (h : (markupText (pieces text)).head? = some '%') :
    text.head? = some '%' := by
  cases text with
  | nil => rw [pieces] at h; cases h
  | cons c text =>
    rw [pieces, markupText, List.flatMap_cons] at h
    cases hopen : Opening.of? (c :: text) with
    | none =>
      have htext := Lexer.text_markup c text
      have hne := Lexer.text_markup_ne_nil c text
      rw [Lexer.next_of_none hopen] at h
      simp only [markupOf] at h
      generalize (Lexer.markup c text).1.text = kept at h htext hne
      cases kept with
      | nil => exact absurd rfl hne
      | cons d kept =>
        obtain ⟨rfl, -⟩ := List.cons.inj htext
        exact h
    | some opening =>
      -- a tag begins with its opening, and that with a space
      obtain ⟨rest, -, hnext⟩ := Lexer.next_of_some hopen
      rw [hnext] at h
      cases opening <;> cases h

/-- **The markup of a template is free of openings.** -/
theorem free_markupText (text : List Char) : Free (markupText (pieces text)) := by
  fun_induction pieces text with
  | case1 =>
    intro front back heq
    cases front <;> cases heq
  | case2 c text ih =>
    rw [markupText, List.flatMap_cons]
    cases hopen : Opening.of? (c :: text) with
    | none =>
      have htext := Lexer.text_markup c text
      have hne := Lexer.text_markup_ne_nil c text
      have htail := Lexer.not_mem_tail_markup c text
      have hstart := Lexer.startsWith_openMark_of_none hopen
      rw [Lexer.next_of_none hopen] at ih ⊢
      simp only [markupOf] at ih ⊢
      generalize (Lexer.markup c text).1.text = kept at htext hne htail ⊢
      cases kept with
      | nil => exact absurd rfl hne
      | cons d kept =>
        refine Free.cons htail ih ?_
        rintro rfl hpercent
        have hhead : (kept ++ (Lexer.markup c text).2).head? = some '%' := by
          cases kept with
          | nil => exact head?_of_markupText hpercent
          | cons => exact hpercent
        obtain ⟨back, hback⟩ := List.head?_eq_some_iff.1 hhead
        rw [← htext, List.cons_append, hback] at hstart
        exact absurd hstart (by simp [startsWith, openMark])
    | some opening =>
      obtain ⟨rest, -, hnext⟩ := Lexer.next_of_some hopen
      rw [hnext] at ih ⊢
      exact Free.append (not_mem_blankText _) ih

/-! ## 4. A free text is all markup -/

theorem exists_markup_of_free {text : List Char} (h : Free text) :
    ∀ piece ∈ pieces text, ∃ lexeme, piece = .markup lexeme := by
  fun_induction pieces text with
  | case1 =>
    intro piece hmem
    cases hmem
  | case2 c text ih =>
    have htext := Lexer.text_next c text
    have hrest : Free (Lexer.next c text).2 := by
      intro front back heq
      refine h ((Lexer.next c text).1.text ++ front) back ?_
      rw [← htext, heq, List.append_assoc]
    intro piece hmem
    rcases List.mem_cons.1 hmem with rfl | hmem
    · cases hopen : Opening.of? (c :: text) with
      | none =>
        rw [Lexer.next_of_none hopen]
        exact ⟨_, rfl⟩
      | some opening =>
        obtain ⟨rest, hsplit, -⟩ := Lexer.next_of_some hopen
        cases opening <;> exact absurd hsplit (h [] _)
    · exact ih hrest piece hmem

theorem markupText_of_free {text : List Char} (h : Free text) :
    markupText (pieces text) = text := by
  have hkept : ∀ piece ∈ pieces text, markupOf piece = piece.text := by
    intro piece hmem
    obtain ⟨lexeme, rfl⟩ := exists_markup_of_free h piece hmem
    exact (List.append_nil _).symm
  rw [markupText, List.flatMap_congr hkept, flatMap_text_pieces]

theorem exists_markup_of_mem_locatedPieces {text : List Char} (h : Free text) {piece : Piece Token}
    (hmem : piece ∈ locatedPieces text) : ∃ token, piece = .markup token := by
  obtain ⟨before, first, after, hrow, rfl⟩ := exists_of_mem_locateAll hmem
  obtain ⟨lexeme, rfl⟩ := exists_markup_of_free h first (by rw [hrow]; simp)
  exact ⟨_, rfl⟩

theorem isErb_of_free {text : List Char} (h : Free text) :
    ∀ token ∈ tokens text, token.kind.isErb = false := by
  intro token htoken
  obtain ⟨before, lexeme, after, -, rfl, rfl | hlexeme⟩ := exists_split_of_mem_tokens htoken
  · rfl
  · obtain ⟨piece, hpiece, hlexeme⟩ := List.mem_flatMap.1 hlexeme
    have hkinded := kinded_of_mem_pieces text piece hpiece
    obtain ⟨only, rfl⟩ := exists_markup_of_free h piece hpiece
    rw [List.mem_singleton.1 hlexeme]
    exact hkinded

/-- **There is no code in a free text.** -/
theorem blank_of_free {text : List Char} (h : Free text) {options : ExtractOptions}
    (hoptions : options.preservePositions = true) :
    ∀ byte ∈ (codeWrites options text).flatMap Write.bytes,
      byte = byteOf ' ' ∨ byte = byteOf '\n' := by
  -- code, comments and semicolons are all found in tags
  have hnone : ∀ {opening mark ending}, Piece.erb opening mark ending ∉ locatedPieces text := by
    intro opening mark ending hmem
    obtain ⟨token, htoken⟩ := exists_markup_of_mem_locatedPieces h hmem
    cases htoken
  intro written hmem
  obtain ⟨i, hwritten⟩ := List.mem_iff_getElem?.1 hmem
  rcases exists_reason (masked_codeWrites hoptions text) i with
    ⟨-, houtput⟩ | ⟨treatment, byte, hreason, -, houtput⟩
  · rw [houtput] at hwritten
    cases hwritten
  · rw [houtput] at hwritten
    cases hwritten
    cases hreason with
    | code h =>
      obtain ⟨_, _, _, _, hpiece, -⟩ := h
      exact absurd hpiece hnone
    | note _ h =>
      obtain ⟨_, _, hpiece, -⟩ := h
      exact absurd hpiece hnone
    | semicolon _ h =>
      obtain ⟨_, _, _, _, hpiece, -⟩ := h
      exact absurd hpiece hnone
    | blank =>
      show blankByte byte = _ ∨ blankByte byte = _
      unfold blankByte
      split
      next hnewline => exact Or.inr hnewline
      next => exact Or.inl rfl

/-! ## 5. The contract -/

theorem valid_markupWrites (source : List Char) :
    ∀ write ∈ markupWrites source, write.Valid := by
  intro write hmem
  rcases List.mem_append.1 hmem with hmem | hmem
  · obtain ⟨piece, -, hmem⟩ := List.mem_flatMap.1 hmem
    cases piece with
    | markup lexeme =>
      rw [List.mem_singleton.1 hmem]
      trivial
    | erb opening mark ending =>
      obtain ⟨part, -, hmem⟩ := List.mem_flatMap.1 hmem
      exact valid_blank part.text write hmem
  · rw [List.mem_singleton.1 hmem]
    trivial

theorem yields_markup (source : List Char) (capacity : Nat) :
    (intoNew capacity (extractHtml source)).Yields (room source capacity)
      fun buffer => buffer.bytes = toBytes (markupText (pieces source)) := by
  have hlength := (masked_markupWrites source).length_eq
  rw [length_toBytes] at hlength
  have h := yields_intoNew (valid_markupWrites source) hlength capacity
  rw [bytes_markupWrites] at h
  exact h

theorem markupAlone_markupText (source : List Char) :
    MarkupAlone source (toBytes (markupText (pieces source))) := by
  have hmask := masked_markupWrites source
  rw [bytes_markupWrites] at hmask
  exact markupAlone_of_masked hmask ⟨_, ofBytes?_toBytes _⟩

theorem yields_lex_of_free {text : List Char} (h : Free text) :
    (lex text).Yields (2 * TokenList.tokenSize * (byteLength text + 1))
      fun list => ∀ token ∈ list.toList, token.kind.isErb = false := by
  refine (yields_lex text).imp ?_
  intro list hlist
  rw [hlist]
  exact isErb_of_free h

theorem yields_code_of_free {text : List Char} (h : Free text) {options : ExtractOptions}
    (hoptions : options.preservePositions = true) (capacity : Nat) :
    (intoNew capacity (extractRuby text options)).Yields (room text capacity)
      fun buffer => ∀ byte ∈ buffer.bytes, byte = byteOf ' ' ∨ byte = byteOf '\n' := by
  have hlength := (masked_codeWrites hoptions text).length_eq
  rw [length_toBytes] at hlength
  refine (yields_intoNew (valid_codeWrites options text) hlength capacity).imp ?_
  intro buffer hbytes
  rw [hbytes]
  exact blank_of_free h hoptions

end Extraction

open Extraction

/-- **Extraction of markup removes all ERB and nothing else, and once is enough.** There is one text
    that is extracted from a source into any new buffer. It is free of openings, so that it is its
    own markup, has no ERB token, and its code at its place is blank. -/
theorem extracted_markup_is_free (source : List Char) :
    ∃ html : List Char,
      (∀ capacity, (intoNew capacity (extractHtml source)).Yields (room source capacity)
        fun buffer => ofBytes? buffer.bytes = some (String.ofList html)
          ∧ MarkupAlone source buffer.bytes)
      ∧ (∀ offset, ¬ OccursAt openMark html offset)
      ∧ (∀ capacity, (intoNew capacity (extractHtml html)).Yields (room html capacity)
          fun buffer => buffer.bytes = toBytes html)
      ∧ ((lex html).Yields (2 * TokenList.tokenSize * (byteLength html + 1))
          fun list => ∀ token ∈ list.toList, token.kind.isErb = false)
      ∧ ∀ options : ExtractOptions, options.preservePositions = true → ∀ capacity,
          (intoNew capacity (extractRuby html options)).Yields (room html capacity)
            fun buffer => ∀ byte ∈ buffer.bytes, byte = byteOf ' ' ∨ byte = byteOf '\n' := by
  have hfree := free_markupText source
  refine ⟨markupText (pieces source), ?_, hfree.not_occursAt, ?_, yields_lex_of_free hfree, ?_⟩
  · intro capacity
    refine (yields_markup source capacity).imp ?_
    intro buffer hbytes
    rw [hbytes]
    exact ⟨ofBytes?_toBytes _, markupAlone_markupText source⟩
  · intro capacity
    have h := yields_markup (markupText (pieces source)) capacity
    rwa [markupText_of_free hfree] at h
  · intro options hoptions capacity
    exact yields_code_of_free hfree hoptions capacity

/-- A `<` right before a tag with a character of two bytes in it, and a `%` right behind it. -/
theorem extracted_markup_is_free_seam :
    ∃ buffer html,
      (intoNew 0 (extractHtml ['<', '<', '%', 'é', '%', '>', '%', '\n', '<', '%'])).outcome
        .standard = .ok buffer
      ∧ ofBytes? buffer.bytes = some (String.ofList html)
      ∧ ∀ offset, ¬ OccursAt openMark html offset := by
  obtain ⟨html, hyields, hfree, -⟩ :=
    extracted_markup_is_free ['<', '<', '%', 'é', '%', '>', '%', '\n', '<', '%']
  obtain ⟨hmarkup, hreturns⟩ := hyields 0 .standard
  obtain ⟨buffer, h⟩ := hreturns (by decide) (Memory.grantsUpTo_standard (by decide))
  exact ⟨buffer, html, h, (hmarkup buffer h).1, hfree⟩

end ErbTemplate
