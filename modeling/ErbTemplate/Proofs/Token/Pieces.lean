import ErbTemplate.Proofs.Source.Position
import ErbTemplate.Proofs.Token.Scan

/-!
# What the lexer promises of pieces

Whoever reads pieces of tokens relies on more than that they tile the source: that the three parts
of an ERB tag have the three kinds of ERB tokens and nothing else has, that a token stands at the
line and column of its bytes, that the text of a token is what stands there, and that a mark is as
wide as its kind says. Each is a fact about one step of the lexer. `forall_mem_pieces` carries it to
all pieces of a source, and `exists_of_mem_locateAll` to where they stand.
-/

set_option autoImplicit false

namespace ErbTemplate

open Text

/-! ## 1. Piece by piece -/

theorem exists_of_mem_locateAll {start : Point} {row : List (Piece Lexeme)} {piece : Piece Token}
    (h : piece ∈ Piece.locateAll start row) :
    ∃ before first after, row = before ++ first :: after
      ∧ piece = first.locate (start.advance (before.flatMap Piece.text)) := by
  induction row generalizing start with
  | nil => cases h
  | cons first row ih =>
    rcases List.mem_cons.1 h with rfl | h
    · exact ⟨[], first, row, rfl, rfl⟩
    · obtain ⟨before, other, after, rfl, rfl⟩ := ih h
      exact ⟨first :: before, other, after, rfl, by simp⟩

/-- **A piece is a token of markup or the tag behind an opening.** -/
theorem forall_mem_pieces {P : Piece Lexeme → Prop}
    (hmarkup : ∀ c text, P (.markup (Lexer.markup c text).1))
    (herb : ∀ (opening : Opening) rest,
      P (.erb opening ⟨.erbStart, opening.text⟩ (Lexer.erbEnding rest).1))
    (source : List Char) : ∀ piece ∈ pieces source, P piece := by
  fun_induction pieces source with
  | case1 =>
    intro piece hmem
    cases hmem
  | case2 c text ih =>
    intro piece hmem
    rcases List.mem_cons.1 hmem with rfl | hmem
    · cases hopen : Opening.of? (c :: text) with
      | none =>
        rw [Lexer.next_of_none hopen]
        exact hmarkup c text
      | some opening =>
        obtain ⟨rest, -, hnext⟩ := Lexer.next_of_some hopen
        rw [hnext]
        exact herb opening rest
    · exact ih piece hmem

/-! ## 2. Kinds -/

namespace Piece

/-- The parts of an ERB tag are of the three ERB kinds, and a token of markup is of none. -/
def Typed : Piece Token → Prop
  | markup token => token.kind.isErb = false
  | erb _ mark ending =>
    mark.kind = .erbStart ∧ (∀ content, ending.content? = some content → content.kind = .erbContent)
      ∧ ∀ closing, ending.closing? = some closing → closing.kind = .erbEnd

theorem typed_locate_erb (opening : Opening) (rest : List Char) (start : Point) :
    ((Piece.erb opening ⟨.erbStart, opening.text⟩ (Lexer.erbEnding rest).1).locate start).Typed
    := by
  rcases Lexer.erbEnding_cases rest with ⟨-, hending⟩ | ⟨-, -, hending⟩
    | ⟨content, back, -, hending⟩ <;>
    rw [hending] <;>
    simp [locate, Typed, Ending.content?, Ending.closing?, Token.ofLexeme]

end Piece

theorem typed_of_mem_locatedPieces {source : List Char} {piece : Piece Token}
    (h : piece ∈ locatedPieces source) : piece.Typed := by
  have hall : ∀ piece ∈ pieces source, ∀ start, (Piece.locate start piece).Typed :=
    forall_mem_pieces (fun c text _ => Lexer.isErb_markup c text) Piece.typed_locate_erb source
  obtain ⟨before, first, after, hrow, rfl⟩ := exists_of_mem_locateAll h
  exact hall first (by rw [hrow]; simp) _

/-! ## 3. Places and texts -/

theorem mem_tokens_of_mem_parts {source : List Char} {piece : Piece Token} {token : Token}
    (hpiece : piece ∈ locatedPieces source) (htoken : token ∈ piece.parts) :
    token ∈ tokens source :=
  List.mem_append_left _ (List.mem_flatMap.2 ⟨piece, hpiece, htoken⟩)

theorem mem_tokens_of_markup {source : List Char} {token : Token}
    (h : .markup token ∈ locatedPieces source) : token ∈ tokens source :=
  mem_tokens_of_mem_parts h (List.mem_singleton.2 rfl)

theorem liesIn_of_mem_tokens {source : List Char} {token : Token} (h : token ∈ tokens source) :
    token.span.start.LiesIn source ∧ token.span.stop.LiesIn source := by
  obtain ⟨before, lexeme, after, rfl, rfl, -⟩ := exists_split_of_mem_tokens h
  refine ⟨⟨before, lexeme.text ++ after, ?_, rfl⟩, ⟨before ++ lexeme.text, after, rfl, ?_⟩⟩
  · rw [List.append_assoc]
  · simp [Token.ofLexeme]

theorem text_span_of_mem_tokens {source : List Char} {token : Token} (h : token ∈ tokens source) :
    token.span.text source = token.text := by
  have hslice : token.span.range.slice? source = some token.text := slice?_of_mem_tokens h
  rw [Span.text, Range.slice, hslice]
  rfl

/-- The opening of a tag is what stands in the source. -/
theorem Piece.text_mark {source : List Char} {opening : Opening} {mark : Token}
    {ending : Ending Token} (h : .erb opening mark ending ∈ locatedPieces source) :
    mark.span.text source = opening.text := by
  have hall : ∀ piece ∈ pieces source, ∀ start, ∀ opening mark ending,
      Piece.locate start piece = .erb opening mark ending → mark.text = opening.text := by
    apply forall_mem_pieces
    · intro c text start opening mark ending heq
      cases heq
    · intro opening rest start opening' mark ending heq
      cases heq
      rfl
  rw [text_span_of_mem_tokens (mem_tokens_of_mem_parts h List.mem_cons_self)]
  obtain ⟨before, first, after, hrow, hpiece⟩ := exists_of_mem_locateAll h
  exact hall first (by rw [hrow]; simp) _ _ _ _ hpiece.symm

theorem Piece.liesIn_start {source : List Char} {piece : Piece Token}
    (h : piece ∈ locatedPieces source) : piece.start.LiesIn source := by
  cases piece with
  | markup token => exact (liesIn_of_mem_tokens (mem_tokens_of_markup h)).1
  | erb opening mark ending =>
    exact (liesIn_of_mem_tokens (mem_tokens_of_mem_parts h List.mem_cons_self)).1

theorem Piece.liesIn_stop {source : List Char} {piece : Piece Token}
    (h : piece ∈ locatedPieces source) : piece.stop.LiesIn source := by
  have hparts : ∀ token ∈ piece.parts, token.span.stop.LiesIn source :=
    fun token hmem => (liesIn_of_mem_tokens (mem_tokens_of_mem_parts h hmem)).2
  cases piece with
  | markup token => exact hparts token List.mem_cons_self
  | erb opening mark ending =>
    cases ending with
    | bare => exact hparts mark (by simp [parts])
    | running content => exact hparts content (by simp [parts, Ending.parts])
    | closed content closing => exact hparts closing (by simp [parts, Ending.parts])

/-- The parts of a piece stand inside of it. -/
theorem Piece.offset_of_mem_parts {source : List Char} {piece : Piece Token} {token : Token}
    (hpiece : piece ∈ locatedPieces source) (htoken : token ∈ piece.parts) :
    piece.start.offset ≤ token.span.start.offset ∧ token.span.stop.offset ≤ piece.stop.offset := by
  obtain ⟨before, first, after, -, rfl⟩ := exists_of_mem_locateAll hpiece
  cases first with
  | markup lexeme =>
    rw [List.mem_singleton.1 htoken]
    exact ⟨Nat.le_refl _, Nat.le_refl _⟩
  | erb opening mark ending =>
    cases ending <;>
      simp only [locate, parts, Ending.parts, List.mem_cons, List.not_mem_nil,
        or_false] at htoken <;>
      rcases htoken with rfl | rfl | rfl <;>
      simp only [locate, start, stop, Token.ofLexeme, Point.offset_advance] <;>
      omega

/-! ## 4. Widths -/

/-- The number of bytes of every token of a kind, where they all have the same. -/
def TokenKind.width? : TokenKind → Option Nat
  | commentStart => some 4
  | commentEnd => some 3
  | tagStartClose => some 2
  | tagStart | tagEnd | quote => some 1
  | _ => none

theorem TokenKind.width?_of_isErb {kind : TokenKind} (h : kind.isErb = true) :
    kind.width? = none := by
  cases kind <;> simp_all [isErb, width?]

theorem Lexer.byteLength_of_width? {c : Char} {text : List Char} {width : Nat}
    (h : (markup c text).1.kind.width? = some width) :
    byteLength (markup c text).1.text = width := by
  have hmarks : ∀ mark ∈ marks, ∀ width ∈ mark.kind.width?, byteLength mark.text = width := by
    decide
  revert h
  unfold markup
  split
  next mark hmark => exact fun h => hmarks mark (List.mem_of_find?_eq_some hmark) width h
  next =>
    -- runs and single characters are of kinds without a width
    split
    · exact fun h => by cases h
    · split <;> exact fun h => by cases h

theorem byteLength_of_mem_lexemes {source : List Char} {lexeme : Lexeme} {width : Nat}
    (h : lexeme ∈ lexemes source) (hwidth : lexeme.kind.width? = some width) :
    byteLength lexeme.text = width := by
  have hall : ∀ piece ∈ pieces source, ∀ part ∈ piece.parts, ∀ width,
      part.kind.width? = some width → byteLength part.text = width := by
    refine forall_mem_pieces ?_ ?_ source
    · intro c text part hmem width hwidth
      rw [List.mem_singleton.1 hmem] at hwidth ⊢
      exact Lexer.byteLength_of_width? hwidth
    · intro opening rest part hmem width hwidth
      have herb : part.kind.isErb = true := by
        rcases List.mem_cons.1 hmem with rfl | hmem
        · rfl
        · exact Lexer.isErb_erbEnding rest part hmem
      rw [TokenKind.width?_of_isErb herb] at hwidth
      cases hwidth
  obtain ⟨piece, hpiece, hpart⟩ := List.mem_flatMap.1 h
  exact hall piece hpiece lexeme hpart width hwidth

/-- **A mark ends so many bytes behind its start as its kind says.** -/
theorem offset_stop_of_width? {source : List Char} {token : Token} {width : Nat}
    (h : token ∈ tokens source) (hwidth : token.kind.width? = some width) :
    token.span.stop.offset = token.span.start.offset + width := by
  obtain ⟨before, lexeme, after, -, rfl, rfl | hmem⟩ := exists_split_of_mem_tokens h
  · cases hwidth
  · have hlength := byteLength_of_mem_lexemes hmem hwidth
    rw [← hlength]
    exact Point.offset_advance _ _

end ErbTemplate
