import ErbTemplate.Proofs.Text.Occurrence
import ErbTemplate.Token.Lexer
import Mathlib.Data.List.Chain

/-!
# Rows of tokens

The lexer does two things at once: it decides where a lexeme ends, and it walks over the source to
say where that is. This file takes the two apart. `Token.rowFrom` is the walk alone, over lexemes
that are already cut; `tokens_eq_rowFrom` says that the tokens of a text are such a walk over the
lexemes of its pieces, with an empty `eof` at the end.

Everything about byte ranges is then a fact about walks, and one lemma carries all of them:

> **`mem_rowFrom_iff`** — a token of a row is a lexeme of the row, standing after the texts of the
> lexemes before it.

What is left for the lexer itself are facts about lexemes, which have no place: they are not empty
unless they are the content of an ERB tag, none of them is an `eof`, and there are at most as many
as the text has bytes (§3).
-/

set_option autoImplicit false

namespace ErbTemplate

open Text

/-! ## 1. Walking over lexemes -/

namespace Token

/-- The tokens of lexemes that stand one after the other from a point on. -/
def rowFrom (start : Point) : List Lexeme → List Token
  | [] => []
  | lexeme :: lexemes => ofLexeme start lexeme :: rowFrom (start.advance lexeme.text) lexemes

@[simp] theorem rowFrom_nil (start : Point) : rowFrom start [] = [] := rfl

@[simp] theorem rowFrom_cons (start : Point) (lexeme : Lexeme) (lexemes : List Lexeme) :
    rowFrom start (lexeme :: lexemes)
      = ofLexeme start lexeme :: rowFrom (start.advance lexeme.text) lexemes := rfl

@[simp] theorem length_rowFrom (start : Point) (lexemes : List Lexeme) :
    (rowFrom start lexemes).length = lexemes.length := by
  induction lexemes generalizing start with
  | nil => rfl
  | cons lexeme lexemes ih => simp [ih]

theorem rowFrom_append (start : Point) (front back : List Lexeme) :
    rowFrom start (front ++ back)
      = rowFrom start front ++ rowFrom (start.advance (front.flatMap Lexeme.text)) back := by
  induction front generalizing start with
  | nil => rfl
  | cons lexeme front ih => simp [ih]

theorem flatMap_text_rowFrom (start : Point) (lexemes : List Lexeme) :
    (rowFrom start lexemes).flatMap Token.text = lexemes.flatMap Lexeme.text := by
  induction lexemes generalizing start with
  | nil => rfl
  | cons lexeme lexemes ih => simp [ih, ofLexeme]

/-- **The tokens of a row are its lexemes, each after the texts before it.** -/
theorem mem_rowFrom_iff {start : Point} {lexemes : List Lexeme} {token : Token} :
    token ∈ rowFrom start lexemes ↔ ∃ before lexeme after,
      lexemes = before ++ lexeme :: after
        ∧ token = ofLexeme (start.advance (before.flatMap Lexeme.text)) lexeme := by
  constructor
  · intro hmem
    induction lexemes generalizing start with
    | nil => exact absurd hmem (by simp)
    | cons first lexemes ih =>
      rcases List.mem_cons.1 hmem with rfl | hmem
      · exact ⟨[], first, lexemes, rfl, rfl⟩
      · obtain ⟨before, lexeme, after, rfl, rfl⟩ := ih hmem
        exact ⟨first :: before, lexeme, after, rfl, by simp⟩
  · rintro ⟨before, lexeme, after, rfl, rfl⟩
    rw [rowFrom_append]
    simp

theorem isChain_rowFrom (start : Point) (lexemes : List Lexeme) :
    (rowFrom start lexemes).IsChain fun a b => a.span.stop = b.span.start := by
  induction lexemes generalizing start with
  | nil => exact .nil
  | cons first lexemes ih =>
    have ih := ih (start.advance first.text)
    cases lexemes with
    | nil => exact .singleton _
    | cons second lexemes => exact .cons_cons rfl ih

end Token

theorem Token.slice?_range {source before after : List Char} {lexeme : Lexeme}
    (h : source = before ++ lexeme.text ++ after) :
    (Token.ofLexeme (Point.origin.advance before) lexeme).range.slice? source
      = some lexeme.text := by
  subst h
  simpa [Token.ofLexeme, Token.range, Span.range, Range.slice?, Point.origin]
    using between?_append before lexeme.text after

/-! ## 2. The tokens of a text are a walk over its lexemes -/

/-- The lexemes of a text, in source order. -/
def lexemes (text : List Char) : List Lexeme :=
  (pieces text).flatMap Piece.parts

theorem flatMap_text_lexemes (text : List Char) :
    (lexemes text).flatMap Lexeme.text = text := by
  rw [lexemes, List.flatMap_assoc]
  exact flatMap_text_pieces text

theorem Piece.parts_locate (start : Point) (piece : Piece Lexeme) :
    (piece.locate start).parts = Token.rowFrom start piece.parts := by
  cases piece with
  | markup lexeme => rfl
  | erb opening mark ending => cases ending <;> rfl

theorem Piece.flatMap_parts_locateAll (start : Point) (pieces : List (Piece Lexeme)) :
    (locateAll start pieces).flatMap parts = Token.rowFrom start (pieces.flatMap parts) := by
  induction pieces generalizing start with
  | nil => rfl
  | cons piece pieces ih =>
    rw [locateAll, List.flatMap_cons, List.flatMap_cons, ih, parts_locate, Token.rowFrom_append]
    rfl

/-- **The tokens of a text are one walk over its lexemes and an empty `eof`.** -/
theorem tokens_eq_rowFrom (text : List Char) :
    tokens text = Token.rowFrom .origin (lexemes text ++ [⟨.eof, []⟩]) := by
  rw [tokens, locatedPieces, Piece.flatMap_parts_locateAll, Token.rowFrom_append,
    flatMap_text_lexemes]
  rfl

/-! ## 3. What a lexeme can be -/

/-- What the lexer promises of each lexeme: it is not the end of the source, and it is empty only
    as the content of an ERB tag. -/
def Lexeme.Sound (lexeme : Lexeme) : Prop :=
  lexeme.kind ≠ .eof ∧ (lexeme.kind ≠ .erbContent → lexeme.text ≠ [])

namespace Lexer

theorem kind_ne_eof_of_mem_marks {mark : Lexeme} (h : mark ∈ marks) : mark.kind ≠ .eof := by
  revert mark
  decide

theorem sound_markup (c : Char) (text : List Char) : (markup c text).1.Sound := by
  refine ⟨?_, fun _ => text_markup_ne_nil c text⟩
  unfold markup
  split
  next mark h => exact kind_ne_eof_of_mem_marks (List.mem_of_find?_eq_some h)
  next =>
    split
    · exact fun h => by cases h
    · split <;> exact fun h => by cases h

theorem sound_erbEnding (text : List Char) :
    ∀ lexeme ∈ (erbEnding text).1.parts, lexeme.Sound := by
  cases text with
  | nil => simp [erbEnding, Ending.parts]
  | cons c text =>
    simp only [erbEnding]
    -- the closing delimiter holds `closeMark`, whatever was split off before it
    split <;> simp [Ending.parts, Lexeme.Sound, closeMark]

theorem sound_next (c : Char) (text : List Char) :
    ∀ lexeme ∈ (next c text).1.parts, lexeme.Sound := by
  unfold next
  split
  next opening _ =>
    intro lexeme hmem
    rcases List.mem_cons.1 hmem with rfl | hmem
    · refine ⟨fun h => ?_, fun _ => ?_⟩
      · cases h
      · cases opening <;> simp [Opening.text]
    · exact sound_erbEnding _ lexeme hmem
  next =>
    intro lexeme hmem
    rw [List.mem_singleton.1 hmem]
    exact sound_markup c text

/-- A piece has no more parts than bytes: the content of an ERB tag may be empty, and its opening
    has two bytes at least. -/
theorem length_parts_next_le (c : Char) (text : List Char) :
    (next c text).1.parts.length ≤ byteLength (next c text).1.text := by
  unfold next
  split
  next opening _ =>
    have hopen : 2 ≤ byteLength opening.text := by cases opening <;> decide
    simp only [Piece.text, Piece.parts, List.flatMap_cons, byteLength_append, List.length_cons]
    cases htext : (c :: text).drop opening.text.length with
    | nil => simp [erbEnding, Ending.parts]; omega
    | cons d rest =>
      simp only [erbEnding]
      split
      next =>
        simp only [Ending.parts, List.length_cons, List.length_nil]
        omega
      next =>
        have hclose : byteLength closeMark = 2 := by decide
        simp only [Ending.parts, List.length_cons, List.length_nil, List.flatMap_cons,
          List.flatMap_nil, byteLength_append, byteLength_nil, hclose]
        omega
  next =>
    have hpos := byteLength_pos (text_markup_ne_nil c text)
    simp only [Piece.text, Piece.parts, List.flatMap_cons, List.flatMap_nil, List.append_nil,
      List.length_cons, List.length_nil]
    omega

end Lexer

theorem sound_of_mem_lexemes {text : List Char} {lexeme : Lexeme} (h : lexeme ∈ lexemes text) :
    lexeme.Sound := by
  revert h
  unfold lexemes
  fun_induction pieces text with
  | case1 => exact fun h => absurd h (by simp)
  | case2 c text ih =>
    intro h
    rw [List.flatMap_cons] at h
    rcases List.mem_append.1 h with h | h
    · exact Lexer.sound_next c text lexeme h
    · exact ih h

theorem length_lexemes_le (text : List Char) : (lexemes text).length ≤ byteLength text := by
  unfold lexemes
  fun_induction pieces text with
  | case1 => exact Nat.le_refl 0
  | case2 c text ih =>
    have hstep := Lexer.length_parts_next_le c text
    have htext := congrArg byteLength (Lexer.text_next c text)
    rw [List.flatMap_cons, List.length_append]
    rw [byteLength_append] at htext
    omega

end ErbTemplate
