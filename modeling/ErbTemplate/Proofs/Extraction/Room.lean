import ErbTemplate.Proofs.Extraction.Modes
import Mathlib.Algebra.Ring.Nat

/-!
# Every extraction finds room

Code that is kept in its place is as long as its source, and compact code is shorter; but comments
that are kept get a mark and a space on each of their lines. A line has a character at least, so
even then four times the source is enough (`length_codeWrites_le_four`), which is far below what
the tokens of the source ask for.
-/

set_option autoImplicit false

namespace ErbTemplate
namespace Extraction

open Text TextBuffer

/-- The lines of a text, each with three bytes more. -/
theorem sum_lines_le (text : List Char) :
    ((lines text).map fun line => byteLength line + 3).sum ≤ 4 * byteLength text := by
  have hnewline : '\n'.utf8Size = 1 := rfl
  fun_induction lines text with
  | case1 => exact Nat.zero_le _
  | case2 text ih =>
    simp only [List.map_cons, List.sum_cons, byteLength_cons, byteLength_nil, hnewline]
    omega
  | case3 text ih =>
    simp only [List.map_cons, List.sum_cons, byteLength_cons, byteLength_nil, hnewline]
    omega
  | case4 c text _ _ hlines ih =>
    have hpos := Char.utf8Size_pos c
    simp only [List.map_cons, List.map_nil, List.sum_cons, List.sum_nil, byteLength_cons,
      byteLength_nil]
    omega
  | case5 c text _ _ line others hlines ih =>
    rw [hlines] at ih
    simp only [List.map_cons, List.sum_cons, byteLength_cons] at ih ⊢
    omega

/-- The lines of a comment, with what is put before and behind each of them. -/
theorem length_commentLines_le (code : List Char) :
    (((lines code).flatMap fun line =>
      [Write.text ['#', ' '], .text (trim line), .byte (byteOf '\n')]).flatMap Write.bytes).length
      ≤ 4 * byteLength code := by
  refine Nat.le_trans ?_ (sum_lines_le code)
  induction lines code with
  | nil => exact Nat.le_refl _
  | cons line others ih =>
    have hline : (([.text ['#', ' '], .text (trim line), .byte (byteOf '\n')] : List Write).flatMap
        Write.bytes).length = byteLength (trim line) + 3 := by
      have hmark : byteLength ['#', ' '] = 2 := by decide
      simp only [List.flatMap_cons, List.flatMap_nil, Write.bytes, List.length_append,
        length_toBytes, hmark, List.length_cons, List.length_nil]
      omega
    have htrim := byteLength_le_of_sublist (trim_sublist line)
    rw [List.flatMap_cons, List.flatMap_append, List.length_append, hline, List.map_cons,
      List.sum_cons]
    omega

variable (options : ExtractOptions)

/-- Without comments a piece is no longer than in the source, and a comment is four times as long at
    most. -/
theorem length_codeCompact_le_four {piece : Piece Lexeme} (h : Delimited piece) :
    ((codeCompact options piece).flatMap Write.bytes).length ≤ 4 * byteLength piece.text := by
  have hsilent : ((codeCompact { options with comments := false } piece).flatMap
      Write.bytes).length ≤ 4 * byteLength piece.text :=
    Nat.le_trans (length_codeCompact_le rfl h) (Nat.le_mul_of_pos_left _ (by decide))
  cases piece with
  | markup lexeme => exact Nat.zero_le _
  | erb opening mark ending =>
    cases hcontent : ending.content? with
    | none => simp [codeCompact, hcontent]
    | some content =>
      have htext := byteLength_content_le opening mark hcontent
      have htrim := byteLength_le_of_sublist (trim_sublist content.text)
      have hlines := length_commentLines_le (trim content.text)
      simp only [codeCompact, hcontent] at hsilent ⊢
      split
      next hcode =>
        rw [if_pos hcode] at hsilent
        exact hsilent
      next =>
        split
        next => omega
        next => exact Nat.zero_le _

theorem length_codeWrites_le_four (source : List Char) :
    ((codeWrites options source).flatMap Write.bytes).length ≤ 4 * byteLength source := by
  cases hoptions : options.preservePositions with
  | true =>
    have hlength := (masked_codeWrites hoptions source).length_eq
    rw [length_toBytes] at hlength
    rw [hlength]
    exact Nat.le_mul_of_pos_left _ (by decide)
  | false =>
    have hrow : (((pieces source).flatMap (codeCompact options)).flatMap Write.bytes).length
        ≤ 4 * byteLength ((pieces source).flatMap Piece.text) :=
      length_flatMap_le fun piece hmem =>
        length_codeCompact_le_four options (delimited_of_mem_pieces source piece hmem)
    rw [flatMap_text_pieces] at hrow
    rw [codeWrites, hoptions]
    exact hrow

/-- **Code is extracted where there is memory for the tokens of the source**, whatever is kept. -/
theorem yields_code (source : List Char) (capacity : Nat) :
    (intoNew capacity (extractRuby source options)).Yields (room source capacity)
      fun buffer => buffer.bytes = (codeWrites options source).flatMap Write.bytes := by
  intro memory
  refine ⟨fun buffer h => bytes_of_intoNew h, ?_⟩
  intro hblock hgrants
  exact exists_intoNew hblock hgrants (valid_codeWrites options source)
    (length_codeWrites_le_four options source)

end Extraction
end ErbTemplate
