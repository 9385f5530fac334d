import ErbTemplate.Proofs.Extraction.Room
import ErbTemplate.Proofs.Token.Cut

/-!
# Extraction behind a closed ERB tag

Extraction goes piece by piece and carries nothing from one piece to the next. Since a text behind a
closed ERB tag is cut as if it stood alone, it is also extracted as if it stood alone: what is
extracted from two texts, the first of which ends with a closed tag, is what is extracted from each,
one behind the other. That holds for markup and for code in both layouts (`Extraction.Splits`).
-/

set_option autoImplicit false

namespace ErbTemplate

open Text TextBuffer

namespace Extraction

/-- What is extracted from two texts together is what is extracted from the first and then from the
    second, into buffers of any capacity. -/
def Splits (extraction : List Char → InPlace TextBuffer Unit) (front back : List Char) : Prop :=
  ∃ first second : List UInt8,
    (∀ capacity, (intoNew capacity (extraction front)).Yields (room front capacity)
      fun buffer => buffer.bytes = first)
    ∧ (∀ capacity, (intoNew capacity (extraction back)).Yields (room back capacity)
      fun buffer => buffer.bytes = second)
    ∧ ∀ capacity, (intoNew capacity (extraction (front ++ back))).Yields
        (room (front ++ back) capacity) fun buffer => buffer.bytes = first ++ second

section Bytes

variable {front : List Char} (back : List Char) (h : EndsClosed front)

include h

/-- What is written piece by piece is written of both parts, one after the other. -/
theorem bytes_flatMap_pieces_append (writes : Piece Lexeme → List Write) :
    ((pieces (front ++ back)).flatMap writes).flatMap Write.bytes
      = ((pieces front).flatMap writes).flatMap Write.bytes
        ++ ((pieces back).flatMap writes).flatMap Write.bytes := by
  rw [pieces_append_of_endsClosed back h, List.flatMap_append, List.flatMap_append]

theorem bytes_codeWrites_append (options : ExtractOptions) :
    (codeWrites options (front ++ back)).flatMap Write.bytes
      = (codeWrites options front).flatMap Write.bytes
        ++ (codeWrites options back).flatMap Write.bytes := by
  have hempty : (blank []).flatMap Write.bytes = [] := rfl
  unfold codeWrites
  split
  next =>
    rw [List.flatMap_append, List.flatMap_append, List.flatMap_append, hempty, List.append_nil,
      List.append_nil, List.append_nil]
    exact bytes_flatMap_pieces_append back h (codeInPlace options)
  next => exact bytes_flatMap_pieces_append back h (codeCompact options)

theorem markupText_pieces_append :
    markupText (pieces (front ++ back))
      = markupText (pieces front) ++ markupText (pieces back) := by
  rw [pieces_append_of_endsClosed back h]
  exact List.flatMap_append

theorem splits_extractRuby (options : ExtractOptions) :
    Splits (extractRuby · options) front back := by
  refine ⟨_, _, yields_code options front, yields_code options back, ?_⟩
  rw [← bytes_codeWrites_append back h options]
  exact yields_code options (front ++ back)

theorem splits_extractHtml : Splits extractHtml front back := by
  refine ⟨_, _, yields_markup front, yields_markup back, ?_⟩
  rw [← toBytes_append, ← markupText_pieces_append back h]
  exact yields_markup (front ++ back)

end Bytes

end Extraction

/-- **A closed ERB tag is a cut point.** Where the last token of a source is the closing delimiter
    of an ERB tag, whatever is appended is lexed as if it stood alone: its tokens are the same, with
    their places shifted by the end of the source. What is extracted from the two together is what
    is extracted from each of them. -/
theorem closed_tag_is_cut_point (front back : List Char)
    (hclosed : EndsWithClosing (tokens front)) :
    (∃ first second : List Token,
      (lex front).Yields (2 * TokenList.tokenSize * (byteLength front + 1))
        (fun list => list.toList = first)
      ∧ (lex back).Yields (2 * TokenList.tokenSize * (byteLength back + 1))
        (fun list => list.toList = second)
      ∧ (lex (front ++ back)).Yields (2 * TokenList.tokenSize * (byteLength (front ++ back) + 1))
        fun list => list.toList = first.dropLast ++ second.map (·.shift (.behind front)))
    ∧ Extraction.Splits extractHtml front back
    ∧ ∀ options, Extraction.Splits (extractRuby · options) front back := by
  have hends := endsClosed_of_tokens hclosed
  refine ⟨⟨tokens front, tokens back, yields_lex front, yields_lex back, ?_⟩,
    Extraction.splits_extractHtml back hends, Extraction.splits_extractRuby back hends⟩
  rw [← tokens_append_of_endsClosed back hends]
  exact yields_lex (front ++ back)

/-- A tag on the second line whose closing has a `-`, and behind it a text that begins with an `=`
    and has a line break. -/
theorem closed_tag_is_cut_point_trimmed :
    EndsWithClosing (tokens ['é', '\n', '<', '%', '=', 'x', '-', '%', '>'])
      ∧ ∃ first second both,
        (lex ['é', '\n', '<', '%', '=', 'x', '-', '%', '>']).outcome .standard = .ok first
        ∧ (lex ['=', '-', '\n', 'b']).outcome .standard = .ok second
        ∧ (lex ['é', '\n', '<', '%', '=', 'x', '-', '%', '>', '=', '-', '\n', 'b']).outcome
          .standard = .ok both
        ∧ both.toList = first.toList.dropLast ++ second.toList.map (·.shift ⟨10, 2, 7⟩) := by
  have hclosed : EndsWithClosing (tokens ['é', '\n', '<', '%', '=', 'x', '-', '%', '>']) := by
    decide +kernel
  obtain ⟨⟨_, _, hfront, hback, hboth⟩, -⟩ := closed_tag_is_cut_point
    ['é', '\n', '<', '%', '=', 'x', '-', '%', '>'] ['=', '-', '\n', 'b'] hclosed
  obtain ⟨first, hfirst⟩ :=
    (hfront .standard).2 (by decide) (Memory.grantsUpTo_standard (by decide))
  obtain ⟨second, hsecond⟩ :=
    (hback .standard).2 (by decide) (Memory.grantsUpTo_standard (by decide))
  obtain ⟨both, hjoined⟩ :=
    (hboth .standard).2 (by decide) (Memory.grantsUpTo_standard (by decide))
  refine ⟨hclosed, first, second, both, hfirst, hsecond, hjoined, ?_⟩
  rw [(hboth .standard).1 both hjoined, (hfront .standard).1 first hfirst,
    (hback .standard).1 second hsecond]
  rfl

end ErbTemplate
