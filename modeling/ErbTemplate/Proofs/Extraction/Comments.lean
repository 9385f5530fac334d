import ErbTemplate.Proofs.Extraction.Room

/-!
# Comments that are kept

Code at its place keeps its lines, and so does a comment that is kept. The comment has the rest of
its line: its mark `#` is a mark for whoever reads the code, and there is no room in which the line
could be ended before the line of the template is. So code behind the comment on the same line
becomes part of it (`code_behind_kept_comment`), and code on any other line does not.

`KeepsComments` compares the two extractions, with comments and without. They differ in the marks
and the first lines of comments, which the one holds as the template does and the other leaves
blank, and in nothing else; and what stands behind a mark on a line of the output is what stands
behind that mark on a line of the template.
-/

set_option autoImplicit false

namespace ErbTemplate

open Text TextBuffer

namespace Extraction

/-! ## 1. The rules -/

/-- The byte at an offset is the `#` of an ERB comment. -/
def HashAt (source : List Char) (offset : Nat) : Prop :=
  ∃ mark ending, Piece.erb .comment mark ending ∈ locatedPieces source
    ∧ offset + 1 = mark.range.stop

/-- The second of two offsets stands behind the first one, and no newline is between them. -/
def BehindOnLine (bytes : List UInt8) (first second : Nat) : Prop :=
  first < second ∧ ∀ i, first ≤ i → i < second → bytes[i]? ≠ some (byteOf '\n')

/-- What keeping comments does to code that is extracted at its place: `output` has the comments of
    `source`, and `plain` has not. -/
structure KeepsComments (source : List Char) (output plain : List UInt8) : Prop where
  /-- A comment begins with its mark. -/
  hashes : ∀ i, HashAt source i →
    output[i]? = some (byteOf '#') ∧ plain[i]? = some (byteOf ' ')
  /-- The mark is followed by the first line of the content; both are blank without comments. -/
  notes : ∀ i, NoteAt source i →
    output[i]? = (toBytes source)[i]? ∧ plain[i]? = (toBytes source)[i]?.map blankByte
  /-- Code stays where it is. -/
  code : ∀ i, CodeAt source i →
    output[i]? = (toBytes source)[i]? ∧ plain[i]? = (toBytes source)[i]?
  /-- Nothing changes but comments. -/
  others : ∀ i, ¬ NoteAt source i → output[i]? = plain[i]?
  /-- Each mark takes the rest of its line in the template, and no more. -/
  lines : ∀ hash i, HashAt source hash → CodeAt source i →
    (BehindOnLine output hash i ↔ BehindOnLine (toBytes source) hash i)

/-! ## 2. Marks of comments -/

variable {source : List Char} {i : Nat}

theorem HashAt.noteAt (h : HashAt source i) : NoteAt source i := by
  obtain ⟨mark, ending, hpiece, hstop⟩ := h
  exact ⟨mark, ending, hpiece, Or.inl hstop⟩

theorem HashAt.byte (h : HashAt source i) : (toBytes source)[i]? = some (byteOf '#') := by
  obtain ⟨mark, ending, hpiece, hstop⟩ := h
  have hmem := mem_tokens_of_mem_parts hpiece List.mem_cons_self
  have htext : mark.text = ['<', '%', '#'] := by
    rw [← text_span_of_mem_tokens hmem]
    exact Piece.text_mark hpiece
  obtain ⟨before, lexeme, after, rfl, rfl, -⟩ := exists_split_of_mem_tokens hmem
  rw [Token.text_ofLexeme] at htext
  have hthree : byteLength ['<', '%', '#'] = 3 := by decide
  have htwo : byteLength ['<', '%'] = 2 := by decide
  -- the mark is the third character of the opening
  have hplace : i = byteLength (before ++ ['<', '%']) := by
    rw [Token.range_ofLexeme, htext, hthree, Point.offset_advance, Point.origin] at hstop
    rw [byteLength_append, htwo]
    simp only at hstop
    omega
  have hsplit : before ++ lexeme.text ++ after = (before ++ ['<', '%']) ++ '#' :: after := by
    simp [htext]
  rw [hsplit, hplace]
  exact getElem?_toBytes_append (by decide) _ _

theorem holds_content_of_firstLine {mark content : Token} {ending : Ending Token}
    (hpiece : .erb .comment mark ending ∈ locatedPieces source)
    (hcontent : ending.content? = some content) (hle : content.range.start ≤ i)
    (hlt : i < content.range.start + byteLength (firstLine content.text)) :
    content.range.Holds i := by
  have hparts : content ∈ (Piece.erb .comment mark ending).parts := by
    refine List.mem_cons_of_mem _ ?_
    cases ending with
    | bare => cases hcontent
    | running => cases hcontent; exact List.mem_cons_self
    | closed => cases hcontent; exact List.mem_cons_self
  have hmem := mem_tokens_of_mem_parts hpiece hparts
  obtain ⟨before, lexeme, after, -, rfl, -⟩ := exists_split_of_mem_tokens hmem
  have hcut : firstLine lexeme.text ++ lexeme.text.dropWhile (· != '\n') = lexeme.text :=
    List.takeWhile_append_dropWhile
  have hlength := congrArg byteLength hcut
  rw [byteLength_append] at hlength
  rw [Token.range_ofLexeme, Token.text_ofLexeme] at hlt
  rw [Token.range_ofLexeme] at hle ⊢
  exact ⟨hle, by simp only at hlt ⊢; omega⟩

/-- Without comments, nothing of a comment is written. -/
theorem blank_of_noteAt {options : ExtractOptions} {plain : List UInt8}
    (hcomments : options.comments = false)
    (hmask : Masked 0 ((locatedPieces source).flatMap (codeMask options)) (toBytes source) plain)
    (h : NoteAt source i) : plain[i]? = (toBytes source)[i]?.map blankByte := by
  obtain ⟨mark, ending, hpiece, hmark | ⟨content, hcontent, hle, hlt⟩⟩ := h
  · have hblank : (Treatment.blank, mark.range) ∈ codeMask options (.erb .comment mark ending) := by
      refine List.mem_append_left _ ?_
      rw [openingMask, if_neg (by simp [hcomments])]
      exact List.mem_cons_self
    have hkind : mark.kind = .erbStart := (typed_of_mem_locatedPieces hpiece).1
    have hwidth : mark.range.start < mark.range.stop :=
      range_lt_of_mem_tokens (mem_tokens_of_mem_parts hpiece List.mem_cons_self)
        (by rw [hkind]; decide) (by rw [hkind]; decide)
    have hholds : mark.range.Holds i := ⟨by omega, by omega⟩
    exact getElem?_of_mem hmask ⟨mark.range, mem_codeMask hpiece hblank, hholds⟩
  · have hblank : (Treatment.blank, content.range)
        ∈ codeMask options (.erb .comment mark ending) := by
      refine content_mem_codeMask hcontent ?_
      rw [contentMask, if_neg (by decide), if_neg (by simp [hcomments])]
      exact List.mem_cons_self
    have hholds := holds_content_of_firstLine hpiece hcontent hle hlt
    exact getElem?_of_mem hmask ⟨content.range, mem_codeMask hpiece hblank, hholds⟩

/-! ## 3. Two extractions of one source -/

theorem keepsOffsets_codeWrites {options : ExtractOptions} (h : options.preservePositions = true)
    (source : List Char) :
    KeepsOffsets options source ((codeWrites options source).flatMap Write.bytes) := by
  obtain ⟨text, htext⟩ := exists_text_of_valid (valid_codeWrites options source)
  refine keepsOffsets_of_masked (masked_codeWrites h source) ⟨String.ofList text, ?_⟩
  rw [htext, ofBytes?_toBytes]

section Two

variable {options : ExtractOptions} {output plain : List UInt8}

/-- Outside of comments, what is kept, blanked or made a semicolon does not depend on whether
    comments are kept. -/
theorem eq_of_not_noteAt {other : ExtractOptions} (houtput : KeepsOffsets options source output)
    (hplain : KeepsOffsets other source plain) (hsemicolons : options.semicolons = other.semicolons)
    (hnote : ¬ NoteAt source i) : output[i]? = plain[i]? := by
  by_cases hcode : CodeAt source i
  · rw [houtput.code i hcode, hplain.code i hcode]
  by_cases hsemicolon : options.semicolons = true ∧ SemicolonAt source i
  · have hother : other.semicolons = true ∧ SemicolonAt source i := hsemicolons ▸ hsemicolon
    rw [((houtput.semicolons i).2 hsemicolon).1, ((hplain.semicolons i).2 hother).1]
  · have hother : ¬ (other.semicolons = true ∧ SemicolonAt source i) := hsemicolons ▸ hsemicolon
    rw [houtput.blanks i hcode (fun h => hnote h.2) hsemicolon,
      hplain.blanks i hcode (fun h => hnote h.2) hother]

/-- The lines of the output are those of the template. -/
theorem behindOnLine_iff (h : KeepsOffsets options source output) {first second : Nat} :
    BehindOnLine output first second ↔ BehindOnLine (toBytes source) first second := by
  simp only [BehindOnLine, Ne, h.newlines]

end Two

/-- **Keeping comments changes comments only, and they reach as far as their lines.** -/
theorem keepsComments_codeWrites {options : ExtractOptions}
    (hpositions : options.preservePositions = true) (hcomments : options.comments = true)
    (source : List Char) :
    KeepsComments source ((codeWrites options source).flatMap Write.bytes)
      ((codeWrites { options with comments := false } source).flatMap Write.bytes) := by
  have hpositions' : { options with comments := false }.preservePositions = true := hpositions
  have houtput := keepsOffsets_codeWrites hpositions source
  have hplain := keepsOffsets_codeWrites hpositions' source
  have hblank : ∀ i, NoteAt source i →
      ((codeWrites { options with comments := false } source).flatMap Write.bytes)[i]?
        = (toBytes source)[i]?.map blankByte :=
    fun i h => blank_of_noteAt rfl (masked_codeWrites hpositions' source) h
  refine
    { hashes := ?_
      notes := ?_
      code := ?_
      others := ?_
      lines := ?_ }
  · intro i h
    refine ⟨(houtput.comments hcomments i h.noteAt).trans h.byte, ?_⟩
    rw [hblank i h.noteAt, h.byte]
    rfl
  · intro i h
    exact ⟨houtput.comments hcomments i h, hblank i h⟩
  · intro i h
    exact ⟨houtput.code i h, hplain.code i h⟩
  · intro i h
    exact eq_of_not_noteAt houtput hplain rfl h
  · intro hash i _ _
    exact behindOnLine_iff houtput

end Extraction

open Extraction

/-- **Comments that are kept take the rest of their lines, and no more.** Where code is extracted at
    its place with comments, it is the code that is extracted without them, with the first line of
    each comment put in behind a `#`. A byte of code stands behind such a `#` on its line exactly
    if it stands behind that `#` on a line of the template. -/
theorem kept_comments_take_their_lines (source : List Char) (options : ExtractOptions)
    (hpositions : options.preservePositions = true) (hcomments : options.comments = true)
    (capacity : Nat) :
    (intoNew capacity (extractRuby source options)).Yields (room source capacity) fun buffer =>
      (intoNew capacity (extractRuby source { options with comments := false })).Yields
        (room source capacity) fun plain => KeepsComments source buffer.bytes plain.bytes := by
  refine (yields_code options source capacity).imp ?_
  intro buffer hbuffer
  refine (yields_code { options with comments := false } source capacity).imp ?_
  intro plain hplain
  rw [hbuffer, hplain]
  exact keepsComments_codeWrites hpositions hcomments source

/-- A comment, and code behind it on another line. -/
theorem kept_comments_take_their_lines_next_line :
    ∃ buffer plain,
      (intoNew 0 (extractRuby "<%# a %>\n<% b %>".toList { comments := true })).outcome .standard
          = .ok buffer
        ∧ (intoNew 0 (extractRuby "<%# a %>\n<% b %>".toList {})).outcome .standard = .ok plain
        ∧ KeepsComments "<%# a %>\n<% b %>".toList buffer.bytes plain.bytes := by
  obtain ⟨hbuffer, hreturns⟩ := kept_comments_take_their_lines "<%# a %>\n<% b %>".toList
    { comments := true } rfl rfl 0 .standard
  obtain ⟨buffer, h⟩ := hreturns (by decide) (Memory.grantsUpTo_standard (by decide))
  obtain ⟨hplain, hreturns⟩ := hbuffer buffer h .standard
  obtain ⟨plain, h'⟩ := hreturns (by decide) (Memory.grantsUpTo_standard (by decide))
  exact ⟨buffer, plain, h, h', hplain plain h'⟩

/-- Code behind a comment on the same line is part of the comment when the comment is kept. -/
theorem code_behind_kept_comment :
    ∃ buffer, (intoNew 0 (extractRuby "<%# note %><% x %>".toList { comments := true })).outcome
        .standard = .ok buffer
      ∧ CodeAt "<%# note %><% x %>".toList 14 ∧ buffer.bytes[14]? = some (byteOf 'x')
      ∧ HashAt "<%# note %><% x %>".toList 2 ∧ buffer.bytes[2]? = some (byteOf '#')
      ∧ BehindOnLine buffer.bytes 2 14 := by
  obtain ⟨hbytes, hreturns⟩ :=
    yields_code { comments := true } "<%# note %><% x %>".toList 0 .standard
  obtain ⟨buffer, h⟩ := hreturns (by decide) (Memory.grantsUpTo_standard (by decide))
  refine ⟨buffer, h, ?_⟩
  have hwritten : (codeWrites { comments := true } "<%# note %><% x %>".toList).flatMap Write.bytes
      = toBytes "  # note      x   ".toList := by decide +kernel
  rw [hbytes buffer h, hwritten]
  let place (offset : Nat) : Point := ⟨offset, ⟨1, offset⟩⟩
  have hcomment : Piece.erb .comment ⟨.erbStart, "<%#".toList, place 0, place 3⟩
      (.closed ⟨.erbContent, " note ".toList, place 3, place 9⟩
        ⟨.erbEnd, "%>".toList, place 9, place 11⟩)
      ∈ locatedPieces "<%# note %><% x %>".toList := by
    decide +kernel
  have hcode : Piece.erb .plain ⟨.erbStart, "<%".toList, place 11, place 13⟩
      (.closed ⟨.erbContent, " x ".toList, place 13, place 16⟩
        ⟨.erbEnd, "%>".toList, place 16, place 18⟩)
      ∈ locatedPieces "<%# note %><% x %>".toList := by
    decide +kernel
  refine ⟨⟨_, _, _, _, hcode, rfl, rfl, by decide, by decide⟩, by decide, ⟨_, _, hcomment, rfl⟩,
    by decide, by decide, ?_⟩
  intro i _
  revert i
  decide

end ErbTemplate
