import ErbTemplate.Proofs.Extraction.Mask

/-!
# Code keeps its offsets

The contract of the extraction of code at its place, stated as one structure, `KeepsOffsets`, in
terms of three kinds of offsets of the source: those of code (`CodeAt`), those of comments that can
be kept (`NoteAt`), and those where a semicolon can be put (`SemicolonAt`). All three speak of the
ERB tags that the lexer found; what the extractor writes is mentioned nowhere.

The extractor goes over the parts of a tag and writes so many spaces here and a text there.
`codeMask` says the same with ranges, and **`masked_codeInPlace`** that it is the same. Each field
of the contract then asks for the treatment of an offset, and either finds its range in the mask
or takes the one in which the offset lies, with the reason for its treatment (`exists_reason`).
-/

set_option autoImplicit false

namespace ErbTemplate

open Text TextBuffer

namespace Extraction

/-! ## 1. Offsets of a template -/

/-- The text before the first newline. -/
def firstLine (text : List Char) : List Char :=
  text.takeWhile (· != '\n')

/-- The byte at an offset belongs to the content of a tag with code, closed or not. -/
def CodeAt (source : List Char) (offset : Nat) : Prop :=
  ∃ opening mark ending content, Piece.erb opening mark ending ∈ locatedPieces source
    ∧ opening.isCode = true ∧ ending.content? = some content ∧ content.range.Holds offset

/-- The byte at an offset is the `#` of a comment, or belongs to the first line of its content. -/
def NoteAt (source : List Char) (offset : Nat) : Prop :=
  ∃ mark ending, Piece.erb .comment mark ending ∈ locatedPieces source
    ∧ (offset + 1 = mark.range.stop
      ∨ ∃ content, ending.content? = some content
        ∧ content.range.start ≤ offset
        ∧ offset < content.range.start + byteLength (firstLine content.text))

/-- The byte at an offset is the first one of the closing of a tag with code that is more than
    white space. -/
def SemicolonAt (source : List Char) (offset : Nat) : Prop :=
  ∃ opening mark content closing,
    Piece.erb opening mark (.closed content closing) ∈ locatedPieces source
      ∧ opening.isCode = true ∧ allBlank content.text = false ∧ offset = closing.range.start

/-- What code extracted at its place has in common with its template, byte by byte. -/
structure KeepsOffsets (options : ExtractOptions) (source : List Char) (output : List UInt8) :
    Prop where
  utf8 : ∃ text, ofBytes? output = some text
  length : output.length = byteLength source
  newlines : ∀ i : Nat, output[i]? = some (byteOf '\n') ↔ (toBytes source)[i]? = some (byteOf '\n')
  /-- Nothing but spaces and semicolons is put in. -/
  bytes : ∀ (i : Nat) byte, output[i]? = some byte →
    (toBytes source)[i]? = some byte ∨ byte = byteOf ' ' ∨ byte = byteOf ';'
  code : ∀ i, CodeAt source i → output[i]? = (toBytes source)[i]?
  /-- Comments are kept when asked for, up to the end of a line. -/
  comments : options.comments = true → ∀ i, NoteAt source i → output[i]? = (toBytes source)[i]?
  /-- Semicolons are put after code when asked for, and nowhere else. -/
  semicolons : ∀ i : Nat,
    (output[i]? = some (byteOf ';') ∧ (toBytes source)[i]? ≠ some (byteOf ';'))
    ↔ (options.semicolons = true ∧ SemicolonAt source i)
  /-- All else is blank. -/
  blanks : ∀ i, ¬ CodeAt source i → ¬ (options.comments = true ∧ NoteAt source i) →
    ¬ (options.semicolons = true ∧ SemicolonAt source i) →
      output[i]? = (toBytes source)[i]?.map blankByte

/-! ## 2. The mask of code -/

def openingMask (options : ExtractOptions) (opening : Opening) (mark : Token) :
    List (Treatment × Range) :=
  if opening = .comment ∧ options.comments then
    [(.blank, ⟨mark.range.start, mark.range.stop - 1⟩),
     (.keep, ⟨mark.range.stop - 1, mark.range.stop⟩)]
  else
    [(.blank, mark.range)]

def contentMask (options : ExtractOptions) (opening : Opening) (content : Token) :
    List (Treatment × Range) :=
  if opening.isCode then
    [(.keep, content.range)]
  else if opening = .comment ∧ options.comments then
    let middle := content.range.start + byteLength (firstLine content.text)
    [(.keep, ⟨content.range.start, middle⟩), (.blank, ⟨middle, content.range.stop⟩)]
  else
    [(.blank, content.range)]

def closingMask (options : ExtractOptions) (opening : Opening) (content : List Char)
    (closing : Token) : List (Treatment × Range) :=
  if options.semicolons ∧ opening.isCode ∧ ¬allBlank content then
    [(.semicolon, ⟨closing.range.start, closing.range.start + 1⟩),
     (.blank, ⟨closing.range.start + 1, closing.range.stop⟩)]
  else
    [(.blank, closing.range)]

def codeMask (options : ExtractOptions) : Piece Token → List (Treatment × Range)
  | .markup token => [(.blank, token.range)]
  | .erb opening mark ending =>
    openingMask options opening mark ++
      match ending with
      | .bare => []
      | .running content => contentMask options opening content
      | .closed content closing =>
        contentMask options opening content ++ closingMask options opening content.text closing

section Parts

variable (options : ExtractOptions) (opening : Opening) (start : Point)

theorem masked_opening {mark : Lexeme} (hmark : mark.text = opening.text) :
    Masked start.offset (openingMask options opening (.ofLexeme start mark)) (toBytes mark.text)
      ((openingInPlace options opening mark.text).flatMap Write.bytes) := by
  unfold openingMask openingInPlace
  split
  next h =>
    obtain ⟨rfl, -⟩ := h
    rw [Token.range_ofLexeme, hmark]
    exact (Masked.one .blank start.offset (toBytes ['<', '%'])).append
      (Masked.one .keep (start.offset + 2) (toBytes ['#']))
  next => exact masked_blank start mark

theorem spanUntil_newline (text : List Char) :
    spanUntil (startsWith ['\n']) text = (firstLine text, text.dropWhile (· != '\n')) := by
  induction text with
  | nil => rfl
  | cons c text ih =>
    by_cases hc : c = '\n'
    · subst hc
      rfl
    · simp [spanUntil, startsWith, firstLine, hc, Ne.symm hc, ih]

theorem masked_content (content : Lexeme) :
    Masked start.offset (contentMask options opening (.ofLexeme start content))
      (toBytes content.text)
      ((contentInPlace options opening content.text).flatMap Write.bytes) := by
  unfold contentMask contentInPlace
  split
  next => exact masked_keep start content
  next =>
    split
    next =>
      -- the content is cut at its first newline
      have hcut : firstLine content.text ++ content.text.dropWhile (· != '\n') = content.text :=
        List.takeWhile_append_dropWhile
      have hlength := congrArg byteLength hcut
      rw [byteLength_append] at hlength
      have hfront := Masked.keep start.offset (firstLine content.text)
      have hback := Masked.blank (start.offset + byteLength (firstLine content.text))
        (content.text.dropWhile (· != '\n'))
      rw [Nat.add_assoc, hlength, ← length_toBytes (firstLine content.text)] at hback
      have h := hfront.append hback
      rw [← toBytes_append, hcut, length_toBytes] at h
      rw [spanUntil_newline, Token.range_ofLexeme, List.flatMap_cons, bytes_blank]
      exact h
    next => exact masked_blank start content

theorem masked_closing (content : List Char) {closing : Lexeme}
    (hclosing : closing.text ∈ closings) :
    Masked start.offset (closingMask options opening content (.ofLexeme start closing))
      (toBytes closing.text)
      ((closingInPlace options opening content closing.text).flatMap Write.bytes) := by
  unfold closingMask closingInPlace
  split
  next =>
    rw [Token.range_ofLexeme]
    -- whichever closing it is, its first byte makes place for the semicolon
    simp only [closings, List.mem_cons, List.not_mem_nil, or_false] at hclosing
    rcases hclosing with htext | htext | htext
    · rw [htext]
      exact (Masked.one .semicolon start.offset (toBytes ['%'])).append
        (Masked.one .blank (start.offset + 1) (toBytes ['>']))
    · rw [htext]
      exact (Masked.one .semicolon start.offset (toBytes ['-'])).append
        (Masked.one .blank (start.offset + 1) (toBytes ['%', '>']))
    · rw [htext]
      exact (Masked.one .semicolon start.offset (toBytes ['='])).append
        (Masked.one .blank (start.offset + 1) (toBytes ['%', '>']))
  next => exact masked_blank start closing

end Parts

/-- **The writes of a piece are its mask.** -/
theorem masked_codeInPlace (options : ExtractOptions) {piece : Piece Lexeme}
    (h : Delimited piece) (start : Point) :
    Masked start.offset (codeMask options (piece.locate start)) (toBytes piece.text)
      ((codeInPlace options piece).flatMap Write.bytes) := by
  cases piece with
  | markup lexeme =>
    have htext : (Piece.markup lexeme).text = lexeme.text := List.append_nil _
    rw [htext]
    exact masked_blank start lexeme
  | erb opening mark ending =>
    have hopening := masked_opening options opening start h.1
    cases ending with
    | bare =>
      simpa [codeMask, Piece.locate, codeInPlace, Piece.text, Piece.parts, Ending.parts]
        using hopening
    | running content =>
      have hcontent := masked_content options opening (start.advance mark.text) content
      simpa [codeMask, Piece.locate, codeInPlace, Piece.text, Piece.parts, Ending.parts]
        using hopening.append_text hcontent
    | closed content closing =>
      have hcontent := masked_content options opening (start.advance mark.text) content
      have hclosing := masked_closing options opening
        ((start.advance mark.text).advance content.text) content.text (h.2 closing rfl)
      simpa [codeMask, Piece.locate, codeInPlace, Piece.text, Piece.parts, Ending.parts]
        using hopening.append_text (hcontent.append_text hclosing)

theorem masked_codeWrites {options : ExtractOptions} (h : options.preservePositions = true)
    (source : List Char) :
    Masked 0 ((locatedPieces source).flatMap (codeMask options)) (toBytes source)
      ((codeWrites options source).flatMap Write.bytes) := by
  have hpieces := masked_locateAll (fun piece hmem =>
    masked_codeInPlace options (delimited_of_mem_pieces source piece hmem)) .origin
  rw [flatMap_text_pieces] at hpieces
  have hempty : (blank []).flatMap Write.bytes = [] := rfl
  rw [codeWrites, if_pos h, List.flatMap_append, hempty, List.append_nil]
  exact hpieces

/-! ## 3. Treatments and offsets -/

section Offsets

variable {options : ExtractOptions} {source : List Char} {i : Nat}

theorem mem_codeMask {piece : Piece Token} {entry : Treatment × Range}
    (hpiece : piece ∈ locatedPieces source) (hentry : entry ∈ codeMask options piece) :
    entry ∈ (locatedPieces source).flatMap (codeMask options) :=
  List.mem_flatMap.2 ⟨piece, hpiece, hentry⟩

theorem content_mem_codeMask {opening : Opening} {mark content : Token} {ending : Ending Token}
    {entry : Treatment × Range} (hcontent : ending.content? = some content)
    (hentry : entry ∈ contentMask options opening content) :
    entry ∈ codeMask options (.erb opening mark ending) := by
  refine List.mem_append_right _ ?_
  cases ending with
  | bare => cases hcontent
  | running =>
    cases hcontent
    exact hentry
  | closed =>
    cases hcontent
    exact List.mem_append_left _ hentry

theorem exists_keep_of_codeAt (h : CodeAt source i) :
    ∃ range, (Treatment.keep, range) ∈ (locatedPieces source).flatMap (codeMask options)
      ∧ range.Holds i := by
  obtain ⟨opening, mark, ending, content, hpiece, hcode, hcontent, hholds⟩ := h
  refine ⟨content.range, mem_codeMask hpiece (content_mem_codeMask hcontent ?_), hholds⟩
  rw [contentMask, if_pos hcode]
  exact List.mem_cons_self

theorem exists_keep_of_noteAt (hcomments : options.comments = true) (h : NoteAt source i) :
    ∃ range, (Treatment.keep, range) ∈ (locatedPieces source).flatMap (codeMask options)
      ∧ range.Holds i := by
  obtain ⟨mark, ending, hpiece, hmark | ⟨content, hcontent, hle, hlt⟩⟩ := h
  · refine ⟨⟨mark.range.stop - 1, mark.range.stop⟩, mem_codeMask hpiece ?_, ?_⟩
    · refine List.mem_append_left _ ?_
      rw [openingMask, if_pos ⟨rfl, hcomments⟩]
      exact List.mem_cons_of_mem _ List.mem_cons_self
    · constructor <;> simp only <;> omega
  · refine ⟨⟨content.range.start, content.range.start + byteLength (firstLine content.text)⟩,
      mem_codeMask hpiece (content_mem_codeMask hcontent ?_), hle, hlt⟩
    rw [contentMask, if_neg (by decide), if_pos ⟨rfl, hcomments⟩]
    exact List.mem_cons_self

theorem exists_semicolon_of_semicolonAt (hsemicolons : options.semicolons = true)
    (h : SemicolonAt source i) :
    ∃ range, (Treatment.semicolon, range) ∈ (locatedPieces source).flatMap (codeMask options)
      ∧ range.Holds i := by
  obtain ⟨opening, mark, content, closing, hpiece, hcode, hblank, rfl⟩ := h
  refine ⟨⟨closing.range.start, closing.range.start + 1⟩, mem_codeMask hpiece ?_, Nat.le_refl _,
    Nat.lt_succ_self _⟩
  refine List.mem_append_right _ (List.mem_append_right _ ?_)
  rw [closingMask, if_pos ⟨hsemicolons, hcode, by rw [hblank]; exact Bool.false_ne_true⟩]
  exact List.mem_cons_self

/-- Why an offset is treated as it is: it is kept for what it holds, made a semicolon for where it
    is, and blanked for no reason. -/
inductive Reason (options : ExtractOptions) (source : List Char) (i : Nat) : Treatment → Prop
  | code (h : CodeAt source i) : Reason options source i .keep
  | note (hcomments : options.comments = true) (h : NoteAt source i) : Reason options source i .keep
  | semicolon (hsemicolons : options.semicolons = true) (h : SemicolonAt source i) :
      Reason options source i .semicolon
  | blank : Reason options source i .blank

section Tag

variable {opening : Opening} {mark : Token} {ending : Ending Token} {treatment : Treatment}
  {range : Range} (hpiece : .erb opening mark ending ∈ locatedPieces source)
  (hholds : range.Holds i)

include hpiece hholds

theorem reason_of_opening (hmem : (treatment, range) ∈ openingMask options opening mark) :
    Reason options source i treatment := by
  unfold openingMask at hmem
  split at hmem
  next hkept =>
    obtain ⟨rfl, hcomments⟩ := hkept
    rcases List.mem_cons.1 hmem with heq | hmem
    · cases heq
      exact .blank
    · cases List.mem_singleton.1 hmem
      refine .note hcomments ⟨mark, ending, hpiece, Or.inl ?_⟩
      have hle := hholds.1
      have hlt := hholds.2
      simp only at hle hlt
      omega
  next =>
    cases List.mem_singleton.1 hmem
    exact .blank

theorem reason_of_content {content : Token} (hcontent : ending.content? = some content)
    (hmem : (treatment, range) ∈ contentMask options opening content) :
    Reason options source i treatment := by
  unfold contentMask at hmem
  split at hmem
  next hcode =>
    cases List.mem_singleton.1 hmem
    exact .code ⟨opening, mark, ending, content, hpiece, hcode, hcontent, hholds⟩
  next =>
    split at hmem
    next hkept =>
      obtain ⟨rfl, hcomments⟩ := hkept
      rcases List.mem_cons.1 hmem with heq | hmem
      · cases heq
        exact .note hcomments ⟨mark, ending, hpiece, Or.inr ⟨content, hcontent, hholds⟩⟩
      · cases List.mem_singleton.1 hmem
        exact .blank
    next =>
      cases List.mem_singleton.1 hmem
      exact .blank

theorem reason_of_closing {content closing : Token} (hending : ending = .closed content closing)
    (hmem : (treatment, range) ∈ closingMask options opening content.text closing) :
    Reason options source i treatment := by
  subst hending
  unfold closingMask at hmem
  split at hmem
  next hput =>
    obtain ⟨hsemicolons, hcode, hblank⟩ := hput
    rcases List.mem_cons.1 hmem with heq | hmem
    · cases heq
      refine .semicolon hsemicolons ⟨opening, mark, content, closing, hpiece, hcode, ?_, ?_⟩
      · simpa using hblank
      · exact Nat.le_antisymm (Nat.le_of_lt_succ hholds.2) hholds.1
    · cases List.mem_singleton.1 hmem
      exact .blank
  next =>
    cases List.mem_singleton.1 hmem
    exact .blank

end Tag

/-- **Every entry of the mask has its reason.** -/
theorem reason_of_mem {treatment : Treatment} {range : Range}
    (hmem : (treatment, range) ∈ (locatedPieces source).flatMap (codeMask options))
    (hholds : range.Holds i) : Reason options source i treatment := by
  obtain ⟨piece, hpiece, hmem⟩ := List.mem_flatMap.1 hmem
  cases piece with
  | markup token =>
    cases List.mem_singleton.1 hmem
    exact .blank
  | erb opening mark ending =>
    rcases List.mem_append.1 hmem with hmem | hmem
    · exact reason_of_opening hpiece hholds hmem
    · cases ending with
      | bare => cases hmem
      | running content => exact reason_of_content hpiece hholds rfl hmem
      | closed content closing =>
        rcases List.mem_append.1 hmem with hmem | hmem
        · exact reason_of_content hpiece hholds rfl hmem
        · exact reason_of_closing hpiece hholds rfl hmem

/-! ## 4. Where a semicolon is put -/

theorem exists_append_of_semicolonAt (h : SemicolonAt source i) :
    ∃ front closing back, source = front ++ closing ++ back ∧ closing ∈ closings
      ∧ i = byteLength front := by
  obtain ⟨opening, mark, content, closing, hpiece, -, -, rfl⟩ := h
  obtain ⟨before, piece, after, hrow, hlocate⟩ := exists_of_mem_locateAll hpiece
  have hdelimited := delimited_of_mem_pieces source piece (by rw [hrow]; simp)
  have hsource := flatMap_text_pieces source
  rw [hrow, List.flatMap_append, List.flatMap_cons] at hsource
  cases piece with
  | markup => cases hlocate
  | erb _ mark ending =>
    cases ending with
    | bare => cases hlocate
    | running => cases hlocate
    | closed content closing =>
      cases hlocate
      refine ⟨before.flatMap Piece.text ++ mark.text ++ content.text, closing.text,
        after.flatMap Piece.text, ?_, hdelimited.2 closing rfl, ?_⟩
      · rw [← hsource]
        simp [Piece.text, Piece.parts, Ending.parts]
      · simp [Token.range_ofLexeme, Point.origin, Nat.add_assoc]

/-- A semicolon takes the place of a delimiter. -/
theorem byte_of_semicolonAt (h : SemicolonAt source i) :
    (toBytes source)[i]? = some (byteOf '%') ∨ (toBytes source)[i]? = some (byteOf '-')
      ∨ (toBytes source)[i]? = some (byteOf '=') := by
  obtain ⟨front, closing, back, rfl, hclosing, rfl⟩ := exists_append_of_semicolonAt h
  simp only [closings, List.mem_cons, List.not_mem_nil, or_false] at hclosing
  rw [List.append_assoc]
  rcases hclosing with rfl | rfl | rfl
  · exact Or.inl (getElem?_toBytes_append (by decide) front _)
  · exact Or.inr (Or.inl (getElem?_toBytes_append (by decide) front _))
  · exact Or.inr (Or.inr (getElem?_toBytes_append (by decide) front _))

theorem ne_of_semicolonAt {byte : UInt8} (h : SemicolonAt source i)
    (hbyte : (toBytes source)[i]? = some byte) : byte ≠ byteOf '\n' ∧ byte ≠ byteOf ';' := by
  rcases byte_of_semicolonAt h with hat | hat | hat
  all_goals
    rw [hat] at hbyte
    cases hbyte
    decide

end Offsets

/-! ## 5. The contract -/

theorem blankByte_eq_newline_iff (byte : UInt8) :
    blankByte byte = byteOf '\n' ↔ byte = byteOf '\n' := by
  unfold blankByte
  split
  next => exact Iff.rfl
  next h =>
    constructor
    · intro hspace
      exact absurd hspace (by decide)
    · intro hnewline
      exact absurd hnewline h

theorem blankByte_ne_semicolon (byte : UInt8) : blankByte byte ≠ byteOf ';' := by
  unfold blankByte
  split
  next h =>
    rw [h]
    decide
  next => decide

section Contract

variable {options : ExtractOptions} {source : List Char} {output : List UInt8}
  (hmask : Masked 0 ((locatedPieces source).flatMap (codeMask options)) (toBytes source) output)

include hmask

theorem getElem?_of_mem {treatment : Treatment} {i : Nat}
    (h : ∃ range, (treatment, range) ∈ (locatedPieces source).flatMap (codeMask options)
      ∧ range.Holds i) : output[i]? = (toBytes source)[i]?.map treatment.byte := by
  obtain ⟨range, hmem, hholds⟩ := h
  refine hmask.getElem?_eq hmem ?_
  rwa [Nat.zero_add]

theorem getElem?_of_keep {i : Nat}
    (h : ∃ range, (Treatment.keep, range) ∈ (locatedPieces source).flatMap (codeMask options)
      ∧ range.Holds i) : output[i]? = (toBytes source)[i]? := by
  rw [getElem?_of_mem hmask h]
  exact Option.map_id'

/-- An offset is behind the end, or its byte is treated for a reason. -/
theorem exists_reason (i : Nat) :
    ((toBytes source)[i]? = none ∧ output[i]? = none)
      ∨ ∃ treatment byte, Reason options source i treatment ∧ (toBytes source)[i]? = some byte
        ∧ output[i]? = some (treatment.byte byte) := by
  by_cases hi : i < (toBytes source).length
  · obtain ⟨treatment, range, hmem, hholds⟩ := hmask.exists_mem hi
    rw [Nat.zero_add] at hholds
    have hbyte := List.getElem?_eq_getElem hi
    refine Or.inr ⟨treatment, _, reason_of_mem hmem hholds, hbyte, ?_⟩
    rw [getElem?_of_mem hmask ⟨range, hmem, hholds⟩, hbyte]
    rfl
  · have hlength := hmask.length_eq
    refine Or.inl ⟨List.getElem?_eq_none (by omega), List.getElem?_eq_none (by omega)⟩

theorem keepsOffsets_of_masked (hutf8 : ∃ text, ofBytes? output = some text) :
    KeepsOffsets options source output where
  utf8 := hutf8
  length := by rw [hmask.length_eq, length_toBytes]
  newlines := by
    intro i
    rcases exists_reason hmask i with ⟨hsource, houtput⟩
      | ⟨treatment, byte, hreason, hsource, houtput⟩
    · rw [hsource, houtput]
    · rw [hsource, houtput, Option.some_inj, Option.some_inj]
      cases hreason with
      | code | note => exact Iff.rfl
      | semicolon _ h =>
        constructor
        · intro hnewline
          exact absurd hnewline (show byteOf ';' ≠ byteOf '\n' by decide)
        · intro hnewline
          exact absurd hnewline (ne_of_semicolonAt h hsource).1
      | blank => exact blankByte_eq_newline_iff byte
  bytes := by
    intro i written hwritten
    rcases exists_reason hmask i with ⟨hsource, houtput⟩
      | ⟨treatment, byte, hreason, hsource, houtput⟩
    · rw [houtput] at hwritten
      cases hwritten
    · rw [houtput] at hwritten
      cases hwritten
      cases hreason with
      | code | note => exact Or.inl hsource
      | semicolon => exact Or.inr (Or.inr rfl)
      | blank =>
        by_cases hnewline : byte = byteOf '\n'
        · exact Or.inl (hsource.trans (congrArg some (if_pos hnewline).symm))
        · exact Or.inr (Or.inl (if_neg hnewline))
  code := by
    intro i h
    exact getElem?_of_keep hmask (exists_keep_of_codeAt h)
  comments := by
    intro hcomments i h
    exact getElem?_of_keep hmask (exists_keep_of_noteAt hcomments h)
  semicolons := by
    intro i
    constructor
    · rintro ⟨hput, hother⟩
      rcases exists_reason hmask i with ⟨-, houtput⟩ | ⟨treatment, byte, hreason, hsource, houtput⟩
      · rw [houtput] at hput
        cases hput
      · rw [houtput, Option.some_inj] at hput
        cases hreason with
        | code | note => exact absurd (hsource.trans (congrArg some hput)) hother
        | semicolon hsemicolons h => exact ⟨hsemicolons, h⟩
        | blank => exact absurd hput (blankByte_ne_semicolon byte)
    · rintro ⟨hsemicolons, h⟩
      have houtput := getElem?_of_mem hmask (exists_semicolon_of_semicolonAt hsemicolons h)
      rcases byte_of_semicolonAt h with hsource | hsource | hsource
      all_goals
        rw [hsource] at houtput
        refine ⟨houtput, fun hsame => ?_⟩
        exact (ne_of_semicolonAt h hsame).2 rfl
  blanks := by
    intro i hcode hnote hsemicolon
    rcases exists_reason hmask i with ⟨hsource, houtput⟩
      | ⟨treatment, byte, hreason, hsource, houtput⟩
    · rw [hsource, houtput]
      rfl
    · cases hreason with
      | code h => exact absurd h hcode
      | note hcomments h => exact absurd ⟨hcomments, h⟩ hnote
      | semicolon hsemicolons h => exact absurd ⟨hsemicolons, h⟩ hsemicolon
      | blank =>
        rw [hsource, houtput]
        rfl

end Contract

/-! ## 6. Every write is valid -/

theorem valid_codeInPlace (options : ExtractOptions) (piece : Piece Lexeme) :
    ∀ write ∈ codeInPlace options piece, write.Valid := by
  have hopening : ∀ opening text, ∀ write ∈ openingInPlace options opening text, write.Valid := by
    intro opening text
    unfold openingInPlace
    split
    next => simp [Write.Valid, isAscii, byteOf]
    next => exact valid_blank text
  have hcontent : ∀ opening text, ∀ write ∈ contentInPlace options opening text, write.Valid := by
    intro opening text
    unfold contentInPlace
    split
    next => simp [Write.Valid]
    next =>
      split
      next => exact List.forall_mem_cons.2 ⟨trivial, valid_blank _⟩
      next => exact valid_blank text
  have hclosing : ∀ opening content text,
      ∀ write ∈ closingInPlace options opening content text, write.Valid := by
    intro opening content text
    unfold closingInPlace
    split
    next => simp [Write.Valid, isAscii, byteOf]
    next => exact valid_blank text
  cases piece with
  | markup lexeme => exact valid_blank lexeme.text
  | erb opening mark ending =>
    refine List.forall_mem_append.2 ⟨hopening _ _, ?_⟩
    cases ending with
    | bare => exact List.forall_mem_nil _
    | running content => exact hcontent _ _
    | closed content closing => exact List.forall_mem_append.2 ⟨hcontent _ _, hclosing _ _ _⟩

theorem valid_codeCompact (options : ExtractOptions) (piece : Piece Lexeme) :
    ∀ write ∈ codeCompact options piece, write.Valid := by
  have hline : ∀ text, ∀ write ∈ [Write.text ['#', ' '], .text (trim text), .byte (byteOf '\n')],
      write.Valid := by
    intro text
    simp [Write.Valid, isAscii, byteOf]
  unfold codeCompact
  split
  next => exact List.forall_mem_nil _
  next opening _ ending =>
    split
    next => exact List.forall_mem_nil _
    next content _ =>
      simp only
      split
      next =>
        split
        next => exact List.forall_mem_nil _
        next => cases options.semicolons <;> simp [Write.Valid, isAscii, byteOf]
      next =>
        split
        next =>
          intro write hmem
          obtain ⟨line, -, hmem⟩ := List.mem_flatMap.1 hmem
          exact hline line write hmem
        next => exact List.forall_mem_nil _

theorem valid_codeWrites (options : ExtractOptions) (source : List Char) :
    ∀ write ∈ codeWrites options source, write.Valid := by
  have hall : ∀ {writes : Piece Lexeme → List Write},
      (∀ piece, ∀ write ∈ writes piece, write.Valid) →
        ∀ write ∈ (pieces source).flatMap writes, write.Valid := by
    intro writes h write hmem
    obtain ⟨piece, -, hmem⟩ := List.mem_flatMap.1 hmem
    exact h piece write hmem
  unfold codeWrites
  split
  next => exact List.forall_mem_append.2 ⟨hall (valid_codeInPlace options), valid_blank []⟩
  next => exact hall (valid_codeCompact options)

end Extraction

open Extraction

/-- **Extracted code keeps every offset.** The code of a source, extracted into a new buffer of any
    capacity, stands byte for byte where it stood in the source. It is extracted whenever the memory
    grants the room for the buffer and for the tokens. -/
theorem extracted_code_keeps_offsets (source : List Char) (options : ExtractOptions)
    (hoptions : options.preservePositions = true) (capacity : Nat) :
    (intoNew capacity (extractRuby source options)).Yields (room source capacity)
      fun buffer => KeepsOffsets options source buffer.bytes := by
  have hmask := masked_codeWrites hoptions source
  have hvalid := valid_codeWrites options source
  have hlength := hmask.length_eq
  rw [length_toBytes] at hlength
  obtain ⟨text, htext⟩ := exists_text_of_valid hvalid
  refine (yields_intoNew hvalid hlength capacity).imp ?_
  intro buffer hbytes
  rw [hbytes]
  refine keepsOffsets_of_masked hmask ⟨String.ofList text, ?_⟩
  rw [htext, ofBytes?_toBytes]

/-- A character of two bytes, a comment of two lines, and code behind which the semicolon takes the
    place of the `-` of its closing. -/
theorem extracted_code_keeps_offsets_trimmed :
    ∃ buffer, (intoNew 0 (extractRuby
        ['é', '<', '%', '#', 'a', '\n', 'b', '%', '>', '<', '%', '=', 'x', '-', '%', '>']
        { semicolons := true, comments := true })).outcome .standard = .ok buffer
      ∧ KeepsOffsets { semicolons := true, comments := true }
        ['é', '<', '%', '#', 'a', '\n', 'b', '%', '>', '<', '%', '=', 'x', '-', '%', '>']
        buffer.bytes := by
  obtain ⟨hkeeps, hreturns⟩ := extracted_code_keeps_offsets
    ['é', '<', '%', '#', 'a', '\n', 'b', '%', '>', '<', '%', '=', 'x', '-', '%', '>']
    { semicolons := true, comments := true } rfl 0 .standard
  obtain ⟨buffer, h⟩ := hreturns (by decide) (Memory.grantsUpTo_standard (by decide))
  exact ⟨buffer, h, hkeeps buffer h⟩

end ErbTemplate
