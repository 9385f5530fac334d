import ErbTemplate.Proofs.Extraction.Markup
import ErbTemplate.Proofs.Tree.Unclosed
import Mathlib.Data.List.TakeWhile

/-!
# One code in two layouts

Code is extracted at its place or compactly, by two functions that have no line in common. One keeps
every content as it is and decides on the semicolon when it comes to the closing delimiter; the
other one trims the content and puts the semicolon right behind it.

Deleting all white space takes the layout away and leaves the `letters`. What a piece should leave
is said by `codeLetters`, in terms of its content alone, and each of the two functions is compared
with it (`spells_codeInPlace`, `spells_codeCompact`). They differ at one place: only a tag that is
closed has a delimiter at whose place a semicolon can stand.
-/

set_option autoImplicit false

namespace ErbTemplate

open Text TextBuffer

/-! ## 1. Letters -/

namespace Text

/-- What is left of a text when its white space is deleted. -/
def letters (text : List Char) : List Char :=
  text.filter fun c => !isBlank c

theorem letters_append (front back : List Char) :
    letters (front ++ back) = letters front ++ letters back :=
  List.filter_append ..

theorem letters_eq_nil_iff {text : List Char} : letters text = [] ↔ allBlank text = true := by
  simp [letters, allBlank]

theorem letters_dropWhile (text : List Char) : letters (text.dropWhile isBlank) = letters text := by
  induction text with
  | nil => rfl
  | cons c text ih =>
    cases hc : isBlank c with
    | true => simpa [letters, hc] using ih
    | false => simp [hc]

/-- Trimming deletes white space only. -/
theorem letters_trim (text : List Char) : letters (trim text) = letters text := by
  have hreverse : ∀ text : List Char, letters text.reverse = (letters text).reverse :=
    fun text => List.filter_reverse ..
  rw [trim, trimEnd, hreverse, letters_dropWhile, hreverse, List.reverse_reverse, letters_dropWhile]

/-- Trimming leaves nothing exactly of a text that is all white space. -/
theorem isEmpty_trim (text : List Char) : (trim text).isEmpty = allBlank text := by
  rw [Bool.eq_iff_iff, List.isEmpty_iff]
  constructor
  · intro hempty
    rw [← letters_eq_nil_iff, ← letters_trim, hempty]
    rfl
  · intro hblank
    have hdrop : text.dropWhile isBlank = [] :=
      List.dropWhile_eq_nil_iff.2 (List.all_eq_true.1 hblank)
    rw [trim, hdrop]
    rfl

theorem trim_sublist (text : List Char) : (trim text).Sublist text := by
  have hend : (trimEnd (text.dropWhile isBlank)).Sublist (text.dropWhile isBlank) := by
    rw [← List.reverse_sublist, trimEnd, List.reverse_reverse]
    exact List.dropWhile_sublist _
  exact hend.trans (List.dropWhile_sublist _)

theorem byteLength_le_of_sublist {part whole : List Char} (h : part.Sublist whole) :
    byteLength part ≤ byteLength whole := by
  induction h with
  | slnil => exact Nat.le_refl _
  | cons c _ ih => exact Nat.le_trans ih (Nat.le_add_left _ _)
  | cons_cons c _ ih => exact Nat.add_le_add_left ih _

end Text

namespace Extraction

/-! ## 2. What writes leave -/

/-- Writes spell a text that has these letters. -/
def Spells (writes : List Write) (kept : List Char) : Prop :=
  ∃ text, writes.flatMap Write.bytes = toBytes text ∧ letters text = kept

namespace Spells

theorem nil : Spells [] [] :=
  ⟨[], rfl, rfl⟩

theorem append {front back : List Write} {first second : List Char} (h : Spells front first)
    (h' : Spells back second) : Spells (front ++ back) (first ++ second) := by
  obtain ⟨text, hbytes, rfl⟩ := h
  obtain ⟨text', hbytes', rfl⟩ := h'
  refine ⟨text ++ text', ?_, letters_append text text'⟩
  rw [List.flatMap_append, hbytes, hbytes', toBytes_append]

/-- **Row by row: what all pieces leave is what each of them leaves.** -/
theorem flatMap {α : Type} {writes : α → List Write} {kept : α → List Char} {row : List α}
    (h : ∀ item ∈ row, Spells (writes item) (kept item)) :
    Spells (row.flatMap writes) (row.flatMap kept) := by
  induction row with
  | nil => exact nil
  | cons item row ih =>
    obtain ⟨hfirst, hothers⟩ := List.forall_mem_cons.1 h
    rw [List.flatMap_cons, List.flatMap_cons]
    exact hfirst.append (ih hothers)

theorem text (characters : List Char) : Spells [.text characters] (letters characters) :=
  ⟨characters, List.append_nil _, rfl⟩

theorem blank (text : List Char) : Spells (blank text) [] := by
  refine ⟨blankText text, ?_, ?_⟩
  · rw [bytes_blank, toBytes_blankText]
  · rw [letters_eq_nil_iff, allBlank, List.all_eq_true]
    intro c hmem
    obtain ⟨d, -, hmem⟩ := List.mem_flatMap.1 hmem
    split at hmem
    · rw [List.mem_singleton.1 hmem]
      decide
    · rw [List.eq_of_mem_replicate hmem]
      decide

theorem newline : Spells [.byte (byteOf '\n')] [] :=
  ⟨['\n'], by decide, by decide⟩

theorem semicolon : Spells [.byte (byteOf ';')] [';'] :=
  ⟨[';'], by decide, by decide⟩

theorem spaces (count : Nat) : Spells [.repeated (byteOf ' ') count] [] := by
  induction count with
  | zero => exact nil
  | succ count ih => exact (blank [' ']).append ih

end Spells

/-! ## 3. What a piece should leave -/

/-- The code of a piece without white space, and a semicolon behind it when that is asked for and
    there is any code. -/
def codeLetters (semicolons : Bool) : Piece Lexeme → List Char
  | .markup _ => []
  | .erb opening _ ending =>
    match ending.content? with
    | none => []
    | some content =>
      if opening.isCode ∧ ¬allBlank content.text then
        letters content.text ++ if semicolons then [';'] else []
      else
        []

/-- The letters of a content, and its semicolon. -/
theorem codeLetters_of_content {opening : Opening} {mark content : Lexeme} {ending : Ending Lexeme}
    (h : ending.content? = some content) (semicolons : Bool) :
    codeLetters semicolons (.erb opening mark ending)
      = (if opening.isCode then letters content.text else [])
        ++ if semicolons ∧ opening.isCode ∧ ¬allBlank content.text then [';'] else [] := by
  simp only [codeLetters, h]
  cases hcode : opening.isCode with
  | false => simp
  | true =>
    cases hblank : allBlank content.text with
    | false => simp
    | true => simp [letters_eq_nil_iff.2 hblank]

section Modes

variable {options : ExtractOptions}

theorem spells_contentInPlace (hcomments : options.comments = false) (opening : Opening)
    (text : List Char) :
    Spells (contentInPlace options opening text) (if opening.isCode then letters text else []) := by
  unfold contentInPlace
  split
  next => exact .text text
  next =>
    rw [hcomments, if_neg (fun h => Bool.false_ne_true h.2)]
    exact .blank text

theorem spells_closingInPlace (opening : Opening) (content text : List Char) :
    Spells (closingInPlace options opening content text)
      (if options.semicolons ∧ opening.isCode ∧ ¬allBlank content then [';'] else []) := by
  unfold closingInPlace
  split
  next => exact Spells.semicolon.append (.spaces _)
  next => exact .blank text

/-- **In place, a piece leaves its letters**, unless a semicolon finds no place. -/
theorem spells_codeInPlace {piece : Piece Lexeme} (hcomments : options.comments = false)
    (hclosed : options.semicolons = false ∨ piece.isClosed = true) :
    Spells (codeInPlace options piece) (codeLetters options.semicolons piece) := by
  cases piece with
  | markup lexeme => exact .blank lexeme.text
  | erb opening mark ending =>
    have hopening : Spells (openingInPlace options opening mark.text) [] := by
      rw [openingInPlace, hcomments, if_neg (fun h => Bool.false_ne_true h.2)]
      exact .blank mark.text
    have hcontent := spells_contentInPlace hcomments opening
    cases ending with
    | bare => exact hopening.append .nil
    | running content =>
      have hsemicolons : options.semicolons = false := hclosed.resolve_right Bool.false_ne_true
      have hletters : codeLetters options.semicolons (.erb opening mark (.running content))
          = [] ++ if opening.isCode then letters content.text else [] := by
        rw [codeLetters_of_content rfl, hsemicolons]
        simp
      rw [hletters]
      exact hopening.append (hcontent content.text)
    | closed content closing =>
      have hsome : (Ending.closed content closing).content? = some content := rfl
      rw [codeLetters_of_content hsome]
      exact hopening.append ((hcontent content.text).append
        (spells_closingInPlace opening content.text closing.text))

/-- Without comments, the compact form of a tag is its trimmed code on a line. -/
theorem codeCompact_of_content (hcomments : options.comments = false) {opening : Opening}
    {mark content : Lexeme} {ending : Ending Lexeme} (h : ending.content? = some content) :
    codeCompact options (.erb opening mark ending)
      = if opening.isCode ∧ ¬allBlank content.text then
          [.text (trim content.text)]
            ++ ((if options.semicolons then [.byte (byteOf ';')] else []) ++ [.byte (byteOf '\n')])
        else
          [] := by
  simp only [codeCompact, h, isEmpty_trim, hcomments]
  cases opening.isCode <;> cases allBlank content.text <;> simp

/-- **In the compact form, a piece leaves its letters.** -/
theorem spells_codeCompact (hcomments : options.comments = false) (piece : Piece Lexeme) :
    Spells (codeCompact options piece) (codeLetters options.semicolons piece) := by
  cases piece with
  | markup lexeme => exact .nil
  | erb opening mark ending =>
    cases hcontent : ending.content? with
    | none =>
      simp only [codeCompact, codeLetters, hcontent]
      exact .nil
    | some content =>
      simp only [codeCompact_of_content hcomments hcontent, codeLetters, hcontent]
      split
      next =>
        have hsemicolon : Spells (if options.semicolons then [.byte (byteOf ';')] else [])
            (if options.semicolons then [';'] else []) := by
          split
          next => exact .semicolon
          next => exact .nil
        have htail := hsemicolon.append .newline
        rw [List.append_nil] at htail
        rw [← letters_trim]
        exact (Spells.text _).append htail
      next => exact .nil

/-- The two forms of a whole source leave the same letters. -/
theorem spells_codeWrites (hcomments : options.comments = false) {source : List Char}
    (hclosed : options.semicolons = false ∨ ∀ piece ∈ pieces source, piece.isClosed = true) :
    Spells (codeWrites options source)
      ((pieces source).flatMap (codeLetters options.semicolons)) := by
  unfold codeWrites
  split
  next =>
    have hpieces : Spells ((pieces source).flatMap (codeInPlace options))
        ((pieces source).flatMap (codeLetters options.semicolons)) :=
      .flatMap fun piece hmem =>
        spells_codeInPlace hcomments (hclosed.imp_right fun h => h piece hmem)
    have h := hpieces.append (.blank [])
    rwa [List.append_nil] at h
  next => exact .flatMap fun piece _ => spells_codeCompact hcomments piece

/-! ## 4. Compact code is short -/

theorem byteLength_content_le (opening : Opening) (mark : Lexeme) {content : Lexeme}
    {ending : Ending Lexeme} (h : ending.content? = some content) :
    byteLength mark.text + byteLength content.text
      ≤ byteLength (Piece.erb opening mark ending).text := by
  cases ending with
  | bare => cases h
  | running =>
    cases h
    simp [Piece.text, Piece.parts, Ending.parts]
  | closed =>
    cases h
    simp [Piece.text, Piece.parts, Ending.parts]

/-- The opening of a tag has room for a semicolon and a newline. -/
theorem length_codeCompact_le (hcomments : options.comments = false) {piece : Piece Lexeme}
    (h : Delimited piece) :
    ((codeCompact options piece).flatMap Write.bytes).length ≤ byteLength piece.text := by
  cases piece with
  | markup lexeme => exact Nat.zero_le _
  | erb opening mark ending =>
    cases hcontent : ending.content? with
    | none => simp [codeCompact, hcontent]
    | some content =>
      have hopening : 2 ≤ byteLength mark.text := by
        rw [h.1]
        cases opening <;> decide
      have htrim := byteLength_le_of_sublist (trim_sublist content.text)
      have htext := byteLength_content_le opening mark hcontent
      have htail : (((if options.semicolons then [Write.byte (byteOf ';')] else [])
          ++ [Write.byte (byteOf '\n')]).flatMap Write.bytes).length ≤ 2 := by
        cases options.semicolons <;> decide
      rw [codeCompact_of_content hcomments hcontent]
      split
      next =>
        rw [List.flatMap_append, List.length_append, List.flatMap_singleton, Write.bytes,
          length_toBytes]
        omega
      next => exact Nat.zero_le _

theorem length_flatMap_le {writes : Piece Lexeme → List Write} {factor : Nat}
    {row : List (Piece Lexeme)}
    (h : ∀ piece ∈ row, ((writes piece).flatMap Write.bytes).length
      ≤ factor * byteLength piece.text) :
    ((row.flatMap writes).flatMap Write.bytes).length
      ≤ factor * byteLength (row.flatMap Piece.text) := by
  induction row with
  | nil => exact Nat.zero_le _
  | cons piece row ih =>
    obtain ⟨hpiece, hothers⟩ := List.forall_mem_cons.1 h
    rw [List.flatMap_cons, List.flatMap_cons, List.flatMap_append, List.length_append,
      byteLength_append, Nat.mul_add]
    exact Nat.add_le_add hpiece (ih hothers)

theorem length_codeWrites_le (hcomments : options.comments = false) (source : List Char) :
    ((codeWrites options source).flatMap Write.bytes).length ≤ byteLength source := by
  cases hoptions : options.preservePositions with
  | true =>
    have hlength := (masked_codeWrites hoptions source).length_eq
    rw [length_toBytes] at hlength
    exact Nat.le_of_eq hlength
  | false =>
    have hrow : (((pieces source).flatMap (codeCompact options)).flatMap Write.bytes).length
        ≤ 1 * byteLength ((pieces source).flatMap Piece.text) := by
      refine length_flatMap_le fun piece hmem => ?_
      rw [Nat.one_mul]
      exact length_codeCompact_le hcomments (delimited_of_mem_pieces source piece hmem)
    rw [Nat.one_mul, flatMap_text_pieces] at hrow
    rw [codeWrites, hoptions]
    exact hrow

/-- **The code of a source is a text with the letters of its pieces**, in either form. -/
theorem exists_yields_code (options : ExtractOptions) (hcomments : options.comments = false)
    {source : List Char}
    (hclosed : options.semicolons = false ∨ ∀ piece ∈ pieces source, piece.isClosed = true) :
    ∃ text : List Char,
      (∀ capacity, (intoNew capacity (extractRuby source options)).Yields (room source capacity)
        fun buffer => ofBytes? buffer.bytes = some (String.ofList text))
      ∧ letters text = (pieces source).flatMap (codeLetters options.semicolons) := by
  obtain ⟨text, hbytes, hletters⟩ := spells_codeWrites hcomments hclosed
  refine ⟨text, fun capacity => ?_, hletters⟩
  refine (yields_intoNew_of_le (valid_codeWrites options source)
    (length_codeWrites_le hcomments source) capacity).imp ?_
  intro buffer hbuffer
  rw [hbuffer, hbytes, ofBytes?_toBytes]

end Modes

end Extraction

open Extraction

/-- **Both ways to extract code give the same code.** Without comments, and if no semicolon is asked
    for or every ERB tag is closed, there is one text of the code at its place and one of the
    compact code. Delete all white space from them, and the same is left: the code of the tags, each
    with its semicolon. -/
theorem extraction_modes_agree (source : List Char) (semicolons : Bool)
    (hclosed : semicolons = false ∨ ∀ piece ∈ pieces source, piece.isClosed = true) :
    ∃ inPlace compact : List Char,
      (∀ capacity, (intoNew capacity (extractRuby source
          { semicolons, comments := false, preservePositions := true })).Yields
        (room source capacity) fun buffer => ofBytes? buffer.bytes = some (String.ofList inPlace))
      ∧ (∀ capacity, (intoNew capacity (extractRuby source
          { semicolons, comments := false, preservePositions := false })).Yields
        (room source capacity) fun buffer => ofBytes? buffer.bytes = some (String.ofList compact))
      ∧ letters inPlace = letters compact
      ∧ letters compact = (pieces source).flatMap (codeLetters semicolons) := by
  obtain ⟨inPlace, hinPlace, hletters⟩ := exists_yields_code
    { semicolons, comments := false, preservePositions := true } rfl hclosed
  obtain ⟨compact, hcompact, hletters'⟩ := exists_yields_code
    { semicolons, comments := false, preservePositions := false } rfl hclosed
  exact ⟨inPlace, compact, hinPlace, hcompact, hletters.trans hletters'.symm, hletters'⟩

/-- Code, a comment, an escaped tag, a blank tag, and code that is trimmed by its closing. -/
theorem extraction_modes_agree_mixed :
    ∃ inPlace compact buffer buffer',
      (intoNew 0 (extractRuby "a<% b c %><%# d %><%% e %><% %>é<%=f -%>".toList
        { semicolons := true })).outcome .standard = .ok buffer
      ∧ ofBytes? buffer.bytes = some (String.ofList inPlace)
      ∧ (intoNew 0 (extractRuby "a<% b c %><%# d %><%% e %><% %>é<%=f -%>".toList
        { semicolons := true, preservePositions := false })).outcome .standard = .ok buffer'
      ∧ ofBytes? buffer'.bytes = some (String.ofList compact)
      ∧ letters inPlace = letters compact
      ∧ letters compact = "bc;f;".toList := by
  obtain ⟨inPlace, compact, hinPlace, hcompact, hsame, hletters⟩ :=
    extraction_modes_agree "a<% b c %><%# d %><%% e %><% %>é<%=f -%>".toList true
      (Or.inr (by decide +kernel))
  obtain ⟨htext, hreturns⟩ := hinPlace 0 .standard
  obtain ⟨htext', hreturns'⟩ := hcompact 0 .standard
  obtain ⟨buffer, h⟩ := hreturns (by decide) (Memory.grantsUpTo_standard (by decide))
  obtain ⟨buffer', h'⟩ := hreturns' (by decide) (Memory.grantsUpTo_standard (by decide))
  refine ⟨inPlace, compact, buffer, buffer', h, htext buffer h, h', htext' buffer' h', hsame, ?_⟩
  rw [hletters]
  decide +kernel

end ErbTemplate
