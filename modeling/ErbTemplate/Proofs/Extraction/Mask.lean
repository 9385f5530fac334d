import ErbTemplate.Extraction
import ErbTemplate.Proofs.Memory.Writes
import ErbTemplate.Proofs.Token.Pieces

/-!
# Extraction is masking

An extraction that keeps positions changes bytes and moves none. It cuts the source into ranges,
and in each of them all bytes are treated alike: kept, blanked, or made a semicolon. `Masked` is
this relation between the bytes of a source and the bytes of an output, and the list of treated
ranges between them is the mask.

A mask is read in two directions. Every range of the mask says what the output holds there
(`Masked.getElem?_eq`), and every byte of the source lies in a range of the mask
(`Masked.exists_mem`). The extractors never mention ranges, so masks are put together piece by
piece:

> **`masked_locateAll`** — if the writes of each piece mask the text of the piece, the writes of all
> pieces mask the source.
-/

set_option autoImplicit false

namespace ErbTemplate

open Text TextBuffer

def Range.Holds (range : Range) (offset : Nat) : Prop :=
  range.start ≤ offset ∧ offset < range.stop

@[simp] theorem Token.text_ofLexeme (start : Point) (lexeme : Lexeme) :
    (Token.ofLexeme start lexeme).text = lexeme.text := rfl

theorem Token.range_ofLexeme (start : Point) (lexeme : Lexeme) :
    (Token.ofLexeme start lexeme).range
      = ⟨start.offset, start.offset + byteLength lexeme.text⟩ := by
  simp [Token.ofLexeme, Token.range, Span.range]

namespace Extraction

/-! ## 1. Masks -/

/-- A byte with its place in a line, and nothing else: newlines stay. -/
def blankByte (byte : UInt8) : UInt8 :=
  if byte = byteOf '\n' then byte else byteOf ' '

/-- What happens to the bytes of a range. -/
inductive Treatment where
  | keep
  | blank
  | semicolon
  deriving DecidableEq, Repr

def Treatment.byte : Treatment → UInt8 → UInt8
  | keep, byte => byte
  | blank, byte => blankByte byte
  | semicolon, _ => byteOf ';'

/-- The bytes of an output are those of a source, treated range by range from an offset on. -/
inductive Masked : Nat → List (Treatment × Range) → List UInt8 → List UInt8 → Prop
  | nil (offset : Nat) : Masked offset [] [] []
  | cons {offset : Nat} {mask : List (Treatment × Range)} {source output : List UInt8}
      (treatment : Treatment) (bytes : List UInt8)
      (rest : Masked (offset + bytes.length) mask source output) :
      Masked offset ((treatment, ⟨offset, offset + bytes.length⟩) :: mask) (bytes ++ source)
        (bytes.map treatment.byte ++ output)

namespace Masked

variable {offset : Nat} {mask others : List (Treatment × Range)}
  {source output more written : List UInt8}

theorem one (treatment : Treatment) (offset : Nat) (bytes : List UInt8) :
    Masked offset [(treatment, ⟨offset, offset + bytes.length⟩)] bytes
      (bytes.map treatment.byte) := by
  have h := cons treatment bytes (nil (offset + bytes.length))
  rwa [List.append_nil, List.append_nil] at h

theorem keep (offset : Nat) (text : List Char) :
    Masked offset [(.keep, ⟨offset, offset + byteLength text⟩)] (toBytes text) (toBytes text) := by
  have h := one .keep offset (toBytes text)
  have hmap : (toBytes text).map Treatment.keep.byte = toBytes text := List.map_id' _
  rwa [length_toBytes, hmap] at h

theorem blank (offset : Nat) (text : List Char) :
    Masked offset [(.blank, ⟨offset, offset + byteLength text⟩)] (toBytes text)
      ((toBytes text).map blankByte) := by
  have h := one .blank offset (toBytes text)
  rwa [length_toBytes] at h

theorem append (h : Masked offset mask source output)
    (h' : Masked (offset + source.length) others more written) :
    Masked offset (mask ++ others) (source ++ more) (output ++ written) := by
  induction h with
  | nil => exact h'
  | cons treatment bytes _ ih =>
    rw [List.length_append, ← Nat.add_assoc] at h'
    rw [List.append_assoc, List.append_assoc]
    exact cons treatment bytes (ih h')

/-- Behind a text that begins at a point, a mask goes on where the text ends. -/
theorem append_text {start : Point} {text : List Char}
    (h : Masked start.offset mask (toBytes text) output)
    (h' : Masked (start.advance text).offset others more written) :
    Masked start.offset (mask ++ others) (toBytes text ++ more) (output ++ written) := by
  rw [Point.offset_advance, ← length_toBytes] at h'
  exact h.append h'

theorem length_eq (h : Masked offset mask source output) : output.length = source.length := by
  induction h with
  | nil => rfl
  | cons treatment bytes _ ih => simp only [List.length_append, List.length_map, ih]

theorem start_le {treatment : Treatment} {range : Range} (h : Masked offset mask source output)
    (hmem : (treatment, range) ∈ mask) : offset ≤ range.start := by
  induction h with
  | nil => cases hmem
  | cons _ bytes _ ih =>
    rcases List.mem_cons.1 hmem with heq | hmem
    · cases heq
      exact Nat.le_refl _
    · exact Nat.le_trans (Nat.le_add_right _ _) (ih hmem)

/-- **In each range of the mask, the output is the source as the range is treated.** -/
theorem getElem?_eq {treatment : Treatment} {range : Range} {i : Nat}
    (h : Masked offset mask source output) (hmem : (treatment, range) ∈ mask)
    (hi : range.Holds (offset + i)) : output[i]? = source[i]?.map treatment.byte := by
  induction h generalizing i with
  | nil => cases hmem
  | @cons offset mask source output first bytes rest ih =>
    rcases List.mem_cons.1 hmem with heq | hmem
    · cases heq
      have hlt : i < bytes.length := Nat.lt_of_add_lt_add_left hi.2
      rw [List.getElem?_append_left (by rwa [List.length_map]), List.getElem?_append_left hlt,
        List.getElem?_map]
    · -- the range begins behind the first one
      have hle : bytes.length ≤ i := by
        have hstart := rest.start_le hmem
        have hholds := hi.1
        omega
      have hrest := ih hmem (i := i - bytes.length) (by
        rw [Nat.add_assoc, Nat.add_sub_cancel' hle]
        exact hi)
      rw [List.getElem?_append_right (by rwa [List.length_map]), List.getElem?_append_right hle,
        List.length_map]
      exact hrest

/-- **Every byte lies in a range of the mask.** -/
theorem exists_mem {i : Nat} (h : Masked offset mask source output) (hi : i < source.length) :
    ∃ treatment range, (treatment, range) ∈ mask ∧ range.Holds (offset + i) := by
  induction h generalizing i with
  | nil => cases hi
  | @cons offset mask source output first bytes rest ih =>
    by_cases hlt : i < bytes.length
    · exact ⟨first, _, List.mem_cons_self, Nat.le_add_right _ _, Nat.add_lt_add_left hlt _⟩
    · rw [List.length_append] at hi
      have hle : bytes.length ≤ i := Nat.le_of_not_lt hlt
      obtain ⟨treatment, range, hmem, hholds⟩ := ih (i := i - bytes.length) (by omega)
      rw [Nat.add_assoc, Nat.add_sub_cancel' hle] at hholds
      exact ⟨treatment, range, List.mem_cons_of_mem _ hmem, hholds⟩

end Masked

/-! ## 2. Blanks -/

theorem map_blankByte_utf8EncodeChar {c : Char} (hc : c ≠ '\n') :
    (String.utf8EncodeChar c).map blankByte = List.replicate c.utf8Size (byteOf ' ') := by
  rw [← String.length_utf8EncodeChar c, List.eq_replicate_iff]
  refine ⟨List.length_map _, ?_⟩
  intro blanked hmem
  obtain ⟨byte, hbyte, rfl⟩ := List.mem_map.1 hmem
  refine if_neg ?_
  rintro rfl
  exact hc (eq_of_mem_utf8EncodeChar (by decide) hbyte)

theorem bytes_blankFrom (run : Nat) (text : List Char) :
    (blankFrom run text).flatMap Write.bytes
      = List.replicate run (byteOf ' ') ++ (toBytes text).map blankByte := by
  induction text generalizing run with
  | nil => simp [blankFrom, Write.bytes]
  | cons c text ih =>
    rw [blankFrom, toBytes_cons, List.map_append]
    by_cases hc : c = '\n'
    · subst hc
      have hnewline : (String.utf8EncodeChar '\n').map blankByte = [byteOf '\n'] := by decide
      rw [if_pos rfl, List.flatMap_cons, List.flatMap_cons, ih, hnewline]
      rfl
    · rw [if_neg hc, ih, map_blankByte_utf8EncodeChar hc, List.replicate_add, List.append_assoc]

/-- **A blanked text is its bytes, blanked.** -/
theorem bytes_blank (text : List Char) :
    (blank text).flatMap Write.bytes = (toBytes text).map blankByte :=
  bytes_blankFrom 0 text

theorem valid_blankFrom (run : Nat) (text : List Char) :
    ∀ write ∈ blankFrom run text, write.Valid := by
  have hspace : isAscii (byteOf ' ') = true := by decide
  have hnewline : isAscii (byteOf '\n') = true := by decide
  induction text generalizing run with
  | nil =>
    intro write hmem
    rw [List.mem_singleton.1 hmem]
    exact hspace
  | cons c text ih =>
    intro write hmem
    rw [blankFrom] at hmem
    split at hmem
    · rcases List.mem_cons.1 hmem with rfl | hmem
      · exact hspace
      · rcases List.mem_cons.1 hmem with rfl | hmem
        · exact hnewline
        · exact ih 0 write hmem
    · exact ih _ write hmem

theorem valid_blank (text : List Char) : ∀ write ∈ blank text, write.Valid :=
  valid_blankFrom 0 text

theorem masked_blank (start : Point) (lexeme : Lexeme) :
    Masked start.offset [(.blank, (Token.ofLexeme start lexeme).range)] (toBytes lexeme.text)
      ((blank lexeme.text).flatMap Write.bytes) := by
  rw [bytes_blank, Token.range_ofLexeme]
  exact Masked.blank start.offset lexeme.text

theorem masked_keep (start : Point) (lexeme : Lexeme) :
    Masked start.offset [(.keep, (Token.ofLexeme start lexeme).range)] (toBytes lexeme.text)
      ([Write.text lexeme.text].flatMap Write.bytes) := by
  have hbytes : [Write.text lexeme.text].flatMap Write.bytes = toBytes lexeme.text :=
    List.append_nil _
  rw [hbytes, Token.range_ofLexeme]
  exact Masked.keep start.offset lexeme.text

/-! ## 3. Piece by piece -/

/-- **The writes of all pieces mask the source, if those of each piece mask its text.** -/
theorem masked_locateAll {mask : Piece Token → List (Treatment × Range)}
    {writes : Piece Lexeme → List Write} {row : List (Piece Lexeme)}
    (h : ∀ piece ∈ row, ∀ start, Masked start.offset (mask (piece.locate start))
      (toBytes piece.text) ((writes piece).flatMap Write.bytes)) (start : Point) :
    Masked start.offset ((Piece.locateAll start row).flatMap mask)
      (toBytes (row.flatMap Piece.text)) ((row.flatMap writes).flatMap Write.bytes) := by
  induction row generalizing start with
  | nil => exact Masked.nil _
  | cons piece row ih =>
    have hfirst := h piece List.mem_cons_self start
    have hrest := ih (fun other hmem => h other (List.mem_cons_of_mem piece hmem))
      (start.advance piece.text)
    rw [Piece.locateAll, List.flatMap_cons, List.flatMap_cons, List.flatMap_cons, toBytes_append,
      List.flatMap_append]
    exact hfirst.append_text hrest

def closings : List (List Char) :=
  [['%', '>'], ['-', '%', '>'], ['=', '%', '>']]

/-- What the lexer promises of the delimiters of an ERB tag. -/
def Delimited : Piece Lexeme → Prop
  | .markup _ => True
  | .erb opening mark ending =>
    mark.text = opening.text ∧ ∀ closing, ending.closing? = some closing → closing.text ∈ closings

theorem closing_mem_closings {text : List Char} {closing : Lexeme}
    (h : (Lexer.erbEnding text).1.closing? = some closing) : closing.text ∈ closings := by
  rcases Lexer.erbEnding_cases text with ⟨-, hending⟩ | ⟨-, -, hending⟩
    | ⟨content, back, -, hending⟩
  · rw [hending] at h
    cases h
  · rw [hending] at h
    cases h
  · rw [hending] at h
    cases h
    rcases Lexer.splitTrim_cases content with ⟨code, c, -, rfl | rfl, htrim⟩ | ⟨-, htrim⟩
    all_goals
      rw [htrim]
      simp [closings, Lexer.closeMark]

theorem delimited_of_mem_pieces (source : List Char) : ∀ piece ∈ pieces source, Delimited piece :=
  forall_mem_pieces (fun _ _ => trivial)
    (fun _ _ => ⟨rfl, fun _ h => closing_mem_closings h⟩) source

/-! ## 4. Extraction into a new buffer -/

/-- An extraction writes into a buffer of its own. -/
def intoNew (capacity : Nat) (extraction : InPlace TextBuffer Unit) : Alloc TextBuffer := do
  extraction.apply (← TextBuffer.init capacity)

/-- The bytes that an extraction may ask for at a time: those of the new buffer, and twice the room
    for the tokens of the source. -/
def room (source : List Char) (capacity : Nat) : Nat :=
  max capacity (2 * TokenList.tokenSize * (byteLength source + 1))

/-- A buffer with room for the source asks for less than its tokens do. -/
theorem room_byteLength (source : List Char) :
    room source (byteLength source) = 2 * TokenList.tokenSize * (byteLength source + 1) := by
  have hforty : TokenList.tokenSize = 40 := rfl
  refine Nat.max_eq_right ?_
  rw [hforty]
  omega

/-- What an extraction does: it lexes the source, and writes. -/
def writing (source : List Char) (writes : List Write) : InPlace TextBuffer Unit := do
  let _ ← InPlace.ofAlloc (lex source)
  writeAll writes

/-- An extraction can be refused memory, and nothing worse. -/
theorem unbroken_writing {source : List Char} {writes : List Write}
    (hvalid : ∀ write ∈ writes, write.Valid) :
    InPlace.Unbroken ItemArray.IsLive (writing source writes) := by
  refine (InPlace.unbroken_ofAlloc (unbroken_lex source)).bind ?_
  intro _
  exact unbroken_writeAll hvalid

theorem bytes_of_intoNew {source : List Char} {writes : List Write} {capacity : Nat}
    {memory : Memory} {buffer : TextBuffer}
    (h : (intoNew capacity (writing source writes)).outcome memory = .ok buffer) :
    buffer.bytes = writes.flatMap Write.bytes := by
  obtain ⟨after, hrun⟩ := Alloc.exists_run_of_outcome h
  obtain ⟨fresh, granted, hinit, happly⟩ := Alloc.exists_of_run_bind_ok hrun
  obtain ⟨_, hon⟩ := InPlace.exists_on_of_run_apply_ok happly
  obtain ⟨_, middle, _, hlex, hwrite⟩ := InPlace.exists_of_on_bind_ok hon
  rw [InPlace.eq_of_on_ofAlloc hlex] at hwrite
  rw [bytes_of_on_writeAll hwrite, bytes_of_init hinit]
  rfl

theorem exists_intoNew {source : List Char} {writes : List Write} {capacity : Nat}
    {memory : Memory} (hblock : room source capacity ≤ Memory.maxBlock)
    (hgrants : memory.GrantsUpTo (room source capacity)) (hvalid : ∀ write ∈ writes, write.Valid)
    (hlength : (writes.flatMap Write.bytes).length ≤ 4 * byteLength source) :
    ∃ buffer, (intoNew capacity (writing source writes)).outcome memory = .ok buffer := by
  have htokens : 2 * TokenList.tokenSize * (byteLength source + 1) ≤ room source capacity :=
    Nat.le_max_right _ _
  have hforty : TokenList.tokenSize = 40 := rfl
  have hcapacity : max capacity 1 ≤ room source capacity := by
    refine Nat.max_le.2 ⟨Nat.le_max_left _ _, Nat.le_trans ?_ htokens⟩
    rw [hforty]
    omega
  obtain ⟨fresh, granted, hinit, hfresh⟩ := exists_run_init hgrants hblock hcapacity
  obtain ⟨list, lexed, hlex, hlexed⟩ := exists_run_lex hfresh.grants hblock htokens
  have hsize : fresh.size = 0 := congrArg List.length (bytes_of_init hinit)
  obtain ⟨buffer, after, hrun⟩ :=
    exists_on_writeAll hvalid ⟨hlexed, hblock, hfresh.itemSize, hfresh.capacity⟩ (by
      rw [hforty] at htokens
      rw [hsize]
      omega)
  refine ⟨buffer, ?_⟩
  rw [Alloc.outcome, intoNew, Alloc.run_bind, hinit]
  simp only [InPlace.run_apply, writing, InPlace.on_bind, InPlace.on_ofAlloc, hlex, hrun]
  rfl

/-- **An extraction that is no longer than the source yields what it writes.** -/
theorem yields_intoNew_of_le {source : List Char} {writes : List Write}
    (hvalid : ∀ write ∈ writes, write.Valid)
    (hlength : (writes.flatMap Write.bytes).length ≤ byteLength source) (capacity : Nat) :
    (intoNew capacity (writing source writes)).Yields (room source capacity)
      fun buffer => buffer.bytes = writes.flatMap Write.bytes := by
  intro memory
  refine ⟨fun buffer h => bytes_of_intoNew h, ?_⟩
  intro hblock hgrants
  exact exists_intoNew hblock hgrants hvalid
    (Nat.le_trans hlength (Nat.le_mul_of_pos_left _ (by decide)))

theorem yields_intoNew {source : List Char} {writes : List Write}
    (hvalid : ∀ write ∈ writes, write.Valid)
    (hlength : (writes.flatMap Write.bytes).length = byteLength source) (capacity : Nat) :
    (intoNew capacity (writing source writes)).Yields (room source capacity)
      fun buffer => buffer.bytes = writes.flatMap Write.bytes :=
  yields_intoNew_of_le hvalid (Nat.le_of_eq hlength) capacity

end Extraction
end ErbTemplate
