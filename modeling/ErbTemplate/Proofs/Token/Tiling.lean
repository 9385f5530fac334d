import ErbTemplate.Token.Lexing
import ErbTemplate.Proofs.Memory.Room
import ErbTemplate.Proofs.Token.Row
import Mathlib.Algebra.Group.Nat.Defs

/-!
# Lexing loses nothing

The contract of the lexer towards everything that reads its tokens, stated as one structure,
`Tiling`: the byte ranges of the tokens follow each other without gap and overlap from the first
byte of the source to the last, every end of a range lies between two characters, and what the
ranges cover, put together, is the source.

The structure is established for `tokens`, which no memory can spoil (`tiling_tokens`), and then
carried over to the array in which `lex` collects them: whatever `lex` returns is that list
(`toList_of_lex`), and `lex` does return when the memory grants twice the room for one token per
byte and one more (`exists_lex`).
-/

set_option autoImplicit false

namespace ErbTemplate

open Text

/-- A row of tokens tiles a source. -/
structure Tiling (source : List Char) (row : List Token) : Prop where
  /-- The first token begins at the first byte. -/
  first : ∃ token others, row = token :: others ∧ token.range.start = 0
  /-- Each token begins where the one before it ends. -/
  chained : row.IsChain fun token follower => token.range.stop = follower.range.start
  /-- The last token, and no other, marks the end. -/
  ending : ∃ others last, row = others ++ [last] ∧ last.kind = .eof
    ∧ last.range = ⟨byteLength source, byteLength source⟩ ∧ ∀ token ∈ others, token.kind ≠ .eof
  /-- Ranges begin and end between characters. -/
  places : ∀ token ∈ row, IsPlace source token.range.start ∧ IsPlace source token.range.stop
  /-- The text of a token can be read back from the source. -/
  values : ∀ token ∈ row, token.range.slice? source = some token.text
  /-- Only the content of an ERB tag and the end may be empty. -/
  solid : ∀ token ∈ row, token.kind ≠ .eof → token.kind ≠ .erbContent →
    token.range.start < token.range.stop
  /-- What the ranges cover is the source. -/
  whole : row.flatMap (fun token => token.range.slice source) = source
  /-- There is at most one token for each byte, and the end. -/
  count : row.length ≤ byteLength source + 1

/-! ## 1. The tokens of a text tile it -/

theorem exists_split_of_mem_tokens {source : List Char} {token : Token}
    (h : token ∈ tokens source) :
    ∃ before lexeme after, source = before ++ lexeme.text ++ after
      ∧ token = .ofLexeme (Point.origin.advance before) lexeme
      ∧ (lexeme = ⟨.eof, []⟩ ∨ lexeme ∈ lexemes source) := by
  rw [tokens_eq_rowFrom, Token.mem_rowFrom_iff] at h
  obtain ⟨before, lexeme, after, hsplit, rfl⟩ := h
  refine ⟨before.flatMap Lexeme.text, lexeme, after.flatMap Lexeme.text, ?_, rfl, ?_⟩
  · have htext : (lexemes source ++ [(⟨.eof, []⟩ : Lexeme)]).flatMap Lexeme.text = source := by
      rw [List.flatMap_append, flatMap_text_lexemes]
      simp
    rw [hsplit] at htext
    simpa using htext.symm
  · have hmem : lexeme ∈ lexemes source ++ [⟨.eof, []⟩] := by rw [hsplit]; simp
    rcases List.mem_append.1 hmem with hmem | hmem
    · exact Or.inr hmem
    · exact Or.inl (List.mem_singleton.1 hmem)

theorem slice?_of_mem_tokens {source : List Char} {token : Token} (h : token ∈ tokens source) :
    token.range.slice? source = some token.text := by
  obtain ⟨before, lexeme, after, hsource, rfl, -⟩ := exists_split_of_mem_tokens h
  exact Token.slice?_range hsource

theorem isPlace_of_mem_tokens {source : List Char} {token : Token} (h : token ∈ tokens source) :
    IsPlace source token.range.start ∧ IsPlace source token.range.stop := by
  obtain ⟨before, lexeme, after, hsource, rfl, -⟩ := exists_split_of_mem_tokens h
  refine ⟨⟨before, lexeme.text ++ after, ?_, ?_⟩, ⟨before ++ lexeme.text, after, hsource, ?_⟩⟩
  · rw [hsource, List.append_assoc]
  · simp [Token.ofLexeme, Token.range, Span.range, Point.origin]
  · simp [Token.ofLexeme, Token.range, Span.range, Point.origin]

theorem range_lt_of_mem_tokens {source : List Char} {token : Token} (h : token ∈ tokens source)
    (heof : token.kind ≠ .eof) (hcontent : token.kind ≠ .erbContent) :
    token.range.start < token.range.stop := by
  obtain ⟨before, lexeme, after, -, rfl, rfl | hmem⟩ := exists_split_of_mem_tokens h
  · exact absurd rfl heof
  · have hpos := byteLength_pos ((sound_of_mem_lexemes hmem).2 hcontent)
    simp only [Token.ofLexeme, Token.range, Span.range, Point.offset_advance]
    omega

/-- **The tokens of a text tile it.** -/
theorem tiling_tokens (source : List Char) : Tiling source (tokens source) where
  first := by
    rw [tokens_eq_rowFrom]
    cases lexemes source with
    | nil => exact ⟨_, _, rfl, rfl⟩
    | cons lexeme others => exact ⟨_, _, rfl, rfl⟩
  chained := by
    rw [tokens_eq_rowFrom]
    exact (Token.isChain_rowFrom _ _).imp fun _ _ h => congrArg Point.offset h
  ending := by
    refine ⟨Token.rowFrom .origin (lexemes source), .eofAt (Point.origin.advance source), ?_, rfl,
      ?_, ?_⟩
    · rw [tokens, locatedPieces, Piece.flatMap_parts_locateAll, lexemes]
    · simp [Token.eofAt, Token.ofLexeme, Token.range, Span.range, Point.origin]
    · intro token hmem
      obtain ⟨before, lexeme, after, hsplit, rfl⟩ := Token.mem_rowFrom_iff.1 hmem
      have hmem : lexeme ∈ lexemes source := by rw [hsplit]; simp
      exact (sound_of_mem_lexemes hmem).1
  places := fun _ h => isPlace_of_mem_tokens h
  values := fun _ h => slice?_of_mem_tokens h
  solid := fun _ h heof hcontent => range_lt_of_mem_tokens h heof hcontent
  whole := by
    have hvalue : ∀ token ∈ tokens source, token.range.slice source = token.text := by
      intro token h
      rw [Range.slice, slice?_of_mem_tokens h]
      rfl
    rw [List.flatMap_congr hvalue, tokens_eq_rowFrom, Token.flatMap_text_rowFrom,
      List.flatMap_append, flatMap_text_lexemes]
    simp
  count := by
    have h := length_lexemes_le source
    rw [tokens_eq_rowFrom, Token.length_rowFrom, List.length_append, List.length_singleton]
    omega

/-! ## 2. Lexing in memory -/

theorem toList_of_lex {source : List Char} {memory : Memory} {list : TokenList}
    (h : (lex source).outcome memory = .ok list) : list.toList = tokens source := by
  have hsize : 0 < TokenList.tokenSize := by decide
  have hcapacity : 0 < TokenList.firstCapacity source := Nat.succ_pos _
  obtain ⟨after, hrun⟩ := Alloc.exists_run_of_outcome h
  obtain ⟨empty, granted, hinit, happly⟩ := Alloc.exists_of_run_bind_ok hrun
  obtain ⟨_, hon⟩ := InPlace.exists_on_of_run_apply_ok happly
  rw [TokenList.toList, ItemArray.items_of_on_appendAll hon,
    ItemArray.eq_of_run_init hsize hcapacity hinit]
  rfl

/-- Lexing can be refused memory, and nothing worse. -/
theorem unbroken_lex (source : List Char) : (lex source).Unbroken := by
  intro memory cause
  have hsize : 0 < TokenList.tokenSize := by decide
  have hcapacity : 0 < TokenList.firstCapacity source := Nat.succ_pos _
  rw [lex, Alloc.run_bind, ItemArray.run_init hsize hcapacity]
  rcases ItemArray.requestRoom_cases TokenList.tokenSize (TokenList.firstCapacity source) memory
    with ⟨granted, hrun, -⟩ | ⟨bytes, left, hrun, -⟩
  · have hlive : ItemArray.IsLive
        (⟨TokenList.tokenSize, TokenList.firstCapacity source, #[]⟩ : TokenList) := hsize
    rw [hrun]
    exact (ItemArray.unbroken_appendAll (tokens source)).apply hlive granted cause
  · rw [hrun]
    exact fun h => by cases h

/-- Lexing returns when the memory grants twice the room for all tokens there can be. -/
theorem exists_run_lex {source : List Char} {memory : Memory} {limit : Nat}
    (hgrants : memory.GrantsUpTo limit) (hblock : limit ≤ Memory.maxBlock)
    (hroom : 2 * TokenList.tokenSize * (byteLength source + 1) ≤ limit) :
    ∃ list after, (lex source).run.run memory = (.ok list, after) ∧ after.GrantsUpTo limit := by
  have hsize : 0 < TokenList.tokenSize := by decide
  have hcapacity : 0 < TokenList.firstCapacity source := Nat.succ_pos _
  have hforty : TokenList.tokenSize = 40 := rfl
  have hfirst : TokenList.tokenSize * TokenList.firstCapacity source ≤ limit := by
    rw [hforty] at hroom ⊢
    rw [TokenList.firstCapacity]
    omega
  obtain ⟨granted, hrun, hgranted⟩ := ItemArray.exists_run_requestRoom hgrants hblock hfirst
  have htokens : TokenList.tokenSize * (2 * (0 + (tokens source).length)) ≤ limit := by
    have hcount := (tiling_tokens source).count
    rw [hforty] at hroom ⊢
    omega
  obtain ⟨longer, after, happend, -, -, hafter⟩ := ItemArray.exists_on_appendAll
    ⟨TokenList.tokenSize, TokenList.firstCapacity source, #[]⟩
    (tokens source) hgranted hblock hsize hcapacity htokens
  refine ⟨longer, after, ?_, hafter⟩
  rw [lex, Alloc.run_bind, ItemArray.run_init hsize hcapacity, hrun]
  simp only [InPlace.run_apply, happend]
  rfl

/-- Whatever the memory, lexing comes to the tokens of the source, or memory was refused. -/
theorem yields_lex (source : List Char) :
    (lex source).Yields (2 * TokenList.tokenSize * (byteLength source + 1))
      fun list => list.toList = tokens source := by
  intro memory
  refine ⟨fun list hlist => toList_of_lex hlist, ?_⟩
  intro hblock hgrants
  obtain ⟨list, after, hrun, -⟩ := exists_run_lex hgrants hblock (Nat.le_refl _)
  exact ⟨list, congrArg Prod.fst hrun⟩

theorem exists_lex {source : List Char} {memory : Memory} (hlength : byteLength source < 2 ^ 32)
    (hgrants : memory.GrantsUpTo (2 * TokenList.tokenSize * (byteLength source + 1))) :
    ∃ list, (lex source).outcome memory = .ok list := by
  -- eighty bytes for each byte of a source below 2 ^ 32 are far below the largest block
  have hblock : 2 * TokenList.tokenSize * (byteLength source + 1) ≤ Memory.maxBlock := by
    show 2 * 40 * (byteLength source + 1) ≤ 0x7FFF_FFFF_FFFF_FFF0
    omega
  obtain ⟨list, after, hrun, -⟩ := exists_run_lex hgrants hblock (Nat.le_refl _)
  exact ⟨list, by rw [Alloc.outcome, hrun]⟩

/-! ## 3. The contract -/

/-- **Lexing is lossless.** A source below four gigabytes is lexed whenever the memory grants the
    room for its tokens, and the tokens tile it. -/
theorem lex_tiles_source (source : List Char) (memory : Memory)
    (hlength : byteLength source < 2 ^ 32)
    (hgrants : memory.GrantsUpTo (2 * TokenList.tokenSize * (byteLength source + 1))) :
    ∃ list, (lex source).outcome memory = .ok list ∧ Tiling source list.toList := by
  obtain ⟨list, h⟩ := exists_lex hlength hgrants
  refine ⟨list, h, ?_⟩
  rw [toList_of_lex h]
  exact tiling_tokens source

/-- A character of two bytes, a line break of two characters, and an ERB tag whose content is empty
    because the `-` belongs to its closing. -/
theorem lex_tiles_source_empty_content :
    ∃ list, (lex ['é', '\r', '\n', '<', '%', '=', '-', '%', '>']).outcome .standard = .ok list
      ∧ Tiling ['é', '\r', '\n', '<', '%', '=', '-', '%', '>'] list.toList :=
  lex_tiles_source _ .standard (by decide) (Memory.grantsUpTo_standard (by decide))

end ErbTemplate
