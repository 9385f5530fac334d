import ErbTemplate.Proofs.Memory.Atomic
import ErbTemplate.Proofs.Host.Agreement

/-!
# Extraction only appends

An extraction has one text. A new buffer holds that text afterwards, and so does every other buffer
behind what it held before; where memory is refused in the middle, a buffer holds a front part of
the text, cut between two characters (`Appends`). The text is that of the writes of the extraction,
which are made whole or not at all, and each of which spells a text.

A host sees a buffer only after the last write. So it hands over the whole text, or nothing
(`HandsOver`).

Where positions are kept the text is as long as the source, and the buffer that a host prepares has
room for just that: it never grows (`KeepsRoom`).
-/

set_option autoImplicit false

namespace ErbTemplate

open Text TextBuffer

namespace Extraction

/-! ## 1. The contract -/

/-- An extraction appends a text, and nothing else. -/
structure Appends (source : List Char) (extraction : InPlace TextBuffer Unit) (text : List Char) :
    Prop where
  /-- A new buffer holds the text afterwards. -/
  fresh : ∀ capacity, (intoNew capacity extraction).Yields (room source capacity)
    fun buffer => buffer.bytes = toBytes text
  /-- Any other buffer holds the text behind what it held before. -/
  whole : ∀ (buffer longer : TextBuffer) (contents : List Char) (memory after : Memory),
    buffer.IsLive → buffer.bytes = toBytes contents →
    (extraction.on buffer).run memory = ((.ok (), longer), after) →
    longer.bytes = toBytes (contents ++ text)
  /-- Only refused memory can stop it, and then the buffer holds a front part of the text. -/
  part : ∀ (buffer left : TextBuffer) (contents : List Char) (memory after : Memory)
    (fault : Fault), buffer.IsLive → buffer.bytes = toBytes contents →
    (extraction.on buffer).run memory = ((.error fault, left), after) →
    (∃ cause, fault = .failure cause)
      ∧ ∃ written, written <+: text ∧ left.bytes = toBytes (contents ++ written)

/-- In the buffer that is prepared for a source, an extraction asks for the tokens of the source and
    for nothing else. -/
def KeepsRoom (source : List Char) (extraction : InPlace TextBuffer Unit) : Prop :=
  ∀ (buffer : TextBuffer) (memory granted : Memory),
    (TextBuffer.init (byteLength source)).run.run memory = (.ok buffer, granted) →
    (∃ list after filled, (lex source).run.run granted = (.ok list, after)
        ∧ (extraction.on buffer).run granted = ((.ok (), filled), after)
        ∧ filled.capacity = buffer.capacity)
      ∨ ∃ fault after, (lex source).run.run granted = (.error fault, after)
        ∧ (extraction.on buffer).run granted = ((.error fault, buffer), after)

/-- A call hands over a text to its host, or nothing; and it does hand it over where there is memory
    for the tokens of the source. -/
def HandsOver {β : Type} (host : Host β) (source : List Char)
    (call : Scope String (Except Fault (Option β))) (text : List Char) : Prop :=
  ∀ memory : Memory,
    ((call.outcome memory).1 = (host.string (String.ofList text)).map some
      ∨ (call.outcome memory).1 = .ok none)
    ∧ (memory.HoldsTokens source →
      (call.outcome memory).1 = (host.string (String.ofList text)).map some)

/-! ## 2. Writes and their text -/

section Writing

variable {source : List Char} {writes : List Write} {text : List Char}

theorem toBytes_injective {text other : List Char} (h : toBytes text = toBytes other) :
    text = other := by
  have hstring := ofBytes?_toBytes text
  rw [h, ofBytes?_toBytes, Option.some_inj] at hstring
  exact (String.ofList_inj.1 hstring).symm

/-- What has been written before a refusal is a front part of the text. -/
theorem exists_prefix_text (hvalid : ∀ write ∈ writes, write.Valid)
    (htext : writes.flatMap Write.bytes = toBytes text) {made : List Write}
    (hmade : made <+: writes) :
    ∃ written, written <+: text ∧ made.flatMap Write.bytes = toBytes written := by
  obtain ⟨others, rfl⟩ := hmade
  rw [List.forall_mem_append] at hvalid
  obtain ⟨written, hwritten⟩ := exists_text_of_valid hvalid.1
  obtain ⟨rest, hrest⟩ := exists_text_of_valid hvalid.2
  refine ⟨written, ⟨rest, ?_⟩, hwritten⟩
  apply toBytes_injective
  rw [toBytes_append, ← hwritten, ← hrest, ← List.flatMap_append, htext]

/-- Lexing leaves the buffer alone; what follows are the writes. -/
theorem on_writing_of_lex {memory lexed : Memory} {list : TokenList}
    (hlex : (lex source).run.run memory = (.ok list, lexed)) (buffer : TextBuffer) :
    ((writing source writes).on buffer).run memory = ((writeAll writes).on buffer).run lexed := by
  rw [writing, InPlace.on_bind, InPlace.on_ofAlloc, hlex]

theorem on_writing_of_not_lex {memory after : Memory} {fault : Fault}
    (hlex : (lex source).run.run memory = (.error fault, after)) (buffer : TextBuffer) :
    ((writing source writes).on buffer).run memory = ((.error fault, buffer), after) := by
  rw [writing, InPlace.on_bind, InPlace.on_ofAlloc, hlex]

/-- **Valid writes append their text, whole or in part.** -/
theorem appends_writing (hvalid : ∀ write ∈ writes, write.Valid)
    (htext : writes.flatMap Write.bytes = toBytes text)
    (hlength : byteLength text ≤ 4 * byteLength source) :
    Appends source (writing source writes) text where
  fresh := by
    intro capacity memory
    refine ⟨fun buffer h => (bytes_of_intoNew h).trans htext, ?_⟩
    intro hblock hgrants
    exact exists_intoNew hblock hgrants hvalid (by rwa [htext, length_toBytes])
  whole := by
    intro buffer longer contents memory after _ hcontents hrun
    obtain ⟨_, _, _, hlex, hwrite⟩ := InPlace.exists_of_on_bind_ok hrun
    rw [InPlace.eq_of_on_ofAlloc hlex] at hwrite
    rw [bytes_of_on_writeAll hwrite, hcontents, htext, toBytes_append]
  part := by
    intro buffer left contents memory after fault hlive hcontents hrun
    rcases (unbroken_lex source).cases memory with ⟨list, lexed, hlex⟩ | ⟨cause, lexed, hlex⟩
    · rw [on_writing_of_lex hlex] at hrun
      rcases writeAll_cases hvalid hlive lexed with
        ⟨_, _, hwrite, -⟩ | ⟨made, _, cause, _, hwrite, hmade, hbytes⟩
      · rw [hwrite] at hrun
        cases hrun
      · rw [hwrite] at hrun
        cases hrun
        obtain ⟨written, hfront, hspelt⟩ := exists_prefix_text hvalid htext hmade
        refine ⟨⟨cause, rfl⟩, written, hfront, ?_⟩
        rw [hbytes, hcontents, hspelt, toBytes_append]
    · rw [on_writing_of_not_lex hlex] at hrun
      cases hrun
      exact ⟨⟨cause, rfl⟩, [], List.nil_prefix, by rw [hcontents, List.append_nil]⟩

/-- **Writes that are as long as the source fit into the prepared buffer.** -/
theorem keepsRoom_writing (hvalid : ∀ write ∈ writes, write.Valid)
    (hlength : (writes.flatMap Write.bytes).length = byteLength source) :
    KeepsRoom source (writing source writes) := by
  intro buffer memory granted hinit
  have hword := capacity_le_of_init hinit
  have hlive := isLive_of_init hinit
  rcases hlex : (lex source).run.run granted with ⟨fault | list, after⟩
  · exact Or.inr ⟨fault, after, rfl, on_writing_of_not_lex hlex buffer⟩
  · have hroom : buffer.size + (writes.flatMap Write.bytes).length ≤ buffer.capacity := by
      rw [ItemArray.eq_of_run_init Nat.one_pos (capacity_pos _) hinit, hlength]
      show 0 + byteLength source ≤ max (byteLength source) 1
      omega
    refine Or.inl ⟨list, after, buffer.extend (writes.flatMap Write.bytes), rfl, ?_, rfl⟩
    rw [on_writing_of_lex hlex]
    exact on_writeAll_of_room hvalid hlive hroom hword after

/-! ## 3. Hosts -/

/-- A host waits for the last write, and so it sees the text or nothing. -/
theorem Appends.handsOver {extraction : InPlace TextBuffer Unit} {β : Type} (host : Host β)
    (h : Appends source extraction text) :
    HandsOver host source (host.extractText source extraction) text := by
  intro memory
  obtain ⟨hbytes, hreturns⟩ := h.fresh (byteLength source) memory
  rw [room_byteLength] at hreturns
  rw [Host.outcome_extractText, extractedText]
  cases hresult : (intoNew (byteLength source) extraction).outcome memory with
  | ok buffer =>
    have htext : TextBuffer.text buffer = String.ofList text := by
      rw [TextBuffer.text, hbytes buffer hresult, ofBytes?_toBytes]
      rfl
    simp only [Except.toOption, Option.map_some, htext]
    exact ⟨Or.inl trivial, fun _ => trivial⟩
  | error fault =>
    refine ⟨Or.inr rfl, ?_⟩
    intro hmemory
    obtain ⟨buffer, hbuffer⟩ := hreturns hmemory.block hmemory.grants
    rw [hresult] at hbuffer
    cases hbuffer

end Writing

end Extraction

/-- **Extraction only appends, and no partial text escapes.** For each source and each choice of
    options there is one text. It comes behind whatever a buffer holds, or a front part of it does
    where memory is refused; a host gets all of it or nothing. Where the text has the length of the
    source, the buffer prepared for it never grows: that is so for the markup, and for the code if
    positions are kept. -/
theorem extraction_only_appends (source : List Char) :
    (∀ options : ExtractOptions, ∃ text,
      Extraction.Appends source (extractRuby source options) text
      ∧ (options.preservePositions = true →
        Extraction.KeepsRoom source (extractRuby source options))
      ∧ ∀ (β : Type) (host : Host β) (lookup : Option OptionLookup),
        ExtractOptions.normalize lookup {} = options →
        Extraction.HandsOver host source (host.extractRuby source lookup) text)
    ∧ ∃ text,
      Extraction.Appends source (extractHtml source) text
      ∧ Extraction.KeepsRoom source (extractHtml source)
      ∧ ∀ (β : Type) (host : Host β),
        Extraction.HandsOver host source (host.extractHtml source) text := by
  constructor
  · intro options
    have hvalid := Extraction.valid_codeWrites options source
    obtain ⟨text, htext⟩ := exists_text_of_valid hvalid
    have hlength := Extraction.length_codeWrites_le_four options source
    rw [htext, length_toBytes] at hlength
    have happends : Extraction.Appends source (extractRuby source options) text :=
      Extraction.appends_writing hvalid htext hlength
    refine ⟨text, happends, ?_, ?_⟩
    · intro hoptions
      apply Extraction.keepsRoom_writing hvalid
      rw [(Extraction.masked_codeWrites hoptions source).length_eq, length_toBytes]
    · rintro β host lookup rfl
      exact happends.handsOver host
  · have hvalid := Extraction.valid_markupWrites source
    have htext := Extraction.bytes_markupWrites source
    have hlength : ((Extraction.markupWrites source).flatMap Write.bytes).length
        = byteLength source := by
      rw [(Extraction.masked_markupWrites source).length_eq, length_toBytes]
    have happends : Extraction.Appends source (extractHtml source)
        (Extraction.markupText (pieces source)) := by
      apply Extraction.appends_writing hvalid htext
      rw [← length_toBytes, ← htext, hlength]
      exact Nat.le_mul_of_pos_left _ (by decide)
    refine ⟨_, happends, Extraction.keepsRoom_writing hvalid hlength, ?_⟩
    intro β host
    exact happends.handsOver host

/-- A buffer with a `c` in it and no more room: the memory grants the two requests of the lexer and
    one of the buffer, and the code itself is refused. What is left is the blanked opening. -/
theorem extraction_only_appends_refused :
    ∃ text, [' ', ' ', ' '] <+: text
      ∧ Extraction.Appends ['<', '%', '=', 'é', '%', '>']
        (extractRuby ['<', '%', '=', 'é', '%', '>'] {}) text
      ∧ (((extractRuby ['<', '%', '=', 'é', '%', '>'] {}).on ⟨1, 1, #[99]⟩).run
          ⟨fun request _ => request < 3, 0⟩).1.1 = .error (.failure (.allocation 8))
      ∧ bytes (((extractRuby ['<', '%', '=', 'é', '%', '>'] {}).on ⟨1, 1, #[99]⟩).run
          ⟨fun request _ => request < 3, 0⟩).1.2 = toBytes ['c', ' ', ' ', ' '] := by
  obtain ⟨text, happends, -⟩ := (extraction_only_appends ['<', '%', '=', 'é', '%', '>']).1 {}
  have hfault : (((extractRuby ['<', '%', '=', 'é', '%', '>'] {}).on ⟨1, 1, #[99]⟩).run
      ⟨fun request _ => request < 3, 0⟩).1.1 = .error (.failure (.allocation 8)) := by
    decide +kernel
  have hbytes : bytes (((extractRuby ['<', '%', '=', 'é', '%', '>'] {}).on ⟨1, 1, #[99]⟩).run
      ⟨fun request _ => request < 3, 0⟩).1.2 = toBytes ['c', ' ', ' ', ' '] := by
    decide +kernel
  refine ⟨text, ?_, happends, hfault, hbytes⟩
  obtain ⟨-, written, hfront, hleft⟩ :=
    happends.part ⟨1, 1, #[99]⟩ _ ['c'] _ _ _ Nat.one_pos rfl (Prod.ext (Prod.ext hfault rfl) rfl)
  rw [hbytes] at hleft
  have hwritten : written = [' ', ' ', ' '] :=
    (List.cons.inj (Extraction.toBytes_injective hleft)).2.symm
  rwa [hwritten] at hfront

end ErbTemplate
