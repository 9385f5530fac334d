import ErbTemplate.Proofs.Boundary.Wall
import ErbTemplate.Proofs.Host.Agreement
import ErbTemplate.Proofs.Json.Legible

/-!
# What can be read is answered

A call that puts out a text has many ways to fail. Its arguments may not be texts, or not options;
the engine may be refused memory, or break off; and the result may hold a U+0000, behind which the
caller would not see it. This file says that none of this happens to a caller who passes a source
without U+0000, options that are JSON or none at all, and has memory for the tokens: the call
succeeds with the very text that the host of JSON texts hands over (`Delivers`).

The reasons are independent of each other. What the caller passes comes in as it is, because zero is
a byte of no character but U+0000 (§1). What a host hands over has no U+0000: JSON escapes it, and
the code of a source has only characters of the source and a few marks (§2, §3). Then nothing is
left that could stop the body of the call (§4).
-/

set_option autoImplicit false

namespace ErbTemplate

open Text Json Extraction TextBuffer

/-! ## 1. Texts that come in -/

/-- **Zero is a byte of no character but U+0000.** -/
theorem Text.zero_mem_toBytes_iff {text : List Char} : 0 ∈ toBytes text ↔ '\x00' ∈ text := by
  constructor
  · intro hmem
    obtain ⟨c, hc, hbyte⟩ := List.mem_flatMap.1 hmem
    obtain rfl : c = '\x00' := eq_of_mem_utf8EncodeChar (by decide) hbyte
    exact hc
  · intro hmem
    exact List.mem_flatMap.2 ⟨'\x00', hmem, by decide⟩

namespace Session

/-- A text as a caller passes it. -/
def argumentOf (text : String) : TextArgument :=
  some (toBytes text.toList)

theorem textOf?_argumentOf {text : String} (h : '\x00' ∉ text.toList) :
    textOf? (argumentOf text) = some text.toList := by
  have hbytes : (toBytes text.toList).takeWhile (· != 0) = toBytes text.toList := by
    refine List.takeWhile_eq_self_iff.2 ?_
    intro byte hmem
    rw [bne_iff_ne]
    rintro rfl
    exact h (zero_mem_toBytes_iff.1 hmem)
  simp [argumentOf, textOf?, hbytes, ofBytes?_toBytes]

/-- Options that are JSON come in as they are. -/
theorem exists_optionsOf? {options : Option String}
    (h : ∀ text, options = some text → ∃ document, Json.read? text.toList = some document) :
    ∃ set, optionsOf? (options.bind argumentOf) = some set
      ∧ set.map OptionSet.lookup = options.bind OptionLookup.ofText? := by
  cases options with
  | none => exact ⟨none, rfl, rfl⟩
  | some text =>
    obtain ⟨document, hdocument⟩ := h text rfl
    have htext := textOf?_argumentOf (not_mem_of_read? hdocument)
    refine ⟨some (OptionSet.ofJson document), ?_, ?_⟩
    · show (textOf? (argumentOf text)).bind _ = _
      simp [htext, hdocument]
    · simp [OptionLookup.ofText?, hdocument]

end Session

/-! ## 2. Code without U+0000 -/

namespace Extraction

/-- Where a source has no zero, no treatment puts one there. -/
theorem Masked.zero_not_mem {offset : Nat} {mask : List (Treatment × Range)}
    {source output : List UInt8} (h : Masked offset mask source output) (hsource : 0 ∉ source) :
    0 ∉ output := by
  have hbyte : ∀ (treatment : Treatment) (byte : UInt8), treatment.byte byte = 0 → byte = 0 := by
    intro treatment byte hzero
    cases treatment with
    | keep => exact hzero
    | blank =>
      simp only [Treatment.byte, blankByte] at hzero
      split at hzero
      next => exact hzero
      next => exact absurd hzero (by decide)
    | semicolon =>
      simp only [Treatment.byte] at hzero
      exact absurd hzero (by decide)
  induction h with
  | nil => exact List.not_mem_nil
  | cons treatment bytes _ ih =>
    rw [List.mem_append, not_or] at hsource ⊢
    refine ⟨?_, ih hsource.2⟩
    intro hmem
    obtain ⟨byte, hmem, hzero⟩ := List.mem_map.1 hmem
    rw [hbyte treatment byte hzero] at hmem
    exact hsource.1 hmem

theorem flatten_lines_sublist (text : List Char) : (lines text).flatten.Sublist text := by
  fun_induction lines text with
  | case1 => exact List.Sublist.refl []
  | case2 text ih => exact (ih.cons _).cons _
  | case3 text ih => exact ih.cons _
  | case4 c text => exact (List.nil_sublist text).cons_cons c
  | case5 c text _ _ line others hlines ih =>
    rw [hlines] at ih
    exact ih.cons_cons c

/-- The lines of a comment, each behind its mark. -/
theorem zero_not_mem_commentLines {code : List Char} (h : '\x00' ∉ code) :
    0 ∉ ((lines code).flatMap fun line =>
      [Write.text ['#', ' '], .text (trim line), .byte (byteOf '\n')]).flatMap Write.bytes := by
  rw [List.flatMap_assoc, List.mem_flatMap]
  rintro ⟨line, hline, hmem⟩
  simp only [List.flatMap_cons, List.flatMap_nil, Write.bytes, List.mem_append,
    zero_mem_toBytes_iff, List.mem_singleton, List.append_nil] at hmem
  rcases hmem with hmark | hinside | hnewline
  · exact absurd hmark (by decide)
  · have hflat := List.mem_flatten.2 ⟨line, hline, (trim_sublist line).subset hinside⟩
    exact h ((flatten_lines_sublist code).subset hflat)
  · exact absurd hnewline (by decide)

theorem zero_not_mem_codeCompact (options : ExtractOptions) {piece : Piece Lexeme}
    (h : '\x00' ∉ piece.text) : 0 ∉ (codeCompact options piece).flatMap Write.bytes := by
  have hsemicolon : 0 ≠ byteOf ';' := by decide
  have hnewline : 0 ≠ byteOf '\n' := by decide
  cases piece with
  | markup lexeme => exact List.not_mem_nil
  | erb opening mark ending =>
    cases hcontent : ending.content? with
    | none => simp [codeCompact, hcontent]
    | some content =>
      have hcode : '\x00' ∉ trim content.text := by
        intro hmem
        refine h (List.mem_flatMap.2 ⟨content, ?_, (trim_sublist _).subset hmem⟩)
        cases ending <;> cases hcontent <;> simp [Piece.parts, Ending.parts]
      simp only [codeCompact, hcontent]
      split
      next =>
        split
        next => exact List.not_mem_nil
        next => cases options.semicolons <;>
          simp [Write.bytes, zero_mem_toBytes_iff, hcode, hsemicolon, hnewline]
      next =>
        split
        next => exact zero_not_mem_commentLines hcode
        next => exact List.not_mem_nil

/-- **The code of a source without U+0000 has none,** whatever is kept. -/
theorem zero_not_mem_codeWrites (options : ExtractOptions) {source : List Char}
    (h : '\x00' ∉ source) : 0 ∉ (codeWrites options source).flatMap Write.bytes := by
  cases hoptions : options.preservePositions with
  | true =>
    refine (masked_codeWrites hoptions source).zero_not_mem ?_
    rwa [zero_mem_toBytes_iff]
  | false =>
    have hpiece : ∀ piece ∈ pieces source, '\x00' ∉ piece.text := by
      intro piece hpiece hmem
      rw [← flatMap_text_pieces source] at h
      exact h (List.mem_flatMap.2 ⟨piece, hpiece, hmem⟩)
    simp only [codeWrites, hoptions, Bool.false_eq_true, if_false]
    rw [List.flatMap_assoc, List.mem_flatMap]
    rintro ⟨piece, hmem, hzero⟩
    exact zero_not_mem_codeCompact options (hpiece piece hmem) hzero

end Extraction

/-! ## 3. Texts that go out -/

section Results

variable {source : List Char} {memory : Memory} {text : String}

/-- The text of a value that the engine has made, if the value is plain. -/
theorem not_mem_of_plain {α : Type} {engine : Except Fault α} {encode : α → Json}
    (hplain : ∀ value, engine = .ok value → Plain (encode value))
    (h : (engine >>= fun value => .ok (encode value).compact) = .ok text) :
    '\x00' ∉ text.toList := by
  cases engine with
  | error fault => cases h
  | ok value =>
    cases h
    rw [toList_compact]
    exact not_mem_render (hplain value rfl)

theorem not_mem_of_lexed (h : ((jsonTextHost.lex source).outcome memory).1 = .ok text) :
    '\x00' ∉ text.toList := by
  rw [Host.outcome_lex] at h
  exact not_mem_of_plain (fun list hlist => plain_of_lex hlist) h

theorem not_mem_of_parsed {options : Option OptionLookup}
    (h : ((jsonTextHost.parse source options).outcome memory).1 = .ok text) :
    '\x00' ∉ text.toList := by
  rw [Host.outcome_parse] at h
  exact not_mem_of_plain (fun document _ => plain_parseSnapshot document source) h

theorem not_mem_of_extracted {options : Option OptionLookup} (hsource : '\x00' ∉ source)
    (h : ((jsonTextHost.extractRuby source options).outcome memory).1 = .ok (some text)) :
    '\x00' ∉ text.toList := by
  rw [Host.extractRuby, Host.outcome_extractText, extractedText] at h
  cases hbuffer : (intoNew (byteLength source) (extractRuby source
      (ExtractOptions.normalize options {}))).outcome memory with
  | error fault =>
    rw [hbuffer] at h
    cases h
  | ok buffer =>
    rw [hbuffer] at h
    cases h
    have hbytes : buffer.bytes = _ := bytes_of_intoNew hbuffer
    obtain ⟨code, hcode⟩ :=
      exists_text_of_valid (valid_codeWrites (ExtractOptions.normalize options {}) source)
    have hzero := zero_not_mem_codeWrites (ExtractOptions.normalize options {}) hsource
    rw [hcode, zero_mem_toBytes_iff] at hzero
    rw [TextBuffer.text, hbytes, hcode, ofBytes?_toBytes, Option.getD_some, String.toList_ofList]
    exact hzero

end Results

/-! ## 4. Calls -/

namespace Session

variable {α β : Type} {session : Session}

/-- A call succeeds, and puts out a text that can be read to its end. It is the text that a host
    hands over wherever there is memory for the tokens of the source. -/
def Delivers (session : Session) (call : Call) (source : List Char)
    (handsOver : Memory → String → Prop) : Prop :=
  ∃ text after, (Session.call call).run.run session
      = (.ok (.status .success (some (some text))), after)
    ∧ after.lastError = none
    ∧ '\x00' ∉ text.toList
    ∧ ∀ memory : Memory, memory.HoldsTokens source → handsOver memory text

/-- A body comes to a value, and changes nothing but the memory. -/
def ComesTo (body : Body α) (session : Session) (value : α) : Prop :=
  ∃ memory, body.run.run session = (.ok value, { session with memory })

namespace ComesTo

/-- Behind a part that only reads, a body comes to what the rest comes to. -/
theorem after {first : Body α} {next : α → Body β} {value : α} {result : β}
    (hfirst : first.run.run session = (.ok value, session))
    (h : ComesTo (next value) session result) : ComesTo (first >>= next) session result := by
  obtain ⟨memory, hrun⟩ := h
  refine ⟨memory, ?_⟩
  rw [run_bind, hfirst]
  exact hrun

theorem before {first : Body α} {next : α → Body β} {value : α} {result : β}
    (h : ComesTo first session value)
    (hnext : ∀ session, (next value).run.run session = (.ok result, session)) :
    ComesTo (first >>= next) session result := by
  obtain ⟨memory, hrun⟩ := h
  refine ⟨memory, ?_⟩
  rw [run_bind, hrun]
  exact hnext _

theorem perform {operation : Scope α (Except Fault β)} {value : β}
    (h : (operation.outcome session.memory).1 = .ok value) :
    ComesTo (perform operation) session value := by
  have hrun : (Session.perform operation).run.run session
      = (settle (operation.outcome session.memory).1).run.run
        { session with memory := ((operation.run []).run session.memory).2 } := rfl
  refine ⟨((operation.run []).run session.memory).2, ?_⟩
  rw [hrun, h]
  rfl

end ComesTo

theorem run_handOver {text : String} (h : '\x00' ∉ text.toList) (session : Session) :
    (handOver text).run.run session = (.ok text, session) := by
  rw [handOver, if_neg (by simpa using h)]
  rfl

/-- **A body that comes to a text without U+0000 puts it out.** -/
theorem delivers_of_comesTo {call : Call} {name : String} {body : Body String} {text : String}
    {source : List Char} {handsOver : Memory → String → Prop}
    (hcall : Session.call call = liftM (putOut true name body))
    (hbody : ComesTo body { session with lastError := none, output := none } text)
    (hnul : '\x00' ∉ text.toList)
    (hhost : ∀ memory : Memory, memory.HoldsTokens source → handsOver memory text) :
    session.Delivers call source handsOver := by
  obtain ⟨memory, hout⟩ := hbody.before (run_handOver hnul)
  have hrun : (putOutBody true name body).run.run { session with lastError := none }
      = (.ok (), { session with lastError := none, output := some text, memory }) := by
    rw [run_putOutBody, run_bind, hout]
    rfl
  have hput : (putOut true name body).run session = (.status .success (some (some text)),
      { session with lastError := none, output := some text, memory }) := by
    rw [run_putOut, run_contain, hrun]
    rfl
  refine ⟨text, { session with lastError := none, output := some text, memory }, ?_, rfl, hnul,
    hhost⟩
  rw [hcall]
  exact congrArg (fun answer : Reply × Session => (Except.ok answer.1, answer.2)) hput

variable {source : String} {options : Option String}

theorem delivers_lexToJson (hsource : '\x00' ∉ source.toList)
    (hmemory : session.memory.HoldsTokens source.toList) :
    session.Delivers (.lexToJson true (argumentOf source)) source.toList fun memory text =>
      ((jsonTextHost.lex source.toList).outcome memory).1 = .ok text := by
  obtain ⟨text, htext⟩ := exists_lexed source
  have hvalue := htext session.memory hmemory
  refine delivers_of_comesTo rfl ?_ (not_mem_of_lexed hvalue) htext
  exact .after (run_readText (textOf?_argumentOf hsource) _) (.perform hvalue)

theorem delivers_parseToJson (hsource : '\x00' ∉ source.toList)
    (hoptions : ∀ text, options = some text → ∃ document, Json.read? text.toList = some document)
    (hmemory : session.memory.HoldsTokens source.toList) :
    session.Delivers (.parseToJson true (argumentOf source) (options.bind argumentOf))
      source.toList fun memory text =>
        ((jsonTextHost.parse source.toList (options.bind OptionLookup.ofText?)).outcome memory).1
          = .ok text := by
  obtain ⟨set, hset, hlookup⟩ := exists_optionsOf? hoptions
  obtain ⟨text, htext⟩ := exists_parsed source (options.bind OptionLookup.ofText?)
  have hvalue := htext session.memory hmemory
  refine delivers_of_comesTo rfl ?_ (not_mem_of_parsed hvalue) htext
  refine .after (run_readText (textOf?_argumentOf hsource) _) (.after (run_readOptions hset _) ?_)
  rw [hlookup]
  exact .perform hvalue

theorem delivers_extractRubyToText (hsource : '\x00' ∉ source.toList)
    (hoptions : ∀ text, options = some text → ∃ document, Json.read? text.toList = some document)
    (hmemory : session.memory.HoldsTokens source.toList) :
    session.Delivers (.extractRubyToText true (argumentOf source) (options.bind argumentOf))
      source.toList fun memory text =>
        ((jsonTextHost.extractRuby source.toList
          (options.bind OptionLookup.ofText?)).outcome memory).1 = .ok (some text) := by
  obtain ⟨set, hset, hlookup⟩ := exists_optionsOf? hoptions
  obtain ⟨text, htext⟩ := exists_extracted source fun capacity => yields_code
    (ExtractOptions.normalize (options.bind OptionLookup.ofText?) {}) source.toList capacity
  have hvalue := htext session.memory hmemory
  refine delivers_of_comesTo rfl ?_ (not_mem_of_extracted hsource hvalue) htext
  refine .after (run_readText (textOf?_argumentOf hsource) _) (.after (run_readOptions hset _) ?_)
  rw [hlookup]
  exact .before (.perform hvalue) fun _ => rfl

end Session

/-! ## 5. The contract -/

/-- **Calls for texts never refuse what can be read.** A source without U+0000 and below four
    gigabytes, and options that are JSON of any kind or none at all, are lexed, parsed and extracted
    with success wherever there is memory for the tokens; the texts are those of the host, and hold
    no U+0000. -/
theorem text_calls_deliver (session : Session) (source : String) (options : Option String)
    (hsource : '\x00' ∉ source.toList) (hlength : byteLength source.toList < 2 ^ 32)
    (hoptions : ∀ text, options = some text → ∃ document, Json.read? text.toList = some document)
    (hgrants : session.memory.GrantsUpTo
      (2 * TokenList.tokenSize * (byteLength source.toList + 1))) :
    session.Delivers (.lexToJson true (Session.argumentOf source)) source.toList
        (fun memory text => ((jsonTextHost.lex source.toList).outcome memory).1 = .ok text)
      ∧ session.Delivers
        (.parseToJson true (Session.argumentOf source) (options.bind Session.argumentOf))
        source.toList
        (fun memory text => ((jsonTextHost.parse source.toList
          (options.bind OptionLookup.ofText?)).outcome memory).1 = .ok text)
      ∧ session.Delivers
        (.extractRubyToText true (Session.argumentOf source) (options.bind Session.argumentOf))
        source.toList
        (fun memory text => ((jsonTextHost.extractRuby source.toList
          (options.bind OptionLookup.ofText?)).outcome memory).1 = .ok (some text)) := by
  have hblock : 2 * TokenList.tokenSize * (byteLength source.toList + 1) ≤ Memory.maxBlock := by
    show 2 * 40 * (byteLength source.toList + 1) ≤ 0x7FFF_FFFF_FFFF_FFF0
    omega
  have hmemory : session.memory.HoldsTokens source.toList := ⟨hblock, hgrants⟩
  exact ⟨Session.delivers_lexToJson hsource hmemory,
    Session.delivers_parseToJson hsource hoptions hmemory,
    Session.delivers_extractRubyToText hsource hoptions hmemory⟩

/-- A control character in the source, and a document of options that is not an object. -/
theorem text_calls_deliver_array_of_options :
    (Session.new ⟨[]⟩).Delivers (.lexToJson true (Session.argumentOf "\x01<% é %>"))
        "\x01<% é %>".toList
        (fun memory text => ((jsonTextHost.lex "\x01<% é %>".toList).outcome memory).1 = .ok text)
      ∧ (Session.new ⟨[]⟩).Delivers
        (.extractRubyToText true (Session.argumentOf "\x01<% é %>") (Session.argumentOf "[true]"))
        "\x01<% é %>".toList
        (fun memory text => ((jsonTextHost.extractRuby "\x01<% é %>".toList
          (OptionLookup.ofText? "[true]")).outcome memory).1 = .ok (some text)) := by
  have hplain : Plain (.array [.bool true]) := by simp
  have hread : Json.read? "[true]".toList = some (.array [.bool true]) := by
    have htext : "[true]".toList = (Json.array [.bool true]).render := by decide
    rw [htext, read?_eq]
    exact readWhole_render hplain (by decide)
  have h := text_calls_deliver (Session.new ⟨[]⟩) "\x01<% é %>" (some "[true]") (by decide)
    (by decide) (by rintro _ ⟨⟩; exact ⟨_, hread⟩) (Memory.grantsUpTo_standard (by decide))
  exact ⟨h.1, h.2.2⟩

end ErbTemplate
