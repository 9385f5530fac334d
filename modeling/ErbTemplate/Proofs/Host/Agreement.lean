import ErbTemplate.Proofs.Extraction.Room
import ErbTemplate.Proofs.Host.Idioms
import ErbTemplate.Proofs.Host.Presentation
import ErbTemplate.Proofs.Host.Release
import ErbTemplate.Proofs.Json.Snapshots

/-!
# One semantics for all hosts

Three hosts take a source and options, each in its own idiom, and hand over a result, each in its
own form. Whatever the source, the options and the memory: read what they hand over, and it is the
same (**`hosts_agree`**).

A host comes in at two places only. It reads the options, and finds the same assignment as the
others (`Gives`). And it presents a value that the engine has made (`outcome_lex`, `outcome_parse`,
`outcome_extractText`), which can be read back because it is plain. In between there is one engine,
with one memory.
-/

set_option autoImplicit false

namespace ErbTemplate

open Text Json Extraction

/-! ## 1. Hosts and the engine -/

/-- A converter sees what the engine has made, and nothing if the engine fails. -/
theorem outcome_convertProduced {α β : Type} {engine : Alloc α} (h : engine.Unbroken)
    (convert : α → Except Fault β) (memory : Memory) :
    ((do
      let produced ← Scope.attempt engine
      convertProduced (produced.map fun value => .live (some value)) convert :
        Scope α (Except Fault β)).outcome memory).1
      = engine.outcome memory >>= convert := by
  rw [Scope.outcome, Scope.run_bind, Scope.run_attempt, Alloc.outcome]
  rcases h.cases memory with ⟨value, after, hrun⟩ | ⟨cause, after, hrun⟩
  · have hlive : (Resource.live (some value)).output = some value := rfl
    rw [hrun]
    exact congrArg (fun run => run.1.1) (run_convertProduced_some [] after hlive convert)
  · rw [hrun]
    exact congrArg (fun run => run.1.1) (run_convertProduced_failure [] after cause convert)

/-- The text of an extraction, unless memory was refused. -/
def extractedText (source : List Char) (extraction : InPlace TextBuffer Unit) (memory : Memory) :
    Option String :=
  ((intoNew (byteLength source) extraction).outcome memory).toOption.map TextBuffer.text

namespace Host

variable {β : Type} (host : Host β) (source : List Char) (memory : Memory)

theorem outcome_lex :
    ((host.lex source).outcome memory).1
      = (ErbTemplate.lex source).outcome memory >>= fun list =>
          host.tokenList (LexSnapshot.capture list.toList source) :=
  outcome_convertProduced (unbroken_lex source) _ memory

theorem outcome_parse (options : Option OptionLookup) :
    ((host.parse source options).outcome memory).1
      = (ErbTemplate.parse source (ParserOptions.normalize options)).outcome memory >>=
          fun document => host.document (ParseSnapshot.capture document source) :=
  outcome_convertProduced (unbroken_parse source (ParserOptions.normalize options)) _ memory

/-- A host presents the text that was extracted, if there is one. -/
theorem outcome_extractText (extraction : InPlace TextBuffer Unit) :
    ((host.extractText source extraction).outcome memory).1
      = match extractedText source extraction memory with
        | some text => (host.string text).map some
        | none => .ok none := by
  rw [Scope.outcome, extractedText, Alloc.outcome, intoNew, Alloc.run_bind]
  cases hinit : (TextBuffer.init (byteLength source)).run.run memory with
  | mk result granted =>
    cases result with
    | error fault =>
      rw [Handover.run_extractText_error host hinit]
      rfl
    | ok buffer =>
      simp only [InPlace.run_apply]
      cases hrun : (extraction.on buffer).run granted with
      | mk used after =>
        obtain ⟨result, filled⟩ := used
        rw [Handover.run_extractText_ok host hinit hrun]
        cases result <;> rfl

end Host

/-! ## 2. Agreement -/

/-- What three hosts come to with the same call: they hand over one value, each in its own form, or
    they report one failure. What the host of texts hands over is read by `read`. -/
inductive SameOutcome {α : Type} (read : α → Option Json) :
    Except Fault α → Except Violation Response → Except ScriptException Json → Prop
  | value {given : α} {response : Response} {tree value : Json} (text : read given = some value)
      (page : response.data? = some value)
      (script : (ScriptValue.ofJson tree).toJson? = some value) :
      SameOutcome read (.ok given) (.ok response) (.ok tree)
  | failure (cause : Failure) :
      SameOutcome read (.error (.failure cause)) (.ok (.err cause)) (.error (.ofFailure cause))

/-- What the engine makes survives all three forms, if it is plain. -/
theorem sameOutcome_of_plain {α : Type} {engine : Except Fault α} (encode : α → Json)
    (hunbroken : ∀ cause, engine ≠ .error (.violation cause))
    (hplain : ∀ value, engine = .ok value → Plain (encode value)) :
    SameOutcome decode? (engine >>= fun value => .ok (encode value).compact)
      (Response.ofResult (engine >>= fun value => .ok (encode value)))
      ((engine >>= fun value => .ok (encode value)).mapError ScriptException.ofFault) := by
  cases engine with
  | ok value =>
    have h := hplain value rfl
    exact .value (decode?_compact h) (Response.data?_ok h) (ScriptValue.toJson?_ofJson h)
  | error fault =>
    cases fault with
    | failure cause => exact .failure cause
    | violation cause => exact absurd rfl (hunbroken cause)

/-- An extracted text as JSON: `null` where there is none. -/
def textOrNull (text : Option String) : Option Json :=
  some (.orNull .string text)

theorem sameOutcome_of_text (text : Option String) :
    SameOutcome textOrNull (.ok text)
      (Response.ofResult (Page.extracted (.ok (text.map .string))))
      ((Script.extracted (.ok (text.map .string))).mapError ScriptException.ofFault) := by
  cases text with
  | none => exact .value rfl (Response.data?_ok .null) (ScriptValue.toJson?_ofJson .null)
  | some text =>
    have h : Plain (.string text) := .string text
    exact .value rfl (Response.data?_ok h) (ScriptValue.toJson?_ofJson h)

theorem Page.outcome_respond {α : Type} (source : String)
    (call : List Char → Scope α (Except Fault Json)) (memory : Memory) :
    ((respond (.string source) call).outcome memory).1
      = Response.ofResult ((call source.toList).outcome memory).1 := rfl

theorem Script.outcome_answer {α : Type} (source : String)
    (call : List Char → Scope α (Except Fault Json)) (memory : Memory) :
    ((answer (sourceOf (.str source)) call).outcome memory).1
      = ((call source.toList).outcome memory).1.mapError ScriptException.ofFault := rfl

theorem Scope.outcome_map {α β γ : Type} (call : Scope α β) (change : β → γ) (memory : Memory) :
    ((do return change (← call) : Scope α γ).outcome memory).1 = change (call.outcome memory).1 :=
  rfl

section Calls

variable (source : String) (memory : Memory)

theorem sameOutcome_lex :
    SameOutcome decode? ((jsonTextHost.lex source.toList).outcome memory).1
      ((Page.lex (.string source)).outcome memory).1
      ((Script.lex (.str source)).outcome memory).1 := by
  rw [Page.lex, Page.outcome_respond, Script.lex, Script.outcome_answer, Host.outcome_lex,
    Host.outcome_lex, Host.outcome_lex]
  have hunbroken : ∀ cause, (lex source.toList).outcome memory ≠ .error (.violation cause) :=
    unbroken_lex source.toList memory
  exact sameOutcome_of_plain
    (fun list : TokenList => (LexSnapshot.capture list.toList source.toList).toJson)
    hunbroken fun list h => plain_of_lex h

theorem sameOutcome_parse {forText forScript : OptionLookup} {assignment : Assignment}
    (htext : forText.Gives assignment) (hscript : forScript.Gives assignment)
    {page : PageValue} (hpage : page.options.Gives assignment) :
    SameOutcome decode? ((jsonTextHost.parse source.toList (some forText)).outcome memory).1
      ((Page.parse (.string source) page).outcome memory).1
      ((Script.parse (.str source) forScript).outcome memory).1 := by
  rw [Page.parse, Page.outcome_respond, Script.parse, Script.outcome_answer, Host.outcome_parse,
    Host.outcome_parse, Host.outcome_parse, hpage.parserOptions_eq htext,
    hscript.parserOptions_eq htext]
  exact sameOutcome_of_plain (fun document => (ParseSnapshot.capture document source.toList).toJson)
    (unbroken_parse source.toList _ memory)
    fun document _ => plain_parseSnapshot document source.toList

theorem outcome_extractText_text (extraction : InPlace TextBuffer Unit) :
    ((jsonTextHost.extractText source.toList extraction).outcome memory).1
      = .ok (extractedText source.toList extraction memory) := by
  rw [Host.outcome_extractText]
  cases extractedText source.toList extraction memory <;> rfl

theorem outcome_extractText_tree (kind package : String) (extraction : InPlace TextBuffer Unit) :
    (((jsonTreeHost kind package).extractText source.toList extraction).outcome memory).1
      = .ok ((extractedText source.toList extraction memory).map .string) := by
  rw [Host.outcome_extractText]
  cases extractedText source.toList extraction memory <;> rfl

/-- An extraction, made known to each host by the source. -/
theorem sameOutcome_extraction (extraction : List Char → InPlace TextBuffer Unit) :
    SameOutcome textOrNull
      ((jsonTextHost.extractText source.toList (extraction source.toList)).outcome memory).1
      ((Page.respond (.string source) fun text =>
        return Page.extracted (← Page.host.extractText text (extraction text))).outcome memory).1
      ((Script.answer (Script.sourceOf (.str source)) fun text =>
        return Script.extracted
          (← Script.host.extractText text (extraction text))).outcome memory).1 := by
  rw [Page.outcome_respond, Script.outcome_answer, Scope.outcome_map, Scope.outcome_map,
    outcome_extractText_text, Page.host, outcome_extractText_tree, Script.host,
    outcome_extractText_tree]
  exact sameOutcome_of_text _

theorem sameOutcome_extractRuby {forText forScript : OptionLookup} {assignment : Assignment}
    (htext : forText.Gives assignment) (hscript : forScript.Gives assignment)
    {page : PageValue} (hpage : page.options.Gives assignment) :
    SameOutcome textOrNull
      ((jsonTextHost.extractRuby source.toList (some forText)).outcome memory).1
      ((Page.extractRuby (.string source) page).outcome memory).1
      ((Script.extractRuby (.str source) forScript).outcome memory).1 := by
  have h := sameOutcome_extraction source memory fun text =>
    extractRuby text (ExtractOptions.normalize (some forText) {})
  simp only [Page.extractRuby, Script.extractRuby, Host.extractRuby,
    hpage.extractOptions_eq htext, hscript.extractOptions_eq htext]
  exact h

theorem sameOutcome_extractHtml :
    SameOutcome textOrNull ((jsonTextHost.extractHtml source.toList).outcome memory).1
      ((Page.extractHtml (.string source)).outcome memory).1
      ((Script.extractHtml (.str source)).outcome memory).1 :=
  sameOutcome_extraction source memory extractHtml

end Calls

/-! ## 3. Enough memory -/

/-- A memory that grants the room for the tokens of a source. -/
structure Memory.HoldsTokens (memory : Memory) (source : List Char) : Prop where
  block : 2 * TokenList.tokenSize * (byteLength source + 1) ≤ Memory.maxBlock
  grants : memory.GrantsUpTo (2 * TokenList.tokenSize * (byteLength source + 1))

section Values

variable (source : String)

theorem exists_lexed :
    ∃ text, ∀ memory : Memory, memory.HoldsTokens source.toList →
      ((jsonTextHost.lex source.toList).outcome memory).1 = .ok text := by
  refine ⟨(LexSnapshot.capture (tokens source.toList) source.toList).toJson.compact, ?_⟩
  intro memory hmemory
  obtain ⟨list, after, hrun, -⟩ :=
    exists_run_lex hmemory.grants hmemory.block (Nat.le_refl _)
  have hlist : (lex source.toList).outcome memory = .ok list := congrArg Prod.fst hrun
  rw [Host.outcome_lex, hlist, ← toList_of_lex hlist]
  rfl

theorem exists_parsed (options : Option OptionLookup) :
    ∃ text, ∀ memory : Memory, memory.HoldsTokens source.toList →
      ((jsonTextHost.parse source.toList options).outcome memory).1 = .ok text := by
  refine ⟨(ParseSnapshot.capture (parsed source.toList (ParserOptions.normalize options))
    source.toList).toJson.compact, ?_⟩
  intro memory hmemory
  obtain ⟨document, h⟩ :=
    (yields_parse source.toList _ memory).2 hmemory.block hmemory.grants
  rw [Host.outcome_parse, h, eq_parsed_of_parse h]
  rfl

/-- The new buffer of an extraction asks for less than the tokens do. -/
theorem exists_extracted {extraction : InPlace TextBuffer Unit} {bytes : List UInt8}
    (h : ∀ capacity, (intoNew capacity extraction).Yields (room source.toList capacity)
      fun buffer => buffer.bytes = bytes) :
    ∃ text, ∀ memory : Memory, memory.HoldsTokens source.toList →
      ((jsonTextHost.extractText source.toList extraction).outcome memory).1
        = .ok (some text) := by
  refine ⟨(ofBytes? bytes).getD "", ?_⟩
  intro memory hmemory
  obtain ⟨hbytes, hreturns⟩ := h (byteLength source.toList) memory
  rw [room_byteLength] at hreturns
  obtain ⟨buffer, hbuffer⟩ := hreturns hmemory.block hmemory.grants
  rw [outcome_extractText_text, extractedText, hbuffer, ← hbytes buffer hbuffer]
  rfl

end Values

/-! ## 4. The contract -/

/-- **All hosts mean the same.** A source and an assignment of the options, written down for each
    host in its own idiom and in any order, come to the same outcome in all hosts, whatever the
    memory. Where there is memory for the tokens of the source, the outcome is a value that does not
    depend on the memory. -/
theorem hosts_agree (source : String) (assignment : Assignment)
    (forText forPage forScript : Listing assignment) :
    ∃ options lexed parsed code markup,
      OptionLookup.ofText? forText.jsonObject.compact = some options
      ∧ ∀ memory : Memory,
        SameOutcome decode? ((jsonTextHost.lex source.toList).outcome memory).1
          ((Page.lex (.string source)).outcome memory).1
          ((Script.lex (.str source)).outcome memory).1
        ∧ SameOutcome decode? ((jsonTextHost.parse source.toList (some options)).outcome memory).1
          ((Page.parse (.string source) forPage.pageValue).outcome memory).1
          ((Script.parse (.str source) forScript.scriptOptions).outcome memory).1
        ∧ SameOutcome textOrNull
          ((jsonTextHost.extractRuby source.toList (some options)).outcome memory).1
          ((Page.extractRuby (.string source) forPage.pageValue).outcome memory).1
          ((Script.extractRuby (.str source) forScript.scriptOptions).outcome memory).1
        ∧ SameOutcome textOrNull ((jsonTextHost.extractHtml source.toList).outcome memory).1
          ((Page.extractHtml (.string source)).outcome memory).1
          ((Script.extractHtml (.str source)).outcome memory).1
        ∧ (memory.HoldsTokens source.toList →
          ((jsonTextHost.lex source.toList).outcome memory).1 = .ok lexed
          ∧ ((jsonTextHost.parse source.toList (some options)).outcome memory).1 = .ok parsed
          ∧ ((jsonTextHost.extractRuby source.toList (some options)).outcome memory).1
              = .ok (some code)
          ∧ ((jsonTextHost.extractHtml source.toList).outcome memory).1 = .ok (some markup)) := by
  have htext := forText.gives_jsonObject
  have hpage := forPage.gives_pageValue
  have hscript := forScript.gives_scriptOptions
  obtain ⟨lexed, hlexed⟩ := exists_lexed source
  obtain ⟨parsed, hparsed⟩ :=
    exists_parsed source (some (OptionSet.ofJson forText.jsonObject).lookup)
  obtain ⟨code, hcode⟩ := exists_extracted source fun capacity =>
    yields_code (ExtractOptions.normalize (some (OptionSet.ofJson forText.jsonObject).lookup) {})
      source.toList capacity
  obtain ⟨markup, hmarkup⟩ := exists_extracted source (yields_markup source.toList)
  refine ⟨_, lexed, parsed, code, markup, forText.ofText?_jsonObject, ?_⟩
  intro memory
  refine ⟨sameOutcome_lex source memory, sameOutcome_parse source memory htext hscript hpage,
    sameOutcome_extractRuby source memory htext hscript hpage,
    sameOutcome_extractHtml source memory, ?_⟩
  intro hmemory
  exact ⟨hlexed memory hmemory, hparsed memory hmemory, hcode memory hmemory,
    hmarkup memory hmemory⟩

/-- Positions are asked for as a symbol and declined as a text; comments are asked for as a symbol
    only. -/
def Assignment.atOdds : Assignment
  | .textual, .preservePositions => some false
  | .symbolic, .preservePositions => some true
  | .symbolic, .comments => some true
  | _, _ => none

/-- A comment with a control character in it is kept, and not at its place. -/
theorem hosts_agree_at_odds :
    (Listing.standard .atOdds).jsonObject.compact
        = "\x7b\"preserve_positions\":false,\":comments\":true,\":preserve_positions\":true\x7d"
      ∧ ∃ options code,
        OptionLookup.ofText? (Listing.standard .atOdds).jsonObject.compact = some options
        ∧ ((jsonTextHost.extractRuby "<%# é\x01 %>".toList (some options)).outcome .standard).1
            = .ok (some code)
        ∧ SameOutcome textOrNull (.ok (some code))
          ((Page.extractRuby (.string "<%# é\x01 %>")
            (Listing.standard .atOdds).pageValue).outcome .standard).1
          ((Script.extractRuby (.str "<%# é\x01 %>")
            (Listing.standard .atOdds).scriptOptions).outcome .standard).1 := by
  refine ⟨by decide +kernel, ?_⟩
  obtain ⟨options, _, _, code, _, hoptions, hagree⟩ := hosts_agree "<%# é\x01 %>" .atOdds
    (.standard _) (.standard _) (.standard _)
  obtain ⟨-, -, hcode, -, hvalues⟩ := hagree .standard
  have hmemory : Memory.standard.HoldsTokens "<%# é\x01 %>".toList :=
    ⟨by decide +kernel, Memory.grantsUpTo_standard (by decide +kernel)⟩
  obtain ⟨-, -, hvalue, -⟩ := hvalues hmemory
  rw [hvalue] at hcode
  exact ⟨options, code, hoptions, hvalue, hcode⟩

end ErbTemplate
