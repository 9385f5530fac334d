import ErbTemplate.Host.Contract
import ErbTemplate.Proofs.Extraction.Markup

/-!
# Every result is released once

A result of the engine belongs to the call that asked for it, from its production to its release.
This file says for each way to make such a call what it can leave behind: the value that the caller
gets, and the events in between, in their order. `Settled` lists the possibilities, one constructor
for each.

**`settled_perform`** says that there are no others. It rests on one fact about scopes
(`run_withResource`): the converter may give a value, refuse or break off, and exactly one release
follows. Of the operations of a host it also has to be known that the engine itself never breaks
off, which `unbroken_lex` and `unbroken_extraction` say for every memory.

A run of many calls is settled call by call (`history_performAll`), and a monitor that follows the
events of the whole run (`follow`) sees a production only when nothing is held, a conversion only
of what is held, and in the end nothing held.
-/

set_option autoImplicit false

namespace ErbTemplate

/-! ## 1. Scopes -/

namespace Scope

variable {α β γ : Type}

theorem run_pure (value : β) (events : List (Event α)) (memory : Memory) :
    ((pure value : Scope α β).run events).run memory = ((value, events), memory) := rfl

theorem run_record (event : Event α) (events : List (Event α)) (memory : Memory) :
    ((record event).run events).run memory = (((), events ++ [event]), memory) := rfl

theorem run_attempt (computation : Alloc β) (events : List (Event α)) (memory : Memory) :
    ((attempt computation).run events).run memory
      = (((computation.run.run memory).1, events), (computation.run.run memory).2) := rfl

theorem run_lift (computation : StateM Memory β) (events : List (Event α)) (memory : Memory) :
    ((StateT.lift computation : Scope α β).run events).run memory
      = (((computation.run memory).1, events), (computation.run memory).2) := rfl

theorem run_bind (first : Scope α β) (second : β → Scope α γ) (events : List (Event α))
    (memory : Memory) :
    ((first >>= second).run events).run memory =
      match (first.run events).run memory with
      | ((value, events), memory) => ((second value).run events).run memory := rfl

end Scope

section Conversion

variable {α β : Type} (events : List (Event α)) (memory : Memory)

/-- **A scope ends with one release**, whatever became of the use of its resource. -/
theorem run_withResource (resource : Resource α) (run : Option α → Scope α (Except Fault β)) :
    ((withResource resource run).run events).run memory =
      match ((run resource.output).run events).run memory with
      | ((result, events), memory) => ((result, events ++ [resource.releaseEvent]), memory) := by
  have houtput : (Handle.own resource).output = resource.output := rfl
  simp only [withResource]
  rw [Scope.run_bind, houtput]
  generalize ((run resource.output).run events).run memory = used
  obtain ⟨⟨result, events⟩, memory⟩ := used
  -- released after the use, or at the end of the scope where the use broke off
  simp only
  cases breaksOff result <;> rfl

theorem run_produceBeside {Cell : Type} (resource : Resource α) (cell : Cell) :
    ((produceBeside resource cell).run events).run memory
      = ((.ok (resource, cell), events ++ [.produced]), memory) := rfl

variable {events memory} in
/-- A producer that has made a resource hands it over to a scope, and its cell to the converter. -/
theorem run_convertWithCell {Cell : Type} {produce : Scope α (Except Violation (Resource α × Cell))}
    {resource : Resource α} {cell : Cell} {started : List (Event α)} {after : Memory}
    (h : (produce.run events).run memory = ((.ok (resource, cell), started), after))
    (convert : Cell → Option α → Scope α (Except Fault β)) :
    ((convertWithCell produce convert).run events).run memory
      = ((withResource resource (convert cell)).run started).run after := by
  rw [convertWithCell, Scope.run_bind, h]

theorem run_convertScoped (resource : Resource α) (convert : Option α → Except Fault β) :
    ((convertScoped resource convert).run events).run memory
      = ((convert resource.output,
          events ++ [.produced, .converting resource.output, resource.releaseEvent]), memory) := by
  rw [convertScoped, run_convertWithCell (run_produceBeside events memory resource ())]
  simp only [run_withResource, runConverter, Scope.run_bind, Scope.run_record, Scope.run_pure,
    List.append_assoc]
  rfl

/-- The failure of a producer waits in the cell until the converter finds nothing. -/
theorem run_convertProduced_failure (cause : Failure) (convert : α → Except Fault β) :
    ((convertProduced (.error (.failure cause)) convert).run events).run memory
      = ((.error (.failure cause), events ++ [.standInReleased]), memory) := by
  have hproduced : ((produceOrStandIn (.error (.failure cause)) :
      Scope α (Except Violation (Resource α × Option Failure))).run events).run memory
        = ((.ok (.standIn, some cause), events), memory) := rfl
  rw [convertProduced, run_convertWithCell hproduced, run_withResource]
  rfl

theorem run_convertProduced_some {resource : Resource α} {value : α}
    (h : resource.output = some value) (convert : α → Except Fault β) :
    ((convertProduced (.ok resource) convert).run events).run memory
      = ((convert value, events ++ [.produced, .converting (some value), .released]), memory) := by
  have hlive : resource.releaseEvent = .released := by
    cases resource with
    | standIn => cases h
    | live => rfl
  rw [convertProduced, produceOrStandIn,
    run_convertWithCell (run_produceBeside events memory resource none)]
  simp only [run_withResource, h, hlive, runConverter, Scope.run_bind, Scope.run_record,
    Scope.run_pure, List.append_assoc]
  rfl

theorem run_convertProduced_none {resource : Resource α} (h : resource.output = none)
    (convert : α → Except Fault β) :
    ((convertProduced (.ok resource) convert).run events).run memory
      = ((.error (.failure noResult), events ++ [.produced, resource.releaseEvent]), memory) := by
  rw [convertProduced, produceOrStandIn,
    run_convertWithCell (run_produceBeside events memory resource none)]
  simp only [run_withResource, h, Scope.run_pure, List.append_assoc]
  rfl

end Conversion

/-! ## 2. The engine never breaks off -/

theorem unbroken_parse (source : List Char) (options : ParserOptions) :
    (parse source options).Unbroken := by
  intro memory cause
  have hlex := unbroken_lex source memory cause
  rw [parse, Alloc.run_bind]
  generalize (lex source).run.run memory = answer at hlex ⊢
  obtain ⟨fault | list, after⟩ := answer
  · intro hfault
    cases hfault
    exact hlex rfl
  · intro hfault
    cases hfault

inductive Extract where
  | code (options : Option OptionLookup)
  | markup

/-- What an extraction does to its buffer. -/
def Extract.operation (source : List Char) : Extract → InPlace TextBuffer Unit
  | code options => extractRuby source (ExtractOptions.normalize options {})
  | markup => extractHtml source

theorem unbroken_extraction (source : List Char) (extract : Extract) :
    InPlace.Unbroken ItemArray.IsLive (extract.operation source) := by
  cases extract with
  | code options => exact Extraction.unbroken_writing (Extraction.valid_codeWrites _ source)
  | markup => exact Extraction.unbroken_writing (Extraction.valid_markupWrites source)

/-! ## 3. Handing over -/

/-- A call that hands a result of the engine over to a host. -/
inductive Handover : Type 1 where
  /-- A result of any kind, converted whether it offers an output or not. -/
  | ofResource {α β : Type} (resource : Resource α) (convert : Option α → Except Fault β)
  /-- What a producer produces, converted if there is an output. -/
  | ofProducer {α β : Type} (producer : Except Failure (Resource α)) (convert : α → Except Fault β)
  | lex {β : Type} (host : Host β) (source : List Char)
  | parse {β : Type} (host : Host β) (source : List Char) (options : Option OptionLookup)
  | extract {β : Type} (host : Host β) (source : List Char) (extract : Extract)

namespace Handover

def Offer : Handover → Type
  | @ofResource α _ _ _ => α
  | @ofProducer α _ _ _ => α
  | lex .. => TokenList
  | parse .. => Document
  | extract .. => String

/-- What the caller gets, unless the call fails. -/
def Value : Handover → Type
  | @ofResource _ β _ _ => β
  | @ofProducer _ β _ _ => β
  | @lex β _ _ => β
  | @parse β _ _ _ => β
  | @extract β _ _ _ => Option β

def run : (call : Handover) → Scope call.Offer (Except Fault call.Value)
  | ofResource resource convert => convertScoped resource convert
  | ofProducer producer convert => convertProduced (producer.mapError .failure) convert
  | lex host source => host.lex source
  | parse host source options => host.parse source options
  | extract host source (.code options) => host.extractRuby source options
  | extract host source .markup => host.extractHtml source

/-- A call that has returned: what the caller got, and what happened before. -/
structure Report : Type 1 where
  call : Handover
  result : Except Fault call.Value
  events : List (Event call.Offer)

def perform (call : Handover) (memory : Memory) : Report × Memory :=
  match (call.run.run []).run memory with
  | ((result, events), memory) => (⟨call, result, events⟩, memory)

def performAll : List Handover → Memory → List Report × Memory
  | [], memory => ([], memory)
  | call :: calls, memory =>
    let (report, memory) := call.perform memory
    let (reports, memory) := performAll calls memory
    (report :: reports, memory)

/-! ## 4. What a call leaves behind -/

/-- The report of a call, and the memory before and after it. -/
inductive Settled : Memory → Report → Memory → Prop
  /-- The converter sees what there is, be it nothing, and its result is that of the call. -/
  | converted {α β : Type} {memory : Memory} (resource : Resource α)
      (convert : Option α → Except Fault β) :
      Settled memory ⟨.ofResource resource convert, convert resource.output,
        [.produced, .converting resource.output, resource.releaseEvent]⟩ memory
  /-- The converter sees the output, and its result is that of the call. -/
  | offered {α β : Type} {memory : Memory} (resource : Resource α) {value : α}
      (convert : α → Except Fault β) (offers : resource.output = some value) :
      Settled memory ⟨.ofProducer (.ok resource) convert, convert value,
        [.produced, .converting (some value), .released]⟩ memory
  | withheld {α β : Type} {memory : Memory} (resource : Resource α)
      (convert : α → Except Fault β) (offers : resource.output = none) :
      Settled memory ⟨.ofProducer (.ok resource) convert,
        .error (.failure (.conversion "engine produced no result")),
        [.produced, resource.releaseEvent]⟩ memory
  /-- There is no result, and the failure of the producer is that of the call. -/
  | failed {α β : Type} {memory : Memory} (cause : Failure) (convert : α → Except Fault β) :
      Settled memory ⟨.ofProducer (.error cause) convert, .error (.failure cause),
        [.standInReleased]⟩ memory
  | lexed {β : Type} {memory after : Memory} {source : List Char} {list : TokenList}
      (host : Host β) (done : (ErbTemplate.lex source).run.run memory = (.ok list, after)) :
      Settled memory ⟨.lex host source,
        host.tokenList (LexSnapshot.capture list.toList source),
        [.produced, .converting (some list), .released]⟩ after
  | notLexed {β : Type} {memory after : Memory} {source : List Char} {cause : Failure}
      (host : Host β)
      (refused : (ErbTemplate.lex source).run.run memory = (.error (.failure cause), after)) :
      Settled memory ⟨.lex host source, .error (.failure cause), [.standInReleased]⟩ after
  | parsed {β : Type} {memory after : Memory} {source : List Char}
      {options : Option OptionLookup} {document : Document} (host : Host β)
      (done : (ErbTemplate.parse source (ParserOptions.normalize options)).run.run memory
        = (.ok document, after)) :
      Settled memory ⟨.parse host source options,
        host.document (ParseSnapshot.capture document source),
        [.produced, .converting (some document), .released]⟩ after
  | notParsed {β : Type} {memory after : Memory} {source : List Char}
      {options : Option OptionLookup} {cause : Failure} (host : Host β)
      (refused : (ErbTemplate.parse source (ParserOptions.normalize options)).run.run memory
        = (.error (.failure cause), after)) :
      Settled memory ⟨.parse host source options, .error (.failure cause),
        [.standInReleased]⟩ after
  /-- There is not even a buffer. -/
  | noBuffer {β : Type} {memory after : Memory} {source : List Char} {cause : Failure}
      (host : Host β) (extract : Extract)
      (refused : (TextBuffer.init (Text.byteLength source)).run.run memory
        = (.error (.failure cause), after)) :
      Settled memory ⟨.extract host source extract, .ok none, []⟩ after
  | extracted {β : Type} {memory granted after : Memory} {source : List Char}
      {buffer filled : TextBuffer} {extract : Extract} (host : Host β)
      (room : (TextBuffer.init (Text.byteLength source)).run.run memory = (.ok buffer, granted))
      (done : ((extract.operation source).on buffer).run granted = ((.ok (), filled), after)) :
      Settled memory ⟨.extract host source extract, (host.string filled.text).map some,
        [.produced, .converting (some filled.text), .released]⟩ after
  /-- The buffer was not filled to the end; it is released all the same. -/
  | notExtracted {β : Type} {memory granted after : Memory} {source : List Char}
      {buffer filled : TextBuffer} {extract : Extract} {cause : Failure} (host : Host β)
      (room : (TextBuffer.init (Text.byteLength source)).run.run memory = (.ok buffer, granted))
      (refused : ((extract.operation source).on buffer).run granted
        = ((.error (.failure cause), filled), after)) :
      Settled memory ⟨.extract host source extract, .ok none,
        [.produced, .converting none, .released]⟩ after

/-! ## 5. Every call is settled -/

theorem settled_of_run {call : Handover} {memory after : Memory} {result : Except Fault call.Value}
    {events : List (Event call.Offer)}
    (h : (call.run.run []).run memory = ((result, events), after))
    (hsettled : Settled memory ⟨call, result, events⟩ after) :
    Settled memory (call.perform memory).1 (call.perform memory).2 := by
  rw [perform, h]
  exact hsettled

section Hosts

variable {β : Type} (host : Host β) (source : List Char) (memory : Memory)

theorem settled_lex :
    Settled memory ((Handover.lex host source).perform memory).1
      ((Handover.lex host source).perform memory).2 := by
  rcases (unbroken_lex source).cases memory with ⟨list, after, hrun⟩ | ⟨cause, after, hrun⟩
  · refine settled_of_run ?_ (.lexed host hrun)
    show ((host.lex source).run []).run memory = _
    rw [Host.lex, Scope.run_bind, Scope.run_attempt, hrun]
    exact run_convertProduced_some [] after rfl _
  · refine settled_of_run ?_ (.notLexed host hrun)
    show ((host.lex source).run []).run memory = _
    rw [Host.lex, Scope.run_bind, Scope.run_attempt, hrun]
    exact run_convertProduced_failure [] after cause _

theorem settled_parse (options : Option OptionLookup) :
    Settled memory ((Handover.parse host source options).perform memory).1
      ((Handover.parse host source options).perform memory).2 := by
  rcases (unbroken_parse source (ParserOptions.normalize options)).cases memory with
    ⟨document, after, hrun⟩ | ⟨cause, after, hrun⟩
  · refine settled_of_run ?_ (.parsed host hrun)
    show ((host.parse source options).run []).run memory = _
    rw [Host.parse, Scope.run_bind, Scope.run_attempt, hrun]
    exact run_convertProduced_some [] after rfl _
  · refine settled_of_run ?_ (.notParsed host hrun)
    show ((host.parse source options).run []).run memory = _
    rw [Host.parse, Scope.run_bind, Scope.run_attempt, hrun]
    exact run_convertProduced_failure [] after cause _

theorem run_extract (extract : Extract) :
    (Handover.extract host source extract).run
      = host.extractText source (extract.operation source) := by
  cases extract <;> rfl

variable {source memory}

theorem run_extractText_error {extraction : InPlace TextBuffer Unit} {fault : Fault}
    {after : Memory}
    (h : (TextBuffer.init (Text.byteLength source)).run.run memory = (.error fault, after)) :
    ((host.extractText source extraction).run []).run memory = ((.ok none, []), after) := by
  rw [Host.extractText, Scope.run_bind, Scope.run_attempt, h]
  rfl

theorem run_extractText_ok {extraction : InPlace TextBuffer Unit} {buffer filled : TextBuffer}
    {result : Except Fault Unit} {granted after : Memory}
    (h : (TextBuffer.init (Text.byteLength source)).run.run memory = (.ok buffer, granted))
    (hrun : (extraction.on buffer).run granted = ((result, filled), after)) :
    ((host.extractText source extraction).run []).run memory
      = ((match (Resource.ofExtraction result filled).output with
          | some text => (host.string text).map some
          | none => .ok none,
        [.produced, .converting (Resource.ofExtraction result filled).output,
         (Resource.ofExtraction result filled).releaseEvent]), after) := by
  rw [Host.extractText, Scope.run_bind, Scope.run_attempt, h]
  simp only
  rw [Scope.run_bind, Scope.run_lift, hrun]
  exact run_convertScoped [] after _ _

variable (source memory)

theorem settled_extract (extract : Extract) :
    Settled memory ((Handover.extract host source extract).perform memory).1
      ((Handover.extract host source extract).perform memory).2 := by
  rcases (TextBuffer.unbroken_init (Text.byteLength source)).cases memory with
    ⟨buffer, granted, hinit⟩ | ⟨cause, after, hinit⟩
  · have hlive := TextBuffer.isLive_of_init hinit
    have hnever := (unbroken_extraction source extract buffer granted hlive).2
    cases hrun : ((extract.operation source).on buffer).run granted with
    | mk used after =>
      obtain ⟨(cause | cause) | done, filled⟩ := used
      · refine settled_of_run ?_ (.notExtracted host hinit hrun)
        rw [run_extract]
        exact run_extractText_ok host hinit hrun
      · rw [hrun] at hnever
        exact absurd rfl (hnever cause)
      · refine settled_of_run ?_ (.extracted host hinit hrun)
        rw [run_extract]
        exact run_extractText_ok host hinit hrun
  · refine settled_of_run ?_ (.noBuffer host extract hinit)
    rw [run_extract]
    exact run_extractText_error host hinit

end Hosts

theorem settled_perform (call : Handover) (memory : Memory) :
    Settled memory (call.perform memory).1 (call.perform memory).2 := by
  cases call with
  | ofResource resource convert =>
    exact settled_of_run (run_convertScoped [] memory resource convert)
      (.converted resource convert)
  | ofProducer producer convert =>
    cases producer with
    | error cause =>
      exact settled_of_run (run_convertProduced_failure [] memory cause convert)
        (.failed cause convert)
    | ok resource =>
      cases houtput : resource.output with
      | none =>
        exact settled_of_run (run_convertProduced_none [] memory houtput convert)
          (.withheld resource convert houtput)
      | some value =>
        exact settled_of_run (run_convertProduced_some [] memory houtput convert)
          (.offered resource convert houtput)
  | lex host source => exact settled_lex host source memory
  | parse host source options => exact settled_parse host source memory options
  | extract host source extract => exact settled_extract host source memory extract

/-! ## 6. Many calls -/

/-- The reports of calls made one after the other, each in the memory that the one before left. -/
inductive History : List Handover → Memory → List Report → Memory → Prop
  | nil (memory : Memory) : History [] memory [] memory
  | cons {calls : List Handover} {memory between after : Memory} {report : Report}
      {reports : List Report} (settled : Settled memory report between)
      (rest : History calls between reports after) :
      History (report.call :: calls) memory (report :: reports) after

theorem history_performAll (calls : List Handover) (memory : Memory) :
    History calls memory (performAll calls memory).1 (performAll calls memory).2 := by
  induction calls generalizing memory with
  | nil => exact .nil memory
  | cons call calls ih => exact .cons (settled_perform call memory) (ih _)

/-- Whether a result is held after an event, if the event may happen at all: results are produced
    one at a time, converted while they are held, and released once. A stand-in may be given back
    without having been produced. -/
def follow {α : Type} : Bool → Event α → Option Bool
  | false, .produced => some true
  | true, .converting _ => some true
  | true, .released => some false
  | _, .standInReleased => some false
  | _, _ => none

/-- What is left of an event when its output is forgotten. -/
def kindOf {α : Type} : Event α → Event Unit
  | .produced => .produced
  | .converting output => .converting (output.map fun _ => ())
  | .released => .released
  | .standInReleased => .standInReleased

def trace (reports : List Report) : List (Event Unit) :=
  reports.flatMap fun report => report.events.map kindOf

theorem follow_releaseEvent {α : Type} (resource : Resource α) :
    follow true (kindOf resource.releaseEvent) = some false := by
  cases resource <;> rfl

/-- A call begins and ends with nothing held. -/
theorem Settled.follows {memory after : Memory} {report : Report}
    (h : Settled memory report after) :
    (report.events.map kindOf).foldlM follow false = some false := by
  cases h with
  | converted resource | withheld resource =>
    show (follow true (kindOf resource.releaseEvent) >>= pure) = _
    rw [follow_releaseEvent]
    rfl
  | offered | failed | lexed | notLexed | parsed | notParsed | noBuffer | extracted
    | notExtracted => rfl

theorem History.follows {calls : List Handover} {memory after : Memory} {reports : List Report}
    (h : History calls memory reports after) :
    (trace reports).foldlM follow false = some false := by
  induction h with
  | nil => rfl
  | cons settled _ ih =>
    rw [trace, List.flatMap_cons, List.foldlM_append, settled.follows]
    exact ih

/-- **Every result is released once.** Whatever calls are made, with whatever converters and however
    memory is refused: each call produces, converts and releases in this order and leaves nothing
    behind, and the caller gets the result of the converter, or the failure that kept it from
    running. -/
theorem results_released_once (calls : List Handover) (memory : Memory) :
    History calls memory (performAll calls memory).1 (performAll calls memory).2
      ∧ (trace (performAll calls memory).1).foldlM follow false = some false := by
  have h := history_performAll calls memory
  exact ⟨h, h.follows⟩

end Handover
end ErbTemplate
