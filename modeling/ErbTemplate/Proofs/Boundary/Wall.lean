import ErbTemplate.Proofs.Boundary.Slot
import ErbTemplate.Proofs.Memory.Writes

/-!
# No violation gets out

Behind the wall of a call works the engine, on what the caller has passed and on what the session
holds. `behindWall?` is what that work comes to. If it breaks off, the call still returns: with a
failure, a reason that says so, and a released buffer as released as before
(`exists_of_violation`).

A buffer that has been released is the one thing in a session that makes the engine break off.
Nothing can be written into it, not even nothing (`exists_violation_of_write`), so it is also what
the engine cannot change.
-/

set_option autoImplicit false

namespace ErbTemplate

open Text

/-! ## 1. Released buffers -/

namespace TextBuffer

variable {buffer : TextBuffer}

/-- A write into a released buffer breaks off at once. -/
theorem exists_violation_of_write (h : buffer.isReleased = true) (first : Write) (memory : Memory) :
    ∃ cause, ((write first).on buffer).run memory
      = ((.error (.violation cause), buffer), memory) := by
  cases hcause : first.violation? buffer with
  | none => exact absurd (Write.violation?_eq_none.1 hcause).2 (by simp [h])
  | some cause => exact ⟨cause, on_write_of_violation? hcause memory⟩

theorem on_writeAll_of_isReleased (h : buffer.isReleased = true) (writes : List Write)
    (memory : Memory) : (((writeAll writes).on buffer).run memory).1.2 = buffer := by
  cases writes with
  | nil => rfl
  | cons first others =>
    obtain ⟨cause, hrun⟩ := exists_violation_of_write h first memory
    rw [writeAll, InPlace.on_bind, hrun]

end TextBuffer

/-- What writes after lexing leaves a released buffer as it is. -/
theorem on_extraction_of_isReleased {buffer : TextBuffer} (h : buffer.isReleased = true)
    (source : List Char) (writes : List TextBuffer.Write) (memory : Memory) :
    (((do
      let _ ← InPlace.ofAlloc (lex source)
      TextBuffer.writeAll writes : InPlace TextBuffer Unit).on buffer).run memory).1.2
      = buffer := by
  rw [InPlace.on_bind, InPlace.on_ofAlloc]
  generalize (lex source).run.run memory = answer
  obtain ⟨_ | _, lexed⟩ := answer
  · rfl
  · exact TextBuffer.on_writeAll_of_isReleased h writes lexed

namespace Session

/-! ## 2. Behind the wall -/

/-- The text that a caller has passed, if it is one. -/
def textOf? (argument : TextArgument) : Option (List Char) :=
  argument.bind fun bytes => (ofBytes? (bytes.takeWhile (· != 0))).map String.toList

/-- The option set that a caller has passed, or none, if it is one. -/
def optionsOf? (argument : TextArgument) : Option (Option OptionSet) :=
  match argument with
  | none => some none
  | some _ => (textOf? argument).bind fun text => (Json.read? text).map fun document =>
      some (OptionSet.ofJson document)

/-- What the work of the engine behind the wall of a call comes to. There is none if the call needs
    no engine, or if it is turned away for what the caller has passed. -/
def behindWall? (session : Session) : Call → Option (Except Fault Unit)
  | .lex source => do
    let text ← textOf? source
    return ((ErbTemplate.lex text).outcome session.memory).map fun _ => ()
  | .lexFile path => do
    let text ← textOf? path
    let source ← (session.files.readSource (String.ofList text)).toOption
    return ((ErbTemplate.lex source).outcome session.memory).map fun _ => ()
  | .parse source options => do
    let text ← textOf? source
    return ((ErbTemplate.parse text (options.getD {})).outcome session.memory).map fun _ => ()
  | .extractRubyInto source options => do
    let buffer ← session.buffer
    let text ← textOf? source
    return (((extractRuby text (options.getD {})).on buffer).run session.memory).1.1
  | .extractHtmlInto source => do
    let buffer ← session.buffer
    let text ← textOf? source
    return (((extractHtml text).on buffer).run session.memory).1.1
  | .lexToJson true source => do
    let text ← textOf? source
    return ((jsonTextHost.lex text).outcome session.memory).1.map fun _ => ()
  | .parseToJson true source options => do
    let text ← textOf? source
    let set ← optionsOf? options
    return ((jsonTextHost.parse text (set.map OptionSet.lookup)).outcome session.memory).1.map
      fun _ => ()
  | .extractRubyToText true source options => do
    let text ← textOf? source
    let set ← optionsOf? options
    return ((jsonTextHost.extractRuby text (set.map OptionSet.lookup)).outcome session.memory).1.map
      fun _ => ()
  | _ => none

variable {α β : Type} {session : Session} {cause : Violation}

theorem run_inMemory (computation : StateM Memory α) (session : Session) :
    (inMemory computation).run.run session
      = (.ok (computation.run session.memory).1,
          { session with memory := (computation.run session.memory).2 }) := rfl

theorem run_readText {argument : TextArgument} {text : List Char} (h : textOf? argument = some text)
    (session : Session) : (readText argument).run.run session = (.ok text, session) := by
  cases argument with
  | none => cases h
  | some bytes =>
    obtain ⟨string, hstring, rfl⟩ := Option.map_eq_some_iff.1 h
    simp only [readText, hstring]
    rfl

theorem run_readOptions {argument : TextArgument} {set : Option OptionSet}
    (h : optionsOf? argument = some set) (session : Session) :
    (readOptions argument).run.run session = (.ok set, session) := by
  cases argument with
  | none =>
    cases h
    rfl
  | some bytes =>
    obtain ⟨text, htext, h⟩ := Option.bind_eq_some_iff.1 h
    obtain ⟨document, hdocument, rfl⟩ := Option.map_eq_some_iff.1 h
    rw [readOptions, run_bind, run_readText htext]
    simp only [hdocument]
    rfl

/-! ## 3. Bodies that break off -/

/-- A released buffer of the first session is there in the second, as it was. -/
def KeepsReleased (before after : Session) : Prop :=
  ∀ buffer, before.buffer = some buffer → buffer.isReleased = true → after.buffer = some buffer

/-- A body breaks off, and keeps a released buffer. -/
def Breaks (body : Body α) (session : Session) (cause : Violation) : Prop :=
  ∃ after, body.run.run session = (.error (.violation cause), after) ∧ session.KeepsReleased after

namespace Breaks

/-- Behind a part that only reads, a body breaks off where the rest does. -/
theorem after {first : Body α} {next : α → Body β} {value : α}
    (hfirst : first.run.run session = (.ok value, session))
    (h : Breaks (next value) session cause) :
    Breaks (first >>= next) session cause := by
  obtain ⟨after, hrun, hkeeps⟩ := h
  refine ⟨after, ?_, hkeeps⟩
  rw [run_bind, hfirst]
  exact hrun

theorem bind {first : Body α} (h : Breaks first session cause) (next : α → Body β) :
    Breaks (first >>= next) session cause := by
  obtain ⟨after, hrun, hkeeps⟩ := h
  refine ⟨after, ?_, hkeeps⟩
  rw [run_bind, hrun]

theorem allocate {computation : Alloc α}
    (h : (computation.outcome session.memory).map (fun _ => ()) = .error (.violation cause)) :
    Breaks (allocate computation) session cause := by
  have hrun : (Session.allocate computation).run.run session
      = (settle (computation.outcome session.memory)).run.run
        { session with memory := (computation.run.run session.memory).2 } := rfl
  refine ⟨{ session with memory := (computation.run.run session.memory).2 }, ?_, fun _ h _ => h⟩
  rw [hrun]
  generalize computation.outcome session.memory = outcome at h
  cases outcome with
  | ok value => cases h
  | error fault =>
    cases h
    rfl

theorem perform {operation : Scope α (Except Fault β)}
    (h : (operation.outcome session.memory).1.map (fun _ => ()) = .error (.violation cause)) :
    Breaks (perform operation) session cause := by
  have hrun : (Session.perform operation).run.run session
      = (settle (operation.outcome session.memory).1).run.run
        { session with memory := ((operation.run []).run session.memory).2 } := rfl
  refine ⟨{ session with memory := ((operation.run []).run session.memory).2 }, ?_, fun _ h _ => h⟩
  rw [hrun]
  generalize (operation.outcome session.memory).1 = outcome at h
  cases outcome with
  | ok value => cases h
  | error fault =>
    cases h
    rfl

/-- An extraction that breaks off leaves in the buffer what it wrote before; in a released one that
    is nothing. -/
theorem appendBody {source : TextArgument} {text : List Char} {buffer : TextBuffer}
    {extraction : List Char → InPlace TextBuffer Unit} (htext : textOf? source = some text)
    (hbuffer : session.buffer = some buffer)
    (hkeeps : ∀ memory, buffer.isReleased = true →
      (((extraction text).on buffer).run memory).1.2 = buffer)
    (h : (((extraction text).on buffer).run session.memory).1.1 = .error (.violation cause)) :
    Breaks (appendBody source extraction) session cause := by
  refine .after rfl ?_
  rw [hbuffer]
  refine .after rfl (.after (run_readText htext session) ?_)
  rcases hrun : ((extraction text).on buffer).run session.memory with ⟨⟨result, written⟩, memory⟩
  rw [hrun] at h
  have hkept := hkeeps session.memory
  rw [hrun] at hkept
  cases h
  refine ⟨{ session with memory, buffer := some written }, ?_, ?_⟩
  · have hmemory : (inMemory ((extraction text).on ((some buffer).getD .released))).run.run session
        = (.ok (.error (.violation cause), written), { session with memory }) := by
      rw [run_inMemory, Option.getD_some, hrun]
    rw [run_bind, hmemory]
    rfl
  · intro other hother hreleased
    obtain rfl := Option.some.inj (hbuffer.symm.trans hother)
    exact congrArg some (hkept hreleased)

/-- **The wall: what breaks off behind it is a failure in front of it.** -/
theorem contain {body : Body α} (h : Breaks body session cause) :
    ∃ after, (contain body).run session = (.error .internalError, after)
      ∧ after.lastError = some (withoutNul s!"Panic occurred: {cause.message}")
      ∧ session.KeepsReleased after := by
  obtain ⟨after, hrun, hkeeps⟩ := h
  refine ⟨{ after with lastError := some (withoutNul s!"Panic occurred: {cause.message}") }, ?_,
    rfl, hkeeps⟩
  rw [run_contain, hrun]

end Breaks

/-! ## 4. Calls that break off -/

/-- A call returns with a failure, says that it was a violation, and keeps a released buffer. -/
def ReturnsBroken (action : StateM Session Reply) (session : Session) (cause : Violation) : Prop :=
  ∃ reply after, action.run session = (reply, after) ∧ reply.failed = true
    ∧ after.lastError = some (withoutNul s!"Panic occurred: {cause.message}")
    ∧ session.KeepsReleased after

theorem returnsBroken_hold {place : Option α → Session → Session}
    (hslot : ∀ value session, (place value session).lastError = session.lastError)
    (hbuffer : ∀ value session, (place value session).buffer = session.buffer) {body : Body α}
    (h : Breaks body { place none session with lastError := none } cause) :
    ReturnsBroken (hold place body) session cause := by
  obtain ⟨after, hrun, hreason, hkeeps⟩ := h.contain
  refine ⟨.flag false, place none after, ?_, rfl, (hslot none after).trans hreason, ?_⟩
  · rw [run_hold, hrun]
    rfl
  · intro buffer hheld hreleased
    rw [hbuffer]
    exact hkeeps buffer ((hbuffer none session).trans hheld) hreleased

theorem returnsBroken_appendToBuffer {source : TextArgument}
    {extraction : List Char → InPlace TextBuffer Unit}
    (h : Breaks (appendBody source extraction) { session with lastError := none } cause) :
    ReturnsBroken (appendToBuffer source extraction) session cause := by
  obtain ⟨after, hrun, hslot, hkeeps⟩ := h.contain
  refine ⟨.flag false, after, ?_, rfl, hslot, hkeeps⟩
  rw [run_appendToBuffer, hrun]
  rfl

theorem returnsBroken_putOut {name : String} {body : Body String}
    (h : Breaks body { session with lastError := none, output := none } cause) :
    ReturnsBroken (putOut true name body) session cause := by
  have hbody : Breaks (putOutBody true name body) { session with lastError := none } cause := by
    obtain ⟨left, hrest, hkeeps⟩ := (h.bind handOver).bind fun text =>
      modify ({ · with output := some text })
    exact ⟨left, (run_putOutBody name body _).trans hrest, hkeeps⟩
  obtain ⟨after, hrun, hslot, hkeeps⟩ := hbody.contain
  refine ⟨.status .internalError (some after.output), after, ?_, rfl, hslot, hkeeps⟩
  rw [run_putOut, hrun]
  rfl

theorem ReturnsBroken.exists_run {action : StateM Session Reply} {call : Call}
    (h : ReturnsBroken action session cause) (hcall : Session.call call = liftM action) :
    ∃ reply after, (Session.call call).run.run session = (.ok reply, after) ∧ reply.failed = true
      ∧ after.lastError = some (withoutNul s!"Panic occurred: {cause.message}")
      ∧ session.KeepsReleased after := by
  obtain ⟨reply, after, hrun, htold⟩ := h
  refine ⟨reply, after, ?_, htold⟩
  rw [hcall]
  exact congrArg (fun answer : Reply × Session => (Except.ok answer.1, answer.2)) hrun

/-- **Whatever breaks off behind the wall, the call returns and tells it.** -/
theorem exists_of_violation {call : Call}
    (h : session.behindWall? call = some (.error (.violation cause))) :
    ∃ reply after, (Session.call call).run.run session = (.ok reply, after) ∧ reply.failed = true
      ∧ after.lastError = some (withoutNul s!"Panic occurred: {cause.message}")
      ∧ session.KeepsReleased after := by
  unfold behindWall? at h
  split at h
  next source =>
    obtain ⟨text, htext, h⟩ := Option.bind_eq_some_iff.1 h
    refine ReturnsBroken.exists_run
      (returnsBroken_hold lastError_withTokens buffer_withTokens ?_) rfl
    exact .after (run_readText htext _) (.allocate (Option.some.inj h))
  next path =>
    obtain ⟨text, htext, h⟩ := Option.bind_eq_some_iff.1 h
    obtain ⟨source, hsource, h⟩ := Option.bind_eq_some_iff.1 h
    refine ReturnsBroken.exists_run
      (returnsBroken_hold lastError_withTokens buffer_withTokens ?_) rfl
    refine .after (run_readText htext _) (.after rfl ?_)
    have hread : session.files.readSource (String.ofList text) = .ok source := by
      cases hfile : session.files.readSource (String.ofList text) with
      | error cause =>
        rw [hfile] at hsource
        cases hsource
      | ok contents =>
        rw [hfile] at hsource
        exact congrArg Except.ok (Option.some.inj hsource)
    simp only [withTokens, hread]
    exact .allocate (Option.some.inj h)
  next source options =>
    obtain ⟨text, htext, h⟩ := Option.bind_eq_some_iff.1 h
    refine ReturnsBroken.exists_run
      (returnsBroken_hold lastError_withDocument buffer_withDocument ?_) rfl
    exact .after (run_readText htext _) (.allocate (Option.some.inj h))
  next source options =>
    obtain ⟨buffer, hbuffer, h⟩ := Option.bind_eq_some_iff.1 h
    obtain ⟨text, htext, h⟩ := Option.bind_eq_some_iff.1 h
    refine ReturnsBroken.exists_run (returnsBroken_appendToBuffer ?_) rfl
    refine .appendBody htext hbuffer ?_ (Option.some.inj h)
    exact fun memory hreleased => on_extraction_of_isReleased hreleased text _ memory
  next source =>
    obtain ⟨buffer, hbuffer, h⟩ := Option.bind_eq_some_iff.1 h
    obtain ⟨text, htext, h⟩ := Option.bind_eq_some_iff.1 h
    refine ReturnsBroken.exists_run (returnsBroken_appendToBuffer ?_) rfl
    refine .appendBody htext hbuffer ?_ (Option.some.inj h)
    exact fun memory hreleased => on_extraction_of_isReleased hreleased text _ memory
  next source =>
    obtain ⟨text, htext, h⟩ := Option.bind_eq_some_iff.1 h
    refine ReturnsBroken.exists_run (returnsBroken_putOut ?_) rfl
    exact .after (run_readText htext _) (.perform (Option.some.inj h))
  next source options =>
    obtain ⟨text, htext, h⟩ := Option.bind_eq_some_iff.1 h
    obtain ⟨set, hset, h⟩ := Option.bind_eq_some_iff.1 h
    refine ReturnsBroken.exists_run (returnsBroken_putOut ?_) rfl
    refine .after (run_readText htext _) (.after (run_readOptions hset _) ?_)
    exact .perform (Option.some.inj h)
  next source options =>
    obtain ⟨text, htext, h⟩ := Option.bind_eq_some_iff.1 h
    obtain ⟨set, hset, h⟩ := Option.bind_eq_some_iff.1 h
    refine ReturnsBroken.exists_run (returnsBroken_putOut ?_) rfl
    refine .after (run_readText htext _) (.after (run_readOptions hset _) ?_)
    refine Breaks.bind ?_ _
    exact .perform (Option.some.inj h)
  next => cases h

/-- The reason of a violation can be told from any other by how it begins. -/
theorem isPrefix_withoutNul (message : String) :
    "Panic occurred: ".toList <+: (withoutNul s!"Panic occurred: {message}").toList := by
  have hfront : "Panic occurred: ".toList.flatMap
      (fun c => if c = '\x00' then ['\\', '0'] else [c]) = "Panic occurred: ".toList := by decide
  have htext :
      (s!"Panic occurred: {message}").toList = "Panic occurred: ".toList ++ message.toList :=
    String.toList_append
  refine ⟨(withoutNul message).toList, ?_⟩
  calc "Panic occurred: ".toList ++ (withoutNul message).toList
      = ("Panic occurred: ".toList ++ message.toList).flatMap
          (fun c => if c = '\x00' then ['\\', '0'] else [c]) := by
        rw [toList_withoutNul, List.flatMap_append, hfront]
    _ = (withoutNul s!"Panic occurred: {message}").toList := by rw [toList_withoutNul, htext]

end Session

open Session

/-- **The slot and the outputs tell the truth**, along every run of calls that no violation ends.
    Behind each call the slot has a message exactly if the latest call that sets it has failed, the
    message has no U+0000, and what is put out is there exactly on success. A violation behind the
    wall of a call is a failure like any other, known by its message, and leaves a released buffer
    released. -/
theorem last_error_tells_truth :
    (∀ (start after : Session) (failed : Bool) (calls : List Call)
        (answers : List (Reply × Option String)),
      SlotTells start.lastError failed →
        (callAll calls).run.run start = (.ok answers, after) →
          AnsweredTruly start.lastError failed calls answers)
      ∧ ∀ (session : Session) (call : Call) (cause : Violation),
        session.behindWall? call = some (.error (.violation cause)) →
          ∃ reply after message, (Session.call call).run.run session = (.ok reply, after)
            ∧ reply.failed = true
            ∧ after.lastError = some message ∧ "Panic occurred: ".toList <+: message.toList
            ∧ session.KeepsReleased after := by
  constructor
  · intro start after failed calls answers hslot hrun
    exact answeredTruly_callAll hslot hrun
  · intro session call cause h
    obtain ⟨reply, after, hrun, hfailed, hslot, hkeeps⟩ := exists_of_violation h
    exact ⟨reply, after, _, hrun, hfailed, hslot, isPrefix_withoutNul _, hkeeps⟩

/-- The violation that work has broken off with. -/
def violationOf? : Except Fault Unit → Option Violation
  | .error (.violation cause) => some cause
  | _ => none

theorem eq_of_violationOf? {result : Except Fault Unit} {cause : Violation}
    (h : violationOf? result = some cause) : result = .error (.violation cause) := by
  rcases result with (_ | _) | _ <;> cases h
  rfl

/-- A buffer is released and then written into; a source is missing, and the slot is cleared. -/
theorem last_error_tells_truth_released :
    (∃ answers after,
        (callAll [.initBuffer true 4, .releaseBuffer, .extractHtmlInto (some [60, 112, 62]),
          .bufferLength, .lexToJson true none, .clearError]).run.run (Session.new ⟨[]⟩)
            = (.ok answers, after)
        ∧ answers.map (fun answer => answer.2.isSome) = [false, false, true, true, true, false]
        ∧ AnsweredTruly none false [.initBuffer true 4, .releaseBuffer,
          .extractHtmlInto (some [60, 112, 62]), .bufferLength, .lexToJson true none, .clearError]
            answers)
      ∧ ∃ reply after message,
        (Session.call (.extractHtmlInto (some [60, 112, 62]))).run.run
            { Session.new ⟨[]⟩ with buffer := some .released } = (.ok reply, after)
          ∧ reply.failed = true
          ∧ after.lastError = some message ∧ "Panic occurred: ".toList <+: message.toList
          ∧ after.buffer = some .released := by
  obtain ⟨htruly, hbroken⟩ := last_error_tells_truth
  constructor
  · have hslots : ((callAll [.initBuffer true 4, .releaseBuffer,
        .extractHtmlInto (some [60, 112, 62]), .bufferLength, .lexToJson true none,
        .clearError]).run.run (Session.new ⟨[]⟩)).1.toOption.map
          (List.map fun answer => answer.2.isSome)
        = some [false, false, true, true, true, false] := by decide +kernel
    obtain ⟨answers, hanswers, hslots⟩ := Option.map_eq_some_iff.1 hslots
    rcases hrun : (callAll [.initBuffer true 4, .releaseBuffer,
      .extractHtmlInto (some [60, 112, 62]), .bufferLength, .lexToJson true none,
      .clearError]).run.run (Session.new ⟨[]⟩) with ⟨cause | answers', after⟩
    · rw [hrun] at hanswers
      cases hanswers
    · rw [hrun] at hanswers
      cases hanswers
      exact ⟨answers, after, rfl, hslots, htruly _ _ _ _ _ slotTells_none hrun⟩
  · have hbreaks : ({ Session.new ⟨[]⟩ with buffer := some .released }.behindWall?
        (.extractHtmlInto (some [60, 112, 62]))).bind violationOf? = some .released := by
      decide +kernel
    obtain ⟨result, hresult, hcause⟩ := Option.bind_eq_some_iff.1 hbreaks
    rw [eq_of_violationOf? hcause] at hresult
    obtain ⟨reply, after, message, hrun, hfailed, hslot, hmessage, hkeeps⟩ := hbroken _ _ _ hresult
    exact ⟨reply, after, message, hrun, hfailed, hslot, hmessage, hkeeps _ rfl rfl⟩

end ErbTemplate
