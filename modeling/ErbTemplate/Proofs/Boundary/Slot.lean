import ErbTemplate.Boundary.Call
import ErbTemplate.Proofs.Memory.Room

/-!
# The slot tells the truth

A caller outside learns about a failure twice: from the reply, and from the slot. This file says
that the two agree, along every run of calls (`SlotTells`): the slot has a message exactly when the
latest call that sets the slot has failed, and the message can be read to its end.

A body has many ways to stop, and each has to leave its reason by itself; a body that goes on must
not leave any. That is one judgement about bodies, `Honest`. It is closed under sequencing, so the
body of each call is honest because its parts are, and the wall around it (`contain`) adds the only
reason that no body can leave, that of a violation.

A text goes out through a place that the caller names, and there may still be another text in it.
Nobody but `putOut` touches the place (`Computes`), so that what stands there in the end is the new
text or nothing (`output_of_run_putOutBody`).
-/

set_option autoImplicit false

namespace ErbTemplate

open Text

/-! ## 1. The rule -/

namespace Call

/-- Whether a call says in the slot how it has ended. -/
def setsSlot : Call → Bool
  | lex _ | lexFile _ | parse .. | extractRubyInto .. | extractHtmlInto _ | lexToJson ..
  | parseToJson .. | extractRubyToText .. | initArray .. | appendItem _ | initBuffer ..
  | clearError => true
  | _ => false

/-- Whether a call has an output with a place for it. -/
def hasPlace : Call → Bool
  | lexToJson here _ | parseToJson here .. | extractRubyToText here .. => here
  | _ => false

end Call

/-- Whether a reply tells of a failure. -/
def Reply.failed : Reply → Bool
  | flag value => !value
  | status value _ => value != .success
  | _ => false

/-- The slot has a message exactly after a failure, and no U+0000 cuts it off. -/
def SlotTells (slot : Option String) (failed : Bool) : Prop :=
  slot.isSome = failed ∧ ∀ message, slot = some message → '\x00' ∉ message.toList

/-- Something was put out exactly if the status is success. -/
def Reply.PutsOut (reply : Reply) : Prop :=
  ∃ status out, reply = .status status (some out) ∧ (out.isSome = true ↔ status = .success)

/-- A row of calls and what each of them was answered, with the slot behind it. The first two
    arguments are the slot before, and whether the latest call that sets the slot has failed. -/
def AnsweredTruly : Option String → Bool → List Call → List (Reply × Option String) → Prop
  | _, _, [], [] => True
  | before, failed, call :: calls, (reply, slot) :: answers =>
    let failed := if call.setsSlot then reply.failed else failed
    SlotTells slot failed
      ∧ (call.setsSlot = false → slot = before)
      ∧ (call.hasPlace = true → reply.PutsOut)
      ∧ AnsweredTruly slot failed calls answers
  | _, _, _, _ => False

namespace Session

variable {α β : Type}

/-! ## 2. Running bodies -/

theorem run_bind {ε : Type} (first : ExceptT ε (StateM Session) α)
    (next : α → ExceptT ε (StateM Session) β) (session : Session) :
    (first >>= next).run.run session =
      match first.run.run session with
      | (.ok value, session) => (next value).run.run session
      | (.error stop, session) => (.error stop, session) := by
  rw [ExceptT.run_bind, StateT.run_bind]
  rcases first.run.run session with ⟨_ | _, _⟩ <;> rfl

theorem exists_of_run_bind_ok {ε : Type} {first : ExceptT ε (StateM Session) α}
    {next : α → ExceptT ε (StateM Session) β} {result : β} {session after : Session}
    (h : (first >>= next).run.run session = (.ok result, after)) :
    ∃ value between, first.run.run session = (.ok value, between)
      ∧ (next value).run.run between = (.ok result, after) := by
  rw [run_bind] at h
  cases hfirst : first.run.run session with
  | mk outcome between =>
    rw [hfirst] at h
    cases outcome with
    | error => cases h
    | ok value => exact ⟨value, between, rfl, h⟩

theorem run_contain (body : Body α) (session : Session) :
    (contain body).run session =
      match body.run.run session with
      | (.ok value, session) => (.ok value, session)
      | (.error (.status status), session) => (.error status, session)
      | (.error (.violation cause), session) =>
        (.error .internalError,
          { session with lastError := some (withoutNul s!"Panic occurred: {cause.message}") }) := by
  rw [contain, StateT.run_bind]
  rcases body.run.run session with ⟨(_ | _) | _, _⟩ <;> rfl

theorem run_hold (place : Option α → Session → Session) (body : Body α) (session : Session) :
    (hold place body).run session =
      match (contain body).run { place none session with lastError := none } with
      | (result, session) => (.flag (succeeded result), place result.toOption session) := rfl

/-! ## 3. Honest bodies -/

theorem toList_withoutNul (message : String) : (withoutNul message).toList
    = message.toList.flatMap fun c => if c = '\x00' then ['\\', '0'] else [c] :=
  String.toList_ofList

theorem not_mem_withoutNul (message : String) : '\x00' ∉ (withoutNul message).toList := by
  rw [toList_withoutNul]
  intro hmem
  obtain ⟨c, -, hmem⟩ := List.mem_flatMap.1 hmem
  split at hmem
  next => revert hmem; decide
  next hc => exact hc (List.mem_singleton.1 hmem).symm

theorem slotTells_withoutNul (message : String) : SlotTells (some (withoutNul message)) true := by
  refine ⟨rfl, ?_⟩
  rintro _ ⟨⟩
  exact not_mem_withoutNul message

theorem slotTells_none : SlotTells none false :=
  ⟨rfl, fun _ h => by cases h⟩

/-- Begun with an empty slot, a body that goes on keeps it empty, and one that stops with a status
    says why. A violation is left to the wall. -/
def Honest (body : Body α) : Prop :=
  ∀ session : Session, session.lastError = none →
    match body.run.run session with
    | (.ok _, after) => after.lastError = none
    | (.error (.status status), after) => status ≠ .success ∧ SlotTells after.lastError true
    | (.error (.violation _), _) => True

namespace Honest

theorem pure (value : α) : Honest (pure value) :=
  fun _ hslot => hslot

theorem bind {body : Body α} {next : α → Body β} (h : Honest body)
    (hnext : ∀ value, Honest (next value)) : Honest (body >>= next) := by
  intro session hslot
  have hbody := h session hslot
  rw [run_bind]
  generalize body.run.run session = answer at hbody
  obtain ⟨stop | value, after⟩ := answer
  · cases stop with
    | status status => exact hbody
    | violation cause => trivial
  · exact hnext value after hbody

theorem get : Honest get :=
  fun _ hslot => hslot

theorem modify {change : Session → Session}
    (h : ∀ session, (change session).lastError = session.lastError) : Honest (modify change) :=
  fun session hslot => (h session).trans hslot

theorem refuse {status : Status} (h : status ≠ .success) (message : String) :
    Honest (refuse status message : Body α) :=
  fun _ _ => ⟨h, slotTells_withoutNul message⟩

theorem report (cause : Failure) : Honest (report cause : Body α) :=
  refuse (by cases cause <;> exact Status.noConfusion) _

theorem settle (result : Except Fault α) : Honest (settle result) := by
  cases result with
  | ok value => exact pure value
  | error fault =>
    cases fault with
    | failure cause => exact report cause
    | violation cause => exact fun _ _ => trivial

theorem inMemory (computation : StateM Memory α) : Honest (inMemory computation) :=
  fun _ hslot => hslot

theorem allocate (computation : Alloc α) : Honest (allocate computation) :=
  (inMemory _).bind settle

theorem perform (operation : Scope α (Except Fault β)) : Honest (perform operation) :=
  (inMemory _).bind fun _ => settle _

theorem requirePresent (name : String) (present : Bool) : Honest (requirePresent name present) := by
  unfold Session.requirePresent
  split
  next => exact pure ()
  next => exact refuse Status.noConfusion _

theorem readText (argument : TextArgument) : Honest (readText argument) := by
  unfold Session.readText
  cases argument with
  | none => exact refuse Status.noConfusion _
  | some bytes =>
    simp only
    split
    next => exact pure _
    next => exact refuse Status.noConfusion _

theorem readOptions (argument : TextArgument) : Honest (readOptions argument) := by
  unfold Session.readOptions
  cases argument with
  | none => exact pure none
  | some bytes =>
    refine (readText _).bind fun text => ?_
    split
    next => exact pure _
    next => exact get.bind fun session => refuse Status.noConfusion _

theorem handOver (text : String) : Honest (handOver text) := by
  unfold Session.handOver
  split
  next => exact refuse Status.noConfusion _
  next => exact pure text

/-- **The wall: whatever the body comes to, the slot tells it.** -/
theorem contain {body : Body α} (h : Honest body) {session after : Session}
    {result : Except Status α} (hslot : session.lastError = none)
    (hrun : (contain body).run session = (result, after)) :
    SlotTells after.lastError (!succeeded result)
      ∧ ∀ status, result = .error status → status ≠ .success := by
  have hbody := h session hslot
  rw [run_contain] at hrun
  generalize body.run.run session = answer at hbody hrun
  obtain ⟨(status | cause) | value, left⟩ := answer
  · cases hrun
    refine ⟨hbody.2, ?_⟩
    rintro _ ⟨⟩
    exact hbody.1
  · cases hrun
    refine ⟨slotTells_withoutNul _, ?_⟩
    rintro _ ⟨⟩
    exact Status.noConfusion
  · cases hrun
    refine ⟨hbody ▸ slotTells_none, ?_⟩
    rintro _ ⟨⟩

end Honest

/-! ## 4. Bodies that compute -/

/-- Whatever a body comes to, it changes nothing of the session but the memory and the slot. -/
def Computes (body : Body α) : Prop :=
  ∀ session, ∃ memory lastError, (body.run.run session).2 = { session with memory, lastError }

namespace Computes

theorem pure (value : α) : Computes (pure value) :=
  fun session => ⟨session.memory, session.lastError, rfl⟩

theorem get : Computes get :=
  fun session => ⟨session.memory, session.lastError, rfl⟩

theorem bind {body : Body α} {next : α → Body β} (h : Computes body)
    (hnext : ∀ value, Computes (next value)) : Computes (body >>= next) := by
  intro session
  obtain ⟨memory, lastError, hbody⟩ := h session
  rw [run_bind]
  generalize body.run.run session = answer at hbody
  obtain ⟨stop | value, after⟩ := answer
  · exact ⟨memory, lastError, hbody⟩
  · cases hbody
    obtain ⟨later, reason, hrest⟩ := hnext value { session with memory, lastError }
    exact ⟨later, reason, hrest⟩

theorem refuse (status : Status) (message : String) :
    Computes (refuse status message : Body α) :=
  fun session => ⟨session.memory, some (withoutNul message), rfl⟩

theorem settle (result : Except Fault α) : Computes (settle result) := by
  cases result with
  | ok value => exact pure value
  | error fault =>
    cases fault with
    | failure cause => exact refuse _ _
    | violation cause => exact fun session => ⟨session.memory, session.lastError, rfl⟩

theorem perform (operation : Scope α (Except Fault β)) : Computes (perform operation) :=
  bind (fun session => ⟨_, session.lastError, rfl⟩) fun _ => settle _

theorem readText (argument : TextArgument) : Computes (readText argument) := by
  unfold Session.readText
  cases argument with
  | none => exact refuse _ _
  | some bytes =>
    simp only
    split
    next => exact pure _
    next => exact refuse _ _

theorem readOptions (argument : TextArgument) : Computes (readOptions argument) := by
  unfold Session.readOptions
  cases argument with
  | none => exact pure none
  | some bytes =>
    refine (readText _).bind fun text => ?_
    split
    next => exact pure _
    next => exact get.bind fun session => refuse _ _

theorem handOver (text : String) : Computes (handOver text) := by
  unfold Session.handOver
  split
  next => exact refuse _ _
  next => exact pure text

end Computes

/-! ## 5. Calls behind the wall -/

/-- The slot behind a call tells how the call has ended. -/
def Tells (action : StateM Session Reply) : Prop :=
  ∀ session, SlotTells (action.run session).2.lastError (action.run session).1.failed

theorem tells_hold {place : Option α → Session → Session}
    (hplace : ∀ value session, (place value session).lastError = session.lastError)
    {body : Body α} (h : Honest body) : Tells (hold place body) := by
  intro session
  rw [run_hold]
  generalize hrun : (contain body).run { place none session with lastError := none } = answer
  obtain ⟨result, after⟩ := answer
  simp only [hplace]
  exact (h.contain rfl hrun).1

/-- What `appendToBuffer` does behind the wall. -/
def appendBody (source : TextArgument) (extraction : List Char → InPlace TextBuffer Unit) :
    Body Unit := do
  let session ← get
  requirePresent "output" session.buffer.isSome
  let text ← readText source
  let (result, buffer) ← inMemory ((extraction text).on (session.buffer.getD .released))
  modify ({ · with buffer := some buffer })
  settle result

theorem run_appendToBuffer (source : TextArgument)
    (extraction : List Char → InPlace TextBuffer Unit) (session : Session) :
    (appendToBuffer source extraction).run session =
      match (contain (appendBody source extraction)).run { session with lastError := none } with
      | (result, session) => (.flag (succeeded result), session) := rfl

theorem tells_appendToBuffer (source : TextArgument)
    (extraction : List Char → InPlace TextBuffer Unit) :
    Tells (appendToBuffer source extraction) := by
  have hbody : Honest (appendBody source extraction) := by
    refine Honest.get.bind fun session => (Honest.requirePresent _ _).bind fun _ => ?_
    refine (Honest.readText source).bind fun text => (Honest.inMemory _).bind ?_
    intro ⟨result, buffer⟩
    refine Honest.bind ?_ fun _ => .settle result
    exact .modify fun _ => rfl
  intro session
  rw [run_appendToBuffer]
  exact (hbody.contain rfl rfl).1

/-- What `putOut` does behind the wall, once the slot is empty. -/
def putOutBody (here : Bool) (name : String) (body : Body String) : Body Unit := do
  requirePresent name here
  modify ({ · with output := none })
  let text ← handOver (← body)
  modify ({ · with output := some text })

theorem run_putOutBody (name : String) (body : Body String) (session : Session) :
    (putOutBody true name body).run.run session
      = ((body >>= handOver) >>= fun text => modify ({ · with output := some text })).run.run
        { session with output := none } := by
  rw [bind_assoc]
  rfl

theorem run_putOut_eq (here : Bool) (name : String) (body : Body String) (session : Session) :
    (putOut here name body).run session =
      match (contain (putOutBody here name body)).run { session with lastError := none } with
      | (result, session) =>
        (.status (match result with
          | .ok _ => .success
          | .error status => status) (if here then some session.output else none), session) :=
  rfl

theorem run_putOut (here : Bool) (name : String) (body : Body String) (session : Session) :
    (putOut here name body).run session =
      match (contain (putOutBody here name body)).run { session with lastError := none } with
      | (.ok (), session) =>
        (.status .success (if here then some session.output else none), session)
      | (.error status, session) =>
        (.status status (if here then some session.output else none), session) := by
  rw [run_putOut_eq]
  rcases (contain (putOutBody here name body)).run { session with lastError := none }
    with ⟨_ | _, _⟩ <;> rfl

theorem Honest.putOutBody (here : Bool) (name : String) {body : Body String} (h : Honest body) :
    Honest (putOutBody here name body) := by
  refine (Honest.requirePresent name here).bind fun _ => ?_
  refine Honest.bind (.modify fun _ => rfl) fun _ => h.bind fun text => ?_
  exact (Honest.handOver text).bind fun text => .modify fun _ => rfl

theorem tells_putOut (here : Bool) (name : String) {body : Body String} (h : Honest body) :
    Tells (putOut here name body) := by
  intro session
  rw [run_putOut]
  generalize hrun : (contain (putOutBody here name body)).run { session with lastError := none }
    = answer
  obtain ⟨result, after⟩ := answer
  obtain ⟨hslot, hstatus⟩ := (h.putOutBody here name).contain rfl hrun
  cases result with
  | ok => exact hslot
  | error status =>
    have hfailed : (Reply.status status (if here then some after.output else none)).failed = true :=
      bne_iff_ne.2 (hstatus status rfl)
    show SlotTells after.lastError (Reply.failed _)
    rw [hfailed]
    exact hslot

/-- Behind the wall the place is filled exactly by a body that goes on to its end. -/
theorem output_of_run_putOutBody (name : String) {body : Body String} (h : Computes body)
    (session : Session) :
    match (putOutBody true name body).run.run session with
    | (.ok _, after) => after.output.isSome = true
    | (.error _, after) => after.output = none := by
  obtain ⟨memory, lastError, hleft⟩ := (h.bind Computes.handOver) { session with output := none }
  rw [run_putOutBody, run_bind]
  generalize (body >>= handOver).run.run { session with output := none } = answer at hleft
  obtain ⟨_ | text, after⟩ := answer
  · exact congrArg Session.output hleft
  · rfl

theorem putsOut_putOut (name : String) {body : Body String} (h : Honest body)
    (hcomputes : Computes body) (session : Session) :
    ((putOut true name body).run session).1.PutsOut := by
  have hout := output_of_run_putOutBody name hcomputes { session with lastError := none }
  have hstatus := (h.putOutBody true name) { session with lastError := none } rfl
  rw [run_putOut, run_contain]
  generalize (putOutBody true name body).run.run { session with lastError := none } = answer
    at hout hstatus
  obtain ⟨(status | cause) | _, after⟩ := answer
  · exact ⟨_, _, rfl, iff_of_false (by simp [hout]) hstatus.1⟩
  · exact ⟨_, _, rfl, iff_of_false (by simp [hout]) Status.noConfusion⟩
  · exact ⟨_, _, rfl, iff_of_true hout rfl⟩

theorem tells_initBuffer (here : Bool) (capacity : Nat) : Tells (initBuffer here capacity) := by
  cases here with
  | false => exact fun _ => slotTells_withoutNul _
  | true =>
    have hbody : Honest (do
        let buffer ← allocate (TextBuffer.init capacity)
        modify ({ · with buffer := some buffer })) :=
      (Honest.allocate _).bind fun buffer => .modify fun _ => rfl
    intro session
    have hslot : { session with lastError := none, buffer := some .released }.lastError = none :=
      rfl
    exact (hbody.contain hslot rfl).1

theorem tells_initArray (here : Bool) (itemSize capacity : Nat) :
    Tells (initArray here itemSize capacity) := by
  cases here with
  | false => exact fun _ => slotTells_withoutNul _
  | true =>
    have hbody : Honest (do
        if itemSize = 0 ∨ capacity = 0 then
          refuse .invalidInput "item size and initial capacity must be non-zero"
        let array ← allocate (ItemArray.init itemSize capacity)
        modify ({ · with array := some array })) := by
      split
      next => exact (Honest.refuse Status.noConfusion _).bind fun _ =>
          (Honest.allocate _).bind fun array => .modify fun _ => rfl
      next => exact (Honest.allocate _).bind fun array => .modify fun _ => rfl
    intro session
    have hslot : { session with lastError := none, array := some .released }.lastError = none := rfl
    exact (hbody.contain hslot rfl).1

/-! ## 6. All calls -/

/-- A call that sets the slot tells there how it has ended, and any other leaves the slot alone. -/
structure Answers (before : Session) (call : Call) (reply : Reply) (after : Session) : Prop where
  sets : call.setsSlot = true → SlotTells after.lastError reply.failed
  keeps : call.setsSlot = false → after.lastError = before.lastError
  out : call.hasPlace = true → reply.PutsOut

variable {before after : Session} {reply : Reply}

theorem run_appendItem_eq (item : Bytes) (session : Session) :
    (appendItem item).run.run session =
      match ((ItemArray.append (item.take session.heldArray.itemSize)).on session.heldArray).run
        session.memory with
      | ((result, array), memory) =>
        (match result with
          | .ok () => (return .flag true)
          | .error (.failure cause) => do
            setError (reasonOf cause)
            return .flag false
          | .error (.violation cause) => throw cause :
            ExceptT Violation (StateM Session) Reply).run.run
          { session with memory, array := some array, lastError := none } :=
  rfl

theorem run_appendItem (item : Bytes) (session : Session) :
    (appendItem item).run.run session =
      match ((ItemArray.append (item.take session.heldArray.itemSize)).on session.heldArray).run
        session.memory with
      | ((.ok (), array), memory) =>
        (.ok (.flag true), { session with memory, array := some array, lastError := none })
      | ((.error (.failure cause), array), memory) =>
        (.ok (.flag false),
          { session with
            memory, array := some array, lastError := some (withoutNul (reasonOf cause)) })
      | ((.error (.violation cause), array), memory) =>
        (.error cause, { session with memory, array := some array, lastError := none }) := by
  rw [run_appendItem_eq]
  rcases ((ItemArray.append (item.take session.heldArray.itemSize)).on session.heldArray).run
    session.memory with ⟨⟨(_ | _) | _, _⟩, _⟩ <;> rfl

section

variable {call : Call} (hrun : (Session.call call).run.run before = (.ok reply, after))

include hrun

theorem Answers.of_tells {action : StateM Session Reply} (hcall : Session.call call = liftM action)
    (h : Tells action) (hsets : call.setsSlot = true) (hplace : call.hasPlace = false) :
    Answers before call reply after := by
  rw [hcall] at hrun
  cases hrun
  exact ⟨fun _ => h before, fun hkeeps => (Bool.false_ne_true (hkeeps.symm.trans hsets)).elim,
    fun h => (Bool.false_ne_true (hplace.symm.trans h)).elim⟩

theorem Answers.of_putOut {here : Bool} {name : String} {body : Body String}
    (hcall : Session.call call = liftM (putOut here name body)) (h : Honest body)
    (hcomputes : Computes body) (hsets : call.setsSlot = true) (hplace : call.hasPlace = here) :
    Answers before call reply after := by
  rw [hcall] at hrun
  cases hrun
  refine ⟨fun _ => tells_putOut here name h before,
    fun hkeeps => (Bool.false_ne_true (hkeeps.symm.trans hsets)).elim, ?_⟩
  intro hhere
  obtain rfl := hplace.symm.trans hhere
  exact putsOut_putOut name h hcomputes before

end

theorem Answers.of_keeps {call : Call} (hslot : after.lastError = before.lastError)
    (hsets : call.setsSlot = false) (hplace : call.hasPlace = false) :
    Answers before call reply after :=
  ⟨fun h => (Bool.false_ne_true (hsets.symm.trans h)).elim, fun _ => hslot,
    fun h => (Bool.false_ne_true (hplace.symm.trans h)).elim⟩

theorem lastError_of_changeArray {operation : InPlace (ItemArray Bytes) α} {value : α}
    (h : (changeArray operation).run.run before = (.ok value, after)) :
    after.lastError = before.lastError := by
  obtain ⟨session, _, hget, h⟩ := exists_of_run_bind_ok h
  cases hget
  rcases hrun : (operation.on before.heldArray).run before.memory
    with ⟨⟨(cause | cause) | result, array⟩, memory⟩
  · rw [hrun] at h
    cases h
  · rw [hrun] at h
    cases h
  · rw [hrun] at h
    cases h
    rfl

/-- **One call, whatever it is.** -/
theorem answers_call {call : Call} (h : (Session.call call).run.run before = (.ok reply, after)) :
    Answers before call reply after := by
  cases call with
  | lex source =>
    refine .of_tells h rfl (tells_hold lastError_withTokens ?_) rfl rfl
    exact (Honest.readText source).bind fun text => .allocate _
  | lexFile path =>
    refine .of_tells h rfl (tells_hold lastError_withTokens ?_) rfl rfl
    refine (Honest.readText path).bind fun text => Honest.get.bind fun session => ?_
    split
    next => exact .report _
    next => exact .allocate _
  | parse source options =>
    refine .of_tells h rfl (tells_hold lastError_withDocument ?_) rfl rfl
    exact (Honest.readText source).bind fun text => .allocate _
  | initBuffer here capacity => exact .of_tells h rfl (tells_initBuffer here capacity) rfl rfl
  | extractRubyInto source options => exact .of_tells h rfl (tells_appendToBuffer source _) rfl rfl
  | extractHtmlInto source => exact .of_tells h rfl (tells_appendToBuffer source _) rfl rfl
  | lexToJson here source =>
    refine .of_putOut h rfl ?_ ?_ rfl rfl
    · exact (Honest.readText source).bind fun text => .perform _
    · exact (Computes.readText source).bind fun text => .perform _
  | parseToJson here source options =>
    refine .of_putOut h rfl ?_ ?_ rfl rfl
    · refine (Honest.readText source).bind fun text => ?_
      exact (Honest.readOptions options).bind fun set => .perform _
    · refine (Computes.readText source).bind fun text => ?_
      exact (Computes.readOptions options).bind fun set => .perform _
  | extractRubyToText here source options =>
    refine .of_putOut h rfl ?_ ?_ rfl rfl
    · refine (Honest.readText source).bind fun text => ?_
      refine (Honest.readOptions options).bind fun set => (Honest.perform _).bind fun ruby => ?_
      split
      next => exact .pure _
      next => exact .refuse Status.noConfusion _
    · refine (Computes.readText source).bind fun text => ?_
      refine (Computes.readOptions options).bind fun set => (Computes.perform _).bind fun ruby => ?_
      split
      next => exact .pure _
      next => exact .refuse _ _
  | initArray here itemSize capacity =>
    exact .of_tells h rfl (tells_initArray here itemSize capacity) rfl rfl
  | appendItem item =>
    refine ⟨fun _ => ?_, Bool.noConfusion, Bool.noConfusion⟩
    have hrun : (appendItem item).run.run before = (.ok reply, after) := h
    rw [run_appendItem] at hrun
    split at hrun
    next =>
      cases hrun
      exact slotTells_none
    next =>
      cases hrun
      exact slotTells_withoutNul _
    next => cases hrun
  | clearError =>
    cases h
    exact ⟨fun _ => slotTells_none, Bool.noConfusion, Bool.noConfusion⟩
  | freeTokens here =>
    cases here <;>
    · cases h
      exact .of_keeps rfl rfl rfl
  | itemAt index =>
    obtain ⟨session, _, hget, h⟩ := exists_of_run_bind_ok h
    cases hget
    split at h
    next =>
      cases h
      exact .of_keeps rfl rfl rfl
    next => cases h
  | removeItem index =>
    obtain ⟨_, _, hchange, h⟩ := exists_of_run_bind_ok h
    cases h
    exact .of_keeps (lastError_of_changeArray hchange) rfl rfl
  | popItem =>
    obtain ⟨session, _, hget, h⟩ := exists_of_run_bind_ok h
    cases hget
    obtain ⟨_, _, hchange, h⟩ := exists_of_run_bind_ok h
    cases h
    exact .of_keeps (lastError_of_changeArray hchange) rfl rfl
  | releaseArray =>
    obtain ⟨_, _, hchange, h⟩ := exists_of_run_bind_ok h
    cases h
    exact .of_keeps (lastError_of_changeArray hchange) rfl rfl
  | tokenCount | tokenAt | freeDocument | issueCount | releaseBuffer | bufferLength | bufferText
  | firstItem | lastItem | arraySize | version | grammarVersion | freeNothing =>
    cases h
    exact .of_keeps rfl rfl rfl

/-- **A run of calls is answered truly.** -/
theorem answeredTruly_callAll {calls : List Call} {answers : List (Reply × Option String)}
    {failed : Bool} (hslot : SlotTells before.lastError failed)
    (h : (callAll calls).run.run before = (.ok answers, after)) :
    AnsweredTruly before.lastError failed calls answers := by
  induction calls generalizing before failed answers with
  | nil =>
    cases h
    trivial
  | cons call calls ih =>
    obtain ⟨reply, middle, hcall, h⟩ := exists_of_run_bind_ok h
    obtain ⟨session, _, hget, h⟩ := exists_of_run_bind_ok h
    cases hget
    obtain ⟨others, _, hothers, h⟩ := exists_of_run_bind_ok h
    cases h
    obtain ⟨hsets, hkeeps, hout⟩ := answers_call hcall
    have hnow : SlotTells middle.lastError (if call.setsSlot then reply.failed else failed) := by
      split
      next hset => exact hsets hset
      next hset =>
        rw [hkeeps (Bool.eq_false_iff.2 hset)]
        exact hslot
    exact ⟨hnow, hkeeps, hout, ih hnow hothers⟩

end Session
end ErbTemplate
