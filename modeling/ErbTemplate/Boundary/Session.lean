import ErbTemplate.Boundary.Status
import ErbTemplate.Host.JsonText
import ErbTemplate.Json.Reader
import ErbTemplate.Memory.Number

/-!
# Sessions of a caller outside

A caller outside of the library holds at most one list of tokens, one document, one buffer and one
array, has one place for a text that is put out, and asks for the reason of the last failure in a
slot. That is a `Session`.

The body of a call may stop in two ways: with a status, after it has put the reason into the slot,
or with a violation. `contain` is the wall around the bodies: a violation inside becomes a status
and a reason like any other, and does not get out.
-/

set_option autoImplicit false

namespace ErbTemplate

/-- What a caller holds, and the reason of the last failure. -/
structure Session where
  memory : Memory
  files : Directory
  /-- What a reader of JSON has to say of a text that is none. -/
  jsonReason : List Char → Option String
  lastError : Option String
  tokens : Option TokenList
  document : Option Document
  buffer : Option TextBuffer
  array : Option (ItemArray Bytes)
  /-- What stands in the place for a text. -/
  output : Option String

namespace Session

/-- A caller who holds nothing yet. -/
def new (files : Directory) : Session where
  memory := .standard
  files
  jsonReason := fun _ => none
  lastError := none
  tokens := none
  document := none
  buffer := none
  array := none
  output := none

/-! ## 1. The slot -/

/-- A message as it is kept: U+0000 would end it, and is written as two characters. -/
def withoutNul (message : String) : String :=
  String.ofList (message.toList.flatMap fun c => if c = '\x00' then ['\\', '0'] else [c])

/-- Puts a reason into the slot. -/
def setError (message : String) : StateM Session Unit :=
  modify ({ · with lastError := some (withoutNul message) })

/-- Empties the slot. -/
def clearError : StateM Session Unit :=
  modify ({ · with lastError := none })

/-! ## 2. Bodies of calls -/

/-- Why the body of a call stops. -/
inductive Stop where
  | status (status : Status)
  | violation (cause : Violation)

/-- The body of a call. -/
abbrev Body (α : Type) := ExceptT Stop (StateM Session) α

variable {α β : Type}

/-- Stops with a status and a reason. -/
def refuse (status : Status) (message : String) : Body α := do
  setError message
  throw (.status status)

/-- The reason of a failure, with a word on where it comes from. -/
def reasonOf (cause : Failure) : String :=
  let message := cause.message
  match cause with
  | .allocation _ => s!"Memory error: {message}"
  | .io .. => s!"IO error: {message}"
  | _ => message

/-- Stops because of a failure. -/
def report (cause : Failure) : Body α :=
  refuse (.ofFailure cause) (reasonOf cause)

/-- Goes on with the value of an outcome, or stops. -/
def settle : Except Fault α → Body α
  | .ok value => return value
  | .error (.failure cause) => report cause
  | .error (.violation cause) => throw (.violation cause)

/-- Runs a computation in the memory of the session. -/
def inMemory (computation : StateM Memory α) : Body α := do
  let session ← get
  let (result, memory) := computation.run session.memory
  set { session with memory }
  return result

/-- Runs a computation that asks for memory. -/
def allocate (computation : Alloc α) : Body α := do
  settle (← inMemory computation.run)

/-- Runs the operation of a host. -/
def perform (operation : Scope α (Except Fault β)) : Body β := do
  let (result, _) ← inMemory (operation.run [])
  settle result

/-- Stops unless a pointer is there. -/
def requirePresent (name : String) (present : Bool) : Body Unit :=
  if present then return () else refuse .nullPointer s!"{name} is null"

/-- The wall around the body of a call. -/
def contain (body : Body α) : StateM Session (Except Status α) := do
  match ← body.run with
  | .ok value => return .ok value
  | .error (.status status) => return .error status
  | .error (.violation cause) =>
    let message := cause.message
    setError s!"Panic occurred: {message}"
    return .error .internalError

/-! ## 3. Texts that come in and go out -/

/-- A text as a caller passes it: nothing, or bytes up to the first zero. -/
abbrev TextArgument := Option (List UInt8)

/-- The text of an argument. -/
def readText (argument : TextArgument) : Body (List Char) := do
  match argument with
  | none => refuse .nullPointer "String argument is null"
  | some bytes =>
    match Text.ofBytes? (bytes.takeWhile (· != 0)) with
    | some text => return text.toList
    | none => refuse .invalidUtf8 "Invalid UTF-8 in input string"

/-- What is said of options that cannot be read, with the reason of the reader if it has one. -/
def optionsMessage : Option String → String
  | none => "Invalid options JSON"
  | some reason => s!"Invalid options JSON: {reason}"

/-- The option set of an argument; `none` for none. -/
def readOptions (argument : TextArgument) : Body (Option OptionSet) := do
  match argument with
  | none => return none
  | some _ =>
    let text ← readText argument
    match Json.read? text with
    | some document => return some (OptionSet.ofJson document)
    | none =>
      let session ← get
      refuse .invalidInput (optionsMessage (session.jsonReason text))

/-- A text for the caller, which must not hold U+0000. -/
def handOver (text : String) : Body String :=
  if text.toList.contains '\x00' then
    refuse .failedConversion "String contains null byte"
  else
    return text

end Session
end ErbTemplate
