import ErbTemplate.Boundary.Session

/-!
# The calls of a session

Every call that a caller outside can make, as data, with its reply. A call that can fail begins by
emptying the slot, so that afterwards the slot tells about this call; a call that only reads,
counts or gives back leaves it alone.

An index out of range is not a failure. There is nobody to report it to: the session is over, and
its last words are the violation.
-/

set_option autoImplicit false

namespace ErbTemplate

/-- A call. A `here` of `false` stands for a pointer that is null. -/
inductive Call where
  | lex (source : Session.TextArgument)
  | lexFile (path : Session.TextArgument)
  | freeTokens (here : Bool)
  | tokenCount
  | tokenAt (index : Nat)
  | parse (source : Session.TextArgument) (options : Option ParserOptions)
  | freeDocument
  | issueCount
  | initBuffer (here : Bool) (capacity : Nat)
  | releaseBuffer
  | bufferLength
  | bufferText
  | extractRubyInto (source : Session.TextArgument) (options : Option ExtractOptions)
  | extractHtmlInto (source : Session.TextArgument)
  | lexToJson (here : Bool) (source : Session.TextArgument)
  | parseToJson (here : Bool) (source options : Session.TextArgument)
  | extractRubyToText (here : Bool) (source options : Session.TextArgument)
  | initArray (here : Bool) (itemSize capacity : Nat)
  | appendItem (item : Bytes)
  | itemAt (index : Nat)
  | removeItem (index : Nat)
  | firstItem
  | lastItem
  | popItem
  | releaseArray
  | arraySize
  | version
  | grammarVersion
  | clearError
  | freeNothing

/-- A reply. -/
inductive Reply where
  | done
  | flag (value : Bool)
  | count (value : Nat)
  | token (value : Option Token)
  | text (value : Option String)
  | item (value : Option Bytes)
  /-- The item taken out, if there was one, for an output of so many bytes. -/
  | popped (value : Option Bytes) (length : Nat)
  /-- A status, and what stands in the place for a text, if there is one. -/
  | status (value : Status) (out : Option (Option String))

namespace Session

/-! ## 1. Calls with a reason -/

/-- Whether a contained body has succeeded. -/
def succeeded {α : Type} : Except Status α → Bool
  | .ok _ => true
  | .error _ => false

/-- The session with other tokens. -/
def withTokens (tokens : Option TokenList) (session : Session) : Session :=
  { session with tokens }

/-- The session with another document. -/
def withDocument (document : Option Document) (session : Session) : Session :=
  { session with document }

@[simp] theorem lastError_withTokens (tokens : Option TokenList) (session : Session) :
    (withTokens tokens session).lastError = session.lastError := rfl

@[simp] theorem lastError_withDocument (document : Option Document) (session : Session) :
    (withDocument document session).lastError = session.lastError := rfl

@[simp] theorem buffer_withTokens (tokens : Option TokenList) (session : Session) :
    (withTokens tokens session).buffer = session.buffer := rfl

@[simp] theorem buffer_withDocument (document : Option Document) (session : Session) :
    (withDocument document session).buffer = session.buffer := rfl

/-- Makes a result the one that the caller holds in its place; what was there before is given back
    first. -/
def hold {α : Type} (place : Option α → Session → Session) (body : Body α) :
    StateM Session Reply := do
  modify (place none)
  clearError
  let result ← contain body
  modify (place result.toOption)
  return .flag (succeeded result)

/-- Appends to the buffer; what was written before a refusal stays in it. -/
def appendToBuffer (source : TextArgument) (extraction : List Char → InPlace TextBuffer Unit) :
    StateM Session Reply := do
  clearError
  let result ← contain do
    let session ← get
    requirePresent "output" session.buffer.isSome
    let text ← readText source
    let (result, buffer) ← inMemory ((extraction text).on (session.buffer.getD .released))
    modify ({ · with buffer := some buffer })
    settle result
  return .flag (succeeded result)

/-- Puts a text into the place that the caller names. The place is emptied before the work begins,
    and the text is stored behind everything that can fail. -/
def putOut (here : Bool) (name : String) (body : Body String) : StateM Session Reply := do
  let result ← contain do
    clearError
    requirePresent name here
    modify ({ · with output := none })
    let text ← handOver (← body)
    modify ({ · with output := some text })
  let status : Status :=
    match result with
    | .ok _ => .success
    | .error status => status
  let session ← get
  return .status status (if here then some session.output else none)

/-- Makes a new buffer; a refusal leaves a released one. -/
def initBuffer (here : Bool) (capacity : Nat) : StateM Session Reply := do
  clearError
  if here then
    modify ({ · with buffer := some .released })
    let result ← contain do
      let buffer ← allocate (TextBuffer.init capacity)
      modify ({ · with buffer := some buffer })
    return .flag (succeeded result)
  else
    setError "buffer is null"
    return .flag false

/-- Makes a new array; a refusal leaves a released one. -/
def initArray (here : Bool) (itemSize capacity : Nat) : StateM Session Reply := do
  clearError
  if here then
    modify ({ · with array := some .released })
    let result ← contain do
      if itemSize = 0 ∨ capacity = 0 then
        refuse .invalidInput "item size and initial capacity must be non-zero"
      let array ← allocate (ItemArray.init itemSize capacity)
      modify ({ · with array := some array })
    return .flag (succeeded result)
  else
    setError "array is null"
    return .flag false

/-- Adds an item to the array: of what the caller points to, as many bytes as an item has. -/
def appendItem (item : Bytes) : ExceptT Violation (StateM Session) Reply := do
  clearError
  let session ← get
  let array := session.array.getD .released
  let ((result, array), memory) :=
    ((ItemArray.append (item.take array.itemSize)).on array).run session.memory
  set { session with memory, array := some array }
  match result with
  | .ok () => return .flag true
  | .error (.failure cause) =>
    setError (reasonOf cause)
    return .flag false
  | .error (.violation cause) => throw cause

/-! ## 2. All calls -/

/-- The array that the caller holds; a caller without one has a released one. -/
def heldArray (session : Session) : ItemArray Bytes :=
  session.array.getD .released

/-- Changes the array by an operation that never asks for memory. -/
def changeArray {α : Type} (operation : InPlace (ItemArray Bytes) α) :
    ExceptT Violation (StateM Session) α := do
  let session ← get
  let ((result, array), memory) := (operation.on session.heldArray).run session.memory
  match result with
  | .ok value =>
    set { session with memory, array := session.array.map fun _ => array }
    return value
  | .error (.violation cause) => throw cause
  | .error (.failure cause) => throw (.raised cause.message)

/-- The reply to a call; a violation ends the session. -/
def call : Call → ExceptT Violation (StateM Session) Reply
  | .lex source => hold withTokens do
      allocate (ErbTemplate.lex (← readText source))
  | .lexFile path => hold withTokens do
      let path := String.ofList (← readText path)
      match (← get).files.readSource path with
      | .error cause => report cause
      | .ok source => allocate (ErbTemplate.lex source)
  | .freeTokens here => do
      if here then
        modify ({ · with tokens := none })
      return .flag (← get).tokens.isSome
  | .tokenCount => return .count (((← get).tokens.map ItemArray.size).getD 0)
  | .tokenAt index => return .token ((← get).tokens.bind fun list => list.items[index]?)
  | .parse source options => hold withDocument do
      allocate (ErbTemplate.parse (← readText source) (options.getD {}))
  | .freeDocument => do
      modify ({ · with document := none })
      return .done
  | .issueCount =>
      return .count (((← get).document.map fun document => document.allIssues.length).getD 0)
  | .initBuffer here capacity => initBuffer here capacity
  | .releaseBuffer => do
      modify fun session => { session with buffer := session.buffer.map fun _ => .released }
      return .done
  | .bufferLength => return .count (((← get).buffer.map ItemArray.size).getD 0)
  | .bufferText => return .text ((← get).buffer.map TextBuffer.text)
  | .extractRubyInto source options =>
      appendToBuffer source fun text => extractRuby text (options.getD {})
  | .extractHtmlInto source => appendToBuffer source extractHtml
  | .lexToJson here source => putOut here "out_json" do
      perform (jsonTextHost.lex (← readText source))
  | .parseToJson here source options => putOut here "out_json" do
      let text ← readText source
      let set ← readOptions options
      perform (jsonTextHost.parse text (set.map OptionSet.lookup))
  | .extractRubyToText here source options => putOut here "out_ruby" do
      let text ← readText source
      let set ← readOptions options
      match ← perform (jsonTextHost.extractRuby text (set.map OptionSet.lookup)) with
      | some ruby => return ruby
      | none => refuse .noMemory "Memory error: no extraction result"
  | .initArray here itemSize capacity => initArray here itemSize capacity
  | .appendItem item => appendItem item
  | .itemAt index => do
      match (← get).heldArray.nth index with
      | .ok item => return .item (some item)
      | .error cause => throw cause
  | .removeItem index => do
      changeArray (ItemArray.remove index)
      return .done
  | .firstItem => return .item (← get).heldArray.first?
  | .lastItem => return .item (← get).heldArray.last?
  | .popItem => do
      let length := (← get).heldArray.itemSize
      return .popped (← changeArray ItemArray.pop?) length
  | .releaseArray => do
      changeArray ItemArray.release
      return .done
  | .arraySize => return .count (← get).heldArray.size
  | .version => return .text (some engineVersion)
  | .grammarVersion => return .text (some ErbTemplate.grammarVersion)
  | .clearError => do
      clearError
      return .done
  | .freeNothing => return .done

/-- Makes calls in order. Each reply comes with the slot after it; a violation ends the session. -/
def callAll : List Call → ExceptT Violation (StateM Session) (List (Reply × Option String))
  | [] => return []
  | first :: others => do
    let reply ← call first
    let reason := (← get).lastError
    return (reply, reason) :: (← callAll others)

end Session
end ErbTemplate
