import ErbTemplate.Host.JsonText
import ErbTemplate.Json.Reader

/-!
# The host of scripts

Scripts pass dynamically typed values and get values or exceptions back. The textual options of a
call are the entries of a dictionary, the symbolic ones are its keyword arguments. A value that is
none, or whose truth cannot be told, is absent; zero and everything empty is false.

Sources are texts. A text with a surrogate in it has no UTF-8 form, and is an exception of its own.
Files are named by texts or by path objects, which have been brought into a normal form.
-/

set_option autoImplicit false

namespace ErbTemplate

/-! ## 1. Values -/

/-- A value of a script. A float is kept as it is written. -/
inductive ScriptValue where
  | none
  | bool (value : Bool)
  | int (value : Int)
  | float (value : Json.Numeral)
  | str (value : String)
  /-- The text of a single surrogate. -/
  | surrogate
  | bytes (value : List UInt8)
  | list (items : List ScriptValue)
  | tuple (items : List ScriptValue)
  | dict (entries : List (String × ScriptValue))
  | path (value : String)
  /-- A value whose truth cannot be told. -/
  | untestable

namespace ScriptValue

instance : Inhabited ScriptValue :=
  ⟨none⟩

/-- The name of the type of a value. -/
def typeName : ScriptValue → String
  | none => "NoneType"
  | bool _ => "bool"
  | int _ => "int"
  | float _ => "float"
  | str _ | surrogate => "str"
  | bytes _ => "bytes"
  | list _ => "list"
  | tuple _ => "tuple"
  | dict _ => "dict"
  | path _ => "PosixPath"
  | untestable => "BadBool"

/-- The truth of a value; `none` where it counts as absent. -/
def truth : ScriptValue → Option Bool
  | none | untestable => Option.none
  | bool value => some value
  | int value => some (value != 0)
  | float value => some !value.isZero
  | str value => some (value != "")
  | bytes value => some !value.isEmpty
  | list items | tuple items => some !items.isEmpty
  | dict entries => some !entries.isEmpty
  | surrogate | path _ => some true

/-- The normal form of a path: without empty components and dots, except for the one or two slashes
of a path from the root; the empty path is a dot. -/
def normalPath (path : List Char) : List Char :=
  let root : List Char :=
    match path with
    | '/' :: '/' :: '/' :: _ => ['/']
    | '/' :: '/' :: _ => ['/', '/']
    | '/' :: _ => ['/']
    | _ => []
  let names := (Directory.components path).filter fun name => !Directory.staysHere name
  match root ++ ['/'].intercalate names with
  | [] => ['.']
  | normal => normal

/-- A path object. -/
def ofPath (path : String) : ScriptValue :=
  .path (String.ofList (normalPath path.toList))

/-- The options of a call: a dictionary, if the value is one, and the keyword arguments. -/
def options (value : ScriptValue) (keywords : List (String × ScriptValue)) : OptionLookup :=
  fun form name =>
    match form, value with
    | .textual, dict entries => (entries.lookup name).bind truth
    | .textual, _ => Option.none
    | .symbolic, _ => (keywords.lookup name).bind truth

/-! Results are made of JSON values, and a script can look at them as JSON again. -/

/-- The value of a number: an integer where it is written as one and fits a word, and a float
otherwise. -/
def ofNumber (literal : List Char) : ScriptValue :=
  let numeral := Json.Numeral.ofLiteral literal
  let size := Json.digitsValue numeral.whole
  match literal with
  | '-' :: digits =>
    if digits.all Char.isDigit && 0 < size && size ≤ Nat.pow 2 63 then int (-size)
    else float numeral
  | digits =>
    if digits.all Char.isDigit && size < Nat.pow 2 64 then int size else float numeral

/-- Sets an item of a dictionary: a new name goes to the end, a known one keeps its place. -/
def setItem (name : String) (value : ScriptValue) :
    List (String × ScriptValue) → List (String × ScriptValue)
  | [] => [(name, value)]
  | (other, old) :: entries =>
    if other = name then (name, value) :: entries else (other, old) :: setItem name value entries

mutual

/-- The value that a script gets for a JSON value. -/
def ofJson : Json → ScriptValue
  | .null => none
  | .bool value => bool value
  | .number literal => ofNumber literal
  | .string value => str value
  | .array items => list (ofItems items)
  | .object fields => dict (ofFields [] fields)

/-- The values of the items of an array. -/
def ofItems : List Json → List ScriptValue
  | [] => []
  | item :: items => ofJson item :: ofItems items

/-- The dictionary with the fields of an object added to it, one after the other. -/
def ofFields (entries : List (String × ScriptValue)) :
    List (String × Json) → List (String × ScriptValue)
  | [] => entries
  | (name, value) :: fields => ofFields (setItem name (ofJson value) entries) fields

end

mutual

/-- A value as JSON, where it is made of the values that results are made of. -/
def toJson? : ScriptValue → Option Json
  | none => some .null
  | bool value => some (.bool value)
  | int (.ofNat value) => some (.nat value)
  | int (.negSucc value) => some (.number ('-' :: Nat.toDigits 10 (value + 1)))
  | str value => some (.string value)
  | list items => (toItems? items).map .array
  | dict entries => (toFields? entries).map .object
  | float _ | surrogate | bytes _ | tuple _ | path _ | untestable => Option.none

/-- The items of a list as JSON. -/
def toItems? : List ScriptValue → Option (List Json)
  | [] => some []
  | item :: items => do return (← item.toJson?) :: (← toItems? items)

/-- The entries of a dictionary as JSON. -/
def toFields? : List (String × ScriptValue) → Option (List (String × Json))
  | [] => some []
  | (name, value) :: entries => do return (name, ← value.toJson?) :: (← toFields? entries)

end

end ScriptValue

/-! ## 2. Exceptions -/

/-- The classes of exceptions. -/
inductive ExceptionClass where
  | root
  | general
  | library
  | allocation
  | conversion
  | wrongType
  | encoding
  | system
  | fileNotFound
  | notADirectory
  | isADirectory
  | brokenOff
  deriving DecidableEq, Repr

namespace ExceptionClass

/-- The name of a class. -/
def name : ExceptionClass → String
  | root => "BaseException"
  | general => "Exception"
  | library => "HerbError"
  | allocation => "AllocationError"
  | conversion => "ConversionError"
  | wrongType => "TypeError"
  | encoding => "UnicodeEncodeError"
  | system => "OSError"
  | fileNotFound => "FileNotFoundError"
  | notADirectory => "NotADirectoryError"
  | isADirectory => "IsADirectoryError"
  | brokenOff => "PanicException"

/-- The class of a system error with a number. -/
def ofCode : Nat → ExceptionClass
  | 2 => fileNotFound
  | 20 => notADirectory
  | 21 => isADirectory
  | _ => system

/-- The classes of this library with the two nearest classes above each. -/
def exported : List (ExceptionClass × List ExceptionClass) :=
  [(library, [general, root]), (allocation, [library, general]), (conversion, [library, general])]

end ExceptionClass

/-- An exception: its class and its message. -/
structure ScriptException where
  type : ExceptionClass
  message : String
  deriving DecidableEq, Repr

namespace ScriptException

/-- The exception of a failure. A system error shows its number, or zero if it has none. -/
def ofFailure (cause : Failure) : ScriptException :=
  match cause with
  | .allocation _ => ⟨.allocation, cause.message⟩
  | .conversion _ => ⟨.conversion, cause.message⟩
  | .inputType .. => ⟨.wrongType, cause.message⟩
  | .io _ reason =>
    let code := reason.osCode.getD 0
    let message := cause.message
    ⟨.ofCode code, s!"[Errno {code}] {message}"⟩

/-- The exception of anything that stops a call. -/
def ofFault : Fault → ScriptException
  | .failure cause => ofFailure cause
  | .violation cause => ⟨.brokenOff, cause.message⟩

/-- The exception of a text that holds a surrogate. -/
def surrogate : ScriptException :=
  ⟨.encoding,
    "'utf-8' codec can't encode character '\\ud800' in position 0: surrogates not allowed"⟩

end ScriptException

/-! ## 3. Calls -/

namespace Script

/-- The host of scripts. -/
def host : Host Json :=
  jsonTreeHost "Python native extension" "herb"

/-- The source in a value. -/
def sourceOf : ScriptValue → Except ScriptException (List Char)
  | .str value => .ok value.toList
  | .surrogate => .error .surrogate
  | value => .error (.ofFailure (.inputType "str" value.typeName))

/-- The path in a value. A surrogate cannot be part of a path, and stops the call. -/
def pathOf : ScriptValue → Except ScriptException String
  | .str value => .ok value
  | .path value => .ok value
  | .surrogate => .error (.ofFault (.violation (.raised "Python API call failed")))
  | value => .error (.ofFailure (.inputType "str or os.PathLike" value.typeName))

/-- The value or the exception of a call. -/
def answer {α β : Type} (argument : Except ScriptException β)
    (call : β → Scope α (Except Fault Json)) : Scope α (Except ScriptException Json) := do
  match argument with
  | .error exception => return .error exception
  | .ok value => return (← call value).mapError ScriptException.ofFault

/-- The value of an extraction: none where there is no result. -/
def extracted (result : Except Fault (Option Json)) : Except Fault Json :=
  result.map fun text => text.getD .null

/-- Lexes a source. -/
def lex (source : ScriptValue) : Scope TokenList (Except ScriptException Json) :=
  answer (sourceOf source) host.lex

/-- Lexes a file. -/
def lexFile (files : Directory) (path : ScriptValue) :
    Scope TokenList (Except ScriptException Json) :=
  answer (pathOf path) (host.lexFile files)

/-- Parses a source. -/
def parse (source : ScriptValue) (options : OptionLookup) :
    Scope Document (Except ScriptException Json) :=
  answer (sourceOf source) fun text => host.parse text (some options)

/-- Parses a file. -/
def parseFile (files : Directory) (path : ScriptValue) (options : OptionLookup) :
    Scope Document (Except ScriptException Json) :=
  answer (pathOf path) fun path => host.parseFile files path (some options)

/-- Extracts the code of a source. -/
def extractRuby (source : ScriptValue) (options : OptionLookup) :
    Scope String (Except ScriptException Json) :=
  answer (sourceOf source) fun text => return extracted (← host.extractRuby text (some options))

/-- Extracts the markup of a source. -/
def extractHtml (source : ScriptValue) : Scope String (Except ScriptException Json) :=
  answer (sourceOf source) fun text => return extracted (← host.extractHtml text)

end Script
end ErbTemplate
