import ErbTemplate.Host.JsonText
import ErbTemplate.Json.Reader

/-!
# The host of web pages

Pages pass values of their own: texts, numbers, symbols, objects with properties. A call answers
with a response, which is the data or an error with a kind. Two questions are asked of a value.

* As a source: is it a text? If not, the error names its type, under which `null` is an object.
* As options: is it an object? If so, its own properties are read, by name or by symbol. A property
  that cannot be read, or is undefined or null, is absent; others count by their truth.
-/

set_option autoImplicit false

namespace ErbTemplate

/-! ## 1. Values -/

/-- A property of an object: whether it is named by a text or by a symbol, whether it is the
object's own, and its value, if it can be read. -/
structure Property (α : Type) where
  form : KeyForm
  name : String
  own : Bool
  value : Option α

/-- A value of a page. A number is kept as it is written. -/
inductive PageValue where
  | undefined
  | null
  | bool (value : Bool)
  | number (value : Json.Numeral)
  | notANumber
  | bigint (value : Int)
  | string (value : String)
  | symbol
  | object (properties : List (Property PageValue))
  | function (properties : List (Property PageValue))

namespace PageValue

instance : Inhabited PageValue :=
  ⟨undefined⟩

/-- The name of the type of a value. -/
def typeName : PageValue → String
  | undefined => "undefined"
  | null => "object"
  | bool _ => "boolean"
  | number _ | notANumber => "number"
  | bigint _ => "bigint"
  | string _ => "string"
  | symbol => "symbol"
  | object _ => "object"
  | function _ => "function"

/-- The truth of a value; `none` where it counts as absent. -/
def truth : PageValue → Option Bool
  | undefined | null => none
  | bool value => some value
  | number value => some !value.isZero
  | notANumber => some false
  | bigint value => some (value != 0)
  | string value => some (value != "")
  | symbol | object _ | function _ => some true

/-- The options in a value. -/
def options : PageValue → OptionLookup
  | object properties => fun form name => do
    let property ← properties.reverse.find? fun property =>
      property.own && property.form == form && property.name == name
    (← property.value).truth
  | _ => fun _ _ => none

/-- The source in a value. -/
def source : PageValue → Except Failure (List Char)
  | string value => .ok value.toList
  | value => .error (.inputType "string" value.typeName)

end PageValue

/-! ## 2. Responses -/

/-- The answer to a call. -/
inductive Response where
  | ok (data : Json)
  | err (cause : Failure)

namespace Response

/-- The kind of a failure in a response. -/
def kindOf : Failure → String
  | .allocation _ => "allocation"
  | .conversion _ => "conversion"
  | .inputType .. => "type"
  | .io .. => "io"

/-- The fields of a response. -/
def toJson : Response → Json
  | ok data => .object [("status", .string "ok"), ("data", data)]
  | err cause =>
    .object
      [("status", .string "err"),
       ("error",
         .object [("kind", .string (kindOf cause)), ("message", .string cause.message)])]

/-- The response to an outcome; a call that broke off has none. -/
def ofResult : Except Fault Json → Except Violation Response
  | .ok data => .ok (ok data)
  | .error (.failure cause) => .ok (err cause)
  | .error (.violation cause) => .error cause

end Response

/-! ## 3. Calls -/

namespace Page

/-- The host of pages. -/
def host : Host Json :=
  jsonTreeHost "WebAssembly" "@herb-tools/browser"

/-- Makes a call with the source in a value, and answers it. -/
def respond {α : Type} (source : PageValue) (call : List Char → Scope α (Except Fault Json)) :
    Scope α (Except Violation Response) := do
  match source.source with
  | .error cause => return .ok (.err cause)
  | .ok text => return Response.ofResult (← call text)

/-- The data of an extraction: `null` where there is no result. -/
def extracted (result : Except Fault (Option Json)) : Except Fault Json :=
  result.map fun data => data.getD .null

/-- Lexes a source. -/
def lex (source : PageValue) : Scope TokenList (Except Violation Response) :=
  respond source host.lex

/-- Parses a source. -/
def parse (source options : PageValue) : Scope Document (Except Violation Response) :=
  respond source fun text => host.parse text (some options.options)

/-- Extracts the code of a source. -/
def extractRuby (source options : PageValue) : Scope String (Except Violation Response) :=
  respond source fun text => return extracted (← host.extractRuby text (some options.options))

/-- Extracts the markup of a source. -/
def extractHtml (source : PageValue) : Scope String (Except Violation Response) :=
  respond source fun text => return extracted (← host.extractHtml text)

end Page
end ErbTemplate
