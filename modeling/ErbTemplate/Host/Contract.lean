import ErbTemplate.Host.Resource
import ErbTemplate.OptionSet
import ErbTemplate.Snapshot
import ErbTemplate.Files

/-!
# The contract of a host

A host is an environment that templates are handled for. It says how its values are made from
snapshots and texts, and what it is called; everything else is the same for all hosts and written
here once. So hosts cannot differ in what they compute, only in how they present it.
-/

set_option autoImplicit false

namespace ErbTemplate

/-- The version of the engine. -/
def engineVersion : String := "0.1.0"

/-- The version of the grammar. -/
def grammarVersion : String := "1.1.0"

/-- An environment with values of type `β`. -/
structure Host (β : Type) where
  kind : String
  package : String
  packageVersion : String
  tokenList : LexSnapshot → Except Fault β
  document : ParseSnapshot → Except Fault β
  string : String → Except Fault β

namespace Host

variable {β : Type}

/-- The text that names all versions. -/
def version (host : Host β) : String :=
  let package := host.package
  let packageVersion := host.packageVersion
  let kind := host.kind
  s!"{package} v{packageVersion}, herb grammar v{grammarVersion}, libherb v{engineVersion} ({kind})"

/-- Lexes a source. -/
def lex (host : Host β) (source : List Char) : Scope TokenList (Except Fault β) := do
  let produced ← Scope.attempt (ErbTemplate.lex source)
  convertProduced (produced.map fun list => .live (some list))
    fun list => host.tokenList (LexSnapshot.capture list.toList source)

/-- Parses a source. -/
def parse (host : Host β) (source : List Char) (options : Option OptionLookup) :
    Scope Document (Except Fault β) := do
  let produced ← Scope.attempt (ErbTemplate.parse source (ParserOptions.normalize options))
  convertProduced (produced.map fun document => .live (some document))
    fun document => host.document (ParseSnapshot.capture document source)

/-- Runs an extraction on a new buffer with room for the source. There is no result if the room is
refused, or if the extraction breaks off. -/
def extractText (host : Host β) (source : List Char) (extraction : InPlace TextBuffer Unit) :
    Scope String (Except Fault (Option β)) := do
  match ← Scope.attempt (TextBuffer.init (Text.byteLength source)) with
  | .error _ => return .ok none
  | .ok buffer =>
    let (result, buffer) ← StateT.lift (extraction.on buffer)
    convertScoped (Resource.ofExtraction result buffer) fun text =>
      match text with
      | some text => (host.string text).map some
      | none => .ok none

/-- Extracts the code of a source. -/
def extractRuby (host : Host β) (source : List Char) (options : Option OptionLookup) :
    Scope String (Except Fault (Option β)) :=
  host.extractText source
    (ErbTemplate.extractRuby source (ExtractOptions.normalize options {}))

/-- Extracts the markup of a source. -/
def extractHtml (host : Host β) (source : List Char) : Scope String (Except Fault (Option β)) :=
  host.extractText source (ErbTemplate.extractHtml source)

/-- Lexes a file. -/
def lexFile (host : Host β) (files : Directory) (path : String) :
    Scope TokenList (Except Fault β) := do
  match files.readSource path with
  | .ok source => host.lex source
  | .error cause => return .error (.failure cause)

/-- Parses a file. -/
def parseFile (host : Host β) (files : Directory) (path : String)
    (options : Option OptionLookup) : Scope Document (Except Fault β) := do
  match files.readSource path with
  | .ok source => host.parse source options
  | .error cause => return .error (.failure cause)

end Host

/-- The outcome of a computation in a memory, and the events it records. -/
def Scope.outcome {α β : Type} (computation : Scope α β) (memory : Memory) : β × List (Event α) :=
  ((computation.run []).run memory).1

end ErbTemplate
