import ErbTemplate.Json.Basic
import ErbTemplate.Options

/-!
# Option sets

Hosts hand over options as loosely typed sets. Each option can be given under its name as a text,
or under its name as a symbol; the textual form wins, and the symbolic one counts only where the
textual one is absent. What a host stores under a name may be anything. All that is asked of it is
a truth value, or that it is absent.

An `OptionLookup` is an option set reduced to these answers. `OptionSet` is the option set of JSON
values, in which `null` is absent, `false` is false and everything else is true. A record of
options, by contrast, is typed: there a value is a truth value or the record is refused.
-/

set_option autoImplicit false

namespace ErbTemplate

/-! ## 1. Keys -/

/-- The two ways to write the name of an option. -/
inductive KeyForm where
  | textual
  | symbolic
  deriving DecidableEq, Repr

/-- The options that are known. -/
inductive OptionKey where
  | trackWhitespace
  | analyze
  | strict
  | semicolons
  | comments
  | preservePositions
  deriving DecidableEq, Repr

namespace OptionKey

/-- Every known option. -/
def all : List OptionKey :=
  [trackWhitespace, analyze, strict, semicolons, comments, preservePositions]

/-- The name of an option. -/
def name : OptionKey → String
  | trackWhitespace => "track_whitespace"
  | analyze => "analyze"
  | strict => "strict"
  | semicolons => "semicolons"
  | comments => "comments"
  | preservePositions => "preserve_positions"

end OptionKey

/-! ## 2. Reading options -/

/-- The truth value an option set has under a name in a form; `none` where it is absent. -/
abbrev OptionLookup := KeyForm → String → Option Bool

namespace OptionLookup

/-- The value of an option: the textual form, else the symbolic one. -/
def fetch (options : OptionLookup) (key : OptionKey) : Option Bool :=
  options .textual key.name <|> options .symbolic key.name

end OptionLookup

/-- The value of an option in a set that may be missing; a default where it is absent. -/
def fetchOr (options : Option OptionLookup) (key : OptionKey) (default : Bool) : Bool :=
  (options.bind fun options => options.fetch key).getD default

/-- Options for parsing, over the usual defaults. White space is only ever switched on and analysis
only ever switched off; `strict` takes whatever value there is. -/
def ParserOptions.normalize : Option OptionLookup → ParserOptions
  | none => {}
  | some options =>
    let base : ParserOptions := {}
    { trackWhitespace :=
        if options.fetch .trackWhitespace = some true then true else base.trackWhitespace
      analyze := if options.fetch .analyze = some false then false else base.analyze
      strict := (options.fetch .strict).getD base.strict }

/-- Options for the extraction of code, over a baseline. -/
def ExtractOptions.normalize (options : Option OptionLookup) (baseline : ExtractOptions) :
    ExtractOptions where
  semicolons := fetchOr options .semicolons baseline.semicolons
  comments := fetchOr options .comments baseline.comments
  preservePositions := fetchOr options .preservePositions baseline.preservePositions

/-! ## 3. Sets of JSON values -/

/-- The truth of a JSON value; `none` for `null`. -/
def Json.truth : Json → Option Bool
  | .null => none
  | .bool value => some value
  | _ => some true

/-- A set of options with JSON values; each name occurs at most once in each form. -/
structure OptionSet where
  entries : List ((KeyForm × String) × Json)

namespace OptionSet

/-- No options. -/
def empty : OptionSet :=
  ⟨[]⟩

/-- Adds an entry, or replaces the one with the same name and form. -/
def insert (form : KeyForm) (name : String) (value : Json) (set : OptionSet) : OptionSet :=
  ⟨((form, name), value) :: set.entries.filter fun entry => entry.1 ≠ (form, name)⟩

/-- The truth of the value under a name in a form. -/
def lookup (set : OptionSet) : OptionLookup :=
  fun form name => (set.entries.lookup (form, name)).bind Json.truth

/-- Whether there is no entry at all. -/
def isEmpty (set : OptionSet) : Bool :=
  set.entries.isEmpty

/-- Form and name of a JSON key: a colon in front makes it symbolic. -/
def parseKey (key : String) : KeyForm × String :=
  match key.toList with
  | ':' :: name => (.symbolic, String.ofList name)
  | _ => (.textual, key)

/-- The options of a JSON document. One that is not an object has none; of repeated keys the last
wins. -/
def ofJson : Json → OptionSet
  | .object fields =>
    fields.foldl
      (fun set (key, value) =>
        let (form, name) := parseKey key
        set.insert form name value)
      empty
  | _ => empty

end OptionSet

/-! ## 4. Records of options

Options can also be given as a whole: as an object with a truth value under each name, or as an
array of truth values in the order of the names. What is left out has its default, unknown names
mean nothing, and anything but a truth value is refused. -/

/-- A truth value, and nothing else. -/
def Json.bool? : Json → Option Bool
  | .bool value => some value
  | _ => none

/-- The field of an object with a name; of repeated names the last counts. -/
def Json.lastField? (name : String) (fields : List (String × Json)) : Option Json :=
  fields.reverse.lookup name

/-- The truth values of a record with the given names and defaults. -/
def Json.flags? (defaults : List (OptionKey × Bool)) : Json → Option (List Bool)
  | .object fields =>
    defaults.mapM fun (key, default) =>
      match lastField? key.name fields with
      | none => some default
      | some value => value.bool?
  | .array items => do
    guard (items.length ≤ defaults.length)
    let given ← items.mapM bool?
    return given ++ (defaults.drop given.length).map Prod.snd
  | _ => none

namespace ParserOptions

/-- The options as a record. -/
def record (options : ParserOptions) : List (OptionKey × Bool) :=
  [(.trackWhitespace, options.trackWhitespace), (.analyze, options.analyze),
   (.strict, options.strict)]

/-- Reads a record of options for parsing. -/
def ofRecord? (value : Json) : Option ParserOptions := do
  match ← value.flags? (record {}) with
  | [trackWhitespace, analyze, strict] => some { trackWhitespace, analyze, strict }
  | _ => none

end ParserOptions

namespace ExtractOptions

/-- The options as a record. -/
def record (options : ExtractOptions) : List (OptionKey × Bool) :=
  [(.semicolons, options.semicolons), (.comments, options.comments),
   (.preservePositions, options.preservePositions)]

/-- Reads a record of options for the extraction of code. -/
def ofRecord? (value : Json) : Option ExtractOptions := do
  match ← value.flags? (record {}) with
  | [semicolons, comments, preservePositions] => some { semicolons, comments, preservePositions }
  | _ => none

end ExtractOptions

/-- The object of a record. -/
def Json.ofRecord (record : List (OptionKey × Bool)) : Json :=
  .object (record.map fun (key, value) => (key.name, .bool value))

end ErbTemplate
