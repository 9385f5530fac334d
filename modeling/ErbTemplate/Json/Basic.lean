/-!
# JSON values and their compact text

Results leave this library as JSON, and option sets may enter as JSON. A number is kept as it is
written: no part of the library computes with one, and in this way neither reading nor writing can
change it. The fields of an object stand in a fixed order, because the text of a result is
compared byte by byte.
-/

set_option autoImplicit false

namespace ErbTemplate

/-- A JSON value. -/
inductive Json where
  | null
  | bool (value : Bool)
  | number (literal : List Char)
  | string (value : String)
  | array (items : List Json)
  | object (fields : List (String × Json))
  deriving Repr, Inhabited

namespace Json

/-- A natural number. -/
def nat (n : Nat) : Json :=
  .number (Nat.toDigits 10 n)

/-- The text of a list of characters. -/
def text (characters : List Char) : Json :=
  .string (String.ofList characters)

/-- A value, or `null` where there is none. -/
def orNull {α : Type} (encode : α → Json) : Option α → Json
  | some value => encode value
  | none => .null

/-! ## 1. Strings -/

/-- A hexadecimal digit, in small letters. -/
def hexDigit (n : Nat) : Char :=
  "0123456789abcdef".toList.getD n '0'

/-- A character inside a string: quotes, backslashes and control characters are escaped, the
latter by a letter if they have one. -/
def escape (c : Char) : List Char :=
  match c with
  | '"' => ['\\', '"']
  | '\\' => ['\\', '\\']
  | '\n' => ['\\', 'n']
  | '\r' => ['\\', 'r']
  | '\t' => ['\\', 't']
  | '\x08' => ['\\', 'b']
  | '\x0c' => ['\\', 'f']
  | c =>
    if c.toNat < 0x20 then
      ['\\', 'u', '0', '0', hexDigit (c.toNat / 16), hexDigit (c.toNat % 16)]
    else
      [c]

/-- A string in quotes. -/
def quote (value : String) : List Char :=
  '"' :: value.toList.flatMap escape ++ ['"']

/-! ## 2. Values -/

/-- The parts, with a mark before the first and commas before the others. -/
def separate (mark : List Char) : List (List Char) → List Char
  | [] => []
  | part :: parts => mark ++ part ++ separate [','] parts

mutual

/-- The text of a value, without any white space. -/
def render : Json → List Char
  | null => ['n', 'u', 'l', 'l']
  | bool true => ['t', 'r', 'u', 'e']
  | bool false => ['f', 'a', 'l', 's', 'e']
  | number literal => literal
  | string value => quote value
  | array items => '[' :: separate [] (renderItems items) ++ [']']
  | object fields => '\x7b' :: separate [] (renderFields fields) ++ ['\x7d']

/-- The texts of the items of an array. -/
def renderItems : List Json → List (List Char)
  | [] => []
  | item :: items => item.render :: renderItems items

/-- The texts of the fields of an object. -/
def renderFields : List (String × Json) → List (List Char)
  | [] => []
  | (name, value) :: fields => (quote name ++ ':' :: value.render) :: renderFields fields

end

/-! ## 3. Writing

`render` puts texts of parts together, and copies a part once for each container around it.
`write` puts the text of a value in front of what follows it, and copies nothing; the two agree
(`write_eq`). -/

mutual

/-- The text of a value in front of a text. -/
def write : Json → List Char → List Char
  | null, after => ['n', 'u', 'l', 'l'] ++ after
  | bool true, after => ['t', 'r', 'u', 'e'] ++ after
  | bool false, after => ['f', 'a', 'l', 's', 'e'] ++ after
  | number literal, after => literal ++ after
  | string value, after => quote value ++ after
  | array items, after => '[' :: writeItems [] items (']' :: after)
  | object fields, after => '\x7b' :: writeFields [] fields ('\x7d' :: after)

/-- The texts of items, with a mark before the first and commas before the others. -/
def writeItems (mark : List Char) : List Json → List Char → List Char
  | [], after => after
  | item :: items, after => mark ++ item.write (writeItems [','] items after)

/-- The texts of fields, with a mark before the first and commas before the others. -/
def writeFields (mark : List Char) : List (String × Json) → List Char → List Char
  | [], after => after
  | (name, value) :: fields, after =>
    mark ++ quote name ++ ':' :: value.write (writeFields [','] fields after)

end

mutual

/-- Writing is rendering, in front of a text. -/
theorem write_eq (value : Json) (after : List Char) : value.write after = value.render ++ after :=
  match value with
  | null => by simp only [write, render]
  | bool true => by simp only [write, render]
  | bool false => by simp only [write, render]
  | number literal => by simp only [write, render]
  | string value => by simp only [write, render]
  | array items => by
    simp [write, render, writeItems_eq [] items]
  | object fields => by
    simp [write, render, writeFields_eq [] fields]

theorem writeItems_eq (mark : List Char) (items : List Json) (after : List Char) :
    writeItems mark items after = separate mark (renderItems items) ++ after :=
  match items with
  | [] => by simp [writeItems, renderItems, separate]
  | item :: items => by
    simp [writeItems, renderItems, separate, write_eq item, writeItems_eq [','] items]

theorem writeFields_eq (mark : List Char) (fields : List (String × Json)) (after : List Char) :
    writeFields mark fields after = separate mark (renderFields fields) ++ after :=
  match fields with
  | [] => by simp [writeFields, renderFields, separate]
  | (name, value) :: fields => by
    simp [writeFields, renderFields, separate, write_eq value, writeFields_eq [','] fields]

end

/-- The compact text of a value. -/
def compact (value : Json) : String :=
  String.ofList (value.write [])

/-- The characters of the compact text. -/
theorem toList_compact (value : Json) : value.compact.toList = value.render := by
  simp only [compact, write_eq, String.toList_ofList, List.append_nil]

end Json
end ErbTemplate
