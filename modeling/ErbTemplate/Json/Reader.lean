import ErbTemplate.Json.Basic

/-!
# Reading JSON

A strict reader: exactly the grammar of RFC 8259, one value and nothing after it but blanks. Three
limits are part of the contract. Containers nest at most `maxDepth` deep; an escaped surrogate
must come with its partner; and a number must be within the range of a double.

Each reader gives back what it did not read together with a proof that this is shorter than what
it was given, which is all the recursion needs in order to end.
-/

set_option autoImplicit false

namespace ErbTemplate
namespace Json

/-- A text strictly shorter than another. -/
abbrev Rest (text : List Char) := { rest : List Char // rest.length < text.length }

/-- How deep containers may nest. -/
def maxDepth : Nat := 127

/-- The blanks of JSON. -/
def isSpace (c : Char) : Bool :=
  c == ' ' || c == '\n' || c == '\r' || c == '\t'

/-- Drops the blanks at the beginning. -/
def skipSpace (text : List Char) : List Char :=
  text.dropWhile isSpace

theorem length_skipSpace_le (text : List Char) : (skipSpace text).length ≤ text.length :=
  (List.dropWhile_sublist isSpace).length_le

/-! ## 1. Strings -/

/-- The value of a hexadecimal digit. -/
def hexValue? (c : Char) : Option Nat :=
  if '0' ≤ c ∧ c ≤ '9' then some (c.toNat - 48)
  else if 'a' ≤ c ∧ c ≤ 'f' then some (c.toNat - 87)
  else if 'A' ≤ c ∧ c ≤ 'F' then some (c.toNat - 55)
  else none

/-- Four hexadecimal digits. -/
def readHex4 (text : List Char) : Option (Nat × Rest text) :=
  match text with
  | a :: b :: c :: d :: rest => do
    let a ← hexValue? a
    let b ← hexValue? b
    let c ← hexValue? c
    let d ← hexValue? d
    return (((a * 16 + b) * 16 + c) * 16 + d, ⟨rest, by simp only [List.length_cons]; omega⟩)
  | _ => none

/-- The character after `\u`: one unit, or a high surrogate with its low partner. -/
def readUnicode (text : List Char) : Option (Char × Rest text) := do
  let (high, ⟨rest, hrest⟩) ← readHex4 text
  if 0xD800 ≤ high ∧ high ≤ 0xDBFF then
    match rest, hrest with
    | '\\' :: 'u' :: more, hrest =>
      let (low, ⟨rest, hlow⟩) ← readHex4 more
      guard (0xDC00 ≤ low ∧ low ≤ 0xDFFF)
      return (Char.ofNat (0x10000 + (high - 0xD800) * 0x400 + (low - 0xDC00)),
        ⟨rest, by simp only [List.length_cons] at hrest; omega⟩)
    | _, _ => none
  else if 0xDC00 ≤ high ∧ high ≤ 0xDFFF then
    none
  else
    return (Char.ofNat high, ⟨rest, hrest⟩)

/-- The character after a backslash. -/
def readEscape (text : List Char) : Option (Char × Rest text) :=
  match text with
  | [] => none
  | c :: rest =>
    have short : rest.length < (c :: rest).length := by simp
    match c with
    | '"' => some ('"', ⟨rest, short⟩)
    | '\\' => some ('\\', ⟨rest, short⟩)
    | '/' => some ('/', ⟨rest, short⟩)
    | 'b' => some ('\x08', ⟨rest, short⟩)
    | 'f' => some ('\x0c', ⟨rest, short⟩)
    | 'n' => some ('\n', ⟨rest, short⟩)
    | 'r' => some ('\r', ⟨rest, short⟩)
    | 't' => some ('\t', ⟨rest, short⟩)
    | 'u' => (readUnicode rest).map fun (value, ⟨more, hmore⟩) => (value, ⟨more, by omega⟩)
    | _ => none

/-- The characters of a string up to its closing quote. -/
def readString (text : List Char) : Option (List Char × Rest text) :=
  match text with
  | [] => none
  | c :: rest =>
    if c = '"' then
      some ([], ⟨rest, by simp⟩)
    else if c = '\\' then
      match readEscape rest with
      | none => none
      | some (value, ⟨more, hmore⟩) =>
        (readString more).map fun (values, ⟨after, hafter⟩) =>
          (value :: values, ⟨after, by simp only [List.length_cons]; omega⟩)
    else if c.toNat < 0x20 then
      none
    else
      (readString rest).map fun (values, ⟨after, hafter⟩) =>
        (c :: values, ⟨after, by simp only [List.length_cons]; omega⟩)
termination_by text.length
decreasing_by
  · simp only [List.length_cons]; omega
  · simp

/-! ## 2. Numbers -/

/-- The digits at the beginning of a text, and the rest. -/
def spanDigits (text : List Char) : List Char × List Char :=
  (text.takeWhile Char.isDigit, text.dropWhile Char.isDigit)

/-- The number that digits denote. -/
def digitsValue (digits : List Char) : Nat :=
  digits.foldl (fun value c => value * 10 + (c.toNat - 48)) 0

/-- A number as it is written: the digits before and after the point, and the exponent. Its sign
plays no part in what follows. -/
structure Numeral where
  whole : List Char
  fraction : List Char
  exponent : Int
  deriving DecidableEq, Repr

/-- Adds digits to a number for as long as it fits in a word of 64 bits; the number and the digits
that are left over. -/
def absorbDigits (value : Nat) : List Char → Nat × List Char
  | [] => (value, [])
  | c :: digits =>
    let next := value * 10 + (c.toNat - 48)
    if next < Nat.pow 2 64 then absorbDigits next digits else (value, c :: digits)

/-- The nearest number with 53 binary digits; of two, the one that ends in zero. -/
def roundToDouble (n : Nat) : Nat :=
  let unit := Nat.pow 2 (n.log2 - 52)
  let quotient := n / unit
  let rest := n % unit
  if 2 * rest < unit ∨ (2 * rest = unit ∧ quotient % 2 = 0) then quotient * unit
  else (quotient + 1) * unit

/-- The least product that no double is nearest to. -/
def doubleLimit : Nat := Nat.pow 2 1024 - Nat.pow 2 970

/-- Whether a numeral is within the range of a double. Its value is a product of two doubles: the
leading digits that fit in a word, and a power of ten. No double is near a power beyond the
308th. -/
def Numeral.fitsDouble (numeral : Numeral) : Bool :=
  let (significand, wholeLeft) := absorbDigits 0 numeral.whole
  let (significand, fractionLeft) := absorbDigits significand numeral.fraction
  let scale := numeral.exponent + wholeLeft.length + fractionLeft.length - numeral.fraction.length
  significand == 0 || scale < 0
    || (scale ≤ 308
      && roundToDouble significand * roundToDouble (Nat.pow 10 scale.toNat) < doubleLimit)

/-- Whether zero is the double nearest to a numeral: its digits are zeros, or it is at most half of
the least double. -/
def Numeral.isZero (numeral : Numeral) : Bool :=
  let scale := numeral.exponent - numeral.fraction.length
  let digits := digitsValue (numeral.whole ++ numeral.fraction)
  digits == 0 || (scale < 0 && digits * Nat.pow 2 1075 ≤ Nat.pow 10 (-scale).toNat)

/-- The digits after a decimal point, if there is a point with digits. -/
def readFraction (text : List Char) : List Char × List Char :=
  match text with
  | '.' :: more =>
    let (digits, rest) := spanDigits more
    if digits.isEmpty then ([], text) else (digits, rest)
  | _ => ([], text)

/-- The exponent, if there is one with digits. -/
def readExponent (text : List Char) : Int × List Char :=
  match text with
  | c :: more =>
    if c = 'e' ∨ c = 'E' then
      let (negative, unsigned) :=
        match more with
        | '+' :: digits => (false, digits)
        | '-' :: digits => (true, digits)
        | digits => (false, digits)
      let (digits, rest) := spanDigits unsigned
      if digits.isEmpty then (0, text)
      else (if negative then -(digitsValue digits : Int) else digitsValue digits, rest)
    else
      (0, text)
  | [] => (0, text)

/-- A numeral and the rest. Its first digits are a single zero, or begin with another digit; it has
none if the text does not begin with digits. An incomplete fraction or exponent is left over, and
what follows a value will refuse it. -/
def readNumeral (text : List Char) : Numeral × List Char :=
  let (whole, afterWhole) :=
    match text with
    | '0' :: rest => (['0'], rest)
    | digits => spanDigits digits
  let (fraction, afterFraction) := readFraction afterWhole
  let (exponent, rest) := readExponent afterFraction
  (⟨whole, fraction, exponent⟩, rest)

/-- A text without the sign at its beginning. -/
def dropSign : List Char → List Char
  | '-' :: digits => digits
  | digits => digits

/-- The numeral of a literal. -/
def Numeral.ofLiteral (literal : List Char) : Numeral :=
  (readNumeral (dropSign literal)).1

/-- A number: its literal and the rest. -/
def readNumber (text : List Char) : Option (List Char × Rest text) :=
  let (numeral, rest) := readNumeral (dropSign text)
  if short : rest.length < text.length ∧ numeral.whole ≠ [] ∧ numeral.fitsDouble = true then
    some (text.take (text.length - rest.length), ⟨rest, short.1⟩)
  else
    none

/-! ## 3. Values -/

/-- A fixed word at the beginning of a text. -/
def readWord (word : List Char) (value : Json) (text : List Char) : Option (Json × Rest text) :=
  if short : word.isPrefixOf text = true ∧ (text.drop word.length).length < text.length then
    some (value, ⟨text.drop word.length, short.2⟩)
  else
    none

mutual

/-- A value at the beginning of a text, with room for so many levels of containers. -/
def readValue (room : Nat) (text : List Char) : Option (Json × Rest text) :=
  match text with
  | [] => none
  | c :: rest =>
    if c = '[' then
      if room = 0 then none
      else
        match hskip : skipSpace rest with
        | ']' :: more =>
          some (.array [], ⟨more, by
            have h := length_skipSpace_le rest
            rw [hskip] at h
            simp only [List.length_cons] at h ⊢
            omega⟩)
        | _ =>
          (readItems (room - 1) rest).map fun (items, ⟨more, hmore⟩) =>
            (.array items, ⟨more, by simp only [List.length_cons]; omega⟩)
    else if c = '\x7b' then
      if room = 0 then none
      else
        match hskip : skipSpace rest with
        | '\x7d' :: more =>
          some (.object [], ⟨more, by
            have h := length_skipSpace_le rest
            rw [hskip] at h
            simp only [List.length_cons] at h ⊢
            omega⟩)
        | _ =>
          (readFields (room - 1) rest).map fun (fields, ⟨more, hmore⟩) =>
            (.object fields, ⟨more, by simp only [List.length_cons]; omega⟩)
    else if c = '"' then
      (readString rest).map fun (value, ⟨more, hmore⟩) =>
        (Json.text value, ⟨more, by simp only [List.length_cons]; omega⟩)
    else if c = '-' ∨ c.isDigit then
      (readNumber (c :: rest)).map fun (literal, more) => (.number literal, more)
    else
      readWord ['n', 'u', 'l', 'l'] .null (c :: rest)
        <|> readWord ['t', 'r', 'u', 'e'] (.bool true) (c :: rest)
        <|> readWord ['f', 'a', 'l', 's', 'e'] (.bool false) (c :: rest)
termination_by (text.length, 0)

/-- The items of an array, up to and with the closing bracket. -/
def readItems (room : Nat) (text : List Char) : Option (List Json × Rest text) :=
  have hspace := length_skipSpace_le text
  match readValue room (skipSpace text) with
  | none => none
  | some (item, ⟨more, hmore⟩) =>
    have hmoreSpace := length_skipSpace_le more
    match hskip : skipSpace more with
    | ']' :: after =>
      some ([item], ⟨after, by
        rw [hskip] at hmoreSpace
        simp only [List.length_cons] at hmoreSpace
        omega⟩)
    | ',' :: after =>
      have hafter : after.length < text.length := by
        rw [hskip] at hmoreSpace
        simp only [List.length_cons] at hmoreSpace
        omega
      (readItems room after).map fun (items, ⟨last, hlast⟩) => (item :: items, ⟨last, by omega⟩)
    | _ => none
termination_by (text.length, 1)
decreasing_by
  · have h : (skipSpace text).length < text.length ∨ (skipSpace text).length = text.length := by
      omega
    rcases h with h | h
    · exact Prod.Lex.left _ _ h
    · rw [h]; exact Prod.Lex.right _ (by omega)
  · exact Prod.Lex.left _ _ hafter

/-- The fields of an object, up to and with the closing brace. -/
def readFields (room : Nat) (text : List Char) : Option (List (String × Json) × Rest text) :=
  have hspace := length_skipSpace_le text
  match hname : skipSpace text with
  | '"' :: afterQuote =>
    match readString afterQuote with
    | none => none
    | some (name, ⟨afterName, hafterName⟩) =>
      have hcolonSpace := length_skipSpace_le afterName
      match hcolon : skipSpace afterName with
      | ':' :: afterColon =>
        have hvalueSpace := length_skipSpace_le afterColon
        have hvalue : (skipSpace afterColon).length < text.length := by
          rw [hname] at hspace
          rw [hcolon] at hcolonSpace
          simp only [List.length_cons] at hspace hcolonSpace
          omega
        match readValue room (skipSpace afterColon) with
        | none => none
        | some (value, ⟨more, hmore⟩) =>
          have hmoreSpace := length_skipSpace_le more
          match hskip : skipSpace more with
          | '\x7d' :: after =>
            some ([(String.ofList name, value)], ⟨after, by
              rw [hskip] at hmoreSpace
              simp only [List.length_cons] at hmoreSpace
              omega⟩)
          | ',' :: after =>
            have hafter : after.length < text.length := by
              rw [hskip] at hmoreSpace
              simp only [List.length_cons] at hmoreSpace
              omega
            (readFields room after).map fun (fields, ⟨last, hlast⟩) =>
              ((String.ofList name, value) :: fields, ⟨last, by omega⟩)
          | _ => none
      | _ => none
  | _ => none
termination_by (text.length, 1)
decreasing_by
  · exact Prod.Lex.left _ _ hvalue
  · exact Prod.Lex.left _ _ hafter

end

/-- The value a text denotes; `none` when the text is not one JSON value within the limits. -/
def read? (text : List Char) : Option Json :=
  match readValue maxDepth (skipSpace text) with
  | some (value, ⟨rest, _⟩) => if (skipSpace rest).isEmpty then some value else none
  | none => none

end Json
end ErbTemplate
