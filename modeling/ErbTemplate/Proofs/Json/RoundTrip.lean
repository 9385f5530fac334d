import ErbTemplate.Json.Reader
import Mathlib.Data.Nat.Init
import Mathlib.Data.Option.Basic

/-!
# Reading what was written

The compact text of a value is read back as that value. This is said of values in which numbers are
words of 64 bits (`Plain`), as they are in all results; a literal of another kind need not be a
number at all.

Every reader is described in front of a text that is not its business: **`reads_write`** reads a
value back from the text that `write` puts before an `after`, and leaves exactly `after`. Only a
number could read on into what follows it, so `after` begins with a mark that ends a value
(`EndsValue`), as it does inside of a container.

What a reader leaves comes with a proof that depends on the text, so no equation of readers can be
rewritten inside. `Reads` hides that proof.
-/

set_option autoImplicit false

namespace ErbTemplate
namespace Json

/-- A reader finds a value at the beginning of a text, and leaves the rest. -/
def Reads {α : Type} (read : (text : List Char) → Option (α × Rest text)) (text : List Char)
    (value : α) (rest : List Char) : Prop :=
  ∃ short, read text = some (value, ⟨rest, short⟩)

/-! ## 1. Strings -/

theorem hexValue?_hexDigit : ∀ n < 16, hexValue? (hexDigit n) = some n := by decide

/-- A control character is read back from its four digits. -/
theorem reads_unicode {c : Char} (hc : c.toNat < 0x20) (rest : List Char) :
    Reads readUnicode ('0' :: '0' :: hexDigit (c.toNat / 16) :: hexDigit (c.toNat % 16) :: rest)
      c rest := by
  have hzero : hexValue? '0' = some 0 := by decide
  have hhigh := hexValue?_hexDigit (c.toNat / 16) (by omega)
  have hlow := hexValue?_hexDigit (c.toNat % 16) (by omega)
  have hcode : ((0 * 16 + 0) * 16 + c.toNat / 16) * 16 + c.toNat % 16 = c.toNat := by omega
  have hdigits : Reads readHex4
      ('0' :: '0' :: hexDigit (c.toNat / 16) :: hexDigit (c.toNat % 16) :: rest) c.toNat rest := by
    refine ⟨by simp only [List.length_cons]; omega, ?_⟩
    simp only [readHex4, hzero, hhigh, hlow, Option.bind_eq_bind, Option.bind_some, hcode]
    rfl
  obtain ⟨short, hread⟩ := hdigits
  refine ⟨short, ?_⟩
  rw [readUnicode, hread]
  simp only [Option.bind_eq_bind, Option.bind_some]
  rw [if_neg (by omega), if_neg (by omega), Char.ofNat_toNat]
  rfl

/-- After a backslash, the mark of a character is read. -/
theorem reads_escaped {c : Char} {marked text values rest : List Char}
    (hmark : Reads readEscape marked c text) (h : Reads readString text values rest) :
    Reads readString ('\\' :: marked) (c :: values) rest := by
  obtain ⟨shorter, hescape⟩ := hmark
  obtain ⟨short, hread⟩ := h
  refine ⟨by simp only [List.length_cons]; omega, ?_⟩
  rw [readString, if_neg (by decide), if_pos rfl, hescape]
  simp only [hread]
  rfl

/-- **One character is read back**, escaped or not. -/
theorem reads_escape (c : Char) {text values rest : List Char}
    (h : Reads readString text values rest) :
    Reads readString (escape c ++ text) (c :: values) rest := by
  unfold escape
  split
  -- a letter after the backslash
  case h_1 | h_2 | h_3 | h_4 | h_5 | h_6 | h_7 => exact reads_escaped ⟨by simp, rfl⟩ h
  case h_8 hquote hback _ _ _ _ _ =>
    split
    case isTrue hcontrol =>
      obtain ⟨short, hread⟩ := reads_unicode hcontrol text
      have hmark : Reads readEscape ('u' :: '0' :: '0' :: hexDigit (c.toNat / 16)
          :: hexDigit (c.toNat % 16) :: text) c text := by
        refine ⟨Nat.lt_succ_of_lt short, ?_⟩
        simp only [readEscape, hread]
        rfl
      exact reads_escaped hmark h
    case isFalse hcontrol =>
      obtain ⟨short, hread⟩ := h
      refine ⟨Nat.lt_succ_of_lt short, ?_⟩
      show readString (c :: text) = _
      rw [readString, if_neg hquote, if_neg hback, if_neg hcontrol, hread]
      rfl

theorem reads_characters (values rest : List Char) :
    Reads readString (values.flatMap escape ++ '"' :: rest) values rest := by
  induction values with
  | nil =>
    refine ⟨Nat.lt_succ_self _, ?_⟩
    show readString ('"' :: rest) = _
    rw [readString, if_pos rfl]
  | cons c values ih =>
    rw [List.flatMap_cons, List.append_assoc]
    exact reads_escape c ih

/-- What stands after the opening quote of a string. -/
theorem quote_append (value : String) (rest : List Char) :
    quote value ++ rest = '"' :: (value.toList.flatMap escape ++ '"' :: rest) := by
  simp only [quote, List.cons_append, List.append_assoc, List.nil_append]

/-! ## 2. Numbers -/

/-- A text that begins with a mark after which no value goes on, or is at its end. -/
def EndsValue (text : List Char) : Prop :=
  ∀ c ∈ text.head?, c = ',' ∨ c = ']' ∨ c = '\x7d'

/-- Digits of a word of 64 bits are all absorbed. -/
theorem absorbDigits_eq {value : Nat} {digits : List Char}
    (h : Nat.ofDigitChars 10 digits value < Nat.pow 2 64) :
    absorbDigits value digits = (Nat.ofDigitChars 10 digits value, []) := by
  induction digits generalizing value with
  | nil => rfl
  | cons c digits ih =>
    have hnext : 10 * value + (c.toNat - '0'.toNat) = value * 10 + (c.toNat - 48) := by
      rw [Nat.mul_comm]
      rfl
    rw [Nat.ofDigitChars_cons, hnext] at h ⊢
    -- a number never gets smaller by a further digit
    have hle : value * 10 + (c.toNat - 48)
        ≤ Nat.ofDigitChars 10 digits (value * 10 + (c.toNat - 48)) := by
      rw [Nat.ofDigitChars_eq_ofDigitChars_zero]
      exact Nat.le_add_right_of_le (Nat.le_mul_of_pos_left _ (Nat.pow_pos (by decide)))
    rw [absorbDigits, if_pos (Nat.lt_of_le_of_lt hle h)]
    exact ih h

theorem roundToDouble_le (n : Nat) : roundToDouble n ≤ 2 * n + 1 := by
  have hunit : Nat.pow 2 (n.log2 - 52) ≤ n + 1 := by
    rcases Nat.eq_zero_or_pos n with rfl | hpos
    · decide
    · calc Nat.pow 2 (n.log2 - 52)
        _ ≤ Nat.pow 2 n.log2 := Nat.pow_le_pow_right (by decide) (Nat.sub_le _ _)
        _ ≤ n := Nat.log2_self_le (Nat.ne_of_gt hpos)
        _ ≤ n + 1 := Nat.le_succ n
  have hquotient := Nat.div_mul_le_self n (Nat.pow 2 (n.log2 - 52))
  simp only [roundToDouble]
  split
  · omega
  · rw [Nat.add_mul, Nat.one_mul]
    omega

/-- A word of 64 bits is within the range of a double. -/
theorem fitsDouble_toDigits {n : Nat} (h : n < Nat.pow 2 64) :
    Numeral.fitsDouble ⟨Nat.toDigits 10 n, [], 0⟩ = true := by
  have hvalue : Nat.ofDigitChars 10 (Nat.toDigits 10 n) 0 = n := Nat.ofDigitChars_ten_toDigits
  have habsorb : absorbDigits 0 (Nat.toDigits 10 n) = (n, []) := by
    rw [absorbDigits_eq (by rw [hvalue]; exact h), hvalue]
  have hone : roundToDouble (Nat.pow 10 0) = 1 := by decide
  have hlt : roundToDouble n * roundToDouble (Nat.pow 10 0) < doubleLimit := by
    have hround := roundToDouble_le n
    have hlimit : 2 * Nat.pow 2 64 < doubleLimit := by decide +kernel
    rw [hone, Nat.mul_one]
    omega
  simp only [Numeral.fitsDouble, habsorb, absorbDigits, Bool.or_eq_true, Bool.and_eq_true]
  exact Or.inr ⟨rfl, decide_eq_true hlt⟩

/-- A number other than zero does not begin with a zero. -/
theorem toDigits_eq_cons {n : Nat} (h : 0 < n) :
    ∃ c digits, Nat.toDigits 10 n = c :: digits ∧ c ≠ '0' := by
  induction n using Nat.strongRecOn with
  | ind n ih =>
    rcases Nat.lt_or_ge n 10 with hlt | hge
    · refine ⟨n.digitChar, [], Nat.toDigits_of_lt_base hlt, ?_⟩
      have hdigit : ∀ k < 10, 0 < k → Nat.digitChar k ≠ '0' := by decide
      exact hdigit n hlt h
    · obtain ⟨c, digits, heq, hc⟩ := ih (n / 10) (by omega) (by omega)
      refine ⟨c, digits ++ [(n % 10).digitChar], ?_, hc⟩
      rw [Nat.toDigits_of_base_le (by decide) hge, heq]
      rfl

theorem isDigit_of_mem_toDigits {n : Nat} {c : Char} (h : c ∈ Nat.toDigits 10 n) :
    c.isDigit = true :=
  Nat.isDigit_of_mem_toDigits (by decide) (by decide) h

/-- The digits of a number are its own. -/
theorem spanDigits_toDigits (n : Nat) {after : List Char} (hafter : EndsValue after) :
    spanDigits (Nat.toDigits 10 n ++ after) = (Nat.toDigits 10 n, after) := by
  have hmark : ∀ c ∈ after.head?, c.isDigit = false := by
    intro c hc
    rcases hafter c hc with rfl | rfl | rfl <;> rfl
  have htake : after.takeWhile Char.isDigit = [] := by
    cases after with
    | nil => rfl
    | cons c after => exact List.takeWhile_cons_of_neg (by simp [hmark c rfl])
  have hdrop : after.dropWhile Char.isDigit = after := by
    cases after with
    | nil => rfl
    | cons c after => exact List.dropWhile_cons_of_neg (by simp [hmark c rfl])
  have hdigits : ∀ c ∈ Nat.toDigits 10 n, c.isDigit = true := fun _ => isDigit_of_mem_toDigits
  rw [spanDigits, List.takeWhile_append_of_pos hdigits, List.dropWhile_append_of_pos hdigits, htake,
    hdrop, List.append_nil]

theorem readFraction_of_endsValue {after : List Char} (hafter : EndsValue after) :
    readFraction after = ([], after) := by
  cases after with
  | nil => rfl
  | cons c after => rcases hafter c rfl with rfl | rfl | rfl <;> rfl

theorem readExponent_of_endsValue {after : List Char} (hafter : EndsValue after) :
    readExponent after = (0, after) := by
  cases after with
  | nil => rfl
  | cons c after => rcases hafter c rfl with rfl | rfl | rfl <;> rfl

theorem readNumeral_toDigits (n : Nat) {after : List Char} (hafter : EndsValue after) :
    readNumeral (Nat.toDigits 10 n ++ after) = (⟨Nat.toDigits 10 n, [], 0⟩, after) := by
  have hspan := spanDigits_toDigits n hafter
  rcases Nat.eq_zero_or_pos n with rfl | hpos
  · rw [Nat.toDigits_zero]
    simp only [List.cons_append, List.nil_append, readNumeral, readFraction_of_endsValue hafter,
      readExponent_of_endsValue hafter]
  · obtain ⟨c, digits, heq, hc⟩ := toDigits_eq_cons hpos
    rw [heq] at hspan ⊢
    simp only [List.cons_append] at hspan ⊢
    simp [readNumeral, hc, hspan, readFraction_of_endsValue hafter,
      readExponent_of_endsValue hafter]

/-- A number begins with a digit. -/
theorem exists_toDigits_eq_cons (n : Nat) :
    ∃ c digits, Nat.toDigits 10 n = c :: digits ∧ c.isDigit = true := by
  cases hcases : Nat.toDigits 10 n with
  | nil => exact absurd hcases Nat.toDigits_ne_nil
  | cons c digits =>
    have hmem : c ∈ Nat.toDigits 10 n := by
      rw [hcases]
      exact List.mem_cons_self
    exact ⟨c, digits, rfl, isDigit_of_mem_toDigits hmem⟩

theorem dropSign_toDigits (n : Nat) (after : List Char) :
    dropSign (Nat.toDigits 10 n ++ after) = Nat.toDigits 10 n ++ after := by
  obtain ⟨c, digits, heq, hdigit⟩ := exists_toDigits_eq_cons n
  have hc : c ≠ '-' := by
    rintro rfl
    cases hdigit
  simp [heq, dropSign, hc]

/-- **A number is read back** in front of a mark. -/
theorem reads_toDigits {n : Nat} (h : n < Nat.pow 2 64) {after : List Char}
    (hafter : EndsValue after) :
    Reads readNumber (Nat.toDigits 10 n ++ after) (Nat.toDigits 10 n) after := by
  have hlength : 0 < (Nat.toDigits 10 n).length := List.length_pos_iff.mpr Nat.toDigits_ne_nil
  have hshort : after.length < (Nat.toDigits 10 n ++ after).length := by
    rw [List.length_append]
    omega
  refine ⟨hshort, ?_⟩
  simp only [readNumber, dropSign_toDigits, readNumeral_toDigits n hafter]
  rw [dif_pos ⟨hshort, Nat.toDigits_ne_nil, fitsDouble_toDigits h⟩]
  simp

/-! ## 3. Values -/

/-- A value whose numbers are words of 64 bits, and whose objects have each field once. -/
inductive Plain : Json → Prop
  | null : Plain .null
  | bool (value : Bool) : Plain (.bool value)
  | nat {n : Nat} (word : n < Nat.pow 2 64) : Plain (.nat n)
  | string (value : String) : Plain (.string value)
  | array {items : List Json} (plain : ∀ item ∈ items, Plain item) : Plain (.array items)
  | object {fields : List (String × Json)} (distinct : (fields.map Prod.fst).Nodup)
      (plain : ∀ field ∈ fields, Plain field.2) : Plain (.object fields)

attribute [simp] Plain.null Plain.bool Plain.string

@[simp] theorem plain_array_iff {items : List Json} :
    Plain (.array items) ↔ ∀ item ∈ items, Plain item := by
  constructor
  · rintro (_ | _ | _ | _ | plain)
    exact plain
  · exact .array

@[simp] theorem plain_object_iff {fields : List (String × Json)} :
    Plain (.object fields) ↔ (fields.map Prod.fst).Nodup ∧ ∀ field ∈ fields, Plain field.2 := by
  constructor
  · rintro (_ | _ | _ | _ | _ | ⟨distinct, plain⟩)
    exact ⟨distinct, plain⟩
  · rintro ⟨distinct, plain⟩
    exact .object distinct plain

mutual

/-- How deep the containers of a value nest. -/
def depth : Json → Nat
  | null | bool _ | number _ | string _ => 0
  | array items => depthOfItems items + 1
  | object fields => depthOfFields fields + 1

def depthOfItems : List Json → Nat
  | [] => 0
  | item :: items => max item.depth (depthOfItems items)

def depthOfFields : List (String × Json) → Nat
  | [] => 0
  | (_, value) :: fields => max value.depth (depthOfFields fields)

end

theorem depth_le_of_mem {item : Json} {items : List Json} (h : item ∈ items) :
    item.depth ≤ depthOfItems items := by
  induction items with
  | nil => cases h
  | cons first items ih =>
    rw [depthOfItems]
    rcases List.mem_cons.mp h with rfl | h
    · exact Nat.le_max_left _ _
    · exact Nat.le_trans (ih h) (Nat.le_max_right _ _)

theorem depth_le_of_mem_fields {field : String × Json} {fields : List (String × Json)}
    (h : field ∈ fields) : field.2.depth ≤ depthOfFields fields := by
  induction fields with
  | nil => cases h
  | cons first fields ih =>
    rw [depthOfFields]
    rcases List.mem_cons.mp h with rfl | h
    · exact Nat.le_max_left _ _
    · exact Nat.le_trans (ih h) (Nat.le_max_right _ _)

theorem depthOfFields_le {fields : List (String × Json)} {bound : Nat}
    (h : ∀ field ∈ fields, field.2.depth ≤ bound) : depthOfFields fields ≤ bound := by
  induction fields with
  | nil => exact Nat.zero_le bound
  | cons field fields ih =>
    obtain ⟨hfield, hfields⟩ := List.forall_mem_cons.1 h
    exact Nat.max_le.2 ⟨hfield, ih hfields⟩

theorem isSpace_of_isDigit {c : Char} (h : c.isDigit = true) : isSpace c = false := by
  have hne : ∀ d : Char, d.isDigit = false → c ≠ d := by
    rintro d hd rfl
    rw [hd] at h
    cases h
  simp [isSpace, hne ' ' rfl, hne '\n' rfl, hne '\r' rfl, hne '\t' rfl]

/-- A value begins with a character that is neither a blank nor the end of an array. -/
theorem Plain.write_eq_cons {value : Json} (h : Plain value) (after : List Char) :
    ∃ c text, value.write after = c :: text ∧ isSpace c = false ∧ c ≠ ']' := by
  cases h with
  | null => exact ⟨_, _, rfl, by decide, by decide⟩
  | string value => exact ⟨_, _, quote_append value after, by decide, by decide⟩
  | array | object => exact ⟨_, _, by rw [write], by decide, by decide⟩
  | bool value =>
    cases value with
    | true | false => exact ⟨_, _, rfl, by decide, by decide⟩
  | @nat n =>
    obtain ⟨c, digits, heq, hdigit⟩ := exists_toDigits_eq_cons n
    refine ⟨c, digits ++ after, by rw [Json.nat, write, heq]; rfl, isSpace_of_isDigit hdigit, ?_⟩
    rintro rfl
    cases hdigit

theorem skipSpace_cons {c : Char} (h : isSpace c = false) (text : List Char) :
    skipSpace (c :: text) = c :: text :=
  List.dropWhile_cons_of_neg (by simp [h])

theorem Plain.skipSpace_write {value : Json} (h : Plain value) (after : List Char) :
    skipSpace (value.write after) = value.write after := by
  obtain ⟨c, text, heq, hspace, -⟩ := h.write_eq_cons after
  rw [heq]
  exact skipSpace_cons hspace text

section Containers

variable {room : Nat} {text more after : List Char} {value : Json} {values : List Json}
  {name : List Char} {fields : List (String × Json)}

theorem reads_lastItem (h : Reads (readValue room) (skipSpace text) value (']' :: after)) :
    Reads (readItems room) text [value] after := by
  have hspace := length_skipSpace_le text
  obtain ⟨short, hvalue⟩ := h
  have hshort := short
  rw [List.length_cons] at hshort
  refine ⟨by omega, ?_⟩
  rw [readItems]
  simp only [hvalue]
  rfl

theorem reads_nextItem (h : Reads (readValue room) (skipSpace text) value (',' :: more))
    (hmore : Reads (readItems room) more values after) :
    Reads (readItems room) text (value :: values) after := by
  have hspace := length_skipSpace_le text
  obtain ⟨short, hvalue⟩ := h
  obtain ⟨shorter, hvalues⟩ := hmore
  have hshort := short
  rw [List.length_cons] at hshort
  refine ⟨by omega, ?_⟩
  rw [readItems]
  simp only [hvalue]
  show (readItems room more).map _ = _
  rw [hvalues]
  rfl

theorem reads_lastField (hname : Reads readString text name (':' :: more))
    (h : Reads (readValue room) (skipSpace more) value ('\x7d' :: after)) :
    Reads (readFields room) ('"' :: text) [(String.ofList name, value)] after := by
  have hspace := length_skipSpace_le more
  obtain ⟨shortName, hname⟩ := hname
  obtain ⟨short, hvalue⟩ := h
  have hshort := short
  have hshortName := shortName
  rw [List.length_cons] at hshort hshortName
  refine ⟨by rw [List.length_cons]; omega, ?_⟩
  rw [readFields]
  split
  case h_1 quoted hquoted =>
    cases hquoted
    simp only [hname]
    split
    case h_1 colon hcolon =>
      cases hcolon
      simp only [hvalue]
      rfl
    case h_2 hno => exact absurd rfl (hno more)
  case h_2 hno => exact absurd rfl (hno text)

theorem reads_nextField {rest : List Char} (hname : Reads readString text name (':' :: more))
    (h : Reads (readValue room) (skipSpace more) value (',' :: rest))
    (hrest : Reads (readFields room) rest fields after) :
    Reads (readFields room) ('"' :: text) ((String.ofList name, value) :: fields) after := by
  have hspace := length_skipSpace_le more
  obtain ⟨shortName, hname⟩ := hname
  obtain ⟨short, hvalue⟩ := h
  obtain ⟨shorter, hfields⟩ := hrest
  have hshort := short
  have hshortName := shortName
  rw [List.length_cons] at hshort hshortName
  refine ⟨by rw [List.length_cons]; omega, ?_⟩
  rw [readFields]
  split
  case h_1 quoted hquoted =>
    cases hquoted
    simp only [hname]
    split
    case h_1 colon hcolon =>
      cases hcolon
      simp only [hvalue]
      show (readFields room rest).map _ = _
      rw [hfields]
      rfl
    case h_2 hno => exact absurd rfl (hno more)
  case h_2 hno => exact absurd rfl (hno text)

end Containers

/-- A value that is read back, whatever ends it. -/
def ReadsBack (room : Nat) (value : Json) : Prop :=
  ∀ after, EndsValue after → Reads (readValue room) (skipSpace (value.write after)) value after

theorem ReadsBack.before {room : Nat} {value : Json} (h : ReadsBack room value) (c : Char)
    (text : List Char) (hc : c = ',' ∨ c = ']' ∨ c = '\x7d') :
    Reads (readValue room) (skipSpace (value.write (c :: text))) value (c :: text) :=
  h _ fun _ hd => by cases hd; exact hc

/-- A row of items is read back up to the end of its array. -/
theorem reads_items {room : Nat} {item : Json} {items : List Json}
    (h : ∀ value ∈ item :: items, ReadsBack room value) (after : List Char) :
    Reads (readItems room) (writeItems [] (item :: items) (']' :: after))
      (item :: items) after := by
  induction items generalizing item with
  | nil =>
    exact reads_lastItem ((h item List.mem_cons_self).before ']' after (by decide))
  | cons next items ih =>
    have hitem := h item List.mem_cons_self
    have hnext := ih fun value hvalue => h value (List.mem_cons_of_mem _ hvalue)
    exact reads_nextItem (hitem.before ',' _ (by decide)) hnext

/-- A row of fields is read back up to the end of its object. -/
theorem reads_fields {room : Nat} {field : String × Json} {fields : List (String × Json)}
    (h : ∀ field' ∈ field :: fields, ReadsBack room field'.2) (after : List Char) :
    Reads (readFields room) (writeFields [] (field :: fields) ('\x7d' :: after))
      (field :: fields) after := by
  induction fields generalizing field with
  | nil =>
    obtain ⟨name, value⟩ := field
    have hvalue := (h _ List.mem_cons_self).before '\x7d' after (by decide)
    have hread := reads_lastField (reads_characters name.toList _) hvalue
    rw [← quote_append, String.ofList_toList] at hread
    exact hread
  | cons next items ih =>
    obtain ⟨name, value⟩ := field
    have hvalue := h _ List.mem_cons_self
    have hnext := ih fun field hfield => h field (List.mem_cons_of_mem _ hfield)
    have hread := reads_nextField (reads_characters name.toList _)
      (hvalue.before ',' _ (by decide)) hnext
    rw [← quote_append, String.ofList_toList] at hread
    exact hread

theorem reads_array {room : Nat} {items : List Json} (hplain : ∀ item ∈ items, Plain item)
    (h : ∀ item ∈ items, ReadsBack room item) (after : List Char) :
    Reads (readValue (room + 1)) ((array items).write after) (.array items) after := by
  rw [write]
  cases items with
  | nil =>
    refine ⟨by simp only [writeItems, List.length_cons]; omega, ?_⟩
    rw [readValue, if_pos rfl, if_neg (Nat.succ_ne_zero room)]
    rfl
  | cons item items =>
    obtain ⟨c, text, htext, hspace, hc⟩ :=
      (hplain item List.mem_cons_self).write_eq_cons (writeItems [','] items (']' :: after))
    obtain ⟨short, hread⟩ := reads_items h after
    refine ⟨Nat.lt_succ_of_lt short, ?_⟩
    rw [readValue, if_pos rfl, if_neg (Nat.succ_ne_zero room)]
    split
    case h_1 more hend =>
      -- the first item would be the end of the array
      rw [writeItems, List.nil_append, htext, skipSpace_cons hspace] at hend
      cases hend
      exact absurd rfl hc
    case h_2 =>
      rw [Nat.add_sub_cancel, hread]
      rfl

theorem reads_object {room : Nat} {fields : List (String × Json)}
    (h : ∀ field ∈ fields, ReadsBack room field.2) (after : List Char) :
    Reads (readValue (room + 1)) ((object fields).write after) (.object fields) after := by
  rw [write]
  cases fields with
  | nil =>
    refine ⟨by simp only [writeFields, List.length_cons]; omega, ?_⟩
    rw [readValue, if_neg (by decide), if_pos rfl, if_neg (Nat.succ_ne_zero room)]
    rfl
  | cons field fields =>
    obtain ⟨short, hread⟩ := reads_fields h after
    refine ⟨Nat.lt_succ_of_lt short, ?_⟩
    rw [readValue, if_neg (by decide), if_pos rfl, if_neg (Nat.succ_ne_zero room)]
    split
    case h_1 more hend =>
      -- the first name would be the end of the object
      cases hend
    case h_2 =>
      rw [Nat.add_sub_cancel, hread]
      rfl

theorem reads_word {room : Nat} {word after : List Char} {value : Json}
    (h : word = ['n', 'u', 'l', 'l'] ∧ value = .null
      ∨ word = ['t', 'r', 'u', 'e'] ∧ value = .bool true
      ∨ word = ['f', 'a', 'l', 's', 'e'] ∧ value = .bool false) :
    Reads (readValue room) (word ++ after) value after := by
  rcases h with ⟨rfl, rfl⟩ | ⟨rfl, rfl⟩ | ⟨rfl, rfl⟩
  all_goals
    refine ⟨by simp only [List.length_append, List.length_cons]; omega, ?_⟩
    simp only [List.cons_append, List.nil_append]
    rw [readValue, if_neg (by decide), if_neg (by decide), if_neg (by decide), if_neg (by decide)]
    simp +arith [readWord, List.isPrefixOf]

theorem reads_nat {n room : Nat} (h : n < Nat.pow 2 64) {after : List Char}
    (hafter : EndsValue after) :
    Reads (readValue room) ((nat n).write after) (nat n) after := by
  have hnumber := reads_toDigits h hafter
  obtain ⟨c, digits, heq, hdigit⟩ := exists_toDigits_eq_cons n
  rw [nat, write]
  rw [heq, List.cons_append] at hnumber ⊢
  obtain ⟨short, hnumber⟩ := hnumber
  refine ⟨short, ?_⟩
  rw [readValue, if_neg, if_neg, if_neg, if_pos (.inr hdigit), hnumber]
  · rfl
  all_goals
    rintro rfl
    cases hdigit

theorem reads_string (value : String) (room : Nat) (after : List Char) :
    Reads (readValue room) ((string value).write after) (.string value) after := by
  rw [write, quote_append]
  obtain ⟨short, hread⟩ := reads_characters value.toList after
  refine ⟨Nat.lt_succ_of_lt short, ?_⟩
  rw [readValue, if_neg (by decide), if_neg (by decide), if_pos rfl, hread]
  simp only [Option.map_some, Json.text, String.ofList_toList]

/-- **What was written is read back**, in front of anything that ends a value. -/
theorem reads_write {value : Json} (h : Plain value) {room : Nat} (hroom : value.depth ≤ room)
    {after : List Char} (hafter : EndsValue after) :
    Reads (readValue room) (value.write after) value after := by
  induction h generalizing room after with
  | null => exact reads_word (by simp)
  | bool value =>
    cases value with
    | true | false => exact reads_word (by simp)
  | nat word => exact reads_nat word hafter
  | string value => exact reads_string value room after
  | array plain ih =>
    rw [depth] at hroom
    obtain ⟨room, rfl⟩ : ∃ inner, room = inner + 1 := ⟨room - 1, by omega⟩
    refine reads_array plain (fun item hitem after hafter => ?_) after
    rw [(plain item hitem).skipSpace_write]
    exact ih item hitem (Nat.le_trans (depth_le_of_mem hitem) (Nat.le_of_succ_le_succ hroom)) hafter
  | object _ plain ih =>
    rw [depth] at hroom
    obtain ⟨room, rfl⟩ : ∃ inner, room = inner + 1 := ⟨room - 1, by omega⟩
    refine reads_object (fun field hfield after hafter => ?_) after
    rw [(plain field hfield).skipSpace_write]
    exact ih field hfield
      (Nat.le_trans (depth_le_of_mem_fields hfield) (Nat.le_of_succ_le_succ hroom)) hafter

/-! ## 4. Whole texts -/

mutual

/-- Each level takes two characters at least. -/
theorem depth_le_length (value : Json) : value.depth ≤ value.render.length :=
  match value with
  | null | bool _ | number _ | string _ => Nat.zero_le _
  | array items => by
    have hitems := depthOfItems_le_length [] items
    simp only [depth, render, List.length_append, List.length_cons]
    omega
  | object fields => by
    have hfields := depthOfFields_le_length [] fields
    simp only [depth, render, List.length_append, List.length_cons]
    omega

theorem depthOfItems_le_length (mark : List Char) (items : List Json) :
    depthOfItems items ≤ (separate mark (renderItems items)).length :=
  match items with
  | [] => Nat.zero_le _
  | item :: items => by
    have hitem := depth_le_length item
    have hitems := depthOfItems_le_length [','] items
    simp only [depthOfItems, renderItems, separate, List.length_append]
    omega

theorem depthOfFields_le_length (mark : List Char) (fields : List (String × Json)) :
    depthOfFields fields ≤ (separate mark (renderFields fields)).length :=
  match fields with
  | [] => Nat.zero_le _
  | (_, value) :: fields => by
    have hvalue := depth_le_length value
    have hfields := depthOfFields_le_length [','] fields
    simp only [depthOfFields, renderFields, separate, List.length_append, List.length_cons]
    omega

end

/-- The value a text denotes, with room for so many levels of containers. -/
def readWhole (room : Nat) (text : List Char) : Option Json :=
  match readValue room (skipSpace text) with
  | some (value, ⟨rest, _⟩) => if (skipSpace rest).isEmpty then some value else none
  | none => none

theorem read?_eq (text : List Char) : read? text = readWhole maxDepth text := rfl

theorem readWhole_render {value : Json} (h : Plain value) {room : Nat}
    (hroom : value.depth ≤ room) : readWhole room value.render = some value := by
  have hread : Reads (readValue room) (skipSpace value.render) value [] := by
    rw [← List.append_nil value.render, ← write_eq, h.skipSpace_write]
    exact reads_write h hroom fun c hc => by cases hc
  obtain ⟨short, hread⟩ := hread
  rw [readWhole, hread]
  rfl

/-- The value a text denotes, however deep it is. -/
def decode? (text : String) : Option Json :=
  readWhole text.toList.length text.toList

/-- **Decoding undoes encoding.** -/
theorem decode?_compact {value : Json} (h : Plain value) : decode? value.compact = some value := by
  rw [decode?, toList_compact]
  exact readWhole_render h (depth_le_length value)

end Json
end ErbTemplate
