import ErbTemplate.Host.Page
import ErbTemplate.Host.Script
import ErbTemplate.Proofs.Json.RoundTrip
import Mathlib.Data.List.Nodup

/-!
# Three forms of one result

A result is a JSON value, and hosts hand it over in three forms: as a text, in a response that a
page parses, and as values of a script. Each form can be read again, and what is read is the result
(`decode?_compact`, `Response.data?_ok`, `ScriptValue.toJson?_ofJson`).
-/

set_option autoImplicit false

namespace ErbTemplate

open Json

/-! ## 1. Responses -/

/-- The data that a page finds in a response. The response goes to the page as a text, which the
    page parses; there are data if the status says so. -/
def Response.data? (response : Response) : Option Json :=
  match decode? response.toJson.compact with
  | some (.object fields) =>
    match lastField? "status" fields with
    | some (.string "ok") => lastField? "data" fields
    | _ => none
  | _ => none

theorem Response.data?_ok {value : Json} (h : Plain value) :
    (Response.ok value).data? = some value := by
  have hplain : Plain (Response.ok value).toJson := by simp [toJson, h]
  rw [data?, decode?_compact hplain, toJson]
  rfl

/-! ## 2. Values of scripts -/

namespace ScriptValue

theorem digitsValue_toDigits (n : Nat) : digitsValue (Nat.toDigits 10 n) = n := by
  have hstep : (fun (value : Nat) (c : Char) => value * 10 + (c.toNat - 48))
      = fun value c => 10 * value + (c.toNat - '0'.toNat) := by
    funext value c
    rw [Nat.mul_comm]
    rfl
  rw [digitsValue, hstep]
  exact Nat.ofDigitChars_ten_toDigits

theorem ofNumber_toDigits {n : Nat} (h : n < Nat.pow 2 64) :
    ofNumber (Nat.toDigits 10 n) = int n := by
  have hwhole : (Numeral.ofLiteral (Nat.toDigits 10 n)).whole = Nat.toDigits 10 n := by
    have hsign := dropSign_toDigits n []
    have hread : readNumeral (Nat.toDigits 10 n ++ []) = (⟨Nat.toDigits 10 n, [], 0⟩, []) :=
      readNumeral_toDigits n fun c hc => by cases hc
    rw [List.append_nil] at hsign hread
    rw [Numeral.ofLiteral, hsign, hread]
  have hdigits : (Nat.toDigits 10 n).all Char.isDigit = true :=
    List.all_eq_true.2 fun c hc => isDigit_of_mem_toDigits hc
  have hsize : digitsValue (Numeral.ofLiteral (Nat.toDigits 10 n)).whole < Nat.pow 2 64 := by
    rw [hwhole, digitsValue_toDigits]
    exact h
  unfold ofNumber
  simp only
  split
  next digits heq =>
    -- a number does not begin with a sign
    obtain ⟨c, others, hcons, hdigit⟩ := exists_toDigits_eq_cons n
    rw [hcons] at heq
    cases heq
    cases hdigit
  next =>
    rw [if_pos (by simp [hdigits, hsize]), hwhole, digitsValue_toDigits]

theorem setItem_of_not_mem {name : String} {value : ScriptValue}
    {entries : List (String × ScriptValue)} (h : name ∉ entries.map Prod.fst) :
    setItem name value entries = entries ++ [(name, value)] := by
  induction entries with
  | nil => rfl
  | cons entry entries ih =>
    rw [List.map_cons, List.mem_cons, not_or] at h
    rw [setItem, if_neg (Ne.symm h.1), ih h.2]
    rfl

/-- Fields with names of their own become entries, in their order. -/
theorem ofFields_eq (entries : List (String × ScriptValue)) {fields : List (String × Json)}
    (h : (entries.map Prod.fst ++ fields.map Prod.fst).Nodup) :
    ofFields entries fields
      = entries ++ fields.map fun field => (field.1, ofJson field.2) := by
  induction fields generalizing entries with
  | nil => simp [ofFields]
  | cons field fields ih =>
    obtain ⟨name, value⟩ := field
    rw [List.map_cons, List.nodup_middle] at h
    obtain ⟨hnew, hothers⟩ := List.nodup_cons.1 h
    have hentries : name ∉ entries.map Prod.fst :=
      fun hmem => hnew (List.mem_append_left _ hmem)
    rw [ofFields, setItem_of_not_mem hentries, ih]
    · simp
    · rw [List.map_append, List.append_assoc]
      exact List.nodup_middle.2 h

theorem toItems?_ofItems {items : List Json}
    (h : ∀ item ∈ items, (ofJson item).toJson? = some item) :
    toItems? (ofItems items) = some items := by
  induction items with
  | nil => rfl
  | cons item items ih =>
    obtain ⟨hitem, hitems⟩ := List.forall_mem_cons.1 h
    rw [ofItems, toItems?, hitem, ih hitems]
    rfl

theorem toFields?_map {fields : List (String × Json)}
    (h : ∀ field ∈ fields, (ofJson field.2).toJson? = some field.2) :
    toFields? (fields.map fun field => (field.1, ofJson field.2)) = some fields := by
  induction fields with
  | nil => rfl
  | cons field fields ih =>
    obtain ⟨hfield, hfields⟩ := List.forall_mem_cons.1 h
    rw [List.map_cons, toFields?, hfield, ih hfields]
    rfl

/-- **What a script gets for a JSON value is that value.** -/
theorem toJson?_ofJson {value : Json} (h : Plain value) : (ofJson value).toJson? = some value := by
  induction h with
  | null => rfl
  | bool value => rfl
  | nat word =>
    rw [Json.nat, ofJson, ofNumber_toDigits word]
    rfl
  | string value => rfl
  | array plain ih =>
    rw [ofJson, toJson?, toItems?_ofItems ih]
    rfl
  | object distinct plain ih =>
    rw [ofJson, ofFields_eq [] distinct, List.nil_append, toJson?, toFields?_map ih]
    rfl

end ScriptValue
end ErbTemplate
