/-!
# Texts as lists of characters, measured in bytes

Everything this library reads is a text, and everything it reports about a text is an offset
in the text's UTF-8 form. The two views meet here: a text is a `List Char`, so that scanning is
recursion on a list, and `byteLength` and `between?` translate between characters and bytes.

A cut is only possible between two characters. `dropBytes?` and `takeBytes?` answer `none` inside
one, and that is the whole difference between an offset and a place in the text.

`spanUntil` is the one scanning loop of the library: white-space runs, names and the inside of
ERB tags are all "the characters up to the first place where …".
-/

set_option autoImplicit false

namespace ErbTemplate
namespace Text

/-! ## 1. Bytes -/

/-- The number of bytes of a text in UTF-8. -/
def byteLength (text : List Char) : Nat :=
  text.foldr (fun c length => c.utf8Size + length) 0

@[simp] theorem byteLength_nil : byteLength [] = 0 := rfl

@[simp] theorem byteLength_cons (c : Char) (text : List Char) :
    byteLength (c :: text) = c.utf8Size + byteLength text := rfl

@[simp] theorem byteLength_append (front back : List Char) :
    byteLength (front ++ back) = byteLength front + byteLength back := by
  induction front with
  | nil => simp
  | cons c front ih => rw [List.cons_append, byteLength_cons, byteLength_cons, ih, Nat.add_assoc]

theorem length_le_byteLength (text : List Char) : text.length ≤ byteLength text := by
  induction text with
  | nil => exact Nat.le_refl 0
  | cons c text ih =>
    have hpos := Char.utf8Size_pos c
    rw [List.length_cons, byteLength_cons]
    omega

theorem eq_nil_of_byteLength_eq_zero {text : List Char} (h : byteLength text = 0) : text = [] :=
  List.length_eq_zero_iff.1 (Nat.le_zero.1 (h ▸ length_le_byteLength text))

/-- What is left of a text after so many bytes; `none` past the end and inside a character. -/
def dropBytes? : Nat → List Char → Option (List Char)
  | 0, text => some text
  | _ + 1, [] => none
  | n + 1, c :: text =>
    if c.utf8Size ≤ n + 1 then dropBytes? (n + 1 - c.utf8Size) text else none

/-- The first so many bytes of a text; `none` past the end and inside a character. -/
def takeBytes? : Nat → List Char → Option (List Char)
  | 0, _ => some []
  | _ + 1, [] => none
  | n + 1, c :: text =>
    if c.utf8Size ≤ n + 1 then (takeBytes? (n + 1 - c.utf8Size) text).map (c :: ·) else none

/-- The part of a text between two byte offsets; `none` unless both are places in the text, in
this order. -/
def between? (start stop : Nat) (text : List Char) : Option (List Char) := do
  guard (start ≤ stop)
  takeBytes? (stop - start) (← dropBytes? start text)

/-- The length of a text that is not empty is positive, and at least that of its first
character. -/
theorem exists_byteLength_cons (c : Char) (text : List Char) :
    ∃ n, byteLength (c :: text) = n + 1 ∧ c.utf8Size ≤ n + 1
      ∧ n + 1 - c.utf8Size = byteLength text := by
  have hc : 0 < c.utf8Size := Char.utf8Size_pos c
  refine ⟨byteLength (c :: text) - 1, ?_, ?_, ?_⟩ <;> simp only [byteLength_cons] <;> omega

/-- Dropping the bytes of a first part leaves the second. -/
@[simp] theorem dropBytes?_byteLength_append (front back : List Char) :
    dropBytes? (byteLength front) (front ++ back) = some back := by
  induction front with
  | nil => simp [dropBytes?]
  | cons c front ih =>
    obtain ⟨n, hn, hle, hsub⟩ := exists_byteLength_cons c front
    rw [hn, List.cons_append, dropBytes?, if_pos hle, hsub, ih]

/-- Taking the bytes of a first part gives it back. -/
@[simp] theorem takeBytes?_byteLength_append (front back : List Char) :
    takeBytes? (byteLength front) (front ++ back) = some front := by
  induction front with
  | nil => simp [takeBytes?]
  | cons c front ih =>
    obtain ⟨n, hn, hle, hsub⟩ := exists_byteLength_cons c front
    rw [hn, List.cons_append, takeBytes?, if_pos hle, hsub, ih]
    rfl

theorem exists_append_of_takeBytes? {offset : Nat} {text front : List Char}
    (h : takeBytes? offset text = some front) :
    ∃ back, text = front ++ back ∧ byteLength front = offset := by
  fun_induction takeBytes? offset text generalizing front with
  | case1 text =>
    cases h
    exact ⟨text, rfl, rfl⟩
  | case2 => cases h
  | case3 n c text hfits ih =>
    obtain ⟨others, hothers, rfl⟩ := Option.map_eq_some_iff.1 h
    obtain ⟨back, rfl, hlength⟩ := ih hothers
    refine ⟨back, rfl, ?_⟩
    rw [byteLength_cons, hlength]
    omega
  | case4 => cases h

/-- The middle of three parts stands between the two offsets where they meet. -/
theorem between?_append (front middle back : List Char) :
    between? (byteLength front) (byteLength front + byteLength middle) (front ++ middle ++ back)
      = some middle := by
  have hguard : (guard (byteLength front ≤ byteLength front + byteLength middle) : Option Unit)
      = some () := if_pos (Nat.le_add_right _ _)
  rw [between?, hguard, List.append_assoc, Nat.add_sub_cancel_left]
  simp

/-! ## 2. Scanning -/

/-- Whether a text begins with a mark. -/
def startsWith (mark text : List Char) : Bool :=
  mark.isPrefixOf text

/-- The characters up to the first place where `stop` holds of what is left, and what is left
there. -/
def spanUntil (stop : List Char → Bool) : List Char → List Char × List Char
  | [] => ([], [])
  | c :: text =>
    if stop (c :: text) then
      ([], c :: text)
    else
      let (front, back) := spanUntil stop text
      (c :: front, back)

/-- A scan loses nothing. -/
theorem spanUntil_append (stop : List Char → Bool) (text : List Char) :
    (spanUntil stop text).1 ++ (spanUntil stop text).2 = text := by
  induction text with
  | nil => rfl
  | cons c text ih =>
    by_cases h : stop (c :: text) <;> simp [spanUntil, h, ih]

/-- What a scan leaves is no longer than what it was given. -/
theorem length_spanUntil_snd (stop : List Char → Bool) (text : List Char) :
    (spanUntil stop text).2.length ≤ text.length := by
  have h := congrArg List.length (spanUntil_append stop text)
  simp only [List.length_append] at h
  omega

/-! ## 3. Case -/

/-- The text with ASCII capitals made small; other characters stay. -/
def lower (text : List Char) : List Char :=
  text.map Char.toLower

end Text
end ErbTemplate
