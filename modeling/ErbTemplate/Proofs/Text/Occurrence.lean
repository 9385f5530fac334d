import ErbTemplate.Token.Lexer
import Mathlib.Order.Bounds.Basic

/-!
# Where a mark stands in a text

A scan walks over characters and stops at the first suffix with a property; a specification speaks
of byte offsets and of the least one where a mark stands. This file is the bridge between the two.

`OccursAt` is the specification's word. Behind a known front part it is a statement about the rest
of the text alone (`occursAt_append_iff`), and there a scan for the mark finds the least offset
(`firstFrom_spanUntil`), or there is none (`not_occursAt_of_spanUntil`).
-/

set_option autoImplicit false

namespace ErbTemplate
namespace Text

/-! ## 1. Cutting a text at a byte -/

/-- A byte offset is a place in a text: the end of a part of its characters. -/
def IsPlace (text : List Char) (offset : Nat) : Prop :=
  ∃ front back, text = front ++ back ∧ byteLength front = offset

theorem byteLength_pos {text : List Char} (h : text ≠ []) : 0 < byteLength text := by
  cases text with
  | nil => exact absurd rfl h
  | cons c text =>
    have hc := Char.utf8Size_pos c
    rw [byteLength_cons]
    omega

/-- The longer of two front parts of a text begins with the shorter one. -/
theorem exists_append_of_byteLength_le {front back first second : List Char}
    (h : front ++ back = first ++ second) (hle : byteLength front ≤ byteLength first) :
    ∃ middle, first = front ++ middle ∧ back = middle ++ second := by
  rcases List.append_eq_append_iff.1 h with ⟨middle, hfirst, hback⟩ | ⟨middle, hfront, hsecond⟩
  · exact ⟨middle, hfirst, hback⟩
  · -- the lengths leave nothing between the two cuts
    have hlength := congrArg byteLength hfront
    rw [byteLength_append] at hlength
    have hnil : middle = [] := eq_nil_of_byteLength_eq_zero (by omega)
    subst hnil
    exact ⟨[], by simpa using hfront.symm, by simpa using hsecond.symm⟩

theorem append_inj_of_byteLength {front back first second : List Char}
    (h : front ++ back = first ++ second) (heq : byteLength front = byteLength first) :
    front = first ∧ back = second := by
  obtain ⟨middle, hfirst, hback⟩ := exists_append_of_byteLength_le h (Nat.le_of_eq heq)
  have hlength := congrArg byteLength hfirst
  rw [byteLength_append] at hlength
  have hnil : middle = [] := eq_nil_of_byteLength_eq_zero (by omega)
  subst hnil
  exact ⟨by simpa using hfirst.symm, by simpa using hback⟩

/-! ## 2. Occurrences -/

/-- A mark stands in a text at a byte offset. -/
def OccursAt (mark text : List Char) (offset : Nat) : Prop :=
  ∃ front back, text = front ++ mark ++ back ∧ byteLength front = offset

/-- The least offset, not before `start`, at which a mark stands in a text. -/
def FirstFrom (mark text : List Char) (start offset : Nat) : Prop :=
  IsLeast { place | start ≤ place ∧ OccursAt mark text place } offset

/-- A mark stands nowhere inside of a range. -/
def FreeOf (mark text : List Char) (range : Range) : Prop :=
  ∀ offset, OccursAt mark text offset →
    offset < range.start ∨ range.stop < offset + byteLength mark

/-- A mark stands nowhere so that it shares a byte with a range, or has the range inside. -/
def ApartFrom (mark text : List Char) (range : Range) : Prop :=
  ∀ offset, OccursAt mark text offset →
    offset + byteLength mark ≤ range.start ∨ range.stop ≤ offset

theorem FirstFrom.unique {mark text : List Char} {start offset other : Nat}
    (h : FirstFrom mark text start offset) (h' : FirstFrom mark text start other) :
    offset = other :=
  IsLeast.unique h h'

theorem OccursAt.add_le {mark text : List Char} {offset : Nat} (h : OccursAt mark text offset) :
    offset + byteLength mark ≤ byteLength text := by
  obtain ⟨front, back, rfl, rfl⟩ := h
  simp only [byteLength_append]
  omega

/-- **Behind a front part, a mark stands where it stands in the rest.** -/
theorem occursAt_append_iff {mark front text : List Char} {offset : Nat}
    (hle : byteLength front ≤ offset) :
    OccursAt mark (front ++ text) offset ↔
      ∃ middle back, text = middle ++ mark ++ back
        ∧ offset = byteLength front + byteLength middle := by
  constructor
  · rintro ⟨first, back, hsplit, rfl⟩
    rw [List.append_assoc] at hsplit
    obtain ⟨middle, rfl, htext⟩ := exists_append_of_byteLength_le hsplit hle
    exact ⟨middle, back, by rw [htext, List.append_assoc], byteLength_append front middle⟩
  · rintro ⟨middle, back, rfl, rfl⟩
    exact ⟨front ++ middle, back, by simp, byteLength_append front middle⟩

theorem occursAt_append_self_iff {mark front text : List Char} :
    OccursAt mark (front ++ text) (byteLength front) ↔ startsWith mark text = true := by
  rw [occursAt_append_iff (Nat.le_refl _), startsWith, List.isPrefixOf_iff_prefix]
  constructor
  · rintro ⟨middle, back, rfl, hlength⟩
    have hnil : middle = [] := eq_nil_of_byteLength_eq_zero (by omega)
    subst hnil
    exact ⟨back, by simp⟩
  · rintro ⟨back, rfl⟩
    exact ⟨[], back, by simp, by simp⟩

/-! ## 3. What a scan finds -/

/-- A scan stops no later than at any suffix with the property. -/
theorem exists_append_of_stop {stop : List Char → Bool} {text middle suffix : List Char}
    (htext : text = middle ++ suffix) (hne : suffix ≠ []) (hstop : stop suffix = true) :
    ∃ more, middle = (spanUntil stop text).1 ++ more := by
  induction text generalizing middle with
  | nil => exact absurd (List.append_eq_nil_iff.1 htext.symm).2 hne
  | cons c text ih =>
    by_cases hc : stop (c :: text) = true
    · exact ⟨middle, by simp [spanUntil, hc]⟩
    · cases middle with
      | nil =>
        rw [List.nil_append] at htext
        exact absurd (htext ▸ hstop) hc
      | cons d middle =>
        rw [List.cons_append] at htext
        obtain ⟨rfl, hrest⟩ := List.cons.inj htext
        obtain ⟨more, hmore⟩ := ih hrest
        exact ⟨more, by simp [spanUntil, hc, ← hmore]⟩

theorem exists_not_stop_of_mem {stop : List Char → Bool} {text : List Char} {c : Char}
    (h : c ∈ (spanUntil stop text).1) : ∃ rest, stop (c :: rest) = false := by
  induction text with
  | nil => exact absurd h (by simp [spanUntil])
  | cons d text ih =>
    by_cases hd : stop (d :: text) = true
    · exact absurd h (by simp [spanUntil, hd])
    · simp only [spanUntil, hd] at h
      rcases List.mem_cons.1 h with rfl | h
      · exact ⟨text, by simpa using hd⟩
      · exact ih h

variable {mark front text : List Char}

/-- **A scan for a mark that stops before the end has found the first place of the mark.** -/
theorem firstFrom_spanUntil (hmark : mark ≠ [])
    (hrest : (spanUntil (startsWith mark) text).2 ≠ []) :
    FirstFrom mark (front ++ text) (byteLength front)
      (byteLength front + byteLength (spanUntil (startsWith mark) text).1) := by
  have htext := spanUntil_append (startsWith mark) text
  have hstop := Lexer.append_drop_of_startsWith (Lexer.stop_of_spanUntil hrest)
  refine ⟨⟨Nat.le_add_right _ _, ?_⟩, ?_⟩
  · rw [occursAt_append_iff (Nat.le_add_right _ _)]
    refine ⟨_, (spanUntil (startsWith mark) text).2.drop mark.length, ?_, rfl⟩
    rw [List.append_assoc, hstop, htext]
  · rintro offset ⟨hle, hoccurs⟩
    obtain ⟨middle, back, hsplit, rfl⟩ := (occursAt_append_iff hle).1 hoccurs
    rw [List.append_assoc] at hsplit
    obtain ⟨more, rfl⟩ : ∃ more, middle = (spanUntil (startsWith mark) text).1 ++ more :=
      exists_append_of_stop hsplit (by simp [hmark]) (by simp [startsWith])
    rw [byteLength_append]
    omega

/-- **A scan for a mark that runs to the end has shown that the mark is nowhere.** -/
theorem not_occursAt_of_spanUntil (hmark : mark ≠ [])
    (hrest : (spanUntil (startsWith mark) text).2 = []) {offset : Nat}
    (hle : byteLength front ≤ offset) : ¬ OccursAt mark (front ++ text) offset := by
  intro hoccurs
  have htext := spanUntil_append (startsWith mark) text
  rw [hrest, List.append_nil] at htext
  obtain ⟨middle, back, hsplit, -⟩ := (occursAt_append_iff hle).1 hoccurs
  rw [List.append_assoc] at hsplit
  obtain ⟨more, hmore⟩ : ∃ more, middle = (spanUntil (startsWith mark) text).1 ++ more :=
    exists_append_of_stop hsplit (by simp [hmark]) (by simp [startsWith])
  -- the scan passed over the whole text, so the mark would have to stand behind it
  rw [htext] at hmore
  have hlength := congrArg List.length hsplit
  have hpos := List.length_pos_iff.2 hmark
  simp only [hmore, List.length_append] at hlength
  omega

end Text
end ErbTemplate
