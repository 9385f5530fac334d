import ErbTemplate.Proofs.Json.RoundTrip
import Mathlib.Data.List.TakeWhile

/-!
# No U+0000 in JSON

A caller outside passes and receives texts that end at the first zero. JSON goes through that door
unhurt in both directions:

* what was written has no U+0000 in it, since strings escape it (`not_mem_render`);
* what can be read has none, since no rule of the grammar takes one (`not_mem_of_read?`).

For the second, each reader is said to pass only over other characters (`Passes`). This is closed
under doing one after the other, so every reader has it because its parts do; the readers of values,
items and fields call each other on shorter texts, and get it together by induction on the length.
-/

set_option autoImplicit false

namespace ErbTemplate
namespace Json

/-! ## 1. Writing -/

theorem not_mem_escape (c : Char) : '\x00' ∉ escape c := by
  have hdigits : ∀ n < 16, hexDigit n ≠ '\x00' := by decide
  unfold escape
  split
  case h_1 | h_2 | h_3 | h_4 | h_5 | h_6 | h_7 => decide
  case h_8 =>
    split
    case isTrue hcontrol =>
      have hhigh := hdigits (c.toNat / 16) (by omega)
      have hlow := hdigits (c.toNat % 16) (by omega)
      simp [hhigh.symm, hlow.symm]
    case isFalse hcontrol =>
      intro hmem
      obtain rfl := List.mem_singleton.1 hmem
      exact hcontrol (by decide)

theorem not_mem_quote (value : String) : '\x00' ∉ quote value := by
  have hinside : '\x00' ∉ value.toList.flatMap escape := by
    intro hmem
    obtain ⟨c, -, hmem⟩ := List.mem_flatMap.1 hmem
    exact not_mem_escape c hmem
  simp [quote, hinside]

theorem not_mem_separate {mark : List Char} {parts : List (List Char)} (hmark : '\x00' ∉ mark)
    (h : ∀ part ∈ parts, '\x00' ∉ part) : '\x00' ∉ separate mark parts := by
  induction parts generalizing mark with
  | nil => simp [separate]
  | cons part parts ih =>
    obtain ⟨hpart, hparts⟩ := List.forall_mem_cons.1 h
    have hothers : '\x00' ∉ separate [','] parts := ih (by decide) hparts
    simp [separate, hmark, hpart, hothers]

theorem renderItems_eq_map (items : List Json) : renderItems items = items.map render := by
  induction items with
  | nil => rfl
  | cons item items ih => rw [renderItems, ih, List.map_cons]

theorem renderFields_eq_map (fields : List (String × Json)) :
    renderFields fields = fields.map fun field => quote field.1 ++ ':' :: field.2.render := by
  induction fields with
  | nil => rfl
  | cons field fields ih => rw [renderFields, ih, List.map_cons]

/-- **What was written has no U+0000.** -/
theorem not_mem_render {value : Json} (h : Plain value) : '\x00' ∉ value.render := by
  induction h with
  | null => decide
  | bool value => cases value <;> decide
  | @nat n =>
    intro hmem
    exact absurd (isDigit_of_mem_toDigits hmem) (by decide)
  | string value => exact not_mem_quote value
  | @array items _ ih =>
    have hitems : '\x00' ∉ separate [] (renderItems items) := by
      rw [renderItems_eq_map]
      exact not_mem_separate List.not_mem_nil (List.forall_mem_map.2 ih)
    simp [render, hitems]
  | @object fields _ _ ih =>
    have hfields : '\x00' ∉ separate [] (renderFields fields) := by
      rw [renderFields_eq_map]
      refine not_mem_separate List.not_mem_nil (List.forall_mem_map.2 ?_)
      intro field hmem
      simp [not_mem_quote, ih field hmem]
    simp [render, hfields]

/-! ## 2. Reading -/

/-- A text is what another one leaves behind characters other than U+0000. -/
def Passes (text rest : List Char) : Prop :=
  ∃ read, text = read ++ rest ∧ '\x00' ∉ read

namespace Passes

variable {text middle rest : List Char} {c : Char}

theorem refl (text : List Char) : Passes text text :=
  ⟨[], rfl, List.not_mem_nil⟩

theorem trans (h : Passes text middle) (h' : Passes middle rest) : Passes text rest := by
  obtain ⟨front, rfl, hfront⟩ := h
  obtain ⟨back, rfl, hback⟩ := h'
  refine ⟨front ++ back, by simp, ?_⟩
  simp [hfront, hback]

theorem cons (hc : c ≠ '\x00') (h : Passes text rest) : Passes (c :: text) rest :=
  trans ⟨[c], rfl, by simp [hc.symm]⟩ h

theorem dropWhile {p : Char → Bool} (hp : p '\x00' = false) (text : List Char) :
    Passes text (text.dropWhile p) := by
  refine ⟨text.takeWhile p, List.takeWhile_append_dropWhile.symm, ?_⟩
  intro hmem
  have hnul := List.mem_takeWhile_imp hmem
  rw [hp] at hnul
  cases hnul

theorem skipSpace (text : List Char) : Passes text (skipSpace text) :=
  dropWhile rfl text

/-- Over blanks and a mark, and on. -/
theorem of_skipSpace (hc : c ≠ '\x00') (h : Json.skipSpace text = c :: middle)
    (hrest : Passes middle rest) : Passes text rest := by
  have hskip := skipSpace text
  rw [h] at hskip
  exact hskip.trans (hrest.cons hc)

end Passes

section Readers

variable {text : List Char}

/-! ### Strings -/

theorem ne_nul_of_hexValue? {c : Char} {n : Nat} (h : hexValue? c = some n) : c ≠ '\x00' := by
  rintro rfl
  cases h

theorem passes_readHex4 {value : Nat} {rest : Rest text} (h : readHex4 text = some (value, rest)) :
    Passes text rest.1 := by
  unfold readHex4 at h
  split at h
  next a b c d more =>
    simp only [Option.bind_eq_bind, Option.bind_eq_some_iff] at h
    obtain ⟨_, ha, _, hb, _, hc, _, hd, h⟩ := h
    cases h
    refine ⟨[a, b, c, d], rfl, ?_⟩
    simp [(ne_nul_of_hexValue? ha).symm, (ne_nul_of_hexValue? hb).symm,
      (ne_nul_of_hexValue? hc).symm, (ne_nul_of_hexValue? hd).symm]
  next => cases h

theorem passes_readUnicode {value : Char} {rest : Rest text}
    (h : readUnicode text = some (value, rest)) : Passes text rest.1 := by
  unfold readUnicode at h
  obtain ⟨⟨high, middle, hshort⟩, hhigh, h⟩ := Option.bind_eq_some_iff.1 h
  have hfirst := passes_readHex4 hhigh
  simp only at h hfirst
  split at h
  next =>
    split at h
    next more _ =>
      obtain ⟨⟨low, last, hlast⟩, hlow, h⟩ := Option.bind_eq_some_iff.1 h
      obtain ⟨-, -, h⟩ := Option.bind_eq_some_iff.1 h
      obtain ⟨-, rfl⟩ := Prod.mk.inj (Option.some.inj h)
      exact hfirst.trans (((passes_readHex4 hlow).cons (by decide)).cons (by decide))
    next => cases h
  next =>
    split at h
    next => cases h
    next =>
      cases h
      exact hfirst

theorem passes_readEscape {value : Char} {rest : Rest text}
    (h : readEscape text = some (value, rest)) : Passes text rest.1 := by
  unfold readEscape at h
  split at h
  next => cases h
  next c more =>
    simp only at h
    split at h
    case h_9 =>
      obtain ⟨⟨_, last, _⟩, hread, h⟩ := Option.map_eq_some_iff.1 h
      cases h
      exact (passes_readUnicode hread).cons (by decide)
    case h_10 => cases h
    all_goals
      cases h
      exact (Passes.refl more).cons (by decide)

theorem passes_readString {value : List Char} {rest : Rest text}
    (h : readString text = some (value, rest)) : Passes text rest.1 := by
  fun_induction readString text generalizing value with
  | case1 => cases h
  | case2 more =>
    cases h
    exact (Passes.refl more).cons (by decide)
  | case3 => cases h
  | case4 more _ middle _ hescape _ ih =>
    obtain ⟨⟨_, last, _⟩, hread, h⟩ := Option.map_eq_some_iff.1 h
    cases h
    exact ((passes_readEscape hescape).trans (ih hread)).cons (by decide)
  | case5 => cases h
  | case6 c more _ _ hcontrol ih =>
    obtain ⟨⟨_, last, _⟩, hread, h⟩ := Option.map_eq_some_iff.1 h
    cases h
    refine (ih hread).cons ?_
    rintro rfl
    exact hcontrol (by decide)

/-! ### Numbers and words -/

theorem passes_spanDigits (text : List Char) : Passes text (spanDigits text).2 :=
  Passes.dropWhile rfl text

theorem passes_readFraction (text : List Char) : Passes text (readFraction text).2 := by
  unfold readFraction
  split
  next more =>
    simp only
    split
    next => exact Passes.refl _
    next => exact (passes_spanDigits more).cons (by decide)
  next => exact Passes.refl _

theorem passes_readExponent (text : List Char) : Passes text (readExponent text).2 := by
  have hletter : ∀ c : Char, c = 'e' ∨ c = 'E' → c ≠ '\x00' := by
    rintro c (rfl | rfl) <;> decide
  unfold readExponent
  split
  next c more =>
    split
    next hc =>
      split
      next negative unsigned hsign =>
        have hunsigned : Passes more unsigned := by
          split at hsign
          next =>
            cases hsign
            exact (Passes.refl _).cons (by decide)
          next =>
            cases hsign
            exact (Passes.refl _).cons (by decide)
          next =>
            cases hsign
            exact Passes.refl _
        simp only
        split
        next => exact Passes.refl _
        next => exact (hunsigned.trans (passes_spanDigits unsigned)).cons (hletter c hc)
    next => exact Passes.refl _
  next => exact Passes.refl _

theorem passes_readNumeral (text : List Char) : Passes text (readNumeral text).2 := by
  have hwhole : ∀ whole, Passes text whole →
      Passes text (readExponent (readFraction whole).2).2 := by
    intro whole h
    exact h.trans ((passes_readFraction whole).trans (passes_readExponent _))
  unfold readNumeral
  apply hwhole
  split
  next rest => exact (Passes.refl rest).cons (by decide)
  next => exact passes_spanDigits text

theorem passes_dropSign (text : List Char) : Passes text (dropSign text) := by
  unfold dropSign
  split
  next digits => exact (Passes.refl digits).cons (by decide)
  next => exact Passes.refl _

theorem passes_readNumber {literal : List Char} {rest : Rest text}
    (h : readNumber text = some (literal, rest)) : Passes text rest.1 := by
  unfold readNumber at h
  simp only at h
  split at h
  next =>
    cases h
    exact (passes_dropSign text).trans (passes_readNumeral _)
  next => cases h

theorem passes_readWord {word : List Char} {meant value : Json} {rest : Rest text}
    (hword : '\x00' ∉ word) (h : readWord word meant text = some (value, rest)) :
    Passes text rest.1 := by
  unfold readWord at h
  split at h
  next short =>
    cases h
    obtain ⟨back, rfl⟩ := List.isPrefixOf_iff_prefix.1 short.1
    exact ⟨word, by simp, hword⟩
  next => cases h

/-! ### Values -/

/-- A reader passes over no U+0000 in any text up to a length. -/
def PassesUpTo {α : Type} (read : (text : List Char) → Option (α × Rest text)) (length : Nat) :
    Prop :=
  ∀ text value rest, text.length < length → read text = some (value, rest) → Passes text rest.1

theorem PassesUpTo.mono {α : Type} {read : (text : List Char) → Option (α × Rest text)}
    {length longer : Nat} (h : PassesUpTo read longer) (hle : length ≤ longer) :
    PassesUpTo read length :=
  fun text value rest hlt => h text value rest (Nat.lt_of_lt_of_le hlt hle)

variable {room : Nat}

theorem passes_readValue {value : Json} {rest : Rest text}
    (hitems : ∀ room, PassesUpTo (readItems room) text.length)
    (hfields : ∀ room, PassesUpTo (readFields room) text.length)
    (h : readValue room text = some (value, rest)) : Passes text rest.1 := by
  rw [readValue.eq_def] at h
  split at h
  next => cases h
  next c text =>
    split at h
    next hc =>
      subst hc
      split at h
      next => cases h
      next =>
        split at h
        next more hskip =>
          cases h
          exact (Passes.of_skipSpace (by decide) hskip (.refl more)).cons (by decide)
        next =>
          obtain ⟨⟨_, more, _⟩, hread, h⟩ := Option.map_eq_some_iff.1 h
          cases h
          exact (hitems _ text _ _ (Nat.lt_succ_self _) hread).cons (by decide)
    next =>
      split at h
      next hc =>
        subst hc
        split at h
        next => cases h
        next =>
          split at h
          next more hskip =>
            cases h
            exact (Passes.of_skipSpace (by decide) hskip (.refl more)).cons (by decide)
          next =>
            obtain ⟨⟨_, more, _⟩, hread, h⟩ := Option.map_eq_some_iff.1 h
            cases h
            exact (hfields _ text _ _ (Nat.lt_succ_self _) hread).cons (by decide)
      next =>
        split at h
        next hc =>
          subst hc
          obtain ⟨⟨_, more, _⟩, hread, h⟩ := Option.map_eq_some_iff.1 h
          cases h
          exact (passes_readString hread).cons (by decide)
        next =>
          split at h
          next =>
            obtain ⟨⟨_, more⟩, hread, h⟩ := Option.map_eq_some_iff.1 h
            cases h
            exact passes_readNumber hread
          next =>
            simp only [Option.orElse_eq_some] at h
            rcases h with h | ⟨-, h | ⟨-, h⟩⟩
            · exact passes_readWord (by decide) h
            · exact passes_readWord (by decide) h
            · exact passes_readWord (by decide) h

theorem passes_readItems {items : List Json} {rest : Rest text}
    (hvalue : PassesUpTo (readValue room) (text.length + 1))
    (hitems : PassesUpTo (readItems room) text.length)
    (h : readItems room text = some (items, rest)) : Passes text rest.1 := by
  have hspace := length_skipSpace_le text
  rw [readItems.eq_def] at h
  simp only at h
  split at h
  next => cases h
  next item more hmore hread =>
    have hitem := (Passes.skipSpace text).trans
      (hvalue _ _ _ (Nat.lt_succ_of_le hspace) hread)
    have hmoreSpace := length_skipSpace_le more
    split at h
    next after hskip =>
      cases h
      exact hitem.trans (.of_skipSpace (by decide) hskip (.refl after))
    next after hskip =>
      rw [hskip, List.length_cons] at hmoreSpace
      obtain ⟨⟨_, last, _⟩, hothers, h⟩ := Option.map_eq_some_iff.1 h
      cases h
      exact hitem.trans (.of_skipSpace (by decide) hskip
        (hitems after _ _ (by omega) hothers))
    next => cases h

theorem passes_readFields {fields : List (String × Json)} {rest : Rest text}
    (hvalue : PassesUpTo (readValue room) text.length)
    (hfields : PassesUpTo (readFields room) text.length)
    (h : readFields room text = some (fields, rest)) : Passes text rest.1 := by
  have hspace := length_skipSpace_le text
  rw [readFields.eq_def] at h
  simp only at h
  split at h
  next afterQuote hquote =>
    split at h
    next => cases h
    next name afterName hshort hname =>
      have hcolonSpace := length_skipSpace_le afterName
      split at h
      next afterColon hcolon =>
        have hvalueSpace := length_skipSpace_le afterColon
        rw [hquote, List.length_cons] at hspace
        rw [hcolon, List.length_cons] at hcolonSpace
        split at h
        next => cases h
        next value more hmore hread =>
          have hmoreSpace := length_skipSpace_le more
          have hfield : Passes text more :=
            .of_skipSpace (by decide) hquote ((passes_readString hname).trans
              (.of_skipSpace (by decide) hcolon ((Passes.skipSpace afterColon).trans
                (hvalue _ _ _ (by omega) hread))))
          split at h
          next after hskip =>
            cases h
            exact hfield.trans (.of_skipSpace (by decide) hskip (.refl after))
          next after hskip =>
            rw [hskip, List.length_cons] at hmoreSpace
            obtain ⟨⟨_, last, _⟩, hothers, h⟩ := Option.map_eq_some_iff.1 h
            cases h
            exact hfield.trans (.of_skipSpace (by decide) hskip
              (hfields after _ _ (by omega) hothers))
          next => cases h
      next => cases h
  next => cases h

/-- The readers of values, items and fields pass over no U+0000. -/
theorem passesUpTo_readers (length : Nat) :
    (∀ room, PassesUpTo (readValue room) length)
      ∧ (∀ room, PassesUpTo (readItems room) length)
      ∧ ∀ room, PassesUpTo (readFields room) length := by
  induction length with
  | zero =>
    refine ⟨?_, ?_, ?_⟩ <;> exact fun _ _ _ _ hlt => absurd hlt (Nat.not_lt_zero _)
  | succ length ih =>
    obtain ⟨-, hitems, hfields⟩ := ih
    -- a value needs shorter items and fields, and these need a value that is not longer
    have hvalue : ∀ room, PassesUpTo (readValue room) (length + 1) := by
      intro room text value rest hlt h
      have hle := Nat.le_of_lt_succ hlt
      exact passes_readValue (fun room => (hitems room).mono hle)
        (fun room => (hfields room).mono hle) h
    refine ⟨hvalue, ?_, ?_⟩
    · intro room text items rest hlt h
      exact passes_readItems ((hvalue room).mono hlt)
        ((hitems room).mono (Nat.le_of_lt_succ hlt)) h
    · intro room text fields rest hlt h
      exact passes_readFields ((hvalue room).mono (Nat.le_of_lt hlt))
        ((hfields room).mono (Nat.le_of_lt_succ hlt)) h

end Readers

/-- **What can be read has no U+0000.** -/
theorem not_mem_of_read? {text : List Char} {value : Json} (h : read? text = some value) :
    '\x00' ∉ text := by
  unfold read? at h
  split at h
  next found rest hshort hread =>
    split at h
    next hend =>
      have hpasses := (Passes.skipSpace text).trans
        ((passesUpTo_readers _).1 _ _ _ _ (Nat.lt_succ_self _) hread)
      obtain ⟨front, rfl, hfront⟩ := hpasses.trans (Passes.skipSpace rest)
      rw [List.isEmpty_iff.1 hend, List.append_nil]
      exact hfront
    next => cases h
  next => cases h

end Json
end ErbTemplate
