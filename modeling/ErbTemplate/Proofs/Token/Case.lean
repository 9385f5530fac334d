import ErbTemplate.Token.Lexer
import Mathlib.Data.List.Basic
import Mathlib.Data.List.Find

/-!
# Tokens and the case of letters

No mark of the lexer has a letter in it, and the lexer treats all letters alike. So a text with its
capitals made small is cut into the same pieces, and its tokens stand in the same places:

> **`tokens_lower`** — the tokens of a text in small letters are the tokens of the text, in small
> letters.

What makes it work is one remark about characters, `apply_toLower`: a function that has the same
value at all letters does not see their case. The size of a character, being a part of a name,
being a certain mark are all of this form; the scanner, the readers of the lexer and the walk over
the source then follow one by one.
-/

set_option autoImplicit false

namespace ErbTemplate

open Text

/-! ## 1. Characters -/

namespace Text

theorem isUpper_iff {c : Char} : c.isUpper ↔ 65 ≤ c.toNat ∧ c.toNat ≤ 90 :=
  decide_eq_true_iff.trans (and_congr UInt32.le_iff_toNat_le UInt32.le_iff_toNat_le)

theorem isLower_iff {c : Char} : c.isLower ↔ 97 ≤ c.toNat ∧ c.toNat ≤ 122 :=
  (Bool.and_eq_true_iff.trans (and_congr decide_eq_true_iff decide_eq_true_iff)).trans
    (and_congr UInt32.le_iff_toNat_le UInt32.le_iff_toNat_le)

theorem isAlpha_iff {c : Char} : c.isAlpha ↔ c.isUpper ∨ c.isLower :=
  Bool.or_eq_true_iff

theorem toLower_of_not_isUpper {c : Char} (h : ¬ c.isUpper) : c.toLower = c :=
  dif_neg fun hrange => h (decide_eq_true hrange)

/-- A capital and its small letter are 32 code points apart. -/
theorem isLower_toLower {c : Char} (h : c.isUpper) : c.toLower.isLower := by
  have hchar : c.toLower.val = c.val + 32 := congrArg Char.val (dif_pos (of_decide_eq_true h))
  have hnumber : c.toLower.toNat = (c.toNat + 32) % 2 ^ 32 :=
    (congrArg UInt32.toNat hchar).trans (UInt32.toNat_add c.val 32)
  rw [isUpper_iff] at h
  rw [isLower_iff]
  omega

theorem isAlpha_toLower {c : Char} (h : c.isAlpha) : c.toLower.isAlpha := by
  by_cases hupper : c.isUpper
  · exact isAlpha_iff.2 (Or.inr (isLower_toLower hupper))
  · rwa [toLower_of_not_isUpper hupper]

theorem toLower_toLower (c : Char) : c.toLower.toLower = c.toLower := by
  by_cases hupper : c.isUpper
  · apply toLower_of_not_isUpper
    have hlower := isLower_iff.1 (isLower_toLower hupper)
    rw [isUpper_iff]
    omega
  · rw [toLower_of_not_isUpper hupper, toLower_of_not_isUpper hupper]

theorem toLower_of_not_isAlpha {c : Char} (h : ¬ c.isAlpha) : c.toLower = c :=
  toLower_of_not_isUpper fun hupper => h (isAlpha_iff.2 (Or.inl hupper))

/-- **A function that is constant on letters does not see their case.** -/
theorem apply_toLower {β : Type} (f : Char → β) (value : β)
    (h : ∀ c : Char, c.isAlpha → f c = value) (c : Char) : f c.toLower = f c := by
  by_cases hc : c.isAlpha
  · rw [h c hc, h c.toLower (isAlpha_toLower hc)]
  · rw [toLower_of_not_isAlpha hc]

theorem utf8Size_toLower (c : Char) : c.toLower.utf8Size = c.utf8Size := by
  apply apply_toLower Char.utf8Size 1
  intro c hc
  rw [isAlpha_iff, isUpper_iff, isLower_iff] at hc
  have hle : c.toNat ≤ 127 := by omega
  rw [Char.utf8Size_eq_one_iff]
  exact UInt32.le_iff_toNat_le.2 hle

theorem beq_toLower {mark : Char} (hmark : ¬ mark.isAlpha) (c : Char) :
    (mark == c.toLower) = (mark == c) := by
  apply apply_toLower (mark == ·) false
  intro c hc
  rw [beq_eq_false_iff_ne]
  rintro rfl
  exact hmark hc

theorem toLower_eq_iff {mark : Char} (hmark : ¬ mark.isAlpha) (c : Char) :
    c.toLower = mark ↔ c = mark := by
  have h := beq_toLower hmark c
  rw [Bool.eq_iff_iff, beq_iff_eq, beq_iff_eq] at h
  rw [eq_comm, h, eq_comm]

/-! ## 2. Texts -/

@[simp] theorem lower_nil : lower [] = [] := rfl

@[simp] theorem lower_cons (c : Char) (text : List Char) :
    lower (c :: text) = c.toLower :: lower text := rfl

@[simp] theorem lower_lower (text : List Char) : lower (lower text) = lower text := by
  rw [lower, lower, List.map_map]
  exact List.map_congr_left fun c _ => toLower_toLower c

theorem lower_append (front back : List Char) :
    lower (front ++ back) = lower front ++ lower back :=
  List.map_append

theorem lower_drop (count : Nat) (text : List Char) :
    lower (text.drop count) = (lower text).drop count :=
  List.map_drop

/-- A text without letters. -/
def Caseless (text : List Char) : Prop :=
  ∀ c ∈ text, ¬ c.isAlpha

theorem lower_of_caseless {text : List Char} (h : Caseless text) : lower text = text := by
  rw [lower, List.map_congr_left fun c hc => toLower_of_not_isAlpha (h c hc), List.map_id']

theorem startsWith_lower {mark : List Char} (hmark : Caseless mark) (text : List Char) :
    startsWith mark (lower text) = startsWith mark text := by
  induction mark generalizing text with
  | nil => simp [startsWith]
  | cons first mark ih =>
    cases text with
    | nil => rfl
    | cons c text =>
      have hfirst := beq_toLower (hmark first List.mem_cons_self) c
      have hrest : mark.isPrefixOf (lower text) = mark.isPrefixOf text :=
        ih (fun d hd => hmark d (List.mem_cons_of_mem _ hd)) text
      simp only [startsWith, lower_cons, List.isPrefixOf, hfirst, hrest]

/-- A scan whose condition does not see the case stops at the same place. -/
theorem spanUntil_lower {stop : List Char → Bool} (h : ∀ text, stop (lower text) = stop text)
    (text : List Char) :
    spanUntil stop (lower text) = (spanUntil stop text).map lower lower := by
  induction text with
  | nil => rfl
  | cons c text ih =>
    have hstop := h (c :: text)
    rw [lower_cons] at hstop ⊢
    rw [spanUntil, spanUntil, hstop, ih]
    split <;> rfl

end Text

theorem Point.advance_lower (point : Point) (text : List Char) :
    point.advance (lower text) = point.advance text := by
  induction text generalizing point with
  | nil => rfl
  | cons c text ih =>
    have hline : c.toLower = '\n' ↔ c = '\n' := toLower_eq_iff (by simp) c
    have hnext : point.next c.toLower = point.next c := by
      simp only [next, Place.next, utf8Size_toLower, hline]
    show (point.next c.toLower).advance (lower text) = (point.next c).advance text
    rw [hnext, ih]

/-! ## 3. Pieces in small letters -/

def Ending.map {α β : Type} (f : α → β) : Ending α → Ending β
  | bare => bare
  | running content => running (f content)
  | closed content closing => closed (f content) (f closing)

/-- The piece with a function applied to each of its parts. -/
def Piece.map {α β : Type} (f : α → β) : Piece α → Piece β
  | markup part => markup (f part)
  | erb opening mark ending => erb opening (f mark) (ending.map f)

theorem Piece.parts_map {α β : Type} (f : α → β) (piece : Piece α) :
    (piece.map f).parts = piece.parts.map f := by
  cases piece with
  | markup part => rfl
  | erb opening mark ending => cases ending <;> rfl

/-- The lexeme in small letters. A quote stays as it is: the text of a quote is compared, and it
    has no letters. -/
def Lexeme.lower (lexeme : Lexeme) : Lexeme :=
  if lexeme.kind = .quote then lexeme else { lexeme with text := Text.lower lexeme.text }

/-- The token in small letters, in the same place. -/
def Token.lower (token : Token) : Token :=
  if token.kind = .quote then token else { token with text := Text.lower token.text }

namespace Lexer

/-! ## 4. The lexer -/

theorem caseless_of_mem_marks {mark : Lexeme} (h : mark ∈ marks) : Caseless mark.text := by
  revert mark
  simp [marks, Caseless]

theorem caseless_opening (opening : Opening) : Caseless opening.text := by
  cases opening <;> simp [Opening.text, Caseless]

theorem caseless_closeMark : Caseless closeMark := by
  simp [closeMark, Caseless]

theorem lower_of_mem_marks {mark : Lexeme} (h : mark ∈ marks) : mark.lower = mark := by
  have htext := lower_of_caseless (caseless_of_mem_marks h)
  unfold Lexeme.lower
  split
  · rfl
  · rw [htext]

theorem markOf?_lower (text : List Char) : markOf? (lower text) = markOf? text := by
  apply List.find?_congr
  intro mark hmark
  exact startsWith_lower (caseless_of_mem_marks hmark) text

theorem of?_lower (text : List Char) : Opening.of? (lower text) = Opening.of? text := by
  apply List.find?_congr
  intro opening _
  exact startsWith_lower (caseless_opening opening) text

theorem isGapChar_toLower (c : Char) : isGapChar c.toLower = isGapChar c := by
  apply apply_toLower isGapChar false
  intro c hc
  rw [Bool.eq_false_iff]
  intro hgap
  simp only [isGapChar, Bool.or_eq_true, beq_iff_eq] at hgap
  rcases hgap with (rfl | rfl) | rfl <;> cases hc

theorem isNameChar_toLower (c : Char) : isNameChar c.toLower = isNameChar c := by
  apply apply_toLower isNameChar true
  intro c hc
  simp [isNameChar, Char.isAlphanum, hc]

theorem endsGap_lower (text : List Char) : endsGap (lower text) = endsGap text := by
  have hhead : (lower text).head?.any isGapChar = text.head?.any isGapChar := by
    cases text <;> simp [isGapChar_toLower]
  rw [endsGap, endsGap, hhead, startsWith_lower (by simp [Caseless])]

theorem endsName_lower (text : List Char) : endsName (lower text) = endsName text := by
  have hhead : (lower text).head?.any isNameChar = text.head?.any isNameChar := by
    cases text <;> simp [isNameChar_toLower]
  rw [endsName, endsName, hhead, startsWith_lower (by simp [Caseless]),
    startsWith_lower (by simp [Caseless])]

theorem splitTrim_lower (content : List Char) :
    splitTrim (lower content) = (splitTrim content).map lower lower := by
  have hlast : (lower content).getLast? = content.getLast?.map Char.toLower :=
    List.getLast?_map
  unfold splitTrim
  rw [hlast]
  cases content.getLast? with
  | none => rfl
  | some c =>
    have hdash : c.toLower = '-' ↔ c = '-' := toLower_eq_iff (by simp) c
    have hequals : c.toLower = '=' ↔ c = '=' := toLower_eq_iff (by simp) c
    simp only [Option.map_some, hdash, hequals]
    split
    · simp [lower, List.map_dropLast]
    · rfl

theorem erbEnding_lower (text : List Char) :
    erbEnding (lower text) = (erbEnding text).map (Ending.map Lexeme.lower) lower := by
  cases text with
  | nil => rfl
  | cons c text =>
    have hspan := spanUntil_lower (startsWith_lower caseless_closeMark) (c :: text)
    rw [lower_cons] at hspan ⊢
    simp only [erbEnding]
    rw [hspan]
    generalize spanUntil (startsWith closeMark) (c :: text) = found
    obtain ⟨content, back⟩ := found
    cases back with
    | nil => rfl
    | cons d back =>
      have hclose : lower closeMark = closeMark := lower_of_caseless caseless_closeMark
      simp [splitTrim_lower, Ending.map, Lexeme.lower, lower_append, hclose, lower_drop]

theorem markup_lower (c : Char) (text : List Char) :
    markup c.toLower (lower text) = (markup c text).map Lexeme.lower lower := by
  have hmark := markOf?_lower (c :: text)
  rw [lower_cons] at hmark
  unfold markup
  rw [hmark, isGapChar_toLower, isNameChar_toLower, spanUntil_lower endsGap_lower,
    spanUntil_lower endsName_lower]
  split
  next mark hfound =>
    have hkept := lower_of_mem_marks (List.mem_of_find?_eq_some hfound)
    rw [Prod.map_apply, hkept, lower_drop, lower_cons]
  next =>
    split
    · rfl
    · split <;> rfl

theorem next_lower (c : Char) (text : List Char) :
    next c.toLower (lower text) = (next c text).map (Piece.map Lexeme.lower) lower := by
  have hopening := of?_lower (c :: text)
  rw [lower_cons] at hopening
  unfold next
  rw [hopening]
  split
  next opening _ =>
    have hmark : Lexeme.lower ⟨.erbStart, opening.text⟩ = ⟨.erbStart, opening.text⟩ := by
      simp [Lexeme.lower, lower_of_caseless (caseless_opening opening)]
    rw [← lower_cons, ← lower_drop, erbEnding_lower]
    simp [Piece.map, hmark]
  next =>
    rw [markup_lower]
    rfl

end Lexer

theorem pieces_lower (text : List Char) :
    pieces (lower text) = (pieces text).map (Piece.map Lexeme.lower) := by
  fun_induction pieces text with
  | case1 => simp [pieces]
  | case2 c text ih =>
    rw [lower_cons, pieces, Lexer.next_lower, List.map_cons, ← ih]
    rfl

/-! ## 5. Places -/

theorem Lexeme.advance_lower (start : Point) (lexeme : Lexeme) :
    start.advance lexeme.lower.text = start.advance lexeme.text := by
  unfold Lexeme.lower
  split
  · rfl
  · exact Point.advance_lower start lexeme.text

theorem Token.ofLexeme_lower (start : Point) (lexeme : Lexeme) :
    ofLexeme start lexeme.lower = (ofLexeme start lexeme).lower := by
  have hstop := Lexeme.advance_lower start lexeme
  unfold ofLexeme
  rw [hstop]
  unfold Lexeme.lower Token.lower
  split <;> rfl

namespace Piece

theorem advance_text_lower (start : Point) (piece : Piece Lexeme) :
    start.advance (piece.map Lexeme.lower).text = start.advance piece.text := by
  unfold text
  rw [parts_map]
  induction piece.parts generalizing start with
  | nil => rfl
  | cons part parts ih =>
    simp only [List.map_cons, List.flatMap_cons, Point.advance_append, Lexeme.advance_lower, ih]

theorem locate_lower (start : Point) (piece : Piece Lexeme) :
    (piece.map Lexeme.lower).locate start = (piece.locate start).map Token.lower := by
  cases piece with
  | markup lexeme => simp [Piece.map, locate, Token.ofLexeme_lower]
  | erb opening mark ending =>
    cases ending <;>
      simp [Piece.map, Ending.map, locate, Token.ofLexeme_lower, Lexeme.advance_lower]

theorem locateAll_lower (start : Point) (row : List (Piece Lexeme)) :
    locateAll start (row.map (Piece.map Lexeme.lower))
      = (locateAll start row).map (Piece.map Token.lower) := by
  induction row generalizing start with
  | nil => rfl
  | cons piece row ih =>
    rw [List.map_cons, locateAll, locateAll, List.map_cons, locate_lower, advance_text_lower, ih]

end Piece

theorem locatedPieces_lower (text : List Char) :
    locatedPieces (lower text) = (locatedPieces text).map (Piece.map Token.lower) := by
  rw [locatedPieces, pieces_lower, Piece.locateAll_lower, locatedPieces]

/-- **The tokens of a text in small letters are its tokens in small letters.** -/
theorem tokens_lower (text : List Char) : tokens (lower text) = (tokens text).map Token.lower := by
  have hparts : ∀ piece ∈ locatedPieces text,
      (piece.map Token.lower).parts = piece.parts.map Token.lower :=
    fun piece _ => Piece.parts_map Token.lower piece
  rw [tokens, tokens, locatedPieces_lower, Point.advance_lower, List.map_append, List.flatMap_map,
    List.flatMap_congr hparts, List.map_flatMap]
  rfl

end ErbTemplate
