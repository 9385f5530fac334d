import ErbTemplate.Tree.Builder

/-!
# White space in opening tags

The loop that reads an opening tag comes to every blank in it, and makes it an item of the tag only
if white space is tracked. That is the whole difference:

> **`segments_eq_map_kept`** — to pass over white space while reading is to leave it out afterwards.
-/

set_option autoImplicit false

namespace ErbTemplate

/-! ## 1. What is left out -/

/-- The items of an opening tag that stay in the tree. -/
def ParserOptions.keptItems (options : ParserOptions) (items : List TagItem) : List TagItem :=
  if options.trackWhitespace then items else items.filter fun item => !item.isWhitespace

theorem ParserOptions.keptItems_cons_of_solid (options : ParserOptions) {item : TagItem}
    (h : item.isWhitespace = false) (items : List TagItem) :
    options.keptItems (item :: items) = item :: options.keptItems items := by
  unfold keptItems
  split
  · rfl
  · rw [List.filter_cons_of_pos (by rw [h]; rfl)]

/-- The tag as it stands in the tree. -/
def OpenTag.kept (options : ParserOptions) (tag : OpenTag) : OpenTag :=
  { tag with items := options.keptItems tag.items }

/-- The segment as it stands in the tree. -/
def Segment.kept (options : ParserOptions) : Segment → Segment
  | openTag name tag terminated => openTag name (tag.kept options) terminated
  | segment => segment

/-! ## 2. Reading without white space -/

namespace Segment

/-- The body of a tag as it stands in the tree. -/
def TagBody.kept (options : ParserOptions) (body : TagBody) : TagBody :=
  { body with items := options.keptItems body.items }

theorem TagBody.kept_cons (options : ParserOptions) {item : TagItem}
    (h : item.isWhitespace = false) (body : TagBody) :
    (body.cons item).kept options = (body.kept options).cons item := by
  rw [kept, cons, cons, kept, options.keptItems_cons_of_solid h]

/-- Asking at each blank, and asking afterwards. -/
theorem TagBody.kept_consSpace (options : ParserOptions) (span : Span) (body : TagBody) :
    (body.consSpace true span).kept options
      = (body.kept options).consSpace options.trackWhitespace span := by
  cases htrack : options.trackWhitespace with
  | true => simp [kept, cons, ParserOptions.keptItems, htrack]
  | false => simp [kept, cons, ParserOptions.keptItems, htrack, TagItem.isWhitespace]

theorem readTagBody_eq_kept (options : ParserOptions) (stop : Point) (pieces : List (Piece Token)) :
    readTagBody options.trackWhitespace stop pieces
      = (readTagBody true stop pieces).kept options := by
  have hnone : ∀ selfClosing terminated stop rest,
      (⟨[], selfClosing, terminated, stop, rest⟩ : TagBody)
        = TagBody.kept options ⟨[], selfClosing, terminated, stop, rest⟩ := by
    intro selfClosing terminated stop rest
    simp [TagBody.kept, ParserOptions.keptItems]
  fun_induction readTagBody true stop pieces with
  | case1 stop =>
    rw [readTagBody]
    exact hnone ..
  | case2 stop opening mark ending pieces tag ih =>
    rw [readTagBody, TagBody.kept_cons options rfl, ← ih]
  | case3 stop token pieces hkind =>
    rw [readTagBody.eq_def]
    simp only [hkind]
    exact hnone ..
  | case4 stop token pieces hkind =>
    rw [readTagBody.eq_def]
    simp only [hkind]
    exact hnone ..
  | case5 stop token pieces hkind ih | case6 stop token pieces hkind ih =>
    rw [TagBody.kept_consSpace, ← ih, readTagBody.eq_def]
    simp only [hkind]
  | case7 stop token pieces hkind attr ih =>
    rw [TagBody.kept_cons options rfl, ← ih, readTagBody.eq_def]
    simp only [hkind, attr]
  | case8 stop token pieces hend hself hspace hnewline hname ih =>
    rw [← ih, readTagBody]
    split
    next h => exact (hend h).elim
    next h => exact (hself h).elim
    next h => exact (hspace h).elim
    next h => exact (hnewline h).elim
    next h => exact (hname h).elim
    next => rfl

theorem readOpenTag_eq_kept (options : ParserOptions) (mark name : Token)
    (pieces : List (Piece Token)) :
    readOpenTag options.trackWhitespace mark name pieces
      = ((readOpenTag true mark name pieces).1.kept options,
          (readOpenTag true mark name pieces).2) := by
  simp only [readOpenTag, readTagBody_eq_kept]
  rfl

theorem next_eq_kept (options : ParserOptions) (token : Token) (pieces : List (Piece Token)) :
    next options.trackWhitespace token pieces
      = ((next true token pieces).1.kept options, (next true token pieces).2) := by
  unfold next
  split
  next => rfl
  next =>
    split
    · exact readOpenTag_eq_kept options token _ _
    · rfl
  next => split <;> rfl
  next => rfl

end Segment

/-- **To pass over white space while reading is to leave it out afterwards.** -/
theorem segments_eq_map_kept (options : ParserOptions) (pieces : List (Piece Token)) :
    segments options.trackWhitespace pieces
      = (segments true pieces).map (Segment.kept options) := by
  fun_induction segments true pieces with
  | case1 => simp [segments]
  | case2 opening mark ending pieces ih =>
    rw [segments, ih]
    rfl
  | case3 token pieces ih =>
    rw [segments, Segment.next_eq_kept, ih]
    rfl

end ErbTemplate
