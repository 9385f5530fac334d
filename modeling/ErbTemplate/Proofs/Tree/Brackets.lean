import ErbTemplate.Tree.Issue

/-!
# Brackets that may be left open

Opening and closing tags are brackets with names. A word of them is *balanced* when every bracket
has a partner of its own name. Some opening brackets may be left without a partner, so a word is
good when it is balanced after some of these have been deleted: `Deletes` and `Balanced` say this,
and leave open which ones are deleted.

`Accepts` does not choose. It walks over the word once with the stack of open names, lets each
closing bracket take the innermost open one of its name, and is content if all that it gives up on
the way may be left open.

> **`accepts_iff`** — taking the innermost partner is as good as any choice.

The direction that is not obvious needs to know that a fuller stack never hurts
(`Accepts.of_deletes`): names that may be left open can be put anywhere into a stack. Where such a
name takes a closing bracket away from its old partner, the old partner becomes one of the names
put in.
-/

set_option autoImplicit false

namespace ErbTemplate

/-! ## 1. Words -/

/-- An opening or a closing tag, by its name in small letters. -/
inductive TagBracket where
  | opens (name : List Char)
  | closes (name : List Char)
  deriving DecidableEq, Repr

/-- Each bracket has a partner of its own name. -/
inductive Balanced : List TagBracket → Prop
  | nil : Balanced []
  | nest {name : List Char} {inside rest : List TagBracket} :
      Balanced inside → Balanced rest →
        Balanced (.opens name :: (inside ++ .closes name :: rest))

/-- A list becomes another one when some of its items that may be deleted are deleted. -/
inductive Deletes {α : Type} (deletable : α → Bool) : List α → List α → Prop
  | nil : Deletes deletable [] []
  | keep {item : α} {items kept : List α} :
      Deletes deletable items kept → Deletes deletable (item :: items) (item :: kept)
  | delete {item : α} {items kept : List α} :
      deletable item = true → Deletes deletable items kept → Deletes deletable (item :: items) kept

/-- Only opening brackets may be left without a partner, and only those of some names. -/
def TagBracket.mayBeOpen (omittable : List Char → Bool) : TagBracket → Bool
  | opens name => omittable name
  | closes _ => false

namespace Deletes

variable {α : Type} {deletable : α → Bool} {items kept front back : List α} {item : α}

theorem nil_iff : Deletes deletable items [] ↔ ∀ item ∈ items, deletable item = true := by
  induction items with
  | nil => exact ⟨fun _ => by simp, fun _ => .nil⟩
  | cons item items ih =>
    constructor
    · rintro (_ | _ | ⟨hitem, hitems⟩)
      exact List.forall_mem_cons.2 ⟨hitem, ih.1 hitems⟩
    · intro h
      obtain ⟨hitem, hitems⟩ := List.forall_mem_cons.1 h
      exact .delete hitem (ih.2 hitems)

theorem refl (items : List α) : Deletes deletable items items := by
  induction items with
  | nil => exact .nil
  | cons item items ih => exact .keep ih

theorem trans {fewer : List α} (h : Deletes deletable items kept)
    (h' : Deletes deletable kept fewer) : Deletes deletable items fewer := by
  induction h generalizing fewer with
  | nil => exact h'
  | keep _ ih =>
    cases h' with
    | keep hkept => exact .keep (ih hkept)
    | delete hitem hkept => exact .delete hitem (ih hkept)
  | delete hitem _ ih => exact .delete hitem (ih h')

theorem append {items' kept' : List α} (h : Deletes deletable items kept)
    (h' : Deletes deletable items' kept') :
    Deletes deletable (items ++ items') (kept ++ kept') := by
  induction h with
  | nil => exact h'
  | keep _ ih => exact .keep ih
  | delete hitem _ ih => exact .delete hitem ih

theorem exists_cons (h : Deletes deletable items (item :: kept)) :
    ∃ gone others, items = gone ++ item :: others ∧ Deletes deletable gone []
      ∧ Deletes deletable others kept := by
  generalize hkept : item :: kept = all at h
  induction h with
  | nil => cases hkept
  | @keep first items rest hitems ih =>
    obtain ⟨rfl, rfl⟩ := List.cons.inj hkept
    exact ⟨[], items, rfl, .nil, hitems⟩
  | @delete first items rest hfirst hitems ih =>
    obtain ⟨gone, others, rfl, hgone, hothers⟩ := ih hkept
    exact ⟨first :: gone, others, rfl, .delete hfirst hgone, hothers⟩

theorem exists_append (h : Deletes deletable items (front ++ back)) :
    ∃ left right, items = left ++ right ∧ Deletes deletable left front
      ∧ Deletes deletable right back := by
  induction front generalizing items with
  | nil => exact ⟨[], items, rfl, .nil, h⟩
  | cons first front ih =>
    obtain ⟨gone, others, rfl, hgone, hothers⟩ := exists_cons h
    obtain ⟨left, right, rfl, hleft, hright⟩ := ih hothers
    exact ⟨gone ++ first :: left, right, by simp, hgone.append (.keep hleft), hright⟩

end Deletes

/-! ## 2. Taking the innermost partner -/

section Greedy

variable {omittable : List Char → Bool} {stack other : List (List Char)} {name : List Char}
variable {word rest kept : List TagBracket}

/-- A word can be read with these names open, innermost first: each closing bracket takes the
    innermost open name that fits, and what it gives up, or what is open at the end, may be left
    open. -/
def Accepts (omittable : List Char → Bool) : List (List Char) → List TagBracket → Prop
  | stack, [] => ∀ name ∈ stack, omittable name = true
  | stack, .opens name :: word => Accepts omittable (name :: stack) word
  | stack, .closes name :: word =>
    name ∈ stack ∧ (∀ inner ∈ stack.takeWhile (· != name), omittable inner = true)
      ∧ Accepts omittable (stack.dropWhile (· != name)).tail word

theorem accepts_closes_iff :
    Accepts omittable stack (.closes name :: word) ↔ ∃ inner outer,
      stack = inner ++ name :: outer ∧ name ∉ inner ∧ (∀ name ∈ inner, omittable name = true)
        ∧ Accepts omittable outer word := by
  have hsplit : ∀ inner outer, name ∉ inner →
      (inner ++ name :: outer).takeWhile (· != name) = inner
        ∧ ((inner ++ name :: outer).dropWhile (· != name)).tail = outer := by
    intro inner outer hnot
    have hinner : ∀ other ∈ inner, (other != name) = true := by
      intro other hother
      have hne : other ≠ name := fun heq => hnot (heq ▸ hother)
      simpa using hne
    rw [List.takeWhile_append_of_pos hinner, List.dropWhile_append_of_pos hinner]
    simp
  constructor
  · rintro ⟨hmem, hinner, hrest⟩
    obtain ⟨inner, outer, rfl, hnot⟩ := List.eq_append_cons_of_mem hmem
    obtain ⟨htake, hdrop⟩ := hsplit inner outer hnot
    rw [htake] at hinner
    rw [hdrop] at hrest
    exact ⟨inner, outer, rfl, hnot, hinner, hrest⟩
  · rintro ⟨inner, outer, rfl, hnot, hinner, hrest⟩
    obtain ⟨htake, hdrop⟩ := hsplit inner outer hnot
    refine ⟨by simp, ?_, ?_⟩
    · rwa [htake]
    · rwa [hdrop]

/-- **A fuller stack does no harm**, if what it has more may be left open. -/
theorem Accepts.of_deletes (h : Accepts omittable stack word)
    (hmore : Deletes omittable other stack) : Accepts omittable other word := by
  induction word generalizing stack other with
  | nil => exact Deletes.nil_iff.1 (hmore.trans (Deletes.nil_iff.2 h))
  | cons bracket word ih =>
    cases bracket with
    | opens name => exact ih h (.keep hmore)
    | closes name =>
      obtain ⟨inner, outer, rfl, -, hinner, hrest⟩ := accepts_closes_iff.1 h
      obtain ⟨above, below, rfl, habove, hbelow⟩ := hmore.exists_append
      obtain ⟨gone, others, rfl, hgone, hothers⟩ := hbelow.exists_cons
      have hfront : ∀ name ∈ above ++ gone, omittable name = true :=
        Deletes.nil_iff.1 ((habove.trans (Deletes.nil_iff.2 hinner)).append hgone)
      rw [← List.append_assoc, accepts_closes_iff]
      by_cases hmem : name ∈ above ++ gone
      · -- a name that was put in takes the bracket, and the old partner stays as one put in
        obtain ⟨front, back, heq, hnot⟩ := List.eq_append_cons_of_mem hmem
        rw [heq] at hfront ⊢
        obtain ⟨hfront, hback⟩ := List.forall_mem_append.1 hfront
        obtain ⟨hname, hback⟩ := List.forall_mem_cons.1 hback
        refine ⟨front, back ++ name :: others, by simp, hnot, hfront, ih hrest ?_⟩
        exact (Deletes.nil_iff.2 hback).append (.delete hname hothers)
      · exact ⟨above ++ gone, others, rfl, hmem, hfront, ih hrest hothers⟩

/-! ## 3. Any choice is as good as the innermost one -/

theorem Accepts.append_deleted {gone : List TagBracket} (h : Accepts omittable stack rest)
    (hgone : Deletes (TagBracket.mayBeOpen omittable) gone []) :
    Accepts omittable stack (gone ++ rest) := by
  induction gone generalizing stack with
  | nil => exact h
  | cons bracket gone ih =>
    obtain ⟨hbracket, hothers⟩ := List.forall_mem_cons.1 (Deletes.nil_iff.1 hgone)
    cases bracket with
    | opens name =>
      have hfuller : Accepts omittable (name :: stack) rest :=
        h.of_deletes (.delete hbracket (.refl stack))
      exact ih hfuller (Deletes.nil_iff.2 hothers)
    | closes name => cases hbracket

/-- A word that can be made balanced is read without a trace. -/
theorem Accepts.append_balanced (hkept : Balanced kept)
    (hword : Deletes (TagBracket.mayBeOpen omittable) word kept)
    (h : Accepts omittable stack rest) : Accepts omittable stack (word ++ rest) := by
  induction hkept generalizing word stack rest with
  | nil => exact h.append_deleted hword
  | @nest name inside after _ _ ihinside ihafter =>
    -- deleted, opening, inside, deleted, closing, after
    obtain ⟨gone, tail, rfl, hgone, htail⟩ := hword.exists_cons
    obtain ⟨within, tail, rfl, hwithin, htail⟩ := htail.exists_append
    obtain ⟨gone', behind, rfl, hgone', hbehind⟩ := htail.exists_cons
    have hafter : Accepts omittable stack (behind ++ rest) := ihafter hbehind h
    have hclose : Accepts omittable (name :: stack) (.closes name :: (behind ++ rest)) :=
      accepts_closes_iff.2 ⟨[], stack, rfl, by simp, by simp, hafter⟩
    have hinside : Accepts omittable (name :: stack)
        (within ++ (gone' ++ .closes name :: (behind ++ rest))) :=
      ihinside hwithin (hclose.append_deleted hgone')
    have hopen : Accepts omittable stack
        (.opens name :: (within ++ (gone' ++ .closes name :: (behind ++ rest)))) := hinside
    simpa using hopen.append_deleted hgone

/-! ## 4. What is accepted can be made balanced -/

/-- A word closes open names one after the other, and is balanced in between. -/
inductive Closes : List (List Char) → List TagBracket → Prop
  | nil {word : List TagBracket} : Balanced word → Closes [] word
  | cons {name : List Char} {names : List (List Char)} {inside rest : List TagBracket} :
      Balanced inside → Closes names rest → Closes (name :: names) (inside ++ .closes name :: rest)

theorem Closes.nest {names : List (List Char)} {inside : List TagBracket} (h : Closes names rest)
    (hinside : Balanced inside) :
    Closes names (.opens name :: (inside ++ .closes name :: rest)) := by
  cases h with
  | nil hrest => exact .nil (.nest hinside hrest)
  | @cons next names front back hfront hback =>
    have hnest : Balanced (.opens name :: (inside ++ .closes name :: front)) :=
      .nest hinside hfront
    have hcloses : Closes (next :: names)
        ((.opens name :: (inside ++ .closes name :: front)) ++ .closes next :: back) :=
      .cons hnest hback
    simpa using hcloses

theorem Accepts.exists_closes (h : Accepts omittable stack word) :
    ∃ names kept, Deletes omittable stack names
      ∧ Deletes (TagBracket.mayBeOpen omittable) word kept ∧ Closes names kept := by
  induction word generalizing stack with
  | nil => exact ⟨[], [], Deletes.nil_iff.2 h, .nil, .nil .nil⟩
  | cons bracket word ih =>
    cases bracket with
    | opens name =>
      obtain ⟨names, kept, hnames, hkept, hcloses⟩ := ih h
      cases hnames with
      | @keep _ _ names hnames =>
        -- the name gets its partner from the rest of the word
        cases hcloses with
        | @cons _ _ inside rest hinside hrest =>
          exact ⟨names, _, hnames, .keep hkept, hrest.nest hinside⟩
      | delete hname hnames => exact ⟨names, kept, hnames, .delete hname hkept, hcloses⟩
    | closes name =>
      obtain ⟨inner, outer, rfl, -, hinner, hrest⟩ := accepts_closes_iff.1 h
      obtain ⟨names, kept, hnames, hkept, hcloses⟩ := ih hrest
      have hstack : Deletes omittable (inner ++ name :: outer) ([] ++ name :: names) :=
        (Deletes.nil_iff.2 hinner).append (.keep hnames)
      have hword : Closes (name :: names) ([] ++ .closes name :: kept) := .cons .nil hcloses
      exact ⟨name :: names, .closes name :: kept, hstack, .keep hkept, hword⟩

/-- **Taking the innermost partner is as good as any choice.** -/
theorem accepts_iff :
    Accepts omittable [] word ↔ ∃ kept, Deletes (TagBracket.mayBeOpen omittable) word kept
      ∧ Balanced kept := by
  constructor
  · intro h
    obtain ⟨names, kept, hnames, hkept, hcloses⟩ := h.exists_closes
    cases hnames
    cases hcloses with
    | nil hbalanced => exact ⟨kept, hkept, hbalanced⟩
  · rintro ⟨kept, hkept, hbalanced⟩
    have hempty : Accepts omittable [] [] := by simp [Accepts]
    simpa using Accepts.append_balanced hbalanced hkept hempty

end Greedy

end ErbTemplate
