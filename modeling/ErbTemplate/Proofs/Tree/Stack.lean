import ErbTemplate.Tree.Builder
import Mathlib.Data.List.TakeWhile

/-!
# The names of the open elements

Which elements are open decides everything a builder does with a closing tag, and only their names
are looked at. `Builder.names` is that view of a builder: the names of the open elements, innermost
first. Each operation on builders is described by what it does to the names; nothing but an opening
tag adds one, and a closing tag takes away all down to the innermost of its own name
(`names_closeElement`).
-/

set_option autoImplicit false

namespace ErbTemplate
namespace Builder

/-- The names of the open elements, innermost first. -/
def names (builder : Builder) : List (List Char) :=
  builder.frames.map Frame.name

@[simp] theorem names_empty : empty.names = [] := rfl

@[simp] theorem names_onChildren (change : List Node → List Node) (builder : Builder) :
    (builder.onChildren change).names = builder.names := by
  unfold onChildren
  split
  next h => simp [names, h]
  next frame frames h => simp [names, h]

@[simp] theorem names_add (node : Node) (builder : Builder) :
    (builder.add node).names = builder.names :=
  names_onChildren _ builder

@[simp] theorem names_pop (finish : Frame → Node) (builder : Builder) :
    (builder.pop finish).names = builder.names.tail := by
  unfold pop
  split
  next h => simp [names, h]
  next frame frames h =>
    rw [names_add]
    simp [names, h]

theorem names_foldl_pop {α : Type} (finish : Frame → Node) (items : List α) (builder : Builder) :
    (items.foldl (fun builder _ => builder.pop finish) builder).names
      = builder.names.drop items.length := by
  induction items generalizing builder with
  | nil => rfl
  | cons item items ih => simp [ih]

theorem names_openElement (name : List Char) (tag : OpenTag)
    (terminated : Bool) (builder : Builder) :
    (builder.openElement name tag terminated).names
      = if isVoidName name || tag.selfClosing || !terminated then builder.names
        else name :: builder.names := by
  unfold openElement
  simp only
  split
  · exact names_add _ builder
  · rfl

theorem any_frames (name : List Char) (builder : Builder) :
    (builder.frames.any fun frame => frame.name == name) = true ↔ name ∈ builder.names := by
  simp [names]

theorem length_takeWhile_frames (name : List Char) (builder : Builder) :
    (builder.frames.takeWhile fun frame => frame.name != name).length
      = (builder.names.takeWhile (· != name)).length := by
  rw [names, List.takeWhile_map, List.length_map]
  rfl

/-- Taking off the inner elements leaves the element of the name on top. -/
theorem names_foldl_pop_takeWhile (finish : Frame → Node) (name : List Char) (builder : Builder) :
    ((builder.frames.takeWhile fun frame => frame.name != name).foldl
        (fun builder _ => builder.pop finish) builder).names
      = builder.names.dropWhile (· != name) := by
  have hsplit : builder.names.takeWhile (· != name) ++ builder.names.dropWhile (· != name)
      = builder.names := List.takeWhile_append_dropWhile
  rw [names_foldl_pop, length_takeWhile_frames]
  exact (congrArg (List.drop _) hsplit.symm).trans List.drop_left

theorem head?_names_foldl_pop_takeWhile (finish : Frame → Node) {name : List Char}
    {builder : Builder} (h : name ∈ builder.names) :
    ((builder.frames.takeWhile fun frame => frame.name != name).foldl
        (fun builder _ => builder.pop finish) builder).names.head? = some name := by
  rw [names_foldl_pop_takeWhile]
  cases hdrop : builder.names.dropWhile (· != name) with
  | nil => exact absurd (List.dropWhile_eq_nil_iff.1 hdrop name h) (by simp)
  | cons first rest =>
    have hstop := List.head?_dropWhile_not (· != name) builder.names
    rw [hdrop] at hstop
    simpa using hstop

/-- A closing tag takes off all down to the innermost element of its name, if there is one. -/
theorem names_closeElement (options : ParserOptions) (name : List Char) (tag : CloseTag)
    (builder : Builder) :
    (builder.closeElement options name tag).names
      = if name ∈ builder.names then (builder.names.dropWhile (· != name)).tail
        else builder.names := by
  unfold closeElement
  by_cases hmem : name ∈ builder.names
  · rw [if_pos ((any_frames name builder).2 hmem), if_pos hmem, names_pop,
      names_foldl_pop_takeWhile]
  · rw [if_neg (fun h => hmem ((any_frames name builder).1 h)), if_neg hmem]
    rfl

@[simp] theorem names_finish (options : ParserOptions) (builder : Builder) :
    (builder.finish options).names = [] := by
  rw [finish, names_foldl_pop, names, List.drop_eq_nil_iff]
  simp

end Builder
end ErbTemplate
