import ErbTemplate.Proofs.Memory.Refinement
import Mathlib.Algebra.Ring.Nat
import Mathlib.Logic.Relation
import Mathlib.Order.Bounds.Basic
import Mathlib.Order.Nat

/-!
# How an array grows

An array that is too small doubles its capacity until the items fit. The search for that capacity
is a loop, and three things about it are not obvious: that it ends, that it stops as early as it
can, and what becomes of it where numbers leave the machine's words. This file answers them without
the loop.

> **`growth`** — what a request for room comes to, in terms of the fewest doublings after which the
> items fit (`FewestDoublings`), case by case in the order in which the cases are told apart.

`on_perform_of_needed?` says that every operation which asks for room does exactly that. The search
ends because an array with room has a capacity to double (`searchEnds`); zero would be doubled
forever, and the arrays without room are those that no operation tries to make grow.

Along a run that makes no new array the capacity is what it was at first, times a power of two
(`doubled_performAll`).
-/

set_option autoImplicit false

namespace ErbTemplate
namespace ItemArray

open InPlace (answering renew reading on_answering on_renew on_reading)

/-! ## 1. The search for a capacity -/

/-- The least number of doublings of a capacity after which so many items fit. -/
def FewestDoublings (capacity needed doublings : Nat) : Prop :=
  IsLeast {count | needed ≤ capacity * 2 ^ count} doublings

/-- One round of the search: the capacity is too small, and its double is a word. -/
def DoublesTo (needed capacity next : Nat) : Prop :=
  capacity < needed ∧ next = 2 * capacity ∧ next ≤ Memory.maxWord

/-- The search comes to a capacity from which no round leads on. It has found what it looked for if
    the items fit, and has left the words of the machine otherwise. -/
def SearchEnds (needed capacity : Nat) : Prop :=
  ∃ last, Relation.ReflTransGen (DoublesTo needed) capacity last
    ∧ (∀ next, ¬ DoublesTo needed last next)
    ∧ doubleTo needed capacity = if needed ≤ last then some last else none

theorem two_mul_mul_two_pow (capacity count : Nat) :
    2 * capacity * 2 ^ count = capacity * 2 ^ (count + 1) := by
  rw [Nat.pow_succ, Nat.mul_comm 2 capacity, Nat.mul_assoc, Nat.mul_comm 2]

namespace FewestDoublings

variable {capacity needed doublings : Nat}

theorem exists_of_pos (hpos : 0 < capacity) (needed : Nat) :
    ∃ doublings, FewestDoublings capacity needed doublings := by
  have henough : ∃ count, needed ≤ capacity * 2 ^ count := by
    refine ⟨needed, ?_⟩
    calc needed
      _ ≤ 2 ^ needed := Nat.le_of_lt Nat.lt_two_pow_self
      _ ≤ capacity * 2 ^ needed := Nat.le_mul_of_pos_left _ hpos
  exact ⟨Nat.find henough, Nat.isLeast_find henough⟩

theorem le_of_zero (h : FewestDoublings capacity needed 0) : needed ≤ capacity := by
  simpa using h.1

/-- One doubling is taken off by doubling the capacity. -/
theorem of_succ (h : FewestDoublings capacity needed (doublings + 1)) :
    capacity < needed ∧ FewestDoublings (2 * capacity) needed doublings := by
  refine ⟨?_, ?_, ?_⟩
  · by_contra hle
    have hzero : needed ≤ capacity * 2 ^ 0 := by simpa using hle
    have hleast := h.2 hzero
    omega
  · show needed ≤ 2 * capacity * 2 ^ doublings
    rw [two_mul_mul_two_pow]
    exact h.1
  · intro count hcount
    have hmem : needed ≤ capacity * 2 ^ (count + 1) := by
      rw [← two_mul_mul_two_pow]
      exact hcount
    exact Nat.le_of_succ_le_succ (h.2 hmem)

end FewestDoublings

/-- **The search stops after the fewest doublings**, or when these leave the words. -/
theorem doubleTo_of_fewestDoublings {capacity needed doublings : Nat}
    (h : FewestDoublings capacity needed doublings) (hword : capacity ≤ Memory.maxWord) :
    doubleTo needed capacity
      = if capacity * 2 ^ doublings ≤ Memory.maxWord then some (capacity * 2 ^ doublings)
        else none := by
  induction doublings generalizing capacity with
  | zero =>
    rw [doubleTo, if_pos h.le_of_zero, Nat.pow_zero, Nat.mul_one, if_pos hword]
  | succ doublings ih =>
    obtain ⟨hlt, hrest⟩ := h.of_succ
    have hpos : capacity ≠ 0 := by
      rintro rfl
      have hfits : needed ≤ 0 * 2 ^ (doublings + 1) := h.1
      omega
    rw [doubleTo, if_neg (Nat.not_le.2 hlt), if_neg hpos, ← two_mul_mul_two_pow]
    by_cases hdouble : 2 * capacity ≤ Memory.maxWord
    · rw [if_pos hdouble]
      exact ih hrest hdouble
    · -- the first doubling is too much already, and the others only make it more
      have hmore : 2 * capacity ≤ 2 * capacity * 2 ^ doublings :=
        Nat.le_mul_of_pos_right _ (Nat.two_pow_pos doublings)
      rw [if_neg hdouble, if_neg (by omega)]

theorem searchEnds {capacity : Nat} (needed : Nat) (hpos : 0 < capacity) :
    SearchEnds needed capacity := by
  unfold SearchEnds
  fun_induction doubleTo needed capacity with
  | case1 capacity hle =>
    exact ⟨capacity, .refl, fun next h => Nat.not_le.2 h.1 hle, (if_pos hle).symm⟩
  | case2 => exact absurd hpos (Nat.lt_irrefl 0)
  | case3 capacity hlt _ hdouble ih =>
    obtain ⟨last, hrounds, hend, hanswer⟩ := ih (by omega)
    exact ⟨last, .head ⟨Nat.lt_of_not_le hlt, rfl, hdouble⟩ hrounds, hend, hanswer⟩
  | case4 capacity hlt _ hdouble =>
    refine ⟨capacity, .refl, ?_, (if_neg hlt).symm⟩
    rintro next ⟨-, rfl, hnext⟩
    exact hdouble hnext

/-- Zero is doubled forever. -/
theorem not_searchEnds_zero {needed : Nat} (hpos : 0 < needed) : ¬ SearchEnds needed 0 := by
  have hstays : ∀ last, Relation.ReflTransGen (DoublesTo needed) 0 last → last = 0 := by
    intro last hrounds
    induction hrounds with
    | refl => rfl
    | tail _ hround ih => rw [hround.2.1, ih]
  rintro ⟨last, hrounds, hend, -⟩
  rw [hstays last hrounds] at hend
  exact hend 0 ⟨hpos, rfl, Nat.zero_le _⟩

/-! ## 2. What a request for room comes to -/

/-- The answer to a request for room for so many items, when so many doublings are the fewest that
    make them fit: the capacity after it or a refusal, and the memory after it. -/
def growth (memory : Memory) (itemSize capacity needed doublings : Nat) :
    Except Fault Nat × Memory :=
  let target := capacity * 2 ^ doublings
  let bytes := itemSize * target
  if Memory.maxWord < needed then
    (.error (.failure (.allocation Memory.maxWord)), memory)
  else if needed ≤ capacity then
    (.ok capacity, memory)
  else if Memory.maxWord < target ∨ Memory.maxWord < bytes then
    (.error (.failure (.allocation Memory.maxWord)), memory)
  else if Memory.maxBlock < bytes then
    (.error (.failure (.allocation bytes)), memory)
  else if memory.grants memory.requests bytes = false then
    (.error (.failure (.allocation bytes)), { memory with requests := memory.requests + 1 })
  else
    (.ok target, { memory with requests := memory.requests + 1 })

theorem run_requestRoom (itemSize capacity : Nat) (memory : Memory) :
    (requestRoom itemSize capacity).run.run memory =
      if Memory.maxWord < itemSize * capacity then
        (.error (.failure (.allocation Memory.maxWord)), memory)
      else if Memory.maxBlock < itemSize * capacity then
        (.error (.failure (.allocation (itemSize * capacity))), memory)
      else if memory.grants memory.requests (itemSize * capacity) = false then
        (.error (.failure (.allocation (itemSize * capacity))),
          { memory with requests := memory.requests + 1 })
      else (.ok (), { memory with requests := memory.requests + 1 }) := by
  unfold requestRoom
  by_cases hword : itemSize * capacity ≤ Memory.maxWord
  · rw [if_pos hword, if_neg (Nat.not_lt.2 hword), Alloc.run_request]
    by_cases hblock : itemSize * capacity ≤ Memory.maxBlock
    · rw [if_pos hblock, if_neg (Nat.not_lt.2 hblock)]
      cases memory.grants memory.requests (itemSize * capacity) <;> rfl
    · rw [if_neg hblock, if_pos (Nat.lt_of_not_le hblock)]
  · rw [if_neg hword, if_pos (Nat.lt_of_not_le hword), Alloc.run_fail]

section

variable {α : Type} {array : ItemArray α} {needed doublings : Nat}

theorem on_growTo_of_fewestDoublings (hword : array.capacity ≤ Memory.maxWord)
    (hneeded : needed ≤ Memory.maxWord) (h : FewestDoublings array.capacity needed doublings)
    (memory : Memory) :
    ((growTo needed).on array).run memory =
      match growth memory array.itemSize array.capacity needed doublings with
      | (.ok capacity, after) => ((.ok (), { array with capacity }), after)
      | (.error fault, after) => ((.error fault, array), after) := by
  unfold growth
  rw [on_growTo, if_neg (Nat.not_lt.2 hneeded)]
  by_cases hfits : needed ≤ array.capacity
  · rw [if_neg (Nat.not_lt.2 hfits), if_pos hfits]
  · rw [if_pos (Nat.lt_of_not_le hfits), if_neg hfits, doubleTo_of_fewestDoublings h hword]
    by_cases htarget : array.capacity * 2 ^ doublings ≤ Memory.maxWord
    · simp only [if_pos htarget, run_requestRoom, Nat.not_lt.2 htarget, false_or]
      by_cases hword : Memory.maxWord < array.itemSize * (array.capacity * 2 ^ doublings)
      · rw [if_pos hword, if_pos hword]
      by_cases hblock : Memory.maxBlock < array.itemSize * (array.capacity * 2 ^ doublings)
      · rw [if_neg hword, if_neg hword, if_pos hblock, if_pos hblock]
      rw [if_neg hword, if_neg hword, if_neg hblock, if_neg hblock]
      generalize memory.grants memory.requests (array.itemSize * (array.capacity * 2 ^ doublings))
        = granted
      cases granted <;> rfl
    · rw [if_neg htarget, if_pos (Or.inl (Nat.lt_of_not_le htarget))]

theorem on_reserve_of_fewestDoublings {additional : Nat} (hlive : array.isReleased = false)
    (hword : array.capacity ≤ Memory.maxWord)
    (h : FewestDoublings array.capacity (array.size + additional) doublings) (memory : Memory) :
    ((reserve additional).on array).run memory =
      match growth memory array.itemSize array.capacity (array.size + additional) doublings with
      | (.ok capacity, after) => ((.ok (), { array with capacity }), after)
      | (.error fault, after) => ((.error fault, array), after) := by
  rw [on_reserve, hlive, if_neg Bool.false_ne_true]
  by_cases hneeded : array.size + additional ≤ Memory.maxWord
  · rw [if_pos hneeded]
    exact on_growTo_of_fewestDoublings hword hneeded h memory
  · rw [if_neg hneeded, growth, if_pos (Nat.lt_of_not_le hneeded)]

theorem on_append_of_fewestDoublings (item : α) (hlive : array.isReleased = false)
    (hword : array.capacity ≤ Memory.maxWord) (hneeded : array.size + 1 ≤ Memory.maxWord)
    (h : FewestDoublings array.capacity (array.size + 1) doublings) (memory : Memory) :
    ((append item).on array).run memory =
      match growth memory array.itemSize array.capacity (array.size + 1) doublings with
      | (.ok capacity, after) =>
        ((.ok (), ⟨array.itemSize, capacity, array.items.push item⟩), after)
      | (.error fault, after) => ((.error fault, array), after) := by
  rw [on_append, hlive, if_neg Bool.false_ne_true, on_growTo_of_fewestDoublings hword hneeded h]
  rcases growth memory array.itemSize array.capacity (array.size + 1) doublings with ⟨_ | _, _⟩
  · rfl
  · rfl

end

/-! ## 3. Operations -/

/-- How many items an operation needs room for in all, if it asks for room in an array. -/
def Operation.needed? : Operation → ItemArray Bytes → Option Nat
  | .appendBytes _, array => some (array.size + 1)
  | .appendNumber .., array => some (array.size + 1)
  | .reserve additional, array => some (array.size + additional)
  | _, _ => none

/-- Whether an operation puts another array in the place of the one there is. -/
def Operation.Renews : Operation → Prop
  | .init .. | .initFor .. | .released | .release => True
  | _ => False

namespace Live

variable {array : ItemArray Bytes}

/-- Every offset in an array is a word, and so is the number of items with one more. -/
theorem words (h : array.Live) :
    array.size + 1 ≤ Memory.maxWord
      ∧ ∀ index ≤ array.capacity, index * array.itemSize ≤ Memory.maxWord := by
  have hblock : Memory.maxBlock + 1 ≤ Memory.maxWord := by decide
  have hbytes : 1 * array.capacity ≤ array.itemSize * array.capacity :=
    Nat.mul_le_mul_right _ h.itemSize_pos
  have hfits := h.fits
  have hsize := h.size_le
  refine ⟨by omega, ?_⟩
  intro index hindex
  have hoffset : index * array.itemSize ≤ array.itemSize * array.capacity := by
    rw [Nat.mul_comm]
    exact Nat.mul_le_mul_left _ hindex
  omega

end Live

section

variable {array : ItemArray Bytes} {operation : Operation} {needed doublings : Nat}

theorem on_answering_append {computation : InPlace (ItemArray Bytes) Unit} {item : Bytes}
    {memory : Memory}
    (hcomputation : (computation.on array).run memory = ((append item).on array).run memory)
    (hlive : array.Live) (h : FewestDoublings array.capacity (array.size + 1) doublings) :
    ((answering computation fun _ => Answer.done).on array).run memory =
      match growth memory array.itemSize array.capacity (array.size + 1) doublings with
      | (.ok capacity, after) =>
        ((.ok Answer.done, ⟨array.itemSize, capacity, (array.items.toList ++ [item]).toArray⟩),
          after)
      | (.error fault, after) => ((.error fault, array), after) := by
  have hpush : (array.items.toList ++ [item]).toArray = array.items.push item := by
    rw [← Array.toList_push]
  rw [on_answering, hcomputation, hpush,
    on_append_of_fewestDoublings item hlive.isReleased hlive.capacity_le hlive.words.1 h]
  rcases growth memory array.itemSize array.capacity (array.size + 1) doublings with ⟨_ | _, _⟩
  · rfl
  · rfl

/-- **An operation that asks for room gets what `growth` says**, and has done its work if that is
    a capacity. -/
theorem on_perform_of_needed? (hsound : array.Sound)
    (hneeded : operation.needed? array = some needed) (hallowed : operation.Allowed array.view)
    (h : FewestDoublings array.capacity needed doublings) (memory : Memory) :
    (operation.perform.on array).run memory =
      match growth memory array.itemSize array.capacity needed doublings with
      | (.ok capacity, after) =>
        ((.ok .done, ⟨array.itemSize, capacity, (operation.next array.view).items.toArray⟩), after)
      | (.error fault, after) => ((.error fault, array), after) := by
  cases operation with
  | appendBytes item =>
    cases hneeded
    have hitem : item.length = array.itemSize := hallowed.2
    have hrun := on_appendBytes item array memory
    rw [if_pos hitem] at hrun
    exact on_answering_append hrun (hsound.live hallowed.1) h
  | appendNumber type value =>
    cases hneeded
    have htype : type.width = array.itemSize := hallowed.2
    have hrun := on_requireType type (append (type.encode value)) array memory
    rw [if_pos htype] at hrun
    exact on_answering_append hrun (hsound.live hallowed.1) h
  | reserve additional =>
    cases hneeded
    have hlive := hsound.live hallowed
    rw [Operation.perform, on_answering,
      on_reserve_of_fewestDoublings hlive.isReleased hlive.capacity_le h]
    rcases growth memory array.itemSize array.capacity (array.size + additional) doublings with
      ⟨_ | _, _⟩
    · rfl
    · simp [view, Operation.next, Except.map]
  | _ => cases hneeded

/-- An array without room is never asked to grow. -/
theorem on_perform_of_itemSize_zero (hsize : array.itemSize = 0)
    (hneeded : operation.needed? array = some needed) (memory : Memory) :
    ∃ cause, (operation.perform.on array).run memory
      = ((.error (.violation cause), array), memory) := by
  have hreleased : array.isReleased = true := by rw [isReleased, hsize]; rfl
  have happend : ∀ item : Bytes, ((append item).on array).run memory
      = ((.error (.violation .released), array), memory) := by
    intro item
    rw [on_append, hreleased, if_pos rfl]
  cases operation with
  | appendBytes item =>
    rw [Operation.perform, on_answering, on_appendBytes, happend]
    by_cases hitem : item.length = array.itemSize
    · rw [if_pos hitem]
      exact ⟨_, rfl⟩
    · rw [if_neg hitem]
      exact ⟨_, rfl⟩
  | appendNumber type value =>
    rw [Operation.perform, on_answering, appendNumber, on_requireType, happend]
    by_cases htype : type.width = array.itemSize
    · rw [if_pos htype]
      exact ⟨_, rfl⟩
    · rw [if_neg htype]
      exact ⟨_, rfl⟩
  | reserve additional =>
    rw [Operation.perform, on_answering, on_reserve, hreleased, if_pos rfl]
    exact ⟨_, rfl⟩
  | _ => cases hneeded

end

/-! ## 4. Runs -/

/-- One array has the capacity of another, doubled some number of times. -/
def Doubled {α : Type} (before after : ItemArray α) : Prop :=
  ∃ count, after.capacity = before.capacity * 2 ^ count

namespace Doubled

variable {α : Type} {first second third : ItemArray α}

theorem of_eq (h : second.capacity = first.capacity) : first.Doubled second :=
  ⟨0, by rw [h, Nat.pow_zero, Nat.mul_one]⟩

theorem trans (h : first.Doubled second) (h' : second.Doubled third) : first.Doubled third := by
  obtain ⟨count, hcount⟩ := h
  obtain ⟨more, hmore⟩ := h'
  exact ⟨count + more, by rw [hmore, hcount, Nat.mul_assoc, ← Nat.pow_add]⟩

theorem capacity_le (h : first.Doubled second) : first.capacity ≤ second.capacity := by
  obtain ⟨count, hcount⟩ := h
  rw [hcount]
  exact Nat.le_mul_of_pos_right _ (Nat.two_pow_pos count)

end Doubled

theorem exists_doublings_of_doubleTo {needed capacity doubled : Nat}
    (h : doubleTo needed capacity = some doubled) : ∃ count, doubled = capacity * 2 ^ count := by
  fun_induction doubleTo needed capacity with
  | case1 capacity hle =>
    cases h
    exact ⟨0, by rw [Nat.pow_zero, Nat.mul_one]⟩
  | case2 => cases h
  | case3 capacity _ _ _ ih =>
    obtain ⟨count, hcount⟩ := ih h
    exact ⟨count + 1, by rw [hcount, two_mul_mul_two_pow]⟩
  | case4 => cases h

section

variable {α : Type} {array after : ItemArray α} {memory left : Memory} {outcome : Except Fault Unit}

theorem doubled_growTo {needed : Nat}
    (h : ((growTo needed).on array).run memory = ((outcome, after), left)) :
    array.Doubled after := by
  rw [on_growTo] at h
  split at h
  · cases hdouble : doubleTo needed array.capacity with
    | none =>
      rw [hdouble] at h
      cases h
      exact .of_eq rfl
    | some capacity =>
      rw [hdouble] at h
      simp only at h
      generalize (requestRoom array.itemSize capacity).run.run memory = answer at h
      obtain ⟨_ | _, _⟩ := answer
      · cases h
        exact .of_eq rfl
      · cases h
        exact exists_doublings_of_doubleTo hdouble
  · cases h
    exact .of_eq rfl

theorem doubled_append {item : α}
    (h : ((append item).on array).run memory = ((outcome, after), left)) :
    array.Doubled after := by
  rcases on_append_inv h with ⟨_, -, rfl⟩ | ⟨grown, hgrow, -, rfl⟩
  · exact .of_eq rfl
  · have hgrown : array.Doubled grown := doubled_growTo hgrow
    exact hgrown

theorem doubled_reserve {additional : Nat}
    (h : ((reserve additional).on array).run memory = ((outcome, after), left)) :
    array.Doubled after := by
  rw [on_reserve] at h
  split at h
  · cases h
    exact .of_eq rfl
  · split at h
    · exact doubled_growTo h
    · cases h
      exact .of_eq rfl

end

/-- An operation that makes no new array doubles the capacity some number of times. -/
theorem doubled_perform {operation : Operation} {array after : ItemArray Bytes}
    {memory left : Memory} {outcome : Except Fault Answer} (hkeeps : ¬ operation.Renews)
    (h : (operation.perform.on array).run memory = ((outcome, after), left)) :
    array.Doubled after := by
  have hpart : ∀ {β : Type} (computation : InPlace (ItemArray Bytes) β) (answer : β → Answer),
      ((answering computation answer).on array).run memory = ((outcome, after), left) →
        ∃ result, (computation.on array).run memory = ((result, after), left) := by
    intro β computation answer hrun
    rw [on_answering] at hrun
    cases hrun
    exact ⟨_, rfl⟩
  cases operation with
  | init | initFor | released | release => exact absurd trivial hkeeps
  | appendBytes item =>
    obtain ⟨result, hrun⟩ := hpart _ _ h
    rw [on_appendBytes] at hrun
    split at hrun
    · exact doubled_append hrun
    · cases hrun
      exact .of_eq rfl
  | appendNumber type value =>
    obtain ⟨result, hrun⟩ := hpart _ _ h
    rw [appendNumber, on_requireType] at hrun
    split at hrun
    · exact doubled_append hrun
    · cases hrun
      exact .of_eq rfl
  | reserve additional =>
    obtain ⟨result, hrun⟩ := hpart _ _ h
    exact doubled_reserve hrun
  | remove index =>
    obtain ⟨result, hrun⟩ := hpart _ _ h
    rw [on_remove] at hrun
    split at hrun <;> cases hrun <;> exact .of_eq rfl
  | popNumber type =>
    obtain ⟨result, hrun⟩ := hpart _ _ h
    rw [on_popNumber?] at hrun
    split at hrun <;> cases hrun <;> exact .of_eq rfl
  | popBytes length =>
    obtain ⟨result, hrun⟩ := hpart _ _ h
    rw [on_popBytes?] at hrun
    split at hrun <;> cases hrun <;> exact .of_eq rfl
  | nth | nthNumber | firstNumber | lastNumber | numbers =>
    obtain ⟨result, hrun⟩ := hpart _ _ h
    rw [on_reading] at hrun
    cases hrun
    exact .of_eq rfl

theorem performAll_append (front back : List Operation) (array : ItemArray Bytes)
    (memory : Memory) :
    (performAll (front ++ back) array memory).array
      = (performAll back (performAll front array memory).array
          (performAll front array memory).memory).array := by
  induction front generalizing array memory with
  | nil => rfl
  | cons operation front ih => exact ih _ _

/-- **A run that makes no new array only doubles the capacity.** -/
theorem doubled_performAll {operations : List Operation}
    (hkeeps : ∀ operation ∈ operations, ¬ operation.Renews) (array : ItemArray Bytes)
    (memory : Memory) : array.Doubled (performAll operations array memory).array := by
  induction operations generalizing array memory with
  | nil => exact .of_eq rfl
  | cons operation operations ih =>
    obtain ⟨hfirst, hrest⟩ := List.forall_mem_cons.1 hkeeps
    exact (doubled_perform hfirst rfl).trans (ih hrest _ _)

/-- An array that has been made has the capacity that was asked for. -/
theorem capacity_of_renew {itemSize capacity : Nat} {array after : ItemArray Bytes}
    {memory left : Memory} {answer : Answer}
    (h : ((answering (renew (ItemArray.init itemSize capacity)) fun _ => .done).on array).run memory
      = ((.ok answer, after), left)) : after.capacity = capacity := by
  rw [on_answering, on_renew, ItemArray.init] at h
  by_cases hsize : itemSize = 0
  · rw [if_pos hsize] at h
    cases h
  by_cases hcapacity : capacity = 0
  · rw [if_neg hsize, if_pos hcapacity] at h
    cases h
  rw [if_neg hsize, if_neg hcapacity, Alloc.run_bind] at h
  generalize (requestRoom itemSize capacity).run.run memory = result at h
  obtain ⟨_ | _, _⟩ := result
  · cases h
  · cases h
    rfl

/-! ## 5. Reachable arrays -/

/-- All about the growth of an array in a memory. -/
structure Growing (array : ItemArray Bytes) (memory : Memory) : Prop where
  /-- Without room, doubling would never end, and is not tried. -/
  released : array.itemSize = 0 →
    array.capacity = 0 ∧ (∀ needed, 0 < needed → ¬ SearchEnds needed array.capacity)
      ∧ ∀ (operation : Operation) (needed : Nat), operation.needed? array = some needed →
        ∃ cause, (operation.perform.on array).run memory
          = ((.error (.violation cause), array), memory)
  /-- With room, doubling ends. -/
  ends : array.itemSize ≠ 0 → ∀ needed,
    SearchEnds needed array.capacity ∧ ∃ doublings, FewestDoublings array.capacity needed doublings
  /-- What asks for room gets what `growth` says, and if it is refused nothing has changed. -/
  grows : ∀ (operation : Operation) (needed doublings : Nat),
    operation.needed? array = some needed → operation.Allowed array.view →
      FewestDoublings array.capacity needed doublings →
        (operation.perform.on array).run memory =
          match growth memory array.itemSize array.capacity needed doublings with
          | (.ok capacity, after) =>
            ((.ok .done, ⟨array.itemSize, capacity, (operation.next array.view).items.toArray⟩),
              after)
          | (.error fault, after) => ((.error fault, array), after)
  /-- The number of items with one more, and the offset of every slot, are words. -/
  words : array.size + 1 ≤ Memory.maxWord
    ∧ ∀ index ≤ array.capacity, index * array.itemSize ≤ Memory.maxWord
  /-- A new array begins with the capacity that was asked for. -/
  begins : ∀ itemSize capacity answer after left,
    ((Operation.init itemSize capacity).perform.on array).run memory
        = ((.ok answer, after), left) → after.capacity = capacity
  /-- From then on the capacity is that, doubled some number of times, and never decreases. -/
  keeps : ∀ front back, (∀ operation ∈ front ++ back, ¬ operation.Renews) →
    array.Doubled (performAll front array memory).array
      ∧ (performAll front array memory).array.capacity
        ≤ (performAll (front ++ back) array memory).array.capacity

theorem Sound.growing {array : ItemArray Bytes} (h : array.Sound) (memory : Memory) :
    array.Growing memory := by
  constructor
  · intro hsize
    have hcapacity : array.capacity = 0 := by
      rcases h with ⟨-, hcapacity, -⟩ | hlive
      · exact hcapacity
      · exact absurd hsize (Nat.ne_of_gt hlive.itemSize_pos)
    refine ⟨hcapacity, ?_, ?_⟩
    · intro needed hpos
      rw [hcapacity]
      exact not_searchEnds_zero hpos
    · intro operation needed hneeded
      exact on_perform_of_itemSize_zero hsize hneeded memory
  · intro hsize needed
    have hpos := (h.live hsize).capacity_pos
    exact ⟨searchEnds needed hpos, FewestDoublings.exists_of_pos hpos needed⟩
  · intro operation needed doublings hneeded hallowed hfewest
    exact on_perform_of_needed? h hneeded hallowed hfewest memory
  · rcases h with ⟨hsize, hcapacity, hempty⟩ | hlive
    · rw [hsize, hcapacity, hempty]
      exact ⟨by decide, fun index _ => Nat.zero_le _⟩
    · exact hlive.words
  · intro itemSize capacity answer after left hrun
    exact capacity_of_renew hrun
  · intro front back hkeeps
    obtain ⟨hfront, hback⟩ := List.forall_mem_append.1 hkeeps
    refine ⟨doubled_performAll hfront array memory, ?_⟩
    rw [performAll_append]
    exact (doubled_performAll hback _ _).capacity_le

/-- **An array grows by the fewest doublings.** This holds of the array after any operations on one
    that is released at first, in any memory. -/
theorem capacity_grows_by_doubling (operations : List Operation) (memory : Memory) :
    let run := performAll operations released memory
    run.array.Growing run.memory := by
  have hsound := (replay_performAll operations memory sound_released).1
  exact hsound.growing _

end ItemArray
end ErbTemplate
