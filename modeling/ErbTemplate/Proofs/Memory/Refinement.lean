import ErbTemplate.Memory.Number
import ErbTemplate.Proofs.Memory.Room

/-!
# An array is a list of items of one size

An array has room, doubles it, asks for memory and is refused, is released and made anew. None of
that can be seen in its items. Beside the array stands `ItemList`, a list of items and their size,
in which adding is `++`, taking out is `eraseIdx` and `dropLast`, and making room is nothing at all.

The two are compared operation by operation. `Operation` is everything that can be done to an
array, through its bytes and through the numbers in them, and one judgement says all that an
operation can come to:

> **`Step`** — a violation, if and only if the list does not allow the operation; a refusal, only
> where more room is asked for than there is, and only of a request that the memory does refuse;
> or the answer of the list, and the list's next state.

`step_perform` proves it for every operation on every array with the invariant `Sound`, which the
array after it has again. What a whole run of operations leaves is then an induction that knows
nothing about single operations (`replay_performAll`). `Step` does not say where the list is kept:
an array that keeps its items in a block of bytes fulfils it too
(`ErbTemplate.Proofs.Memory.Slots`).
-/

set_option autoImplicit false

namespace ErbTemplate

/-- Items of one size, and nothing of how they are kept. -/
structure ItemList where
  itemSize : Nat
  items : List Bytes

/-! ## 1. Operations -/

namespace InPlace

variable {σ α β : Type}

/-- Puts a new value in the place of the old one, once it has been made. -/
def renew (computation : Alloc σ) : InPlace σ Unit := do
  set (← InPlace.ofAlloc computation)

/-- An operation that looks at the value and leaves it as it is. -/
def reading (read : σ → Except Violation α) : InPlace σ α := do
  match read (← get) with
  | .ok value => return value
  | .error cause => InPlace.violate cause

/-- An operation with its answer put in another form. -/
def answering (computation : InPlace σ α) (answer : α → β) : InPlace σ β := do
  return answer (← computation)

/-- An answer is put around an outcome and changes nothing else. -/
theorem on_answering (computation : InPlace σ α) (answer : α → β) (value : σ) (memory : Memory) :
    ((answering computation answer).on value).run memory =
      match (computation.on value).run memory with
      | ((outcome, after), left) => ((outcome.map answer, after), left) := by
  unfold answering
  rw [InPlace.on_bind]
  rcases (computation.on value).run memory with ⟨⟨_ | _, _⟩, _⟩ <;> rfl

theorem on_renew (value : σ) (memory : Memory) (computation : Alloc σ) :
    ((renew computation).on value).run memory =
      match computation.run.run memory with
      | (.ok fresh, memory) => ((.ok (), fresh), memory)
      | (.error fault, memory) => ((.error fault, value), memory) := by
  unfold renew
  rw [InPlace.on_bind, InPlace.on_ofAlloc]
  rcases computation.run.run memory with ⟨_ | _, _⟩ <;> rfl

theorem on_reading (read : σ → Except Violation α) (value : σ) (memory : Memory) :
    ((reading read).on value).run memory =
      ((match read value with
        | .ok found => .ok found
        | .error cause => .error (.violation cause), value), memory) := by
  unfold reading
  rw [InPlace.on_bind, InPlace.on_get]
  simp only
  cases read value <;> rfl

end InPlace

namespace ItemArray

open InPlace (answering renew reading on_answering on_renew on_reading)

/-- What can be done to an array of bytes. A number is added in the same way whether its type is
    one for which all bytes are valid or not, so both are `appendNumber`. -/
inductive Operation where
  | init (itemSize capacity : Nat)
  | initFor (type : NumberType) (capacity : Nat)
  | released
  | appendBytes (item : Bytes)
  | appendNumber (type : NumberType) (value : Int)
  | reserve (additional : Nat)
  | nth (index : Nat)
  | nthNumber (type : NumberType) (index : Nat)
  | remove (index : Nat)
  | firstNumber (type : NumberType)
  | lastNumber (type : NumberType)
  | popNumber (type : NumberType)
  | popBytes (length : Nat)
  | numbers (type : NumberType)
  | release

inductive Answer where
  | done
  | item (bytes : Option Bytes)
  | number (value : Option Int)
  | numbers (values : List Int)

namespace Operation

def perform : Operation → InPlace (ItemArray Bytes) Answer
  | init itemSize capacity => answering (renew (ItemArray.init itemSize capacity)) fun _ => .done
  | initFor type capacity => answering (renew (ItemArray.initFor type capacity)) fun _ => .done
  | released => answering (renew (pure ItemArray.released)) fun _ => .done
  | appendBytes item => answering (ItemArray.appendBytes item) fun _ => .done
  | appendNumber type value => answering (ItemArray.appendNumber type value) fun _ => .done
  | reserve additional => answering (ItemArray.reserve additional) fun _ => .done
  | nth index => answering (reading fun array => array.nth index) fun item => .item (some item)
  | nthNumber type index =>
    answering (reading fun array => array.nthNumber type index) fun value => .number (some value)
  | remove index => answering (ItemArray.remove index) fun _ => .done
  | firstNumber type => answering (reading fun array => array.firstNumber? type) .number
  | lastNumber type => answering (reading fun array => array.lastNumber? type) .number
  | popNumber type => answering (ItemArray.popNumber? type) .number
  | popBytes length => answering (ItemArray.popBytes? length) .item
  | numbers type => answering (reading fun array => array.numbers type) .numbers
  | release => answering ItemArray.release fun _ => .done

/-! ## 2. The list -/

/-- Whether an operation may be carried out on a list. -/
def Allowed : Operation → ItemList → Prop
  | init itemSize capacity, _ => itemSize ≠ 0 ∧ capacity ≠ 0
  | initFor type capacity, _ => type.width ≠ 0 ∧ capacity ≠ 0
  | released, _ => True
  | appendBytes item, list => list.itemSize ≠ 0 ∧ item.length = list.itemSize
  | appendNumber type _, list => list.itemSize ≠ 0 ∧ type.width = list.itemSize
  | reserve _, list => list.itemSize ≠ 0
  | nth index, list => index < list.items.length
  | nthNumber type index, list => type.width = list.itemSize ∧ index < list.items.length
  | remove index, list => index < list.items.length
  | firstNumber type, list => list.items = [] ∨ type.width = list.itemSize
  | lastNumber type, list => list.items = [] ∨ type.width = list.itemSize
  | popNumber type, list => type.width = list.itemSize
  | popBytes length, list => length = list.itemSize
  | numbers type, list => type.width = list.itemSize
  | release, _ => True

def next : Operation → ItemList → ItemList
  | init itemSize _, _ => ⟨itemSize, []⟩
  | initFor type _, _ => ⟨type.width, []⟩
  | released, _ => ⟨0, []⟩
  | appendBytes item, list => ⟨list.itemSize, list.items ++ [item]⟩
  | appendNumber type value, list => ⟨list.itemSize, list.items ++ [type.encode value]⟩
  | remove index, list => ⟨list.itemSize, list.items.eraseIdx index⟩
  | popNumber _, list => ⟨list.itemSize, list.items.dropLast⟩
  | popBytes _, list => ⟨list.itemSize, list.items.dropLast⟩
  | release, _ => ⟨0, []⟩
  | _, list => list

def answer : Operation → ItemList → Answer
  | nth index, list => .item list.items[index]?
  | nthNumber type index, list => .number (list.items[index]?.map type.decode)
  | firstNumber type, list => .number (list.items.head?.map type.decode)
  | lastNumber type, list => .number (list.items.getLast?.map type.decode)
  | popNumber type, list => .number (list.items.getLast?.map type.decode)
  | popBytes _, list => .item list.items.getLast?
  | numbers type, list => .numbers (list.items.map type.decode)
  | _, _ => .done

end Operation

/-! ## 3. The invariant -/

def view (array : ItemArray Bytes) : ItemList :=
  ⟨array.itemSize, array.items.toList⟩

/-- An array with room: the items fit into it, it fits into memory, and every item has the size of
    the items. -/
structure Live (array : ItemArray Bytes) : Prop where
  itemSize_pos : 1 ≤ array.itemSize
  capacity_pos : 1 ≤ array.capacity
  size_le : array.size ≤ array.capacity
  fits : array.itemSize * array.capacity ≤ Memory.maxBlock
  fixed : ∀ item ∈ array.items.toList, item.length = array.itemSize

/-- What holds of an array at all times. -/
def Sound (array : ItemArray Bytes) : Prop :=
  (array.itemSize = 0 ∧ array.capacity = 0 ∧ array.size = 0) ∨ array.Live

theorem sound_released : Sound released :=
  Or.inl ⟨rfl, rfl, rfl⟩

theorem Sound.live {array : ItemArray Bytes} (h : array.Sound) (hsize : array.itemSize ≠ 0) :
    array.Live := by
  rcases h with ⟨hzero, -, -⟩ | hlive
  · exact absurd hzero hsize
  · exact hlive

theorem Sound.size_le {array : ItemArray Bytes} (h : array.Sound) :
    array.size ≤ array.capacity := by
  rcases h with ⟨-, -, hempty⟩ | hlive
  · exact hempty ▸ Nat.zero_le _
  · exact hlive.size_le

namespace Live

variable {array : ItemArray Bytes}

theorem isReleased (h : array.Live) : array.isReleased = false :=
  IsLive.isReleased h.itemSize_pos

theorem capacity_le (h : array.Live) : array.capacity ≤ Memory.maxWord := by
  have hbytes : 1 * array.capacity ≤ array.itemSize * array.capacity :=
    Nat.mul_le_mul_right _ h.itemSize_pos
  have hblock : Memory.maxBlock ≤ Memory.maxWord := by decide
  have hfits := h.fits
  omega

/-- More room does no harm, if it can be had. -/
theorem grown (h : array.Live) {capacity : Nat}
    (hroom : capacity = array.capacity
      ∨ array.capacity < capacity ∧ array.itemSize * capacity ≤ Memory.maxBlock) :
    Live { array with capacity } := by
  rcases hroom with rfl | ⟨hlt, hfits⟩
  · exact h
  · have hle : array.items.size ≤ capacity := Nat.le_trans h.size_le (Nat.le_of_lt hlt)
    exact ⟨h.itemSize_pos, Nat.le_trans h.capacity_pos (Nat.le_of_lt hlt), hle, hfits, h.fixed⟩

theorem push (h : array.Live) {item : Bytes} (hitem : item.length = array.itemSize)
    (hroom : array.size + 1 ≤ array.capacity) :
    Live { array with items := array.items.push item } := by
  refine ⟨h.itemSize_pos, h.capacity_pos, ?_, h.fits, ?_⟩
  · show (array.items.push item).size ≤ array.capacity
    rw [Array.size_push]
    exact hroom
  · intro other hmem
    rw [Array.toList_push] at hmem
    rcases List.mem_append.1 hmem with hmem | hmem
    · exact h.fixed other hmem
    · rw [List.mem_singleton.1 hmem]
      exact hitem

end Live

/-- Taking items out does no harm. -/
theorem Sound.sublist {array : ItemArray Bytes} (h : array.Sound) {items : Array Bytes}
    (hsub : items.toList.Sublist array.items.toList) : Sound { array with items } := by
  have hsize : items.size ≤ array.size := by
    simpa [size] using hsub.length_le
  rcases h with ⟨hitem, hcapacity, hempty⟩ | hlive
  · exact Or.inl ⟨hitem, hcapacity, Nat.le_zero.1 (hempty ▸ hsize)⟩
  · exact Or.inr ⟨hlive.itemSize_pos, hlive.capacity_pos, Nat.le_trans hsize hlive.size_le,
      hlive.fits, fun item hmem => hlive.fixed item (hsub.subset hmem)⟩

/-! ## 4. One operation -/

/-- What an operation needs more room for than there is. -/
def Operation.Asks : Operation → (capacity size : Nat) → Prop
  | .init .., _, _ => True
  | .initFor .., _, _ => True
  | .appendBytes _, capacity, size => capacity < size + 1
  | .appendNumber .., capacity, size => capacity < size + 1
  | .reserve additional, capacity, size => capacity < size + additional
  | _, _, _ => False

/-- All that an operation can come to in a place that keeps a list, with room for `capacity` items:
    an outcome, and the place after it. What it means to keep a list is up to the place. -/
inductive Step {σ : Type} (Keeps : σ → ItemList → Prop) (operation : Operation) (list : ItemList)
    (capacity : Nat) (memory : Memory) (place : σ) : Except Fault Answer → σ → Prop
  | violated {cause : Violation} (disallowed : ¬ operation.Allowed list)
      (safe : cause ≠ .strayAccess) :
      Step Keeps operation list capacity memory place (.error (.violation cause)) place
  | refused {bytes : Nat} (allowed : operation.Allowed list)
      (asks : operation.Asks capacity list.items.length) (refuses : memory.Refuses bytes) :
      Step Keeps operation list capacity memory place (.error (.failure (.allocation bytes))) place
  | done {after : σ} (allowed : operation.Allowed list)
      (keeps : Keeps after (operation.next list)) :
      Step Keeps operation list capacity memory place (.ok (operation.answer list)) after

/-- An array keeps the list of its items, and is sound. -/
def Keeps (array : ItemArray Bytes) (list : ItemList) : Prop :=
  array.view = list ∧ array.Sound

/-- All that an operation on an array can come to. -/
abbrev ArrayStep (operation : Operation) (array : ItemArray Bytes) (memory : Memory) :
    Except Fault Answer → ItemArray Bytes → Prop :=
  Step Keeps operation array.view array.capacity memory array

theorem ArrayStep.sound {operation : Operation} {array after : ItemArray Bytes} {memory : Memory}
    {outcome : Except Fault Answer} (h : ArrayStep operation array memory outcome after)
    (hsound : array.Sound) : after.Sound := by
  cases h with
  | violated => exact hsound
  | refused => exact hsound
  | done _ keeps => exact keeps.2

/-- A computation on an array comes to what an operation can come to. -/
def Fulfils (operation : Operation) (computation : InPlace (ItemArray Bytes) Answer)
    (array : ItemArray Bytes) (memory : Memory) : Prop :=
  let ((outcome, after), _) := (computation.on array).run memory
  ArrayStep operation array memory outcome after

section

variable {operation : Operation} {array : ItemArray Bytes} {memory : Memory}

theorem fulfils_answering {α : Type} {computation : InPlace (ItemArray Bytes) α}
    {answer : α → Answer} {outcome : Except Fault α} {after : ItemArray Bytes} {left : Memory}
    (hrun : (computation.on array).run memory = ((outcome, after), left))
    (hstep : ArrayStep operation array memory (outcome.map answer) after) :
    Fulfils operation (answering computation answer) array memory := by
  unfold Fulfils
  rw [on_answering, hrun]
  exact hstep

/-! ### New arrays -/

theorem run_init_of_size_eq_zero {α : Type} {itemSize capacity : Nat} {memory : Memory}
    (hsize : itemSize = 0) :
    (ItemArray.init itemSize capacity : Alloc (ItemArray α)).run.run memory
      = (.error (.violation .zeroItemSize), memory) := by
  rw [ItemArray.init, if_pos hsize]
  rfl

theorem run_init_of_capacity_eq_zero {α : Type} {itemSize capacity : Nat} {memory : Memory}
    (hsize : itemSize ≠ 0) (hcapacity : capacity = 0) :
    (ItemArray.init itemSize capacity : Alloc (ItemArray α)).run.run memory
      = (.error (.violation .zeroCapacity), memory) := by
  rw [ItemArray.init, if_neg hsize, if_pos hcapacity]
  rfl

theorem fulfils_init {itemSize capacity : Nat}
    (hallowed : operation.Allowed array.view ↔ itemSize ≠ 0 ∧ capacity ≠ 0)
    (hasks : operation.Asks array.capacity array.size)
    (hnext : operation.next array.view = ⟨itemSize, []⟩)
    (hanswer : operation.answer array.view = .done) :
    Fulfils operation (answering (renew (ItemArray.init itemSize capacity)) fun _ => .done)
      array memory := by
  by_cases hsize : itemSize = 0
  · have hrun := on_renew array memory (ItemArray.init itemSize capacity)
    rw [run_init_of_size_eq_zero hsize] at hrun
    exact fulfils_answering hrun (.violated (fun h => (hallowed.1 h).1 hsize) (by simp))
  by_cases hcapacity : capacity = 0
  · have hrun := on_renew array memory (ItemArray.init itemSize capacity)
    rw [run_init_of_capacity_eq_zero hsize hcapacity] at hrun
    exact fulfils_answering hrun (.violated (fun h => (hallowed.1 h).2 hcapacity) (by simp))
  have hpos : 1 ≤ itemSize := Nat.pos_of_ne_zero hsize
  have hroom : 1 ≤ capacity := Nat.pos_of_ne_zero hcapacity
  have hrun := on_renew array memory (ItemArray.init itemSize capacity)
  rw [run_init hpos hroom] at hrun
  rcases requestRoom_cases itemSize capacity memory with
    ⟨left, hrequest, hfits⟩ | ⟨bytes, left, hrequest, hrefused⟩
  · have hlive : Live ⟨itemSize, capacity, #[]⟩ :=
      ⟨hpos, hroom, Nat.zero_le _, hfits, fun _ hmem => absurd hmem (by simp)⟩
    rw [hrequest] at hrun
    refine fulfils_answering hrun ?_
    show ArrayStep operation array memory (.ok .done) _
    rw [← hanswer]
    exact .done (hallowed.2 ⟨hsize, hcapacity⟩) ⟨hnext.symm, Or.inr hlive⟩
  · rw [hrequest] at hrun
    exact fulfils_answering hrun (.refused (hallowed.2 ⟨hsize, hcapacity⟩) hasks hrefused)

/-! ### Adding items -/

/-- Adding an item of the right size: it stands at the end, unless there is no array to add it to,
    or no room. -/
theorem fulfils_append {computation : InPlace (ItemArray Bytes) Unit} {item : Bytes}
    (hcomputation : (computation.on array).run memory = ((append item).on array).run memory)
    (hsound : array.Sound) (hitem : item.length = array.itemSize)
    (hallowed : operation.Allowed array.view ↔ array.itemSize ≠ 0)
    (hasks : array.capacity < array.size + 1 → operation.Asks array.capacity array.size)
    (hnext : operation.next array.view = ⟨array.itemSize, array.items.toList ++ [item]⟩)
    (hanswer : operation.answer array.view = .done) :
    Fulfils operation (answering computation fun _ => .done) array memory := by
  have hrun := hcomputation.trans (on_append item array memory)
  by_cases hsize : array.itemSize = 0
  · have hreleased : array.isReleased = true := by rw [isReleased, hsize]; rfl
    rw [hreleased, if_pos rfl] at hrun
    exact fulfils_answering hrun (.violated (fun h => hallowed.1 h hsize) (by simp))
  have hlive := hsound.live hsize
  rw [hlive.isReleased, if_neg Bool.false_ne_true] at hrun
  rcases growTo_cases (array.size + 1) array memory with
    ⟨capacity, left, hgrow, hroom, hcapacity⟩ | ⟨bytes, left, hgrow, hfull, hrefused⟩
  · rw [hgrow] at hrun
    refine fulfils_answering hrun ?_
    show ArrayStep operation array memory (.ok .done) _
    rw [← hanswer]
    refine .done (hallowed.2 hsize) ⟨?_, Or.inr ((hlive.grown hcapacity).push hitem hroom)⟩
    rw [hnext]
    simp [view]
  · rw [hgrow] at hrun
    exact fulfils_answering hrun (.refused (hallowed.2 hsize) (hasks hfull) hrefused)

theorem on_appendBytes (item : Bytes) (array : ItemArray Bytes) (memory : Memory) :
    ((appendBytes item).on array).run memory =
      if item.length = array.itemSize then ((append item).on array).run memory
      else ((.error (.violation (.itemLength item.length array.itemSize)), array), memory) := by
  unfold appendBytes
  rw [InPlace.on_bind, InPlace.on_get]
  simp only
  split <;> rfl

theorem fulfils_appendBytes (hsound : array.Sound) (item : Bytes) :
    Fulfils (.appendBytes item) (Operation.appendBytes item).perform array memory := by
  have hrun := on_appendBytes item array memory
  by_cases hitem : item.length = array.itemSize
  · rw [if_pos hitem] at hrun
    have hallowed : (Operation.appendBytes item).Allowed array.view ↔ array.itemSize ≠ 0 :=
      ⟨fun h => h.1, fun h => ⟨h, hitem⟩⟩
    exact fulfils_append hrun hsound hitem hallowed id rfl rfl
  · rw [if_neg hitem] at hrun
    exact fulfils_answering hrun (.violated (fun h => hitem h.2) (by simp))

/-- An operation on numbers looks at their width first. -/
theorem on_requireType {α : Type} (type : NumberType) (rest : InPlace (ItemArray Bytes) α)
    (array : ItemArray Bytes) (memory : Memory) :
    ((requireType type >>= fun _ => rest).on array).run memory =
      if type.width = array.itemSize then (rest.on array).run memory
      else ((.error (.violation (.typeSize type.width array.itemSize)), array), memory) := by
  unfold requireType
  rw [InPlace.on_bind, InPlace.on_bind, InPlace.on_get]
  simp only [checkType]
  by_cases htype : type.width = array.itemSize
  · rw [if_pos htype, if_pos htype]
    rfl
  · rw [if_neg htype, if_neg htype]
    rfl

theorem length_littleEndian (width value : Nat) :
    (NumberType.littleEndian width value).length = width := by
  induction width generalizing value with
  | zero => rfl
  | succ width ih => rw [NumberType.littleEndian, List.length_cons, ih]

theorem fulfils_appendNumber (hsound : array.Sound) (type : NumberType) (value : Int) :
    Fulfils (.appendNumber type value) (Operation.appendNumber type value).perform array
      memory := by
  have hrun := on_requireType type (append (type.encode value)) array memory
  by_cases htype : type.width = array.itemSize
  · rw [if_pos htype] at hrun
    have hitem : (type.encode value).length = array.itemSize :=
      (length_littleEndian _ _).trans htype
    have hallowed :
        (Operation.appendNumber type value).Allowed array.view ↔ array.itemSize ≠ 0 :=
      ⟨fun h => h.1, fun h => ⟨h, htype⟩⟩
    exact fulfils_append hrun hsound hitem hallowed id rfl rfl
  · rw [if_neg htype] at hrun
    exact fulfils_answering hrun (.violated (fun h => htype h.2) (by simp))

theorem fulfils_reserve (hsound : array.Sound) (additional : Nat) :
    Fulfils (.reserve additional) (Operation.reserve additional).perform array memory := by
  have hrun := on_reserve additional array memory
  by_cases hsize : array.itemSize = 0
  · have hreleased : array.isReleased = true := by rw [isReleased, hsize]; rfl
    rw [hreleased, if_pos rfl] at hrun
    exact fulfils_answering hrun (.violated (fun h => h hsize) (by simp))
  have hlive := hsound.live hsize
  rw [hlive.isReleased, if_neg Bool.false_ne_true] at hrun
  by_cases hword : array.size + additional ≤ Memory.maxWord
  · rw [if_pos hword] at hrun
    rcases growTo_cases (array.size + additional) array memory with
      ⟨capacity, left, hgrow, -, hcapacity⟩ | ⟨bytes, left, hgrow, hfull, hrefused⟩
    · rw [hgrow] at hrun
      exact fulfils_answering hrun (.done hsize ⟨rfl, Or.inr (hlive.grown hcapacity)⟩)
    · rw [hgrow] at hrun
      exact fulfils_answering hrun (.refused hsize hfull hrefused)
  · -- the sum is no word of the machine, while every capacity is one
    have hfull : array.capacity < array.size + additional :=
      Nat.lt_of_le_of_lt hlive.capacity_le (Nat.lt_of_not_le hword)
    rw [if_neg hword] at hrun
    exact fulfils_answering hrun (.refused hsize hfull (Or.inl (by decide)))

/-! ### Taking items out -/

theorem on_remove (index : Nat) (array : ItemArray Bytes) (memory : Memory) :
    ((ItemArray.remove index).on array).run memory =
      if index < array.size then
        ((.ok (), { array with items := array.items.eraseIdxIfInBounds index }), memory)
      else ((.error (.violation (.outOfBounds index array.size)), array), memory) := by
  unfold ItemArray.remove
  rw [InPlace.on_bind, InPlace.on_get]
  simp only
  split <;> rfl

theorem toList_remove {index : Nat} (hindex : index < array.size) :
    (array.items.eraseIdxIfInBounds index).toList = array.items.toList.eraseIdx index := by
  have hbound : index < array.items.size := hindex
  rw [Array.eraseIdxIfInBounds, dif_pos hbound, Array.toList_eraseIdx]

theorem fulfils_remove (hsound : array.Sound) (index : Nat) :
    Fulfils (.remove index) (Operation.remove index).perform array memory := by
  have hrun := on_remove index array memory
  by_cases hindex : index < array.size
  · have herase := toList_remove hindex
    rw [if_pos hindex] at hrun
    refine fulfils_answering hrun (.done ?_ ⟨?_, ?_⟩)
    · exact hindex
    · simp only [view, herase, Operation.next]
    · refine hsound.sublist ?_
      rw [herase]
      exact List.eraseIdx_sublist _ _
  · rw [if_neg hindex] at hrun
    exact fulfils_answering hrun (.violated hindex (by simp))

/-- Taking out the last item; of no items there are still none. -/
theorem on_pop? (array : ItemArray Bytes) (memory : Memory) :
    (ItemArray.pop?.on array).run memory
      = ((.ok array.items.toList.getLast?, { array with items := array.items.pop }), memory) := by
  unfold pop?
  rw [InPlace.on_bind, InPlace.on_get]
  simp only [last?, ← Array.getLast?_toList]
  cases hlast : array.items.toList.getLast? with
  | some item => rfl
  | none =>
    have hpop : array.items.pop = array.items := by
      rw [List.getLast?_eq_none_iff] at hlast
      rw [show array.items = #[] from Array.toList_inj.1 hlast]
      rfl
    rw [hpop]
    rfl

theorem sound_pop (hsound : array.Sound) : Sound { array with items := array.items.pop } := by
  refine hsound.sublist ?_
  rw [Array.toList_pop]
  exact List.dropLast_sublist _

theorem on_popNumber? (type : NumberType) (array : ItemArray Bytes) (memory : Memory) :
    ((ItemArray.popNumber? type).on array).run memory =
      if type.width = array.itemSize then
        ((.ok (array.items.toList.getLast?.map type.decode),
          { array with items := array.items.pop }), memory)
      else ((.error (.violation (.typeSize type.width array.itemSize)), array), memory) := by
  have hrun := on_requireType type (do return (← pop?).map type.decode) array memory
  rw [InPlace.on_bind pop?, on_pop?] at hrun
  exact hrun

theorem on_popBytes?_eq_pop? (length : Nat) (array : ItemArray Bytes) (memory : Memory) :
    ((ItemArray.popBytes? length).on array).run memory =
      if length = array.itemSize then (pop?.on array).run memory
      else ((.error (.violation (.outputLength length array.itemSize)), array), memory) := by
  unfold popBytes?
  rw [InPlace.on_bind, InPlace.on_get]
  simp only
  split <;> rfl

theorem on_popBytes? (length : Nat) (array : ItemArray Bytes) (memory : Memory) :
    ((ItemArray.popBytes? length).on array).run memory =
      if length = array.itemSize then
        ((.ok array.items.toList.getLast?, { array with items := array.items.pop }), memory)
      else ((.error (.violation (.outputLength length array.itemSize)), array), memory) := by
  rw [on_popBytes?_eq_pop?, on_pop?]

theorem fulfils_popNumber (hsound : array.Sound) (type : NumberType) :
    Fulfils (.popNumber type) (Operation.popNumber type).perform array memory := by
  have hrun := on_popNumber? type array memory
  by_cases htype : type.width = array.itemSize
  · rw [if_pos htype] at hrun
    refine fulfils_answering hrun (.done htype ⟨?_, sound_pop hsound⟩)
    simp only [view, Array.toList_pop, Operation.next]
  · rw [if_neg htype] at hrun
    exact fulfils_answering hrun (.violated htype (by simp))

theorem fulfils_popBytes (hsound : array.Sound) (length : Nat) :
    Fulfils (.popBytes length) (Operation.popBytes length).perform array memory := by
  have hrun := on_popBytes? length array memory
  by_cases hlength : length = array.itemSize
  · rw [if_pos hlength] at hrun
    refine fulfils_answering hrun (.done hlength ⟨?_, sound_pop hsound⟩)
    simp only [view, Array.toList_pop, Operation.next]
  · rw [if_neg hlength] at hrun
    exact fulfils_answering hrun (.violated hlength (by simp))

/-! ### Reading -/

/-- An operation that only reads is allowed if and only if there is something to read. -/
theorem fulfils_reading {α : Type} {read : ItemArray Bytes → Except Violation α}
    {answer : α → Answer} (hsound : array.Sound)
    (hnext : operation.next array.view = array.view)
    (hread : (∃ value, read array = .ok value ∧ operation.Allowed array.view
        ∧ operation.answer array.view = answer value)
      ∨ ∃ cause, read array = .error cause ∧ cause ≠ .strayAccess
          ∧ ¬ operation.Allowed array.view) :
    Fulfils operation (answering (reading read) answer) array memory := by
  have hrun := on_reading read array memory
  rcases hread with ⟨value, hvalue, hallowed, hanswer⟩ | ⟨cause, hcause, hsafe, hdisallowed⟩
  · rw [hvalue] at hrun
    refine fulfils_answering hrun ?_
    show ArrayStep operation array memory (.ok (answer value)) array
    rw [← hanswer]
    exact .done hallowed ⟨hnext.symm, hsound⟩
  · rw [hcause] at hrun
    exact fulfils_answering hrun (.violated hdisallowed hsafe)

theorem nth_cases (array : ItemArray Bytes) (index : Nat) :
    (∃ item, array.nth index = .ok item ∧ array.items.toList[index]? = some item)
      ∨ ∃ cause, array.nth index = .error cause ∧ cause ≠ .strayAccess
          ∧ array.items.toList.length ≤ index := by
  unfold nth
  rw [← Array.getElem?_toList]
  cases hitem : array.items.toList[index]? with
  | some item => exact Or.inl ⟨item, rfl, rfl⟩
  | none => exact Or.inr ⟨_, rfl, nofun, List.getElem?_eq_none_iff.1 hitem⟩

theorem nthNumber_cases (array : ItemArray Bytes) (type : NumberType) (index : Nat) :
    (∃ item, array.nthNumber type index = .ok (type.decode item) ∧ type.width = array.itemSize
        ∧ array.items.toList[index]? = some item)
      ∨ ∃ cause, array.nthNumber type index = .error cause ∧ cause ≠ .strayAccess
          ∧ (type.width = array.itemSize → array.items.toList.length ≤ index) := by
  unfold nthNumber checkType
  by_cases htype : type.width = array.itemSize
  · rw [if_pos htype]
    rcases nth_cases array index with ⟨item, hnth, hitem⟩ | ⟨cause, hnth, hsafe, hlength⟩
    · rw [hnth]
      exact Or.inl ⟨item, rfl, htype, hitem⟩
    · rw [hnth]
      exact Or.inr ⟨cause, rfl, hsafe, fun _ => hlength⟩
  · rw [if_neg htype]
    exact Or.inr ⟨_, rfl, nofun, fun h => absurd h htype⟩

theorem fulfils_nth (hsound : array.Sound) (index : Nat) :
    Fulfils (.nth index) (Operation.nth index).perform array memory := by
  refine fulfils_reading hsound rfl ?_
  rcases nth_cases array index with ⟨item, hnth, hitem⟩ | ⟨cause, hnth, hsafe, hlength⟩
  · refine Or.inl ⟨item, hnth, (List.getElem?_eq_some_iff.1 hitem).1, ?_⟩
    simp only [Operation.answer, view, hitem]
  · exact Or.inr ⟨cause, hnth, hsafe, Nat.not_lt.2 hlength⟩

theorem fulfils_nthNumber (hsound : array.Sound) (type : NumberType) (index : Nat) :
    Fulfils (.nthNumber type index) (Operation.nthNumber type index).perform array memory := by
  refine fulfils_reading hsound rfl ?_
  rcases nthNumber_cases array type index with
    ⟨item, hnth, htype, hitem⟩ | ⟨cause, hnth, hsafe, hlength⟩
  · refine Or.inl ⟨_, hnth, ⟨htype, (List.getElem?_eq_some_iff.1 hitem).1⟩, ?_⟩
    simp only [Operation.answer, view, hitem, Option.map_some]
  · exact Or.inr ⟨cause, hnth, hsafe, fun h => Nat.not_lt.2 (hlength h.1) h.2⟩

/-- The first and the last number: one that is there, unless there is none. -/
theorem fulfils_end {read : ItemArray Bytes → Except Violation (Option Int)} (type : NumberType)
    (index : Nat) (hsound : array.Sound)
    (hread : read array = if array.isEmpty then .ok none else some <$> array.nthNumber type index)
    (hnext : operation.next array.view = array.view)
    (hallowed : operation.Allowed array.view
      ↔ array.items.toList = [] ∨ type.width = array.itemSize)
    (hanswer : operation.answer array.view = .number (array.items.toList[index]?.map type.decode))
    (hindex : array.items.toList ≠ [] → index < array.items.toList.length) :
    Fulfils operation (answering (reading read) .number) array memory := by
  refine fulfils_reading hsound hnext ?_
  have hempty : array.isEmpty = true ↔ array.items.toList = [] := by
    rw [isEmpty, size, beq_iff_eq, ← Array.length_toList, List.length_eq_zero_iff]
  by_cases hnil : array.items.toList = []
  · rw [if_pos (hempty.2 hnil)] at hread
    refine Or.inl ⟨none, hread, hallowed.2 (Or.inl hnil), ?_⟩
    rw [hanswer, hnil]
    rfl
  · rw [if_neg (mt hempty.1 hnil)] at hread
    rcases nthNumber_cases array type index with
      ⟨item, hnth, htype, hitem⟩ | ⟨cause, hnth, hsafe, hlength⟩
    · rw [hnth] at hread
      refine Or.inl ⟨_, hread, hallowed.2 (Or.inr htype), ?_⟩
      rw [hanswer, hitem]
      rfl
    · rw [hnth] at hread
      refine Or.inr ⟨cause, hread, hsafe, ?_⟩
      intro h
      rcases hallowed.1 h with h | h
      · exact hnil h
      · exact Nat.not_lt.2 (hlength h) (hindex hnil)

theorem fulfils_firstNumber (hsound : array.Sound) (type : NumberType) :
    Fulfils (.firstNumber type) (Operation.firstNumber type).perform array memory := by
  refine fulfils_end type 0 hsound rfl rfl Iff.rfl ?_ List.length_pos_iff.2
  simp only [Operation.answer, view, List.head?_eq_getElem?]

theorem fulfils_lastNumber (hsound : array.Sound) (type : NumberType) :
    Fulfils (.lastNumber type) (Operation.lastNumber type).perform array memory := by
  refine fulfils_end type (array.size - 1) hsound rfl rfl Iff.rfl ?_ ?_
  · simp only [Operation.answer, view, List.getLast?_eq_getElem?, size, Array.length_toList]
  · intro hne
    have hpos := List.length_pos_iff.2 hne
    rw [size, ← Array.length_toList]
    omega

theorem fulfils_numbers (hsound : array.Sound) (type : NumberType) :
    Fulfils (.numbers type) (Operation.numbers type).perform array memory := by
  refine fulfils_reading hsound rfl ?_
  unfold ItemArray.numbers checkType
  by_cases htype : type.width = array.itemSize
  · rw [if_pos htype]
    exact Or.inl ⟨_, rfl, htype, rfl⟩
  · rw [if_neg htype]
    exact Or.inr ⟨_, rfl, nofun, htype⟩

/-- **One operation does what the list does, or nothing.** -/
theorem step_perform (hsound : array.Sound) (memory : Memory) (operation : Operation) :
    Fulfils operation operation.perform array memory := by
  cases operation with
  | init itemSize capacity => exact fulfils_init Iff.rfl trivial rfl rfl
  | initFor type capacity => exact fulfils_init Iff.rfl trivial rfl rfl
  | released => exact .done trivial ⟨rfl, sound_released⟩
  | appendBytes item => exact fulfils_appendBytes hsound item
  | appendNumber type value => exact fulfils_appendNumber hsound type value
  | reserve additional => exact fulfils_reserve hsound additional
  | nth index => exact fulfils_nth hsound index
  | nthNumber type index => exact fulfils_nthNumber hsound type index
  | remove index => exact fulfils_remove hsound index
  | firstNumber type => exact fulfils_firstNumber hsound type
  | lastNumber type => exact fulfils_lastNumber hsound type
  | popNumber type => exact fulfils_popNumber hsound type
  | popBytes length => exact fulfils_popBytes hsound length
  | numbers type => exact fulfils_numbers hsound type
  | release => exact .done trivial ⟨rfl, sound_released⟩

end

/-! ## 5. Runs -/

/-- What operations came to, one after the other: all outcomes, and the array and the memory at the
    end. -/
structure Run (σ : Type) where
  outcomes : List (Except Fault Answer)
  array : σ
  memory : Memory

/-- Carries out operations one after the other, whatever becomes of each. -/
def performAllBy {σ : Type} (perform : Operation → InPlace σ Answer) :
    List Operation → σ → Memory → Run σ
  | [], array, memory => ⟨[], array, memory⟩
  | operation :: operations, array, memory =>
    let ((outcome, array), memory) := ((perform operation).on array).run memory
    let run := performAllBy perform operations array memory
    { run with outcomes := outcome :: run.outcomes }

abbrev performAll : List Operation → ItemArray Bytes → Memory → Run (ItemArray Bytes) :=
  performAllBy Operation.perform

/-- The list after operations with these outcomes: one that was not carried out is passed over. -/
def replay : List (Operation × Except Fault Answer) → ItemList → ItemList
  | [], list => list
  | (operation, .ok _) :: rest, list => replay rest (operation.next list)
  | (_, .error _) :: rest, list => replay rest list

theorem replay_performAll (operations : List Operation) {array : ItemArray Bytes}
    (memory : Memory) (hsound : array.Sound) :
    (performAll operations array memory).array.Sound
      ∧ (performAll operations array memory).array.view
        = replay (operations.zip (performAll operations array memory).outcomes) array.view := by
  induction operations generalizing array memory with
  | nil => exact ⟨hsound, rfl⟩
  | cons operation operations ih =>
    have hstep := step_perform hsound memory operation
    unfold Fulfils at hstep
    simp only [performAll, performAllBy]
    generalize (operation.perform.on array).run memory = result at hstep ⊢
    obtain ⟨⟨outcome, after⟩, left⟩ := result
    have hrest := ih left (hstep.sound hsound)
    cases hstep with
    | violated => exact hrest
    | refused => exact hrest
    | done _ keeps =>
      rw [keeps.1] at hrest
      exact hrest

end ItemArray
end ErbTemplate
