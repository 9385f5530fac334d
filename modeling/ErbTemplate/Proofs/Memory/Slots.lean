import ErbTemplate.Memory.ItemBlock
import ErbTemplate.Proofs.Memory.Refinement
import Mathlib.Data.List.Induction

/-!
# The items of an array stand in the slots of a block

`ItemBlock` keeps items as bytes in one block, at offsets that it computes, and moves them about
with copies. `ItemArray` has the same operations on a row of values. What separates the two is that
an access may go astray: it may leave the block, read a byte that nobody has written, or find that a
copy has destroyed what another slot held.

Nothing of the kind happens. All that is ever needed of a block is where bytes stand in it
(`Block.Has`), and there are three facts about that: a write puts bytes in their place and leaves
those in front of it, a move takes bytes along and leaves those in front of its target, and a longer
block has the bytes of the shorter one. With `Mirrors`, which says that each item of the array
stands in its slot, every operation on the block has an outcome, a memory and a next array that are
those of the array of values (`follows_perform`). A fault leaves the block as it was, to the byte.

What an array of values fulfils in the end, the refinement of a list, its block therefore fulfils
too (`block_refines_list`).
-/

set_option autoImplicit false

namespace ErbTemplate

/-! ## 1. Bytes in a block -/

/-- A computation for each index of a row that gives the row's item there gives the row. -/
theorem mapM_range_length {m : Type → Type} [Monad m] [LawfulMonad m] {α : Type} (items : List α)
    {compute : Nat → m α}
    (h : ∀ index item, items[index]? = some item → compute index = pure item) :
    (List.range items.length).mapM compute = pure items := by
  induction items using List.reverseRecOn with
  | nil => rfl
  | append_singleton items last ih =>
    have hfront : (List.range items.length).mapM compute = pure items := by
      refine ih fun index item hitem => h index item ?_
      rw [List.getElem?_append_left (List.getElem?_eq_some_iff.1 hitem).1]
      exact hitem
    have hlast : compute items.length = pure last := h _ _ (by simp)
    rw [List.length_append, List.length_singleton, List.range_succ, List.mapM_append, hfront]
    simp [hlast]

theorem getElem?_concat {α : Type} {items : List α} {last item : α} {index : Nat}
    (h : (items ++ [last])[index]? = some item) :
    items[index]? = some item ∨ index = items.length ∧ item = last := by
  by_cases hindex : index < items.length
  · rw [List.getElem?_append_left hindex] at h
    exact Or.inl h
  · have hlength := (List.getElem?_eq_some_iff.1 h).1
    rw [List.length_append, List.length_singleton] at hlength
    have hlast : index = items.length := by omega
    rw [hlast, List.getElem?_concat_length] at h
    exact Or.inr ⟨hlast, (Option.some.inj h).symm⟩

/-- A slot ends where a later one starts, or in front of it. -/
theorem slot_add_le {index later size : Nat} (h : index < later) :
    index * size + size ≤ later * size := by
  rw [← Nat.succ_mul]
  exact Nat.mul_le_mul_right _ h

namespace Block

/-- Bytes stand in a block from an offset on. -/
structure Has (block : Block) (offset : Nat) (bytes : Bytes) : Prop where
  inside : offset + bytes.length ≤ block.length
  cells : ∀ index byte, bytes[index]? = some byte → block.cell (offset + index) = some byte

variable {block : Block} {offset length : Nat} {bytes : Bytes}

theorem Has.read (h : block.Has offset bytes) : block.read offset bytes.length = some bytes := by
  rw [Block.read, if_pos h.inside]
  exact mapM_range_length bytes h.cells

/-- Bytes of which no place has changed still stand where they stood. -/
theorem Has.congr {other : Block} (h : block.Has offset bytes)
    (hlength : offset + bytes.length ≤ other.length)
    (hcell : ∀ place, offset ≤ place → place < offset + bytes.length →
      other.cell place = block.cell place) : other.Has offset bytes := by
  refine ⟨hlength, ?_⟩
  intro index byte hbyte
  have hindex : index < bytes.length := (List.getElem?_eq_some_iff.1 hbyte).1
  rw [hcell _ (by omega) (by omega)]
  exact h.cells index byte hbyte

theorem Has.resize (h : block.Has offset bytes) (hlength : block.length ≤ length) :
    (block.resize length).Has offset bytes := by
  have hinside := h.inside
  refine h.congr (Nat.le_trans hinside hlength) ?_
  intro place _ hplace
  simp only [Block.resize]
  rw [if_pos (by omega)]

/-- A write that fits puts the bytes in their place and leaves what stands in front of it. -/
theorem exists_write (hfits : offset + bytes.length ≤ block.length) :
    ∃ after, block.write offset bytes = some after ∧ after.length = block.length
      ∧ after.Has offset bytes
      ∧ ∀ place found, place + found.length ≤ offset → block.Has place found →
          after.Has place found := by
  refine ⟨_, if_pos hfits, rfl, ⟨hfits, ?_⟩, ?_⟩
  · intro index byte hbyte
    have hindex : index < bytes.length := (List.getElem?_eq_some_iff.1 hbyte).1
    simp only
    rw [if_pos ⟨by omega, by omega⟩, Nat.add_sub_cancel_left]
    exact hbyte
  · intro place found hfront hfound
    refine hfound.congr hfound.inside ?_
    intro other _ hother
    exact if_neg (by omega)

/-- A move within the block takes bytes along and leaves what stands in front of its target. -/
theorem exists_move {source target count : Nat} (hsource : source + count ≤ block.length)
    (htarget : target + count ≤ block.length) :
    ∃ after, block.move source target count = some after ∧ after.length = block.length
      ∧ (∀ place found, place + found.length ≤ target → block.Has place found →
          after.Has place found)
      ∧ ∀ shift found, shift + found.length ≤ count → block.Has (source + shift) found →
          after.Has (target + shift) found := by
  refine ⟨_, if_pos ⟨hsource, htarget⟩, rfl, ?_, ?_⟩
  · intro place found hfront hfound
    refine hfound.congr hfound.inside ?_
    intro other _ hother
    exact if_neg (by omega)
  · intro shift found hshift hfound
    refine ⟨by simp only; omega, ?_⟩
    intro index byte hbyte
    have hindex : index < found.length := (List.getElem?_eq_some_iff.1 hbyte).1
    have hplace : source + (target + shift + index - target) = source + shift + index := by omega
    simp only
    rw [if_pos ⟨by omega, by omega⟩, hplace]
    exact hfound.cells index byte hbyte

end Block

namespace ItemBlock

open ItemArray (Operation Answer Step replay)
open InPlace (answering renew reading on_answering on_renew on_reading)

/-! ## 2. Operations -/

/-- The operations of an array, carried out on a block. -/
def perform : Operation → InPlace ItemBlock Answer
  | .init itemSize capacity => answering (renew (init itemSize capacity)) fun _ => .done
  | .initFor type capacity => answering (renew (initFor type capacity)) fun _ => .done
  | .released => answering (renew (pure released)) fun _ => .done
  | .appendBytes item => answering (appendBytes item) fun _ => .done
  | .appendNumber type value => answering (appendNumber type value) fun _ => .done
  | .reserve additional => answering (reserve additional) fun _ => .done
  | .nth index => answering (reading fun array => array.nth index) fun item => .item (some item)
  | .nthNumber type index =>
    answering (reading fun array => array.nthNumber type index) fun value => .number (some value)
  | .remove index => answering (remove index) fun _ => .done
  | .firstNumber type => answering (reading fun array => array.firstNumber? type) .number
  | .lastNumber type => answering (reading fun array => array.lastNumber? type) .number
  | .popNumber type => answering (popNumber? type) .number
  | .popBytes length => answering (popBytes? length) .item
  | .numbers type => answering (reading fun array => array.numbers type) .numbers
  | .release => answering release fun _ => .done

/-! ## 3. What a block holds -/

/-- A block holds the items of a list: each has the size of the items and stands in its slot. -/
structure Holds (array : ItemBlock) (list : ItemList) : Prop where
  itemSize : array.itemSize = list.itemSize
  size : array.size = list.items.length
  fixed : ∀ (index : Nat) (item : Bytes),
    list.items[index]? = some item → item.length = list.itemSize
  slots : ∀ (index : Nat) (item : Bytes), list.items[index]? = some item →
    array.block.Has (index * list.itemSize) item

/-- An array with a block: the slots fill it, and it fits into memory. -/
structure Live (array : ItemBlock) : Prop where
  itemSize_pos : 1 ≤ array.itemSize
  capacity_pos : 1 ≤ array.capacity
  size_le : array.size ≤ array.capacity
  fits : array.itemSize * array.capacity ≤ Memory.maxBlock
  length : array.block.length = array.itemSize * array.capacity

/-- What holds of an array at all times. -/
def Sound (array : ItemBlock) : Prop :=
  (array.itemSize = 0 ∧ array.capacity = 0 ∧ array.size = 0 ∧ array.block.length = 0)
    ∨ array.Live

/-- An array keeps a list, and is sound. -/
def Keeps (array : ItemBlock) (list : ItemList) : Prop :=
  array.Holds list ∧ array.Sound

/-- A block and an array of values are two forms of one array. -/
structure Mirrors (kept : ItemBlock) (array : ItemArray Bytes) : Prop where
  holds : kept.Holds array.view
  capacity : kept.capacity = array.capacity
  length : kept.block.length = array.itemSize * array.capacity

namespace Mirrors

variable {kept : ItemBlock} {array : ItemArray Bytes}

theorem itemSize (h : kept.Mirrors array) : kept.itemSize = array.itemSize :=
  h.holds.itemSize

theorem size (h : kept.Mirrors array) : kept.size = array.size :=
  h.holds.size

theorem keeps (h : kept.Mirrors array) (hsound : array.Sound) : kept.Keeps array.view := by
  refine ⟨h.holds, ?_⟩
  rcases hsound with ⟨hitem, hcapacity, hempty⟩ | hlive
  · refine Or.inl ⟨h.itemSize.trans hitem, h.capacity.trans hcapacity, h.size.trans hempty, ?_⟩
    rw [h.length, hitem, Nat.zero_mul]
  · refine Or.inr ⟨?_, ?_, ?_, ?_, ?_⟩
    · exact h.itemSize ▸ hlive.itemSize_pos
    · exact h.capacity ▸ hlive.capacity_pos
    · exact h.size ▸ h.capacity ▸ hlive.size_le
    · exact h.itemSize ▸ h.capacity ▸ hlive.fits
    · rw [h.length, h.itemSize, h.capacity]

/-- The bytes in the slot of an item are the item. -/
theorem load (h : kept.Mirrors array) {index : Nat} {item : Bytes}
    (hitem : array.items.toList[index]? = some item) : kept.load index = .ok item := by
  have hread := (h.holds.slots index item hitem).read
  rw [h.holds.fixed index item hitem] at hread
  have hview : array.view.itemSize = kept.itemSize := h.holds.itemSize.symm
  rw [ItemBlock.load, slot, ← hview, hread]

end Mirrors

theorem mirrors_released : released.Mirrors ItemArray.released :=
  ⟨⟨rfl, rfl, nofun, nofun⟩, rfl, rfl⟩

/-! ## 4. One operation -/

/-- An operation on a block and one on the array of values stop with the same fault and leave all
    as it was, or have the same answer and leave two forms of one array. Either way they have asked
    the memory for the same. -/
inductive Follows {α : Type} (onBlock : InPlace ItemBlock α) (onItems : InPlace (ItemArray Bytes) α)
    (kept : ItemBlock) (array : ItemArray Bytes) (memory : Memory) : Prop
  | stops {fault : Fault} {left : Memory}
      (block : (onBlock.on kept).run memory = ((.error fault, kept), left))
      (items : (onItems.on array).run memory = ((.error fault, array), left))
  | goes {value : α} {after : ItemBlock} {next : ItemArray Bytes} {left : Memory}
      (block : (onBlock.on kept).run memory = ((.ok value, after), left))
      (items : (onItems.on array).run memory = ((.ok value, next), left))
      (mirrors : after.Mirrors next)

section

variable {kept : ItemBlock} {array : ItemArray Bytes} {memory : Memory}

variable {α β : Type} {onBlock onBlock' : InPlace ItemBlock α}
  {onItems onItems' : InPlace (ItemArray Bytes) α}

theorem Follows.congr (h : Follows onBlock onItems kept array memory)
    (hblock : (onBlock'.on kept).run memory = (onBlock.on kept).run memory)
    (hitems : (onItems'.on array).run memory = (onItems.on array).run memory) :
    Follows onBlock' onItems' kept array memory := by
  cases h with
  | stops block items => exact .stops (hblock.trans block) (hitems.trans items)
  | goes block items mirrors => exact .goes (hblock.trans block) (hitems.trans items) mirrors

theorem Follows.answering (h : Follows onBlock onItems kept array memory) (answer : α → β) :
    Follows (answering onBlock answer) (InPlace.answering onItems answer) kept array memory := by
  have hblock := on_answering onBlock answer kept memory
  have hitems := on_answering onItems answer array memory
  cases h with
  | stops block items =>
    rw [block] at hblock
    rw [items] at hitems
    exact .stops hblock hitems
  | goes block items mirrors =>
    rw [block] at hblock
    rw [items] at hitems
    exact .goes hblock hitems mirrors

/-- The same check stands in front of both operations. -/
theorem Follows.checked {condition : Prop} [Decidable condition] {cause : Violation}
    (h : condition → Follows onBlock onItems kept array memory)
    (hblock : (onBlock'.on kept).run memory =
      if condition then (onBlock.on kept).run memory
      else ((.error (.violation cause), kept), memory))
    (hitems : (onItems'.on array).run memory =
      if condition then (onItems.on array).run memory
      else ((.error (.violation cause), array), memory)) :
    Follows onBlock' onItems' kept array memory := by
  by_cases hcondition : condition
  · rw [if_pos hcondition] at hblock hitems
    exact (h hcondition).congr hblock hitems
  · rw [if_neg hcondition] at hblock hitems
    exact .stops hblock hitems

/-! ### Room -/

theorem on_makeRoom (needed : Nat) (kept : ItemBlock) (memory : Memory) :
    ((makeRoom needed).on kept).run memory =
      if kept.capacity < needed then
        match ItemArray.doubleTo needed kept.capacity with
        | none => ((.error (.failure (.allocation Memory.maxWord)), kept), memory)
        | some capacity =>
          match (ItemArray.requestRoom kept.itemSize capacity).run.run memory with
          | (.ok (), memory) =>
            ((.ok (), { kept with
              capacity, block := kept.block.resize (kept.itemSize * capacity) }), memory)
          | (.error fault, memory) => ((.error fault, kept), memory)
      else ((.ok (), kept), memory) := by
  unfold makeRoom growTo
  rw [InPlace.on_bind, InPlace.on_get]
  simp only
  split
  next =>
    rw [InPlace.on_bind, InPlace.on_get]
    simp only
    cases ItemArray.doubleTo needed kept.capacity with
    | none => rfl
    | some capacity =>
      simp only [InPlace.on_bind, InPlace.on_ofAlloc]
      rcases (ItemArray.requestRoom kept.itemSize capacity).run.run memory with ⟨_ | _, _⟩ <;> rfl
  next => rfl

/-- A longer block holds what the shorter one held. -/
theorem Mirrors.resize (h : kept.Mirrors array) {capacity : Nat}
    (hcapacity : array.capacity ≤ capacity) :
    Mirrors { kept with capacity, block := kept.block.resize (kept.itemSize * capacity) }
      { array with capacity } := by
  have hlength : kept.block.length ≤ kept.itemSize * capacity := by
    rw [h.length, h.itemSize]
    exact Nat.mul_le_mul_left _ hcapacity
  refine ⟨⟨h.itemSize, h.size, h.holds.fixed, ?_⟩, rfl, ?_⟩
  · intro index item hitem
    exact (h.holds.slots index item hitem).resize hlength
  · exact congrArg (· * capacity) h.itemSize

theorem follows_makeRoom (h : kept.Mirrors array) (needed : Nat) (memory : Memory) :
    Follows (makeRoom needed) (ItemArray.growTo needed) kept array memory := by
  have hblock := on_makeRoom needed kept memory
  have hitems := ItemArray.on_growTo needed array memory
  rw [h.capacity, h.itemSize] at hblock
  by_cases hfull : array.capacity < needed
  · rw [if_pos hfull] at hblock hitems
    cases hdouble : ItemArray.doubleTo needed array.capacity with
    | none =>
      rw [hdouble] at hblock hitems
      exact .stops hblock hitems
    | some capacity =>
      have hle : array.capacity ≤ capacity :=
        Nat.le_trans (Nat.le_of_lt hfull) (ItemArray.le_of_doubleTo hdouble)
      rw [hdouble] at hblock hitems
      simp only at hblock hitems
      generalize (ItemArray.requestRoom array.itemSize capacity).run.run memory = request
        at hblock hitems
      obtain ⟨_ | _, left⟩ := request
      · exact .stops hblock hitems
      · rw [← h.itemSize] at hblock
        exact .goes hblock hitems (h.resize hle)
  · rw [if_neg hfull] at hblock hitems
    exact .goes hblock hitems h

theorem on_reserve (additional : Nat) (kept : ItemBlock) (memory : Memory) :
    ((reserve additional).on kept).run memory =
      if kept.itemSize = 0 then ((.error (.violation .released), kept), memory)
      else if kept.size + additional ≤ Memory.maxWord then
        ((makeRoom (kept.size + additional)).on kept).run memory
      else ((.error (.failure (.allocation Memory.maxWord)), kept), memory) := by
  unfold reserve
  rw [InPlace.on_bind, InPlace.on_get]
  simp only
  split
  next => rfl
  next => split <;> rfl

theorem follows_reserve (h : kept.Mirrors array) (additional : Nat) :
    Follows (reserve additional) (ItemArray.reserve additional) kept array memory := by
  have hblock := on_reserve additional kept memory
  have hitems := ItemArray.on_reserve additional array memory
  simp only [ItemArray.isReleased, beq_iff_eq] at hitems
  rw [h.itemSize, h.size] at hblock
  by_cases hreleased : array.itemSize = 0
  · rw [if_pos hreleased] at hblock hitems
    exact .stops hblock hitems
  rw [if_neg hreleased] at hblock hitems
  by_cases hword : array.size + additional ≤ Memory.maxWord
  · rw [if_pos hword] at hblock hitems
    exact (follows_makeRoom h (array.size + additional) memory).congr hblock hitems
  · rw [if_neg hword] at hblock hitems
    exact .stops hblock hitems

/-! ### Adding items -/

theorem on_store (item : Bytes) (kept : ItemBlock) (memory : Memory) :
    ((store item).on kept).run memory =
      match kept.block.write (kept.slot kept.size) item with
      | some block => ((.ok (), { kept with block, size := kept.size + 1 }), memory)
      | none => ((.error (.violation .strayAccess), kept), memory) := by
  unfold store
  rw [InPlace.on_bind, InPlace.on_get]
  simp only
  cases kept.block.write (kept.slot kept.size) item <;> rfl

/-- An item goes into the slot behind the last one, if there is room for one more. -/
theorem exists_on_store (h : kept.Mirrors array) {item : Bytes}
    (hitem : item.length = array.itemSize) (hroom : array.size + 1 ≤ array.capacity) :
    ∃ after, ((store item).on kept).run memory = ((.ok (), after), memory)
      ∧ after.Mirrors { array with items := array.items.push item } := by
  have hview : ItemArray.view { array with items := array.items.push item }
      = ⟨array.itemSize, array.items.toList ++ [item]⟩ := by
    simp [ItemArray.view]
  have hslot : kept.slot kept.size = array.size * array.itemSize := by
    rw [slot, h.size, h.itemSize]
  have hfits : array.size * array.itemSize + item.length ≤ kept.block.length := by
    rw [hitem, h.length, Nat.mul_comm array.itemSize]
    exact slot_add_le hroom
  obtain ⟨block, hwrite, hlength, hnew, hold⟩ := Block.exists_write hfits
  have hrun := on_store item kept memory
  rw [hslot, hwrite] at hrun
  refine ⟨_, hrun, ?_, h.capacity, hlength.trans h.length⟩
  rw [hview]
  refine ⟨h.itemSize, ?_, ?_, ?_⟩
  · rw [List.length_append, List.length_singleton]
    exact congrArg (· + 1) h.size
  · intro index other hother
    rcases getElem?_concat hother with hother | ⟨-, rfl⟩
    · exact h.holds.fixed index other hother
    · exact hitem
  · intro index other hother
    rcases getElem?_concat hother with hother | ⟨rfl, rfl⟩
    · refine hold _ other ?_ (h.holds.slots index other hother)
      rw [h.holds.fixed index other hother]
      exact slot_add_le (List.getElem?_eq_some_iff.1 hother).1
    · exact hnew

theorem on_appendRaw (item : Bytes) (kept : ItemBlock) (memory : Memory) :
    ((appendRaw item).on kept).run memory =
      if kept.itemSize = 0 then ((.error (.violation .released), kept), memory)
      else
        match ((makeRoom (kept.size + 1)).on kept).run memory with
        | ((.ok (), grown), memory) => ((store item).on grown).run memory
        | ((.error fault, grown), memory) => ((.error fault, grown), memory) := by
  unfold appendRaw
  rw [InPlace.on_bind, InPlace.on_get]
  simp only
  split
  next => rfl
  next =>
    rw [InPlace.on_bind]
    rcases ((makeRoom (kept.size + 1)).on kept).run memory with ⟨⟨_ | _, _⟩, _⟩ <;> rfl

theorem follows_appendRaw (h : kept.Mirrors array) {item : Bytes}
    (hitem : item.length = array.itemSize) :
    Follows (appendRaw item) (ItemArray.append item) kept array memory := by
  have hblock := on_appendRaw item kept memory
  have hitems := ItemArray.on_append item array memory
  simp only [ItemArray.isReleased, beq_iff_eq] at hitems
  rw [h.itemSize, h.size] at hblock
  by_cases hreleased : array.itemSize = 0
  · rw [if_pos hreleased] at hblock hitems
    exact .stops hblock hitems
  rw [if_neg hreleased] at hblock hitems
  cases follows_makeRoom h (array.size + 1) memory with
  | stops block items =>
    rw [block] at hblock
    rw [items] at hitems
    exact .stops hblock hitems
  | goes block items mirrors =>
    rw [block] at hblock
    rw [items] at hitems
    rcases ItemArray.growTo_cases (array.size + 1) array memory with
      ⟨capacity, left, hgrow, hroom, -⟩ | ⟨bytes, left, hgrow, -⟩
    · rw [items] at hgrow
      cases hgrow
      obtain ⟨after, hstore, hafter⟩ := exists_on_store mirrors hitem hroom
      exact .goes (hblock.trans hstore) hitems hafter
    · rw [items] at hgrow
      cases hgrow

theorem follows_appendBytes (h : kept.Mirrors array) (item : Bytes) :
    Follows (appendBytes item) (ItemArray.appendBytes item) kept array memory := by
  refine .checked (follows_appendRaw h) ?_ (ItemArray.on_appendBytes item array memory)
  rw [← h.itemSize]
  unfold appendBytes
  rw [InPlace.on_bind, InPlace.on_get]
  simp only
  split <;> rfl

/-- An operation on numbers looks at their width first. -/
theorem on_requireType {α : Type} (type : NumberType) (rest : InPlace ItemBlock α)
    (kept : ItemBlock) (memory : Memory) :
    ((requireType type >>= fun _ => rest).on kept).run memory =
      if type.width = kept.itemSize then (rest.on kept).run memory
      else ((.error (.violation (.typeSize type.width kept.itemSize)), kept), memory) := by
  unfold requireType
  rw [InPlace.on_bind, InPlace.on_bind, InPlace.on_get]
  simp only [checkType]
  by_cases htype : type.width = kept.itemSize
  · rw [if_pos htype, if_pos htype]
    rfl
  · rw [if_neg htype, if_neg htype]
    rfl

theorem follows_requireType {α : Type} {onBlock : InPlace ItemBlock α}
    {onItems : InPlace (ItemArray Bytes) α} (h : kept.Mirrors array) (type : NumberType)
    (hrest : type.width = array.itemSize → Follows onBlock onItems kept array memory) :
    Follows (requireType type >>= fun _ => onBlock)
      (ItemArray.requireType type >>= fun _ => onItems) kept array memory := by
  refine .checked hrest ?_ (ItemArray.on_requireType type onItems array memory)
  rw [← h.itemSize]
  exact on_requireType type onBlock kept memory

theorem follows_appendNumber (h : kept.Mirrors array) (type : NumberType) (value : Int) :
    Follows (appendNumber type value) (ItemArray.appendNumber type value) kept array memory := by
  refine follows_requireType h type fun htype => follows_appendRaw h ?_
  exact (ItemArray.length_littleEndian _ _).trans htype

/-! ### Taking items out -/

theorem on_remove (index : Nat) (kept : ItemBlock) (memory : Memory) :
    ((remove index).on kept).run memory =
      if index < kept.size then
        if 0 < kept.size - 1 - index then
          match kept.block.move (kept.slot (index + 1)) (kept.slot index)
            ((kept.size - 1 - index) * kept.itemSize) with
          | some block => ((.ok (), { kept with block, size := kept.size - 1 }), memory)
          | none => ((.error (.violation .strayAccess), kept), memory)
        else ((.ok (), { kept with size := kept.size - 1 }), memory)
      else ((.error (.violation (.outOfBounds index kept.size)), kept), memory) := by
  unfold remove
  rw [InPlace.on_bind, InPlace.on_get]
  simp only
  split
  next =>
    split
    next =>
      cases kept.block.move (kept.slot (index + 1)) (kept.slot index)
        ((kept.size - 1 - index) * kept.itemSize) <;> rfl
    next => rfl
  next => rfl

/-- An item has been taken out once all behind it stand one slot further up. -/
theorem Mirrors.remove (h : kept.Mirrors array) {index : Nat} (hindex : index < array.size)
    {block : Block} (hlength : block.length = kept.block.length)
    (hfront : ∀ place found, place + found.length ≤ index * array.itemSize →
      kept.block.Has place found → block.Has place found)
    (hback : ∀ later item, index ≤ later → array.items.toList[later + 1]? = some item →
      block.Has (later * array.itemSize) item) :
    Mirrors { kept with block, size := kept.size - 1 }
      { array with items := array.items.eraseIdxIfInBounds index } := by
  have hview : ItemArray.view { array with items := array.items.eraseIdxIfInBounds index }
      = ⟨array.itemSize, array.items.toList.eraseIdx index⟩ := by
    rw [ItemArray.view, ItemArray.toList_remove hindex]
  refine ⟨?_, h.capacity, hlength.trans h.length⟩
  rw [hview]
  refine ⟨h.itemSize, ?_, ?_, ?_⟩
  · rw [List.length_eraseIdx_of_lt hindex]
    exact congrArg (· - 1) h.size
  · intro place item hitem
    rw [List.getElem?_eraseIdx] at hitem
    split at hitem
    · exact h.holds.fixed place item hitem
    · exact h.holds.fixed (place + 1) item hitem
  · intro place item hitem
    rw [List.getElem?_eraseIdx] at hitem
    split at hitem
    next hplace =>
      refine hfront _ item ?_ (h.holds.slots place item hitem)
      rw [h.holds.fixed place item hitem]
      exact slot_add_le hplace
    next hplace => exact hback place item (Nat.le_of_not_lt hplace) hitem

/-- All behind the item, as one row of bytes, moves up by one slot. -/
theorem exists_on_remove (h : kept.Mirrors array) {index : Nat} (hindex : index < array.size)
    (hfits : array.size ≤ array.capacity) (memory : Memory) :
    ∃ after, ((ItemBlock.remove index).on kept).run memory = ((.ok (), after), memory)
      ∧ after.Mirrors { array with items := array.items.eraseIdxIfInBounds index } := by
  have hrun := on_remove index kept memory
  rw [if_pos (h.size ▸ hindex)] at hrun
  by_cases htrailing : 0 < kept.size - 1 - index
  · have hsize := h.size
    have hsource : (index + 1) * array.itemSize + (array.size - 1 - index) * array.itemSize
        ≤ kept.block.length := by
      rw [h.length, ← Nat.add_mul, Nat.mul_comm array.itemSize]
      exact Nat.mul_le_mul_right _ (by omega)
    have htarget : index * array.itemSize + (array.size - 1 - index) * array.itemSize
        ≤ kept.block.length :=
      Nat.le_trans (Nat.add_le_add_right (Nat.mul_le_mul_right _ (Nat.le_succ _)) _) hsource
    obtain ⟨block, hmove, hlength, hfront, hback⟩ := Block.exists_move hsource htarget
    have hslots : kept.block.move (kept.slot (index + 1)) (kept.slot index)
        ((kept.size - 1 - index) * kept.itemSize) = some block := by
      rw [slot, slot, h.itemSize, h.size]
      exact hmove
    rw [if_pos htrailing, hslots] at hrun
    refine ⟨_, hrun, h.remove hindex hlength hfront ?_⟩
    intro later item hlater hitem
    have hlast : later + 1 < array.size := (List.getElem?_eq_some_iff.1 hitem).1
    -- the slot lies as far behind the target as it lay behind the source
    have hmoved := hback ((later - index) * array.itemSize) item
    rw [← Nat.add_mul, ← Nat.add_mul, h.holds.fixed _ item hitem,
      show index + 1 + (later - index) = later + 1 by omega,
      show index + (later - index) = later by omega] at hmoved
    exact hmoved (slot_add_le (by omega)) (h.holds.slots _ item hitem)
  · rw [if_neg htrailing] at hrun
    refine ⟨_, hrun, h.remove hindex rfl (fun _ _ _ hfound => hfound) ?_⟩
    intro later item hlater hitem
    have hlast : later + 1 < array.size := (List.getElem?_eq_some_iff.1 hitem).1
    have hsize := h.size
    omega

theorem follows_remove (h : kept.Mirrors array) (hfits : array.size ≤ array.capacity)
    (index : Nat) : Follows (remove index) (ItemArray.remove index) kept array memory := by
  have hitems := ItemArray.on_remove index array memory
  by_cases hindex : index < array.size
  · obtain ⟨after, hblock, hafter⟩ := exists_on_remove h hindex hfits memory
    rw [if_pos hindex] at hitems
    exact .goes hblock hitems hafter
  · have hblock := on_remove index kept memory
    rw [h.size, if_neg hindex] at hblock
    rw [if_neg hindex] at hitems
    exact .stops hblock hitems

theorem on_popRaw (kept : ItemBlock) (memory : Memory) :
    (popRaw.on kept).run memory =
      if kept.size = 0 then ((.ok none, kept), memory)
      else
        match kept.load (kept.size - 1) with
        | .ok item => ((.ok (some item), { kept with size := kept.size - 1 }), memory)
        | .error cause => ((.error (.violation cause), kept), memory) := by
  unfold popRaw
  rw [InPlace.on_bind, InPlace.on_get]
  simp only
  split
  next => rfl
  next => cases kept.load (kept.size - 1) <;> rfl

theorem Mirrors.pop (h : kept.Mirrors array) :
    Mirrors { kept with size := kept.size - 1 } { array with items := array.items.pop } := by
  have hview : ItemArray.view { array with items := array.items.pop }
      = ⟨array.itemSize, array.items.toList.dropLast⟩ := by
    rw [ItemArray.view, Array.toList_pop]
  have hitems : ∀ (index : Nat) (item : Bytes), array.items.toList.dropLast[index]? = some item →
      array.items.toList[index]? = some item := by
    intro index item hitem
    rw [List.getElem?_dropLast] at hitem
    split at hitem
    · exact hitem
    · cases hitem
  refine ⟨?_, h.capacity, h.length⟩
  rw [hview]
  refine ⟨h.itemSize, ?_, ?_, ?_⟩
  · rw [List.length_dropLast]
    exact congrArg (· - 1) h.size
  · intro index item hitem
    exact h.holds.fixed index item (hitems index item hitem)
  · intro index item hitem
    exact h.holds.slots index item (hitems index item hitem)

/-- The last item is read where it stands, and then no longer counts. -/
theorem follows_popRaw (h : kept.Mirrors array) :
    Follows popRaw ItemArray.pop? kept array memory := by
  have hblock := on_popRaw kept memory
  have hitems := ItemArray.on_pop? array memory
  have hsize : kept.size = array.items.toList.length := h.size
  cases hlast : array.items.toList.getLast? with
  | none =>
    rw [List.getLast?_eq_none_iff] at hlast
    have hzero : kept.size = 0 := by rw [hsize, hlast, List.length_nil]
    have hpop := h.pop
    rw [if_pos hzero] at hblock
    rw [hlast] at hitems
    obtain ⟨itemSize, capacity, size, block⟩ := kept
    cases hzero
    exact .goes hblock hitems hpop
  | some item =>
    have hload : kept.load (kept.size - 1) = .ok item := by
      rw [List.getLast?_eq_getElem?, ← hsize] at hlast
      exact h.load hlast
    have hzero : ¬ kept.size = 0 := by
      rw [hsize, List.length_eq_zero_iff]
      intro hnil
      rw [hnil] at hlast
      cases hlast
    rw [if_neg hzero, hload] at hblock
    rw [hlast] at hitems
    exact .goes hblock hitems h.pop

theorem on_popBytes? (length : Nat) (kept : ItemBlock) (memory : Memory) :
    ((popBytes? length).on kept).run memory =
      if length = kept.itemSize then (popRaw.on kept).run memory
      else ((.error (.violation (.outputLength length kept.itemSize)), kept), memory) := by
  unfold popBytes?
  rw [InPlace.on_bind, InPlace.on_get]
  simp only
  split <;> rfl

theorem follows_popBytes (h : kept.Mirrors array) (length : Nat) :
    Follows (popBytes? length) (ItemArray.popBytes? length) kept array memory := by
  have hblock := on_popBytes? length kept memory
  rw [h.itemSize] at hblock
  exact .checked (fun _ => follows_popRaw h) hblock
    (ItemArray.on_popBytes?_eq_pop? length array memory)

theorem follows_popNumber (h : kept.Mirrors array) (type : NumberType) :
    Follows (popNumber? type) (ItemArray.popNumber? type) kept array memory :=
  follows_requireType h type fun _ => (follows_popRaw h).answering fun item => item.map type.decode

/-! ### Reading -/

theorem follows_reading {α : Type} {readBlock : ItemBlock → Except Violation α}
    {readItems : ItemArray Bytes → Except Violation α} (h : kept.Mirrors array)
    (hread : readBlock kept = readItems array) :
    Follows (reading readBlock) (reading readItems) kept array memory := by
  have hblock := on_reading readBlock kept memory
  have hitems := on_reading readItems array memory
  rw [hread] at hblock
  cases hvalue : readItems array with
  | error cause =>
    rw [hvalue] at hblock hitems
    exact .stops hblock hitems
  | ok value =>
    rw [hvalue] at hblock hitems
    exact .goes hblock hitems h

theorem nth_eq (h : kept.Mirrors array) (index : Nat) : kept.nth index = array.nth index := by
  have hsize : kept.size = array.items.toList.length := h.size
  rw [nth, ItemArray.nth, ← Array.getElem?_toList, ← h.size, hsize]
  cases hitem : array.items.toList[index]? with
  | some item => rw [if_pos (List.getElem?_eq_some_iff.1 hitem).1, h.load hitem]
  | none => rw [if_neg (Nat.not_lt.2 (List.getElem?_eq_none_iff.1 hitem))]

theorem checkType_eq (h : kept.Mirrors array) (type : NumberType) :
    kept.checkType type = array.checkType type := by
  rw [checkType, ItemArray.checkType, h.itemSize]

theorem nthNumber_eq (h : kept.Mirrors array) (type : NumberType) (index : Nat) :
    kept.nthNumber type index = array.nthNumber type index := by
  rw [nthNumber, ItemArray.nthNumber, checkType_eq h, nth_eq h]

theorem firstNumber_eq (h : kept.Mirrors array) (type : NumberType) :
    kept.firstNumber? type = array.firstNumber? type := by
  rw [firstNumber?, ItemArray.firstNumber?, nthNumber_eq h, ItemArray.isEmpty, h.size]
  simp only [beq_iff_eq]

theorem lastNumber_eq (h : kept.Mirrors array) (type : NumberType) :
    kept.lastNumber? type = array.lastNumber? type := by
  rw [lastNumber?, ItemArray.lastNumber?, nthNumber_eq h, ItemArray.isEmpty, h.size]
  simp only [beq_iff_eq]

/-- Slot by slot, all items are read. -/
theorem numbers_eq (h : kept.Mirrors array) (type : NumberType) :
    kept.numbers type = array.numbers type := by
  have hsize : kept.size = (array.items.toList.map type.decode).length := by
    rw [List.length_map]
    exact h.size
  rw [numbers, ItemArray.numbers, checkType_eq h, hsize, mapM_range_length]
  intro index value hvalue
  rw [List.getElem?_map, Option.map_eq_some_iff] at hvalue
  obtain ⟨item, hitem, rfl⟩ := hvalue
  rw [h.load hitem]
  rfl

/-! ### New arrays -/

theorem run_init (itemSize capacity : Nat) (memory : Memory) :
    (init itemSize capacity).run.run memory =
      if itemSize = 0 then (.error (.violation .zeroItemSize), memory)
      else if capacity = 0 then (.error (.violation .zeroCapacity), memory)
      else
        match (ItemArray.requestRoom itemSize capacity).run.run memory with
        | (.ok (), memory) =>
          (.ok ⟨itemSize, capacity, 0, .fresh (itemSize * capacity)⟩, memory)
        | (.error fault, memory) => (.error fault, memory) := by
  unfold init
  split
  next => rfl
  next =>
    split
    next => rfl
    next =>
      rw [Alloc.run_bind]
      rcases (ItemArray.requestRoom itemSize capacity).run.run memory with ⟨_ | _, _⟩ <;> rfl

theorem follows_init (kept : ItemBlock) (array : ItemArray Bytes) (itemSize capacity : Nat) :
    Follows (renew (init itemSize capacity)) (renew (ItemArray.init itemSize capacity))
      kept array memory := by
  have hblock := on_renew kept memory (init itemSize capacity)
  have hitems := on_renew array memory (ItemArray.init itemSize capacity)
  rw [run_init] at hblock
  by_cases hsize : itemSize = 0
  · rw [if_pos hsize] at hblock
    rw [ItemArray.run_init_of_size_eq_zero hsize] at hitems
    exact .stops hblock hitems
  by_cases hcapacity : capacity = 0
  · rw [if_neg hsize, if_pos hcapacity] at hblock
    rw [ItemArray.run_init_of_capacity_eq_zero hsize hcapacity] at hitems
    exact .stops hblock hitems
  rw [if_neg hsize, if_neg hcapacity] at hblock
  rw [ItemArray.run_init (Nat.pos_of_ne_zero hsize) (Nat.pos_of_ne_zero hcapacity)] at hitems
  generalize (ItemArray.requestRoom itemSize capacity).run.run memory = request at hblock hitems
  obtain ⟨_ | _, left⟩ := request
  · exact .stops hblock hitems
  · exact .goes hblock hitems ⟨⟨rfl, rfl, nofun, nofun⟩, rfl, rfl⟩

/-- **Every operation on the block is the operation on the values.** -/
theorem follows_perform (h : kept.Mirrors array) (hsound : array.Sound) (operation : Operation)
    (memory : Memory) : Follows (perform operation) operation.perform kept array memory := by
  cases operation with
  | init itemSize capacity => exact (follows_init kept array itemSize capacity).answering _
  | initFor type capacity => exact (follows_init kept array type.width capacity).answering _
  | released => exact .goes rfl rfl mirrors_released
  | appendBytes item => exact (follows_appendBytes h item).answering _
  | appendNumber type value => exact (follows_appendNumber h type value).answering _
  | reserve additional => exact (follows_reserve h additional).answering _
  | nth index => exact (follows_reading h (nth_eq h index)).answering _
  | nthNumber type index => exact (follows_reading h (nthNumber_eq h type index)).answering _
  | remove index => exact (follows_remove h hsound.size_le index).answering _
  | firstNumber type => exact (follows_reading h (firstNumber_eq h type)).answering _
  | lastNumber type => exact (follows_reading h (lastNumber_eq h type)).answering _
  | popNumber type => exact (follows_popNumber h type).answering _
  | popBytes length => exact (follows_popBytes h length).answering _
  | numbers type => exact (follows_reading h (numbers_eq h type)).answering _
  | release => exact .goes rfl rfl mirrors_released

/-- **One operation does what the list does, or nothing.** -/
theorem step_perform (h : kept.Mirrors array) (hsound : array.Sound) (memory : Memory)
    (operation : Operation) :
    let ((outcome, after), _) := ((perform operation).on kept).run memory
    Step Keeps operation array.view kept.capacity memory kept outcome after := by
  have hstep := ItemArray.step_perform hsound memory operation
  unfold ItemArray.Fulfils at hstep
  cases follows_perform h hsound operation memory with
  | stops block items =>
    rw [items] at hstep
    rw [block, h.capacity]
    cases hstep with
    | violated disallowed safe => exact .violated disallowed safe
    | refused allowed asks refuses => exact .refused allowed asks refuses
  | goes block items mirrors =>
    rw [items] at hstep
    rw [block]
    cases hstep with
    | done allowed keeps => exact .done allowed (keeps.1 ▸ mirrors.keeps keeps.2)

end

/-! ## 5. Runs -/

abbrev performAll : List Operation → ItemBlock → Memory → ItemArray.Run ItemBlock :=
  ItemArray.performAllBy perform

/-- Two forms of an array remain two forms of one array, and have the same outcomes. -/
theorem mirrors_performAll (operations : List Operation) {kept : ItemBlock}
    {array : ItemArray Bytes} (memory : Memory) (h : kept.Mirrors array) (hsound : array.Sound) :
    (performAll operations kept memory).outcomes
        = (ItemArray.performAll operations array memory).outcomes
      ∧ (performAll operations kept memory).array.Mirrors
          (ItemArray.performAll operations array memory).array := by
  induction operations generalizing kept array memory with
  | nil => exact ⟨rfl, h⟩
  | cons operation operations ih =>
    have hstep := ItemArray.step_perform hsound memory operation
    unfold ItemArray.Fulfils at hstep
    simp only [performAll, ItemArray.performAll, ItemArray.performAllBy]
    cases follows_perform h hsound operation memory with
    | stops block items =>
      rw [block, items]
      obtain ⟨houtcomes, hmirrors⟩ := ih _ h hsound
      exact ⟨congrArg _ houtcomes, hmirrors⟩
    | goes block items mirrors =>
      rw [items] at hstep
      rw [block, items]
      obtain ⟨houtcomes, hmirrors⟩ := ih _ mirrors (hstep.sound hsound)
      exact ⟨congrArg _ houtcomes, hmirrors⟩

/-- **A growable array in a block of memory is a list of items of one size.** After any operations
    on an array that is released at first, in any memory, the array is sound and each of its slots
    holds the item of the list that was taken through the same operations. Whichever operation comes
    next, it ends in one of three ways: in a violation that changes nothing, if and only if the list
    does not allow it; in a refusal that changes nothing, for want of room; or with the answer and
    the next state of the list. No access to the block goes astray. -/
theorem block_refines_list (operations : List Operation) (memory : Memory)
    (operation : Operation) :
    let run := performAll operations released memory
    let list := replay (operations.zip run.outcomes) ⟨0, []⟩
    let ((outcome, after), _) := ((perform operation).on run.array).run run.memory
    run.array.Keeps list
      ∧ Step Keeps operation list run.array.capacity run.memory run.array outcome after := by
  have hsound := ItemArray.sound_released
  obtain ⟨houtcomes, hmirrors⟩ := mirrors_performAll operations memory mirrors_released hsound
  have hreplay := ItemArray.replay_performAll operations memory hsound
  have hview : (ItemArray.performAll operations ItemArray.released memory).array.view
      = replay (operations.zip (performAll operations released memory).outcomes) ⟨0, []⟩ := by
    rw [houtcomes]
    exact hreplay.2
  simp only
  rw [← hview]
  exact ⟨hmirrors.keeps hreplay.1, step_perform hmirrors hreplay.1 _ operation⟩

end ItemBlock
end ErbTemplate
