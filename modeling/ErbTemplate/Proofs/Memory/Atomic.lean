import ErbTemplate.Proofs.Memory.Writes

/-!
# A write is made whole or not at all

Room for a write is made before its first byte is added. Where there is room nothing can be refused,
so a single request decides about the whole write: it adds all of its bytes, or the buffer is what
it was (`write_cases`). A list of writes therefore stops between two of them:

> **`writeAll_cases`** — all writes have been made, or memory was refused and the buffer holds the
> writes before the one that was refused.

And writes that fit into the room of a buffer ask for nothing (`on_writeAll_of_room`).
-/

set_option autoImplicit false

namespace ErbTemplate

/-! ## 1. Where there is room -/

namespace ItemArray

variable {α : Type} {array : ItemArray α}

/-- The array with items behind its own. -/
def extend (array : ItemArray α) (items : List α) : ItemArray α :=
  { array with items := array.items ++ items.toArray }

theorem extend_nil (array : ItemArray α) : array.extend [] = array := by
  simp [extend]

theorem extend_extend (array : ItemArray α) (front back : List α) :
    (array.extend front).extend back = array.extend (front ++ back) := by
  simp [extend]

theorem size_extend (array : ItemArray α) (items : List α) :
    (array.extend items).size = array.size + items.length := by
  simp [extend, size]

theorem toList_extend (array : ItemArray α) (items : List α) :
    (array.extend items).items.toList = array.items.toList ++ items := by
  simp [extend]

theorem on_growTo_of_room {needed : Nat} (h : needed ≤ array.capacity) (memory : Memory) :
    ((growTo needed).on array).run memory = ((.ok (), array), memory) := by
  rw [on_growTo, if_neg (Nat.not_lt.2 h)]

theorem on_append_of_room (item : α) (hlive : array.IsLive) (h : array.size + 1 ≤ array.capacity)
    (memory : Memory) :
    ((append item).on array).run memory = ((.ok (), array.extend [item]), memory) := by
  rw [on_append, hlive.isReleased, if_neg Bool.false_ne_true, on_growTo_of_room h]
  simp [extend]

/-- **Items that fit are added without a request.** -/
theorem on_appendAll_of_room {items : List α} (hlive : array.IsLive)
    (h : array.size + items.length ≤ array.capacity) (memory : Memory) :
    ((appendAll items).on array).run memory = ((.ok (), array.extend items), memory) := by
  induction items generalizing array with
  | nil => rw [extend_nil]; rfl
  | cons item items ih =>
    rw [List.length_cons] at h
    have hroom : (array.extend [item]).size + items.length ≤ array.capacity := by
      rw [size_extend, List.length_singleton]
      omega
    have hrest := @ih (array.extend [item]) hlive hroom
    rw [extend_extend] at hrest
    rw [appendAll, InPlace.on_bind, on_append_of_room item hlive (by omega)]
    exact hrest

theorem on_reserve_of_room {additional : Nat} (hlive : array.IsLive)
    (h : array.size + additional ≤ array.capacity) (hword : array.capacity ≤ Memory.maxWord)
    (memory : Memory) :
    ((reserve additional).on array).run memory = ((.ok (), array), memory) := by
  rw [on_reserve, hlive.isReleased, if_neg Bool.false_ne_true, if_pos (Nat.le_trans h hword),
    on_growTo_of_room h]

/-- A capacity that an array has after room was made in it for so many items. -/
structure Roomy (array : ItemArray α) (needed capacity : Nat) : Prop where
  enough : needed ≤ capacity
  grown : capacity = array.capacity
    ∨ array.capacity < capacity ∧ array.itemSize * capacity ≤ Memory.maxBlock

/-- Making room has two ends. -/
theorem reserve_cases (additional : Nat) (hlive : array.IsLive) (memory : Memory) :
    (∃ capacity after, ((reserve additional).on array).run memory
          = ((.ok (), { array with capacity }), after)
        ∧ array.Roomy (array.size + additional) capacity)
      ∨ ∃ bytes after, ((reserve additional).on array).run memory
          = ((.error (.failure (.allocation bytes)), array), after)
        ∧ memory.Refuses bytes := by
  rw [on_reserve, hlive.isReleased, if_neg Bool.false_ne_true]
  split
  next =>
    rcases growTo_cases (array.size + additional) array memory with
      ⟨capacity, after, hrun, hroom, hgrown⟩ | ⟨bytes, after, hrun, -, hrefused⟩
    · exact Or.inl ⟨capacity, after, hrun, hroom, hgrown⟩
    · exact Or.inr ⟨bytes, after, hrun, hrefused⟩
  next => exact Or.inr ⟨_, memory, rfl, Or.inl (by decide)⟩

end ItemArray

namespace TextBuffer

open ItemArray

/-! ## 2. One write -/

variable {buffer : TextBuffer} {first : Write} {writes : List Write}

/-- Bytes for which room is made first are all added, or none of them. -/
theorem reserve_appendAll_cases (items : List UInt8) (hlive : buffer.IsLive) (memory : Memory) :
    (∃ capacity after, ((do
          reserve items.length
          appendAll items : InPlace TextBuffer Unit).on buffer).run memory
        = ((.ok (), { buffer with capacity }.extend items), after)
        ∧ buffer.Roomy (buffer.size + items.length) capacity)
      ∨ ∃ bytes after, ((do
          reserve items.length
          appendAll items : InPlace TextBuffer Unit).on buffer).run memory
        = ((.error (.failure (.allocation bytes)), buffer), after)
        ∧ memory.Refuses bytes := by
  rw [InPlace.on_bind]
  rcases reserve_cases items.length hlive memory with
    ⟨capacity, after, hrun, hroom⟩ | ⟨bytes, after, hrun, hrefused⟩
  · have hroomy : IsLive ({ buffer with capacity } : TextBuffer) := hlive
    rw [hrun]
    exact Or.inl ⟨capacity, after, on_appendAll_of_room hroomy hroom.enough after, hroom⟩
  · rw [hrun]
    exact Or.inr ⟨bytes, after, rfl, hrefused⟩

theorem append_cases (value : UInt8) (hlive : buffer.IsLive) (memory : Memory) :
    (∃ capacity after, ((append value).on buffer).run memory
        = ((.ok (), { buffer with capacity }.extend [value]), after)
        ∧ buffer.Roomy (buffer.size + 1) capacity)
      ∨ ∃ bytes after, ((append value).on buffer).run memory
        = ((.error (.failure (.allocation bytes)), buffer), after)
        ∧ memory.Refuses bytes := by
  rw [on_append, hlive.isReleased, if_neg Bool.false_ne_true]
  rcases growTo_cases (buffer.size + 1) buffer memory with
    ⟨capacity, after, hrun, hroom, hgrown⟩ | ⟨bytes, after, hrun, -, hrefused⟩
  · rw [hrun]
    exact Or.inl ⟨capacity, after, by simp [extend], hroom, hgrown⟩
  · rw [hrun]
    exact Or.inr ⟨bytes, after, rfl, hrefused⟩

/-- **A write is made whole or not at all.** -/
theorem write_cases (hvalid : first.Valid) (hlive : buffer.IsLive) (memory : Memory) :
    (∃ capacity after, ((write first).on buffer).run memory
        = ((.ok (), { buffer with capacity }.extend first.bytes), after)
        ∧ buffer.Roomy (buffer.size + first.bytes.length) capacity)
      ∨ ∃ bytes after, ((write first).on buffer).run memory
        = ((.error (.failure (.allocation bytes)), buffer), after)
        ∧ memory.Refuses bytes := by
  cases first with
  | text characters =>
    rw [write, appendText, ← Text.length_toBytes]
    exact reserve_appendAll_cases _ hlive memory
  | byte value =>
    rw [write, on_appendByte hvalid hlive.isReleased]
    exact append_cases value hlive memory
  | repeated value count =>
    have h := reserve_appendAll_cases (List.replicate count value) hlive memory
    rw [List.length_replicate] at h
    rw [write, appendRepeated_eq hvalid, Write.bytes, List.length_replicate]
    exact h

theorem on_write_of_room (hvalid : first.Valid) (hlive : buffer.IsLive)
    (h : buffer.size + first.bytes.length ≤ buffer.capacity)
    (hword : buffer.capacity ≤ Memory.maxWord) (memory : Memory) :
    ((write first).on buffer).run memory = ((.ok (), buffer.extend first.bytes), memory) := by
  have hboth : ∀ items : List UInt8, buffer.size + items.length ≤ buffer.capacity →
      ((do
        reserve items.length
        appendAll items : InPlace TextBuffer Unit).on buffer).run memory
          = ((.ok (), buffer.extend items), memory) := by
    intro items hroom
    rw [InPlace.on_bind, on_reserve_of_room hlive hroom hword]
    exact on_appendAll_of_room hlive hroom memory
  cases first with
  | text characters =>
    rw [write, appendText, ← Text.length_toBytes]
    exact hboth _ h
  | byte value =>
    rw [write, on_appendByte hvalid hlive.isReleased]
    exact on_append_of_room value hlive h memory
  | repeated value count =>
    have hrun := hboth (List.replicate count value) h
    rw [List.length_replicate] at hrun
    rw [write, appendRepeated_eq hvalid]
    exact hrun

/-! ## 3. Many writes -/

theorem bytes_extend (buffer : TextBuffer) (items : List UInt8) :
    bytes (buffer.extend items) = buffer.bytes ++ items :=
  toList_extend buffer items

/-- **Writes stop between two of them.** -/
theorem writeAll_cases (hvalid : ∀ write ∈ writes, write.Valid) (hlive : buffer.IsLive)
    (memory : Memory) :
    (∃ longer after, ((writeAll writes).on buffer).run memory = ((.ok (), longer), after)
        ∧ longer.bytes = buffer.bytes ++ writes.flatMap Write.bytes)
      ∨ ∃ made left cause after,
          ((writeAll writes).on buffer).run memory = ((.error (.failure cause), left), after)
        ∧ made <+: writes ∧ left.bytes = buffer.bytes ++ made.flatMap Write.bytes := by
  induction writes generalizing buffer memory with
  | nil => exact Or.inl ⟨buffer, memory, rfl, (List.append_nil _).symm⟩
  | cons first others ih =>
    rw [List.forall_mem_cons] at hvalid
    rw [writeAll, InPlace.on_bind]
    rcases write_cases hvalid.1 hlive memory with
      ⟨capacity, between, hrun, -⟩ | ⟨bytes, after, hrun, -⟩
    · rw [hrun]
      have hmiddle : bytes ({ buffer with capacity }.extend first.bytes)
          = buffer.bytes ++ first.bytes := bytes_extend _ _
      rcases @ih ({ buffer with capacity }.extend first.bytes) hvalid.2 hlive between with
        ⟨longer, after, hrest, hbytes⟩ | ⟨made, left, cause, after, hrest, hmade, hbytes⟩
      · refine Or.inl ⟨longer, after, hrest, ?_⟩
        rw [hbytes, hmiddle, List.flatMap_cons, List.append_assoc]
      · refine Or.inr ⟨first :: made, left, cause, after, hrest, ?_, ?_⟩
        · exact (List.prefix_cons_inj first).2 hmade
        · rw [hbytes, hmiddle, List.flatMap_cons, List.append_assoc]
    · rw [hrun]
      exact Or.inr ⟨[], buffer, _, after, rfl, List.nil_prefix, (List.append_nil _).symm⟩

/-- **Writes that fit ask for nothing.** -/
theorem on_writeAll_of_room (hvalid : ∀ write ∈ writes, write.Valid) (hlive : buffer.IsLive)
    (h : buffer.size + (writes.flatMap Write.bytes).length ≤ buffer.capacity)
    (hword : buffer.capacity ≤ Memory.maxWord) (memory : Memory) :
    ((writeAll writes).on buffer).run memory
      = ((.ok (), buffer.extend (writes.flatMap Write.bytes)), memory) := by
  induction writes generalizing buffer with
  | nil =>
    rw [List.flatMap_nil, extend_nil]
    rfl
  | cons first others ih =>
    rw [List.forall_mem_cons] at hvalid
    rw [List.flatMap_cons, List.length_append] at h
    have hroom : (buffer.extend first.bytes).size + (others.flatMap Write.bytes).length
        ≤ buffer.capacity := by
      rw [size_extend]
      omega
    have hrest := @ih (buffer.extend first.bytes) hvalid.2 hlive hroom hword
    rw [extend_extend] at hrest
    rw [writeAll, InPlace.on_bind, on_write_of_room hvalid.1 hlive (by omega) hword,
      List.flatMap_cons]
    exact hrest

/-- A new buffer is empty, and its room was granted. -/
theorem eq_of_init {capacity : Nat} {memory after : Memory}
    (h : (init capacity).run.run memory = (.ok buffer, after)) :
    buffer = ⟨1, max capacity 1, #[]⟩ ∧ max capacity 1 ≤ Memory.maxBlock := by
  refine ⟨eq_of_run_init Nat.one_pos (capacity_pos capacity) h, ?_⟩
  rw [init, run_init Nat.one_pos (capacity_pos capacity)] at h
  rcases requestRoom_cases 1 (max capacity 1) memory with ⟨_, -, hfits⟩ | ⟨_, _, hrun, -⟩
  · rwa [Nat.one_mul] at hfits
  · rw [hrun] at h
    cases h

theorem capacity_le_of_init {capacity : Nat} {memory after : Memory}
    (h : (init capacity).run.run memory = (.ok buffer, after)) :
    buffer.capacity ≤ Memory.maxWord := by
  obtain ⟨rfl, hfits⟩ := eq_of_init h
  exact Nat.le_trans hfits (by decide)

end TextBuffer
end ErbTemplate
