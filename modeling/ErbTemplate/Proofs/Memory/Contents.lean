import ErbTemplate.Proofs.Memory.Atomic

/-!
# A buffer always holds a text

Bytes go into a buffer one at a time, and a text can have several bytes to a character. What keeps
half a character from being seen is that room is made first. This file follows a buffer through
anything that can be done to it, in any memory:

> **`Written`** — all that a write can come to. A violation or a refusal leaves the buffer as it
> was, and a write that is made adds all of its bytes.

`written` proves it for every write into every buffer with the invariant `Whole`, and such a buffer
is whole again after any operation (`whole_perform`). So its bytes are UTF-8 at all times, and may
be taken for a text without looking at them.
-/

set_option autoImplicit false

namespace ErbTemplate
namespace TextBuffer

open ItemArray

/-! ## 1. Operations and the invariant -/

/-- What can be done to a buffer, apart from looking at it. -/
inductive Operation where
  | init (capacity : Nat)
  | released
  | write (first : Write)
  | release

/-- Carries out an operation. A new buffer takes the place of the old one once it has been made. -/
def Operation.perform : Operation → InPlace TextBuffer Unit
  | init capacity => do set (← InPlace.ofAlloc (TextBuffer.init capacity))
  | released => set (ItemArray.released : TextBuffer)
  | write first => TextBuffer.write first
  | release => ItemArray.release

/-- The buffer and the memory after operations, whatever becomes of each. -/
def performAll : List Operation → TextBuffer → Memory → TextBuffer × Memory
  | [], buffer, memory => (buffer, memory)
  | operation :: operations, buffer, memory =>
    let ((_, buffer), memory) := (operation.perform.on buffer).run memory
    performAll operations buffer memory

/-- A buffer with room for its bytes, one byte to an item. -/
structure HasRoom (buffer : TextBuffer) : Prop where
  itemSize : buffer.itemSize = 1
  capacity_pos : 1 ≤ buffer.capacity
  size_le : buffer.size ≤ buffer.capacity
  fits : buffer.capacity ≤ Memory.maxBlock

/-- What holds of a buffer at all times. -/
structure Whole (buffer : TextBuffer) : Prop where
  room : buffer = ItemArray.released ∨ buffer.HasRoom
  spells : ∃ text, buffer.bytes = Text.toBytes text

section

variable {buffer : TextBuffer} {first : Write} {memory : Memory}

theorem HasRoom.isLive (h : buffer.HasRoom) : IsLive buffer := by
  rw [IsLive, h.itemSize]
  exact Nat.one_pos

theorem HasRoom.capacity_le (h : buffer.HasRoom) : buffer.capacity ≤ Memory.maxWord :=
  Nat.le_trans h.fits (by decide)

theorem whole_released : Whole ItemArray.released :=
  ⟨Or.inl rfl, [], rfl⟩

theorem Whole.hasRoom (h : buffer.Whole) (hlive : buffer.isReleased = false) : buffer.HasRoom := by
  rcases h.room with rfl | hroom
  · cases hlive
  · exact hroom

/-- Bytes that spell a text do no harm, if there is room for them. -/
theorem Whole.extend (h : buffer.Whole) (hroom : buffer.HasRoom) {capacity : Nat}
    {items : List UInt8} (hcapacity : buffer.Roomy (buffer.size + items.length) capacity)
    (hitems : ∃ text, items = Text.toBytes text) :
    Whole ({ buffer with capacity }.extend items) := by
  have hgrown : buffer.capacity ≤ capacity ∧ capacity ≤ Memory.maxBlock := by
    rcases hcapacity.grown with rfl | ⟨hlt, hfits⟩
    · exact ⟨Nat.le_refl _, hroom.fits⟩
    · rw [hroom.itemSize, Nat.one_mul] at hfits
      exact ⟨Nat.le_of_lt hlt, hfits⟩
  refine ⟨Or.inr ⟨hroom.itemSize, Nat.le_trans hroom.capacity_pos hgrown.1, ?_, hgrown.2⟩, ?_⟩
  · rw [size_extend]
    exact hcapacity.enough
  · obtain ⟨front, hfront⟩ := h.spells
    obtain ⟨back, rfl⟩ := hitems
    refine ⟨front ++ back, ?_⟩
    rw [bytes_extend, Text.toBytes_append, ← hfront]
    rfl

/-! ## 2. One write -/

/-- All that a write into a buffer can come to: an outcome, and the buffer after it. -/
inductive Written (first : Write) (buffer : TextBuffer) (memory : Memory) :
    Except Fault Unit → TextBuffer → Prop
  | violated {cause : Violation} (violates : first.violation? buffer = some cause) :
      Written first buffer memory (.error (.violation cause)) buffer
  | refused {bytes : Nat} (allowed : first.violation? buffer = none)
      (asks : buffer.capacity < buffer.size + first.bytes.length)
      (refuses : memory.Refuses bytes) :
      Written first buffer memory (.error (.failure (.allocation bytes))) buffer
  | made {capacity : Nat} (allowed : first.violation? buffer = none)
      (roomy : buffer.Roomy (buffer.size + first.bytes.length) capacity) :
      Written first buffer memory (.ok ()) ({ buffer with capacity }.extend first.bytes)

/-- **A write comes to nothing else**: what it leaves is the buffer with all of its bytes, or the
    buffer. -/
theorem written (h : buffer.Whole) (first : Write) (memory : Memory) :
    let ((outcome, after), _) := ((write first).on buffer).run memory
    Written first buffer memory outcome after := by
  cases hcause : first.violation? buffer with
  | some cause =>
    rw [on_write_of_violation? hcause]
    exact .violated hcause
  | none =>
    obtain ⟨hvalid, hreleased⟩ := Write.violation?_eq_none.1 hcause
    have hroom := h.hasRoom hreleased
    rcases write_cases hvalid hroom.isLive memory with
      ⟨capacity, left, hrun, hroomy⟩ | ⟨bytes, left, hrun, hrefused⟩
    · rw [hrun]
      exact .made hcause hroomy
    · -- what fits is not refused, since it asks for nothing
      have hasks : buffer.capacity < buffer.size + first.bytes.length := by
        refine Nat.lt_of_not_le fun hfits => ?_
        rw [on_write_of_room hvalid hroom.isLive hfits hroom.capacity_le] at hrun
        cases hrun
      rw [hrun]
      exact .refused hcause hasks hrefused

theorem Written.whole {outcome : Except Fault Unit} {after : TextBuffer}
    (hwritten : Written first buffer memory outcome after) (h : buffer.Whole) : after.Whole := by
  cases hwritten with
  | violated => exact h
  | refused => exact h
  | made allowed roomy =>
    obtain ⟨hvalid, hreleased⟩ := Write.violation?_eq_none.1 allowed
    exact h.extend (h.hasRoom hreleased) roomy hvalid.exists_text

/-- Once there is room for a write, each of its bytes is added to those before it without a request
    for more, and none of them fails. -/
def Write.Unhindered (first : Write) (buffer : TextBuffer) (memory : Memory) : Prop :=
  ∀ roomy granted,
    ((reserve first.bytes.length).on buffer).run memory = ((.ok (), roomy), granted) →
      ∀ front byte back, first.bytes = front ++ byte :: back →
        ((appendAll front).on roomy).run granted = ((.ok (), roomy.extend front), granted)
          ∧ ((append byte).on (roomy.extend front)).run granted
            = ((.ok (), roomy.extend (front ++ [byte])), granted)

/-- Of items that fit, each is added to those before it without a request. -/
theorem on_append_of_front {roomy : TextBuffer} {front back : List UInt8} {byte : UInt8}
    (hlive : roomy.IsLive) (h : roomy.size + (front ++ byte :: back).length ≤ roomy.capacity)
    (memory : Memory) :
    ((appendAll front).on roomy).run memory = ((.ok (), roomy.extend front), memory)
      ∧ ((append byte).on (roomy.extend front)).run memory
        = ((.ok (), roomy.extend (front ++ [byte])), memory) := by
  rw [List.length_append, List.length_cons] at h
  have hbyte : (roomy.extend front).size + 1 ≤ roomy.capacity := by
    rw [size_extend]
    omega
  have hstill : (roomy.extend front).IsLive := hlive
  refine ⟨on_appendAll_of_room hlive (by omega) memory, ?_⟩
  rw [on_append_of_room byte hstill hbyte, extend_extend]

theorem Whole.unhindered (h : buffer.Whole) (first : Write) (memory : Memory) :
    first.Unhindered buffer memory := by
  intro roomy granted hreserve front byte back hbytes
  have hlive : buffer.IsLive := by
    rcases h.room with rfl | hroom
    · cases hreserve
    · exact hroom.isLive
  rcases reserve_cases first.bytes.length hlive memory with
    ⟨capacity, left, hrun, hroomy⟩ | ⟨bytes, left, hrun, -⟩
  · have hroom := hroomy.enough
    have hstill : IsLive (⟨buffer.itemSize, capacity, buffer.items⟩ : TextBuffer) := hlive
    rw [hrun] at hreserve
    cases hreserve
    rw [hbytes] at hroom
    exact on_append_of_front hstill hroom granted
  · rw [hrun] at hreserve
    cases hreserve

/-! ## 3. Whole runs -/

theorem whole_init {capacity : Nat} {after : Memory}
    (h : (init capacity).run.run memory = (.ok buffer, after)) : buffer.Whole := by
  obtain ⟨rfl, hfits⟩ := eq_of_init h
  exact ⟨Or.inr ⟨rfl, capacity_pos capacity, Nat.zero_le _, hfits⟩, [], rfl⟩

/-- **An operation leaves a whole buffer whole.** -/
theorem whole_perform (h : buffer.Whole) (operation : Operation) (memory : Memory) :
    Whole ((operation.perform.on buffer).run memory).1.2 := by
  cases operation with
  | init capacity =>
    rw [Operation.perform, InPlace.on_bind, InPlace.on_ofAlloc]
    cases hrun : (init capacity).run.run memory with
    | mk outcome left =>
      cases outcome with
      | ok fresh => exact whole_init hrun
      | error fault => exact h
  | released => exact whole_released
  | write first => exact (written h first memory).whole h
  | release => exact whole_released

theorem whole_performAll (operations : List Operation) (h : buffer.Whole) (memory : Memory) :
    (performAll operations buffer memory).1.Whole := by
  induction operations generalizing buffer memory with
  | nil => exact h
  | cons operation operations ih => exact ih (whole_perform h operation memory) _

/-! ## 4. Taking bytes for a text -/

/-- What has to hold for the bytes of a buffer to be taken for a text unseen: they are UTF-8, those
    of a released buffer are none, and those of any other are items of one byte. -/
structure Readable (buffer : TextBuffer) : Prop where
  valid : buffer.bytes.toByteArray.IsValidUTF8
  text : Text.ofBytes? buffer.bytes = some buffer.text
  released : buffer.isReleased = true → buffer.text = ""
  live : buffer.isReleased = false → buffer.itemSize = 1

theorem Whole.readable (h : buffer.Whole) : buffer.Readable := by
  obtain ⟨characters, hbytes⟩ := h.spells
  have htext : Text.ofBytes? buffer.bytes = some (String.ofList characters) := by
    rw [hbytes]
    exact Text.ofBytes?_toBytes characters
  refine ⟨⟨characters, ?_⟩, ?_, ?_, ?_⟩
  · rw [hbytes]
    rfl
  · rw [text, htext]
    rfl
  · intro hreleased
    rcases h.room with rfl | hroom
    · rfl
    · rw [hroom.isLive.isReleased] at hreleased
      cases hreleased
  · intro hlive
    exact (h.hasRoom hlive).itemSize

end

/-- **A buffer holds whole texts.** After any operations on a buffer that is released at first, in
    any memory, its bytes can be read; the next write is made whole or changes nothing; and once
    that write has room, none of its bytes fails or makes the buffer grow. -/
theorem buffer_holds_whole_texts (operations : List Operation) (first : Write) (memory : Memory) :
    let (buffer, memory) := performAll operations ItemArray.released memory
    let ((outcome, after), _) := ((write first).on buffer).run memory
    buffer.Readable ∧ Written first buffer memory outcome after ∧ after.Readable
      ∧ first.Unhindered buffer memory := by
  have hwhole := whole_performAll operations whole_released memory
  have hwritten := written hwhole first (performAll operations ItemArray.released memory).2
  exact ⟨hwhole.readable, hwritten, (hwritten.whole hwhole).readable, hwhole.unhindered _ _⟩

end TextBuffer
end ErbTemplate
