import ErbTemplate.Proofs.Memory.Room
import ErbTemplate.Proofs.Text.Bytes

/-!
# Writing into a text buffer

A write makes room for all of its bytes before it adds the first, so it asks for memory at one place
only, and there is one thing to know about a list of writes:

> **`bytes_of_on_writeAll`** — writes that have all been made added their bytes, in order.

Which writes may be made at all is said by `Write.Valid`: single bytes have to be ASCII. Others, and
writes into a released buffer, are violations (`Write.violation?`). Valid writes spell a text
(`exists_text_of_valid`), refused memory is all that can stop them (`unbroken_writeAll`), and it
does not stop them when it grants twice the room for everything that the buffer then holds
(`exists_on_writeAll`).
-/

set_option autoImplicit false

namespace ErbTemplate
namespace TextBuffer

/-! ## 1. Valid writes -/

/-- A write that no buffer with room breaks off: its single bytes are ASCII characters. -/
def Write.Valid : Write → Prop
  | .text _ => True
  | .byte value => isAscii value = true
  | .repeated value _ => isAscii value = true

/-- An ASCII byte is the whole form of a character. -/
theorem exists_char_of_isAscii {byte : UInt8} (h : isAscii byte = true) :
    ∃ c, String.utf8EncodeChar c = [byte] := by
  have hlt : byte.toNat < 128 := by
    rw [isAscii, decide_eq_true_eq, UInt8.lt_iff_toNat_lt] at h
    exact h
  have hcode : (Char.ofUInt8 byte).toNat = byte.toNat := rfl
  refine ⟨Char.ofUInt8 byte, ?_⟩
  rw [Text.utf8EncodeChar_of_ascii (by omega), hcode, UInt8.ofNat_toNat]

theorem Write.Valid.exists_text {write : Write} (h : write.Valid) :
    ∃ text, write.bytes = Text.toBytes text := by
  cases write with
  | text characters => exact ⟨characters, rfl⟩
  | byte value =>
    obtain ⟨c, hc⟩ := exists_char_of_isAscii h
    refine ⟨[c], ?_⟩
    rw [Text.toBytes_cons, hc]
    rfl
  | repeated value count =>
    obtain ⟨c, hc⟩ := exists_char_of_isAscii h
    refine ⟨List.replicate count c, ?_⟩
    induction count with
    | zero => rfl
    | succ count ih =>
      rw [List.replicate_succ, Text.toBytes_cons, hc, ← ih h]
      rfl

/-- **Valid writes spell a text.** -/
theorem exists_text_of_valid {writes : List Write} (h : ∀ write ∈ writes, write.Valid) :
    ∃ text, writes.flatMap Write.bytes = Text.toBytes text := by
  induction writes with
  | nil => exact ⟨[], rfl⟩
  | cons first others ih =>
    obtain ⟨front, hfront⟩ := (h first List.mem_cons_self).exists_text
    obtain ⟨back, hback⟩ := ih fun write hmem => h write (List.mem_cons_of_mem first hmem)
    exact ⟨front ++ back, by rw [List.flatMap_cons, hfront, hback, Text.toBytes_append]⟩

/-- The violation that a write into a buffer is, if it is one. The byte is looked at first, and the
    buffer only when it is an ASCII character. -/
def Write.violation? (buffer : TextBuffer) : Write → Option Violation
  | .text _ => if buffer.isReleased then some .released else none
  | .byte value =>
    if isAscii value then if buffer.isReleased then some (.itemLength 1 0) else none
    else some .notAscii
  | .repeated value _ =>
    if isAscii value then if buffer.isReleased then some .released else none
    else some .notAscii

theorem Write.violation?_eq_none {first : Write} {buffer : TextBuffer} :
    first.violation? buffer = none ↔ first.Valid ∧ buffer.isReleased = false := by
  cases first with
  | text characters => simp [violation?, Valid]
  | byte value => cases hascii : isAscii value <;> simp [violation?, Valid, hascii]
  | repeated value count => cases hascii : isAscii value <;> simp [violation?, Valid, hascii]

/-- **A violation breaks a write off at once.** -/
theorem on_write_of_violation? {first : Write} {buffer : TextBuffer} {cause : Violation}
    (h : first.violation? buffer = some cause) (memory : Memory) :
    ((write first).on buffer).run memory = ((.error (.violation cause), buffer), memory) := by
  have hreserve : ∀ count, buffer.isReleased = true →
      ((ItemArray.reserve count).on buffer).run memory
        = ((.error (.violation .released), buffer), memory) := by
    intro count hreleased
    rw [ItemArray.on_reserve, if_pos hreleased]
  cases first with
  | text characters =>
    rw [Write.violation?, Option.ite_none_right_eq_some] at h
    obtain ⟨hreleased, ⟨⟩⟩ := h
    rw [write, appendText, InPlace.on_bind, hreserve _ hreleased]
  | byte value =>
    rw [write, appendByte, InPlace.on_bind, InPlace.on_get]
    rw [Write.violation?] at h
    split at h
    next hascii =>
      rw [Option.ite_none_right_eq_some] at h
      obtain ⟨hreleased, ⟨⟩⟩ := h
      simp only [if_pos hascii, if_pos hreleased, InPlace.on_violate]
    next hascii =>
      cases h
      simp only [if_neg hascii, InPlace.on_violate]
  | repeated value count =>
    rw [write, appendRepeated]
    rw [Write.violation?] at h
    split at h
    next hascii =>
      rw [Option.ite_none_right_eq_some] at h
      obtain ⟨hreleased, ⟨⟩⟩ := h
      rw [if_pos hascii, InPlace.on_bind, hreserve _ hreleased]
    next hascii =>
      cases h
      rw [if_neg hascii, InPlace.on_violate]

/-! ## 2. Refusals are the only faults of a valid write -/

theorem on_appendByte {value : UInt8} {buffer : TextBuffer} (hvalid : isAscii value = true)
    (hlive : buffer.isReleased = false) (memory : Memory) :
    ((appendByte value).on buffer).run memory
      = ((ItemArray.append value).on buffer).run memory := by
  rw [appendByte, InPlace.on_bind, InPlace.on_get]
  simp only [hvalid, hlive]
  rfl

theorem appendRepeated_eq {value : UInt8} (hvalid : isAscii value = true) (count : Nat) :
    appendRepeated value count = (do
      ItemArray.reserve count
      ItemArray.appendAll (List.replicate count value)) :=
  if_pos hvalid

theorem unbroken_write {first : Write} (h : first.Valid) :
    InPlace.Unbroken ItemArray.IsLive (write first) := by
  cases first with
  | text characters =>
    exact (ItemArray.unbroken_reserve _).bind fun _ => ItemArray.unbroken_appendAll _
  | byte value =>
    intro buffer memory hlive
    rw [write, on_appendByte h hlive.isReleased]
    exact ItemArray.unbroken_append value buffer memory hlive
  | repeated value count =>
    rw [write, appendRepeated_eq h]
    exact (ItemArray.unbroken_reserve _).bind fun _ => ItemArray.unbroken_appendAll _

theorem unbroken_writeAll {writes : List Write} (h : ∀ write ∈ writes, write.Valid) :
    InPlace.Unbroken ItemArray.IsLive (writeAll writes) := by
  induction writes with
  | nil => exact InPlace.unbroken_pure ()
  | cons first others ih =>
    refine (unbroken_write (h first List.mem_cons_self)).bind fun _ => ?_
    exact ih fun write hmem => h write (List.mem_cons_of_mem first hmem)

theorem capacity_pos (capacity : Nat) : 0 < max capacity 1 :=
  Nat.lt_of_lt_of_le Nat.one_pos (Nat.le_max_right _ _)

/-- Room for a new buffer can be refused, and nothing worse. -/
theorem unbroken_init (capacity : Nat) : (init capacity).Unbroken :=
  ItemArray.unbroken_init Nat.one_pos (capacity_pos capacity)

theorem isLive_of_init {capacity : Nat} {memory after : Memory} {buffer : TextBuffer}
    (h : (init capacity).run.run memory = (.ok buffer, after)) : ItemArray.IsLive buffer := by
  rw [ItemArray.eq_of_run_init Nat.one_pos (capacity_pos capacity) h]
  exact Nat.one_pos

/-! ## 3. What is written -/

variable {buffer longer : TextBuffer} {memory after : Memory}

theorem bytes_of_on_reserve_appendAll {count : Nat} {items : List UInt8}
    (h : ((do
        ItemArray.reserve count
        ItemArray.appendAll items : InPlace TextBuffer Unit).on buffer).run memory
          = ((.ok (), longer), after)) : longer.bytes = buffer.bytes ++ items := by
  obtain ⟨_, roomy, _, hreserve, happend⟩ := InPlace.exists_of_on_bind_ok h
  rw [bytes, ItemArray.items_of_on_appendAll happend, (ItemArray.reserve_keeps hreserve).2]
  rfl

theorem bytes_of_on_appendByte {value : UInt8}
    (h : ((appendByte value).on buffer).run memory = ((.ok (), longer), after)) :
    longer.bytes = buffer.bytes ++ [value] := by
  obtain ⟨_, _, _, hget, h⟩ := InPlace.exists_of_on_bind_ok h
  rw [InPlace.on_get] at hget
  cases hget
  split at h
  · split at h
    · rw [InPlace.on_violate] at h
      cases h
    · rw [bytes, (ItemArray.append_keeps h).2, Array.toList_push]
      rfl
  · rw [InPlace.on_violate] at h
    cases h

theorem bytes_of_on_write {first : Write}
    (h : ((write first).on buffer).run memory = ((.ok (), longer), after)) :
    longer.bytes = buffer.bytes ++ first.bytes := by
  cases first with
  | text characters => exact bytes_of_on_reserve_appendAll h
  | byte value => exact bytes_of_on_appendByte h
  | repeated value count =>
    rw [write, appendRepeated] at h
    split at h
    · exact bytes_of_on_reserve_appendAll h
    · rw [InPlace.on_violate] at h
      cases h

/-- **Writes that have all been made added their bytes, in order.** -/
theorem bytes_of_on_writeAll {writes : List Write}
    (h : ((writeAll writes).on buffer).run memory = ((.ok (), longer), after)) :
    longer.bytes = buffer.bytes ++ writes.flatMap Write.bytes := by
  induction writes generalizing buffer memory with
  | nil =>
    rw [writeAll, InPlace.on_pure] at h
    cases h
    exact (List.append_nil _).symm
  | cons first others ih =>
    obtain ⟨_, middle, _, hfirst, hrest⟩ := InPlace.exists_of_on_bind_ok h
    rw [ih hrest, bytes_of_on_write hfirst, List.flatMap_cons, List.append_assoc]

theorem bytes_of_init {capacity : Nat} (h : (init capacity).run.run memory = (.ok buffer, after)) :
    buffer.bytes = [] := by
  rw [ItemArray.eq_of_run_init Nat.one_pos (capacity_pos capacity) h]
  rfl

/-! ## 4. Enough memory -/

variable {limit : Nat}

/-- A buffer of bytes with room, in a memory that grants so many bytes at a time. -/
structure Ready (limit : Nat) (buffer : TextBuffer) (memory : Memory) : Prop where
  grants : memory.GrantsUpTo limit
  block : limit ≤ Memory.maxBlock
  itemSize : buffer.itemSize = 1
  capacity : 0 < buffer.capacity

theorem Ready.pos (h : Ready limit buffer memory) : 0 < buffer.itemSize := by
  rw [h.itemSize]
  exact Nat.one_pos

theorem Ready.room {count : Nat} (h : Ready limit buffer memory)
    (hroom : 2 * (buffer.size + count) ≤ limit) :
    buffer.itemSize * (2 * (buffer.size + count)) ≤ limit := by
  rw [h.itemSize, Nat.one_mul]
  exact hroom

theorem exists_run_init {capacity : Nat} (hgrants : memory.GrantsUpTo limit)
    (hblock : limit ≤ Memory.maxBlock) (hroom : max capacity 1 ≤ limit) :
    ∃ buffer after, (init capacity).run.run memory = (.ok buffer, after)
      ∧ Ready limit buffer after := by
  have hbytes : 1 * max capacity 1 ≤ limit := by rwa [Nat.one_mul]
  obtain ⟨granted, hrun, hgranted⟩ := ItemArray.exists_run_requestRoom hgrants hblock hbytes
  refine ⟨⟨1, max capacity 1, #[]⟩, granted, ?_, ⟨hgranted, hblock, rfl, capacity_pos capacity⟩⟩
  rw [init, ItemArray.run_init Nat.one_pos (capacity_pos capacity), hrun]

/-- Making room first and adding bytes then asks for memory once. -/
theorem exists_on_reserve_appendAll (items : List UInt8) (hready : Ready limit buffer memory)
    (hroom : 2 * (buffer.size + items.length) ≤ limit) :
    ∃ longer after, ((do
        ItemArray.reserve items.length
        ItemArray.appendAll items : InPlace TextBuffer Unit).on buffer).run memory
          = ((.ok (), longer), after) ∧ Ready limit longer after := by
  obtain ⟨capacity, between, hreserve, hpos, hbetween⟩ :=
    ItemArray.exists_on_reserve items.length hready.grants hready.block hready.pos hready.capacity
      (hready.room hroom)
  obtain ⟨longer, after, hrun, hsize, hcapacity, hafter⟩ :=
    ItemArray.exists_on_appendAll { buffer with capacity } items hbetween hready.block hready.pos
      hpos (hready.room hroom)
  refine ⟨longer, after, ?_, ⟨hafter, hready.block, hsize.trans hready.itemSize, hcapacity⟩⟩
  rw [InPlace.on_bind, hreserve]
  exact hrun

theorem exists_on_appendByte {value : UInt8} (hvalid : isAscii value = true)
    (hready : Ready limit buffer memory) (hroom : 2 * (buffer.size + 1) ≤ limit) :
    ∃ longer after, ((appendByte value).on buffer).run memory = ((.ok (), longer), after)
      ∧ Ready limit longer after := by
  have hlive : buffer.isReleased = false := ItemArray.IsLive.isReleased hready.pos
  obtain ⟨longer, after, hrun, hsize, -, hcapacity, hafter⟩ :=
    ItemArray.exists_on_append value hready.grants hready.block hready.pos hready.capacity
      (hready.room hroom)
  refine ⟨longer, after, ?_, ⟨hafter, hready.block, hsize.trans hready.itemSize, hcapacity⟩⟩
  rw [on_appendByte hvalid hlive]
  exact hrun

theorem exists_on_write {first : Write} (hvalid : first.Valid) (hready : Ready limit buffer memory)
    (hroom : 2 * (buffer.size + first.bytes.length) ≤ limit) :
    ∃ longer after, ((write first).on buffer).run memory = ((.ok (), longer), after)
      ∧ Ready limit longer after := by
  cases first with
  | text characters =>
    rw [write, appendText, ← Text.length_toBytes]
    exact exists_on_reserve_appendAll _ hready hroom
  | byte value => exact exists_on_appendByte hvalid hready hroom
  | repeated value count =>
    have h := exists_on_reserve_appendAll (List.replicate count value) hready hroom
    rw [List.length_replicate] at h
    rw [write, appendRepeated_eq hvalid]
    exact h

/-- **Writes are all made when there is memory for what the buffer then holds.** -/
theorem exists_on_writeAll {writes : List Write} (hvalid : ∀ write ∈ writes, write.Valid)
    (hready : Ready limit buffer memory)
    (hroom : 2 * (buffer.size + (writes.flatMap Write.bytes).length) ≤ limit) :
    ∃ longer after, ((writeAll writes).on buffer).run memory = ((.ok (), longer), after) := by
  induction writes generalizing buffer memory with
  | nil => exact ⟨buffer, memory, rfl⟩
  | cons first others ih =>
    rw [List.flatMap_cons, List.length_append] at hroom
    obtain ⟨middle, between, hrun, hmiddle⟩ :=
      exists_on_write (hvalid first List.mem_cons_self) hready (by omega)
    have hsize : middle.size = buffer.size + first.bytes.length := by
      have hlength := congrArg List.length (bytes_of_on_write hrun)
      rw [List.length_append] at hlength
      exact hlength
    rw [writeAll, InPlace.on_bind, hrun]
    exact ih (fun write hmem => hvalid write (List.mem_cons_of_mem first hmem)) hmiddle (by omega)

end TextBuffer
end ErbTemplate
