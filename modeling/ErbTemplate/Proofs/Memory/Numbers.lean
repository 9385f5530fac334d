import ErbTemplate.Proofs.Memory.Refinement
import Mathlib.Algebra.Ring.Nat

/-!
# Numbers are a view of the bytes

An array knows nothing of numbers. It holds items that are bytes, and a number type is a way to look
at them, of which there are two for every width. This file says that the view is exact in both
directions and that all views look at the same items.

* **Nothing is lost** between a number and its bytes: `decode` and `encode` are inverse to each
  other, on the numbers of the type and on the bytes of its width (`NumberType.Codec`).
* **Every operation on numbers is one on bytes** with `decode` or `encode` around it
  (`ItemArray.SeenAs`), so numbers can be left out of a run without a change to the array
  (`performAll_bytewise`).
* **Where the widths differ nothing is looked at**, neither the items nor the index
  (`ItemArray.Mismatched`). An empty array still has no first and no last number of any type.
-/

set_option autoImplicit false

namespace ErbTemplate

/-! ## 1. Numbers and their bytes -/

namespace NumberType

variable {type other : NumberType}

theorem ofLittleEndian_littleEndian (width value : Nat) :
    ofLittleEndian (littleEndian width value) = value % 256 ^ width := by
  induction width generalizing value with
  | zero => rw [littleEndian, ofLittleEndian, Nat.pow_zero, Nat.mod_one]
  | succ width ih =>
    have hsplit : value % 256 ^ (width + 1) = value % 256 + 256 * (value / 256 % 256 ^ width) := by
      rw [Nat.pow_succ', Nat.mod_mul]
    rw [littleEndian, ofLittleEndian, ih, UInt8.toNat_ofNat', hsplit]
    omega

theorem littleEndian_ofLittleEndian (bytes : Bytes) :
    littleEndian bytes.length (ofLittleEndian bytes) = bytes := by
  induction bytes with
  | nil => rfl
  | cons byte bytes ih =>
    have hbyte := byte.toNat_lt
    have hlow : (byte.toNat + 256 * ofLittleEndian bytes) % 256 = byte.toNat := by omega
    have hhigh : (byte.toNat + 256 * ofLittleEndian bytes) / 256 = ofLittleEndian bytes := by omega
    rw [List.length_cons, ofLittleEndian, littleEndian, hlow, hhigh, ih, UInt8.ofNat_toNat]

theorem ofLittleEndian_lt (bytes : Bytes) : ofLittleEndian bytes < 256 ^ bytes.length := by
  induction bytes with
  | nil => exact Nat.one_pos
  | cons byte bytes ih =>
    have hbyte := byte.toNat_lt
    rw [List.length_cons, ofLittleEndian, Nat.pow_succ]
    omega

/-- The numbers of a type: as many below zero as not, if it is signed, and none below zero
    otherwise. -/
def Holds (type : NumberType) (value : Int) : Prop :=
  if type.signed then -(type.modulus : Int) ≤ 2 * value ∧ 2 * value < type.modulus
  else 0 ≤ value ∧ value < type.modulus

/-- Numbers of a type and bytes of its width stand for each other. -/
structure Codec (type : NumberType) : Prop where
  length_encode : ∀ value, (type.encode value).length = type.width
  decode_encode : ∀ value, type.Holds value → type.decode (type.encode value) = value
  holds_decode : ∀ bytes : Bytes, bytes.length = type.width → type.Holds (type.decode bytes)
  encode_decode : ∀ bytes : Bytes, bytes.length = type.width →
    type.encode (type.decode bytes) = bytes

theorem modulus_pos (type : NumberType) : 0 < type.modulus :=
  Nat.pow_pos (by decide)

/-- A number is read as the one of its type that has the same remainder. -/
theorem decode_emod (type : NumberType) (bytes : Bytes) :
    type.decode bytes % type.modulus = (ofLittleEndian bytes : Int) % type.modulus := by
  unfold decode
  simp only
  split
  · exact Int.sub_emod_right _ _
  · rfl

theorem ofLittleEndian_encode (type : NumberType) (value : Int) :
    (ofLittleEndian (type.encode value) : Int) = value % type.modulus := by
  have hpos : (0 : Int) < type.modulus := Int.ofNat_lt.2 type.modulus_pos
  have hnonneg := Int.emod_nonneg value (Int.ne_of_gt hpos)
  have hlt := Int.emod_lt_of_pos value hpos
  have hsmall : (value % type.modulus).toNat < 256 ^ type.width := by
    have hmodulus : 256 ^ type.width = type.modulus := rfl
    omega
  rw [encode, ofLittleEndian_littleEndian, Nat.mod_eq_of_lt hsmall, Int.toNat_of_nonneg hnonneg]

/-- **Two types of one width read the same bytes alike, up to the number of their values.** -/
theorem decode_encode_emod (hwidth : other.width = type.width) (value : Int) :
    other.decode (type.encode value) % type.modulus = value % type.modulus := by
  have hmodulus : type.modulus = other.modulus := by rw [modulus, modulus, hwidth]
  rw [hmodulus, decode_emod, ← hmodulus, ofLittleEndian_encode, Int.emod_emod]

theorem holds_decode {bytes : Bytes} (h : bytes.length = type.width) :
    type.Holds (type.decode bytes) := by
  have hlt : ofLittleEndian bytes < type.modulus := by
    rw [modulus, ← h]
    exact ofLittleEndian_lt bytes
  unfold Holds decode
  cases type.signed with
  | false =>
    simp only [Bool.false_eq_true, if_false, Bool.false_and]
    omega
  | true =>
    simp only [if_true, Bool.true_and, decide_eq_true_eq]
    split <;> omega

theorem emod_of_lt {value modulus : Int} (hlow : -modulus ≤ value) (hhigh : value < modulus) :
    value % modulus = if 0 ≤ value then value else value + modulus := by
  split
  next hnonneg => exact Int.emod_eq_of_lt hnonneg hhigh
  next hneg =>
    rw [← Int.add_emod_right]
    exact Int.emod_eq_of_lt (by omega) (by omega)

/-- A remainder belongs to one number of a type. -/
theorem Holds.eq_of_emod_eq {value value' : Int} (h : type.Holds value) (h' : type.Holds value')
    (hmod : value % type.modulus = value' % type.modulus) : value = value' := by
  have hpos : (0 : Int) < type.modulus := Int.ofNat_lt.2 type.modulus_pos
  unfold Holds at h h'
  cases hsigned : type.signed with
  | false =>
    simp only [hsigned, Bool.false_eq_true, if_false] at h h'
    rwa [Int.emod_eq_of_lt h.1 h.2, Int.emod_eq_of_lt h'.1 h'.2] at hmod
  | true =>
    -- one remainder would stand for two numbers only if these were a modulus apart
    simp only [hsigned, if_true] at h h'
    rw [emod_of_lt (by omega) (by omega), emod_of_lt (by omega) (by omega)] at hmod
    split at hmod <;> split at hmod <;> omega

theorem decode_encode {value : Int} (h : type.Holds value) :
    type.decode (type.encode value) = value :=
  (holds_decode (ItemArray.length_littleEndian _ _)).eq_of_emod_eq h (decode_encode_emod rfl value)

theorem encode_decode {bytes : Bytes} (h : bytes.length = type.width) :
    type.encode (type.decode bytes) = bytes := by
  have hlt : ofLittleEndian bytes < type.modulus := by
    rw [modulus, ← h]
    exact ofLittleEndian_lt bytes
  have hvalue : (type.decode bytes % type.modulus).toNat = ofLittleEndian bytes := by
    rw [decode_emod, Int.emod_eq_of_lt (by omega) (by omega)]
    rfl
  rw [encode, hvalue, ← h, littleEndian_ofLittleEndian]

theorem codec (type : NumberType) : type.Codec where
  length_encode _ := ItemArray.length_littleEndian _ _
  decode_encode _ := decode_encode
  holds_decode _ := holds_decode
  encode_decode _ := encode_decode

end NumberType

/-! ## 2. One operation -/

namespace ItemArray

open InPlace (answering renew reading on_answering on_renew on_reading)

/-- An array whose items are as wide as a type, seen through that type. -/
structure SeenAs (type : NumberType) (array : ItemArray Bytes) (memory : Memory) : Prop where
  /-- The items and their numbers stand for each other. -/
  faithful : ∀ item ∈ array.items.toList,
    type.Holds (type.decode item) ∧ type.encode (type.decode item) = item
  append : ∀ value, ((appendNumber type value).on array).run memory
    = ((appendBytes (type.encode value)).on array).run memory
  nth : ∀ index, array.nthNumber type index = (array.nth index).map type.decode
  first : array.firstNumber? type = .ok (array.first?.map type.decode)
  last : array.lastNumber? type = .ok (array.last?.map type.decode)
  pop : ((popNumber? type).on array).run memory =
    match ((popBytes? type.width).on array).run memory with
    | ((outcome, after), left) => ((outcome.map (Option.map type.decode), after), left)
  numbers : array.numbers type = .ok (array.items.toList.map type.decode)
  /-- A number that has been added is read back, in whichever way. -/
  back : ∀ value after left, type.Holds value →
    ((appendNumber type value).on array).run memory = ((.ok (), after), left) →
      after.nthNumber type array.size = .ok value ∧ after.lastNumber? type = .ok (some value)
        ∧ after.numbers type = .ok (array.items.toList.map type.decode ++ [value])
        ∧ ((popNumber? type).on after).run left
          = ((.ok (some value), { after with items := array.items }), left)

/-- An array whose items are not as wide as a type. -/
structure Mismatched (type : NumberType) (array : ItemArray Bytes) (memory : Memory) : Prop where
  append : ∀ value, ((appendNumber type value).on array).run memory
    = ((.error (.violation (.typeSize type.width array.itemSize)), array), memory)
  nth : ∀ index, array.nthNumber type index = .error (.typeSize type.width array.itemSize)
  pop : ((popNumber? type).on array).run memory
    = ((.error (.violation (.typeSize type.width array.itemSize)), array), memory)
  numbers : array.numbers type = .error (.typeSize type.width array.itemSize)
  /-- Where there are no items, there is no first or last one. -/
  first : array.firstNumber? type
    = if array.isEmpty then .ok none else .error (.typeSize type.width array.itemSize)
  last : array.lastNumber? type
    = if array.isEmpty then .ok none else .error (.typeSize type.width array.itemSize)

section

variable {type : NumberType} {array : ItemArray Bytes}

theorem nthNumber_of_width (h : type.width = array.itemSize) (index : Nat) :
    array.nthNumber type index = (array.nth index).map type.decode := by
  rw [nthNumber, checkType, if_pos h]
  cases array.nth index <;> rfl

theorem nthNumber_of_width_ne (h : type.width ≠ array.itemSize) (index : Nat) :
    array.nthNumber type index = .error (.typeSize type.width array.itemSize) := by
  rw [nthNumber, checkType, if_neg h]
  rfl

theorem numbers_of_width (h : type.width = array.itemSize) :
    array.numbers type = .ok (array.items.toList.map type.decode) := by
  rw [numbers, checkType, if_pos h]
  rfl

theorem on_appendNumber (type : NumberType) (value : Int) (array : ItemArray Bytes)
    (memory : Memory) :
    ((appendNumber type value).on array).run memory =
      if type.width = array.itemSize then ((append (type.encode value)).on array).run memory
      else ((.error (.violation (.typeSize type.width array.itemSize)), array), memory) :=
  on_requireType type (append (type.encode value)) array memory

/-- The first and the last number are read at an index that is there unless the array is empty. -/
theorem number?_of_width {index : Nat} (h : type.width = array.itemSize)
    (hindex : array.items.size ≠ 0 → index < array.items.size) :
    (if array.isEmpty then .ok none else some <$> array.nthNumber type index)
      = (.ok (array.items[index]?.map type.decode) : Except Violation (Option Int)) := by
  rw [nthNumber_of_width h, nth, isEmpty, size]
  by_cases hempty : array.items.size = 0
  · rw [if_pos (beq_iff_eq.2 hempty), Array.getElem?_eq_none (by omega)]
    rfl
  · rw [if_neg (mt beq_iff_eq.1 hempty), Array.getElem?_eq_getElem (hindex hempty)]
    rfl

theorem firstNumber?_of_width (h : type.width = array.itemSize) :
    array.firstNumber? type = .ok (array.first?.map type.decode) :=
  number?_of_width h Nat.pos_of_ne_zero

theorem lastNumber?_of_width (h : type.width = array.itemSize) :
    array.lastNumber? type = .ok (array.last?.map type.decode) := by
  rw [last?, Array.back?]
  exact number?_of_width h fun hpos => Nat.sub_lt (Nat.pos_of_ne_zero hpos) Nat.one_pos

theorem popNumber?_of_width (h : type.width = array.itemSize) (memory : Memory) :
    ((popNumber? type).on array).run memory =
      match ((popBytes? type.width).on array).run memory with
      | ((outcome, after), left) => ((outcome.map (Option.map type.decode), after), left) := by
  rw [on_popNumber?, on_popBytes?, if_pos h, if_pos h]
  rfl

theorem appendNumber_eq_appendBytes (h : type.width = array.itemSize) (value : Int)
    (memory : Memory) :
    ((appendNumber type value).on array).run memory
      = ((appendBytes (type.encode value)).on array).run memory := by
  have hlength : (type.encode value).length = array.itemSize := (length_littleEndian _ _).trans h
  rw [on_appendNumber, on_appendBytes, if_pos h, if_pos hlength]

/-- **A number that has been added is read back**, in whichever way. -/
theorem readBack {value : Int} {after : ItemArray Bytes} {memory left : Memory}
    (htype : type.width = array.itemSize) (hvalue : type.Holds value)
    (h : ((appendNumber type value).on array).run memory = ((.ok (), after), left)) :
    after.nthNumber type array.size = .ok value ∧ after.lastNumber? type = .ok (some value)
      ∧ after.numbers type = .ok (array.items.toList.map type.decode ++ [value])
      ∧ ((popNumber? type).on after).run left
        = ((.ok (some value), { after with items := array.items }), left) := by
  rw [on_appendNumber, if_pos htype] at h
  obtain ⟨hsize, hitems⟩ := append_keeps h
  have hwidth : type.width = after.itemSize := htype.trans hsize.symm
  have hread := NumberType.decode_encode hvalue
  refine ⟨?_, ?_, ?_, ?_⟩
  · rw [nthNumber_of_width hwidth, nth, hitems, size, Array.getElem?_push_size]
    exact congrArg Except.ok hread
  · rw [lastNumber?_of_width hwidth, last?, hitems, Array.back?_push, Option.map_some, hread]
  · rw [numbers_of_width hwidth, hitems, Array.toList_push, List.map_append, List.map_singleton,
      hread]
  · rw [on_popNumber?, if_pos hwidth, hitems, Array.toList_push, List.getLast?_concat,
      Array.pop_push, Option.map_some, hread]

theorem Sound.seenAs (hsound : array.Sound) (h : type.width = array.itemSize) (memory : Memory) :
    array.SeenAs type memory where
  faithful item hmem := by
    have hlength : item.length = type.width := by
      rcases hsound with ⟨-, -, hempty⟩ | hlive
      · rw [size, ← Array.length_toList, List.length_eq_zero_iff] at hempty
        rw [hempty] at hmem
        cases hmem
      · exact (hlive.fixed item hmem).trans h.symm
    exact ⟨NumberType.holds_decode hlength, NumberType.encode_decode hlength⟩
  append value := appendNumber_eq_appendBytes h value memory
  nth index := nthNumber_of_width h index
  first := firstNumber?_of_width h
  last := lastNumber?_of_width h
  pop := popNumber?_of_width h memory
  numbers := numbers_of_width h
  back value after left hvalue hrun := readBack h hvalue hrun

theorem mismatched (h : type.width ≠ array.itemSize) (memory : Memory) :
    array.Mismatched type memory := by
  have hend : ∀ index, (some <$> array.nthNumber type index : Except Violation (Option Int))
      = .error (.typeSize type.width array.itemSize) := by
    intro index
    rw [nthNumber_of_width_ne h]
    rfl
  refine ⟨?_, nthNumber_of_width_ne h, ?_, ?_, ?_, ?_⟩
  · intro value
    rw [on_appendNumber, if_neg h]
  · rw [on_popNumber?, if_neg h]
  · rw [numbers, checkType, if_neg h]
    rfl
  · rw [firstNumber?, hend]
  · rw [lastNumber?, hend]

end

/-! ## 3. Runs -/

/-- The operation on bytes that does the same to an array. One that reads numbers does nothing. -/
def Operation.bytewise? : Operation → Option Operation
  | .initFor type capacity => some (.init type.width capacity)
  | .appendNumber type value => some (.appendBytes (type.encode value))
  | .popNumber type => some (.popBytes type.width)
  | .nthNumber .. | .firstNumber _ | .lastNumber _ | .numbers _ => none
  | operation => some operation

/-- What an operation leaves: an array and a memory. -/
def Operation.leaves (operation : Operation) (array : ItemArray Bytes) (memory : Memory) :
    ItemArray Bytes × Memory :=
  let ((_, after), left) := (operation.perform.on array).run memory
  (after, left)

theorem leaves_bytewise? (operation : Operation) (array : ItemArray Bytes) (memory : Memory) :
    operation.leaves array memory
      = (operation.bytewise?.map fun bytewise => bytewise.leaves array memory).getD
          (array, memory) := by
  cases operation with
  | appendNumber type value =>
    simp only [Operation.leaves, Operation.bytewise?, Operation.perform, on_answering,
      Option.map_some, Option.getD_some]
    by_cases h : type.width = array.itemSize
    · rw [appendNumber_eq_appendBytes h]
    · have hlength : (type.encode value).length ≠ array.itemSize := by
        rw [NumberType.encode, length_littleEndian]
        exact h
      rw [on_appendNumber, on_appendBytes, if_neg h, if_neg hlength]
  | popNumber type =>
    simp only [Operation.leaves, Operation.bytewise?, Operation.perform, on_answering,
      Option.map_some, Option.getD_some]
    rw [on_popNumber?, on_popBytes?]
    by_cases h : type.width = array.itemSize
    · rw [if_pos h, if_pos h]
    · rw [if_neg h, if_neg h]
  | nthNumber | firstNumber | lastNumber | numbers =>
    simp only [Operation.leaves, Operation.bytewise?, Operation.perform, on_answering, on_reading,
      Option.map_none, Option.getD_none]
  | _ => rfl

theorem performAll_cons (operation : Operation) (operations : List Operation)
    (array : ItemArray Bytes) (memory : Memory) :
    (performAll (operation :: operations) array memory).array
        = (performAll operations (operation.leaves array memory).1
            (operation.leaves array memory).2).array
      ∧ (performAll (operation :: operations) array memory).memory
        = (performAll operations (operation.leaves array memory).1
            (operation.leaves array memory).2).memory :=
  ⟨rfl, rfl⟩

/-- **Numbers can be left out of a run.** -/
theorem performAll_bytewise (operations : List Operation) (array : ItemArray Bytes)
    (memory : Memory) :
    (performAll (operations.filterMap Operation.bytewise?) array memory).array
        = (performAll operations array memory).array
      ∧ (performAll (operations.filterMap Operation.bytewise?) array memory).memory
        = (performAll operations array memory).memory := by
  induction operations generalizing array memory with
  | nil => exact ⟨rfl, rfl⟩
  | cons operation operations ih =>
    have hstep := leaves_bytewise? operation array memory
    obtain ⟨harray, hmemory⟩ := performAll_cons operation operations array memory
    rw [harray, hmemory, hstep, List.filterMap_cons]
    cases operation.bytewise? with
    | none => exact ih array memory
    | some bytewise =>
      obtain ⟨harray, hmemory⟩ :=
        performAll_cons bytewise (operations.filterMap Operation.bytewise?) array memory
      rw [harray, hmemory]
      exact ih _ _

/-- **Numbers are a faithful view of the bytes.** After any operations on an array that is released
    at first, in any memory, a type as wide as the items sees what is there, and any other type
    sees nothing. The array itself is what operations on bytes alone would have made of it, and
    types of one width differ in what they see by a multiple of the number of their values. -/
theorem numbers_are_faithful_views (operations : List Operation) (memory : Memory)
    (type : NumberType) :
    let run := performAll operations released memory
    let bytewise := performAll (operations.filterMap Operation.bytewise?) released memory
    type.Codec
      ∧ (type.width = run.array.itemSize → run.array.SeenAs type run.memory)
      ∧ (∀ array memory, type.width ≠ array.itemSize → Mismatched type array memory)
      ∧ (bytewise.array = run.array ∧ bytewise.memory = run.memory)
      ∧ ∀ other : NumberType, other.width = type.width → ∀ value,
          other.decode (type.encode value) % type.modulus = value % type.modulus := by
  have hsound := (replay_performAll operations memory sound_released).1
  refine ⟨type.codec, ?_, ?_, performAll_bytewise operations released memory, ?_⟩
  · intro hwidth
    exact hsound.seenAs hwidth _
  · intro array memory hwidth
    exact mismatched hwidth memory
  · intro other hwidth value
    exact NumberType.decode_encode_emod hwidth value

end ItemArray
end ErbTemplate
