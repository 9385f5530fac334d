import ErbTemplate.Memory.ItemArray

/-!
# Room in memory

What an operation on a growable array does is an equation about its run: from an array and a
memory to an outcome, an array and a memory. §1 and §2 give these equations, one for each step that
the operations are made of, so that no later proof has to open the monads.

Two things about growth follow. **An operation that returns has done its work**
(`items_of_on_appendAll`), whatever was refused on the way. And **an operation that finds enough
memory returns** (`exists_on_appendAll`): doubling stops below twice what is needed
(`lt_two_mul_of_doubleTo`), so a memory that grants so many bytes is enough.
-/

set_option autoImplicit false

namespace ErbTemplate

/-! ## 1. Running -/

namespace Alloc

variable {α β : Type}

theorem run_pure (value : α) (memory : Memory) :
    (pure value : Alloc α).run.run memory = (.ok value, memory) := rfl

theorem run_get (memory : Memory) :
    (get : Alloc Memory).run.run memory = (.ok memory, memory) := rfl

theorem run_set (memory other : Memory) :
    (set other : Alloc Unit).run.run memory = (.ok (), other) := rfl

theorem run_fail (cause : Failure) (memory : Memory) :
    (fail cause : Alloc α).run.run memory = (.error (.failure cause), memory) := rfl

theorem run_bind (first : Alloc α) (second : α → Alloc β) (memory : Memory) :
    (first >>= second).run.run memory =
      match first.run.run memory with
      | (.ok value, memory) => (second value).run.run memory
      | (.error fault, memory) => (.error fault, memory) := by
  rw [ExceptT.run_bind, StateT.run_bind]
  rcases first.run.run memory with ⟨_ | _, _⟩ <;> rfl

theorem exists_run_of_outcome {computation : Alloc α} {memory : Memory} {value : α}
    (h : computation.outcome memory = .ok value) :
    ∃ after, computation.run.run memory = (.ok value, after) :=
  ⟨(computation.run.run memory).2, Prod.ext h rfl⟩

theorem exists_of_run_bind_ok {first : Alloc α} {second : α → Alloc β} {result : β}
    {memory after : Memory} (h : (first >>= second).run.run memory = (.ok result, after)) :
    ∃ value between, first.run.run memory = (.ok value, between)
      ∧ (second value).run.run between = (.ok result, after) := by
  rw [run_bind] at h
  cases hfirst : first.run.run memory with
  | mk outcome between =>
    rw [hfirst] at h
    cases outcome with
    | error => cases h
    | ok value => exact ⟨value, between, rfl, h⟩

/-- A request counts when it is made, granted or not; one that no machine can serve is not made. -/
theorem run_request (bytes : Nat) (memory : Memory) :
    (request bytes).run.run memory =
      if bytes ≤ Memory.maxBlock then
        (if memory.grants memory.requests bytes then .ok ()
          else .error (.failure (.allocation bytes)),
          { memory with requests := memory.requests + 1 })
      else (.error (.failure (.allocation bytes)), memory) := by
  unfold request
  split
  next =>
    rw [run_bind, run_get]
    simp only [run_bind, run_set]
    cases memory.grants memory.requests bytes <;> rfl
  next => rfl

end Alloc

namespace InPlace

variable {σ α β : Type}

theorem on_pure (value : α) (state : σ) (memory : Memory) :
    ((pure value : InPlace σ α).on state).run memory = ((.ok value, state), memory) := rfl

theorem on_get (state : σ) (memory : Memory) :
    ((get : InPlace σ σ).on state).run memory = ((.ok state, state), memory) := rfl

theorem on_modify (change : σ → σ) (state : σ) (memory : Memory) :
    ((modify change : InPlace σ Unit).on state).run memory
      = ((.ok (), change state), memory) := rfl

theorem on_violate (cause : Violation) (state : σ) (memory : Memory) :
    ((violate cause : InPlace σ α).on state).run memory
      = ((.error (.violation cause), state), memory) := rfl

theorem on_ofAlloc (computation : Alloc α) (state : σ) (memory : Memory) :
    ((ofAlloc computation : InPlace σ α).on state).run memory
      = (((computation.run.run memory).1, state), (computation.run.run memory).2) := rfl

theorem on_bind (first : InPlace σ α) (second : α → InPlace σ β) (state : σ) (memory : Memory) :
    ((first >>= second).on state).run memory =
      match (first.on state).run memory with
      | ((.ok value, state), memory) => ((second value).on state).run memory
      | ((.error fault, state), memory) => ((.error fault, state), memory) := by
  unfold on
  rw [ExceptT.run_bind, StateT.run_bind, StateT.run_bind]
  rcases (first.run.run state).run memory with ⟨⟨_ | _, _⟩, _⟩ <;> rfl

theorem exists_of_on_bind_ok {first : InPlace σ α} {second : α → InPlace σ β} {result : β}
    {state last : σ} {memory after : Memory}
    (h : ((first >>= second).on state).run memory = ((.ok result, last), after)) :
    ∃ value middle between, (first.on state).run memory = ((.ok value, middle), between)
      ∧ ((second value).on middle).run between = ((.ok result, last), after) := by
  rw [on_bind] at h
  cases hfirst : (first.on state).run memory with
  | mk outcome between =>
    obtain ⟨_ | value, middle⟩ := outcome
    · rw [hfirst] at h
      cases h
    · rw [hfirst] at h
      exact ⟨value, middle, between, rfl, h⟩

theorem run_apply (operation : InPlace σ α) (value : σ) (memory : Memory) :
    (operation.apply value).run.run memory =
      match (operation.on value).run memory with
      | ((result, value), memory) => (result.map fun _ => value, memory) := rfl

theorem exists_on_of_run_apply_ok {operation : InPlace σ α} {value last : σ}
    {memory after : Memory} (h : (operation.apply value).run.run memory = (.ok last, after)) :
    ∃ result, (operation.on value).run memory = ((.ok result, last), after) := by
  rw [run_apply] at h
  cases hrun : (operation.on value).run memory with
  | mk used left =>
    rw [hrun] at h
    obtain ⟨_ | result, state⟩ := used
    · cases h
    · cases h
      exact ⟨result, rfl⟩

theorem eq_of_on_ofAlloc {computation : Alloc α} {state last : σ} {memory after : Memory}
    {outcome : Except Fault α}
    (h : ((ofAlloc computation : InPlace σ α).on state).run memory = ((outcome, last), after)) :
    last = state := by
  rw [on_ofAlloc] at h
  cases h
  rfl

end InPlace

/-! ## 2. Operations on arrays -/

/-- The next request, for so many bytes, is refused: no machine can serve it, or this memory does
    not. -/
def Memory.Refuses (memory : Memory) (bytes : Nat) : Prop :=
  maxBlock < bytes ∨ memory.grants memory.requests bytes = false

namespace ItemArray

variable {α : Type}

def IsLive (array : ItemArray α) : Prop :=
  0 < array.itemSize

theorem IsLive.isReleased {array : ItemArray α} (h : array.IsLive) : array.isReleased = false := by
  rw [ItemArray.isReleased, beq_eq_false_iff_ne]
  exact Nat.ne_of_gt h

theorem requestRoom_cases (itemSize capacity : Nat) (memory : Memory) :
    (∃ after, (requestRoom itemSize capacity).run.run memory = (.ok (), after)
        ∧ itemSize * capacity ≤ Memory.maxBlock)
      ∨ ∃ bytes after, (requestRoom itemSize capacity).run.run memory
          = (.error (.failure (.allocation bytes)), after) ∧ memory.Refuses bytes := by
  unfold requestRoom
  split
  next =>
    rw [Alloc.run_request]
    by_cases hblock : itemSize * capacity ≤ Memory.maxBlock
    · rw [if_pos hblock]
      cases hgrant : memory.grants memory.requests (itemSize * capacity) with
      | false => exact Or.inr ⟨_, _, rfl, Or.inr hgrant⟩
      | true => exact Or.inl ⟨_, rfl, hblock⟩
    · rw [if_neg hblock]
      exact Or.inr ⟨_, _, rfl, Or.inl (Nat.lt_of_not_le hblock)⟩
  next => exact Or.inr ⟨_, _, rfl, Or.inl (by decide)⟩

theorem run_init {itemSize capacity : Nat} (hsize : 0 < itemSize) (hcapacity : 0 < capacity)
    (memory : Memory) :
    (init itemSize capacity : Alloc (ItemArray α)).run.run memory =
      match (requestRoom itemSize capacity).run.run memory with
      | (.ok (), memory) => (.ok ⟨itemSize, capacity, #[]⟩, memory)
      | (.error fault, memory) => (.error fault, memory) := by
  rw [init, if_neg (by omega), if_neg (by omega), Alloc.run_bind]
  rcases (requestRoom itemSize capacity).run.run memory with ⟨_ | _, _⟩ <;> rfl

theorem eq_of_run_init {itemSize capacity : Nat} (hsize : 0 < itemSize) (hcapacity : 0 < capacity)
    {array : ItemArray α} {memory after : Memory}
    (h : (init itemSize capacity : Alloc (ItemArray α)).run.run memory = (.ok array, after)) :
    array = ⟨itemSize, capacity, #[]⟩ := by
  rw [run_init hsize hcapacity] at h
  generalize (requestRoom itemSize capacity).run.run memory = answer at h
  obtain ⟨_ | _, _⟩ := answer
  · cases h
  · cases h
    rfl

theorem on_growTo (needed : Nat) (array : ItemArray α) (memory : Memory) :
    ((growTo needed : InPlace (ItemArray α) Unit).on array).run memory =
      if array.capacity < needed then
        match doubleTo needed array.capacity with
        | none => ((.error (.failure (.allocation Memory.maxWord)), array), memory)
        | some capacity =>
          match (requestRoom array.itemSize capacity).run.run memory with
          | (.ok (), memory) => ((.ok (), { array with capacity }), memory)
          | (.error fault, memory) => ((.error fault, array), memory)
      else ((.ok (), array), memory) := by
  unfold growTo
  rw [InPlace.on_bind, InPlace.on_get]
  simp only
  split
  next =>
    cases doubleTo needed array.capacity with
    | none => simp only [InPlace.on_ofAlloc, Alloc.run_fail]
    | some capacity =>
      simp only [InPlace.on_bind, InPlace.on_ofAlloc, InPlace.on_modify]
      rcases (requestRoom array.itemSize capacity).run.run memory with ⟨_ | _, _⟩ <;> rfl
  next => rfl

theorem on_append (item : α) (array : ItemArray α) (memory : Memory) :
    ((append item).on array).run memory =
      if array.isReleased then ((.error (.violation .released), array), memory)
      else
        match ((growTo (array.size + 1)).on array).run memory with
        | ((.ok (), grown), memory) =>
          ((.ok (), { grown with items := grown.items.push item }), memory)
        | ((.error fault, grown), memory) => ((.error fault, grown), memory) := by
  unfold append
  rw [InPlace.on_bind, InPlace.on_get]
  simp only
  split
  next => exact InPlace.on_violate _ _ _
  next =>
    rw [InPlace.on_bind]
    rcases ((growTo (array.size + 1)).on array).run memory with ⟨⟨_ | _, _⟩, _⟩ <;> rfl

theorem on_reserve (additional : Nat) (array : ItemArray α) (memory : Memory) :
    ((reserve additional).on array).run memory =
      if array.isReleased then ((.error (.violation .released), array), memory)
      else if array.size + additional ≤ Memory.maxWord then
        ((growTo (array.size + additional)).on array).run memory
      else ((.error (.failure (.allocation Memory.maxWord)), array), memory) := by
  unfold reserve
  rw [InPlace.on_bind, InPlace.on_get]
  simp only
  split
  next => rfl
  next => split <;> rfl

theorem le_of_doubleTo {needed capacity doubled : Nat}
    (h : doubleTo needed capacity = some doubled) : needed ≤ doubled := by
  fun_induction doubleTo needed capacity with
  | case1 capacity hle => cases h; exact hle
  | case2 => cases h
  | case3 capacity _ _ _ ih => exact ih h
  | case4 => cases h

/-- **Making room has two ends.** There is room for all that is needed and nothing but the capacity
    has changed; or a request was refused and nothing has changed at all. -/
theorem growTo_cases (needed : Nat) (array : ItemArray α) (memory : Memory) :
    (∃ capacity after, ((growTo needed).on array).run memory
          = ((.ok (), { array with capacity }), after)
        ∧ needed ≤ capacity
        ∧ (capacity = array.capacity
          ∨ array.capacity < capacity ∧ array.itemSize * capacity ≤ Memory.maxBlock))
      ∨ ∃ bytes after, ((growTo needed).on array).run memory
            = ((.error (.failure (.allocation bytes)), array), after)
          ∧ array.capacity < needed ∧ memory.Refuses bytes := by
  rw [on_growTo]
  by_cases hfull : array.capacity < needed
  · rw [if_pos hfull]
    cases hdouble : doubleTo needed array.capacity with
    | none => exact Or.inr ⟨_, _, rfl, hfull, Or.inl (by decide)⟩
    | some capacity =>
      have hroom := le_of_doubleTo hdouble
      simp only
      rcases requestRoom_cases array.itemSize capacity memory with
        ⟨after, hrun, hfits⟩ | ⟨bytes, after, hrun, hrefused⟩
      · rw [hrun]
        exact Or.inl ⟨capacity, after, rfl, hroom, Or.inr ⟨Nat.lt_of_lt_of_le hfull hroom, hfits⟩⟩
      · rw [hrun]
        exact Or.inr ⟨bytes, after, rfl, hfull, hrefused⟩
  · rw [if_neg hfull]
    exact Or.inl ⟨array.capacity, memory, rfl, Nat.le_of_not_lt hfull, Or.inl rfl⟩

/-- Making room changes the capacity and nothing else, and not even that when it fails. -/
theorem growTo_keeps {needed : Nat} {array grown : ItemArray α} {memory after : Memory}
    {outcome : Except Fault Unit}
    (h : ((growTo needed).on array).run memory = ((outcome, grown), after)) :
    grown.itemSize = array.itemSize ∧ grown.items = array.items := by
  rcases growTo_cases needed array memory with ⟨_, _, hrun, -⟩ | ⟨_, _, hrun, -⟩
  · rw [hrun] at h
    cases h
    exact ⟨rfl, rfl⟩
  · rw [hrun] at h
    cases h
    exact ⟨rfl, rfl⟩

theorem reserve_keeps {additional : Nat} {array grown : ItemArray α} {memory after : Memory}
    {outcome : Except Fault Unit}
    (h : ((reserve additional).on array).run memory = ((outcome, grown), after)) :
    grown.itemSize = array.itemSize ∧ grown.items = array.items := by
  rw [on_reserve] at h
  split at h
  · cases h
    exact ⟨rfl, rfl⟩
  · split at h
    · exact growTo_keeps h
    · cases h
      exact ⟨rfl, rfl⟩

/-- **Adding an item has two ends.** There was room and the item stands last; or nothing has
    changed. -/
theorem on_append_inv {item : α} {array after : ItemArray α} {memory left : Memory}
    {outcome : Except Fault Unit}
    (h : ((append item).on array).run memory = ((outcome, after), left)) :
    (∃ fault, outcome = .error fault ∧ after = array)
      ∨ ∃ grown, ((growTo (array.size + 1)).on array).run memory = ((.ok (), grown), left)
          ∧ outcome = .ok () ∧ after = { grown with items := grown.items.push item } := by
  rw [on_append] at h
  split at h
  · cases h
    exact Or.inl ⟨_, rfl, rfl⟩
  · rcases growTo_cases (array.size + 1) array memory with ⟨_, _, hrun, -⟩ | ⟨_, _, hrun, -⟩
    · rw [hrun] at h ⊢
      cases h
      exact Or.inr ⟨_, rfl, rfl, rfl⟩
    · rw [hrun] at h
      cases h
      exact Or.inl ⟨_, rfl, rfl⟩

theorem append_keeps {item : α} {array longer : ItemArray α} {memory after : Memory}
    (h : ((append item).on array).run memory = ((.ok (), longer), after)) :
    longer.itemSize = array.itemSize ∧ longer.items = array.items.push item := by
  rcases on_append_inv h with ⟨_, hfault, -⟩ | ⟨grown, hgrow, -, rfl⟩
  · cases hfault
  · obtain ⟨hsize, hitems⟩ := growTo_keeps hgrow
    exact ⟨hsize, congrArg (Array.push · item) hitems⟩

/-- **Items that were all added stand behind the others, in order.** -/
theorem items_of_on_appendAll {items : List α} {array longer : ItemArray α}
    {memory after : Memory}
    (h : ((appendAll items).on array).run memory = ((.ok (), longer), after)) :
    longer.items.toList = array.items.toList ++ items := by
  induction items generalizing array memory with
  | nil =>
    rw [appendAll, InPlace.on_pure] at h
    cases h
    simp
  | cons item items ih =>
    obtain ⟨_, first, _, hfirst, hrest⟩ := InPlace.exists_of_on_bind_ok h
    rw [ih hrest, (append_keeps hfirst).2]
    simp

/-! ## 3. Doubling -/

/-- Doubling stops below twice what is needed, unless nothing had to be doubled. -/
theorem lt_two_mul_of_doubleTo {needed capacity doubled : Nat} (hlt : capacity < needed)
    (h : doubleTo needed capacity = some doubled) : doubled < 2 * needed := by
  fun_induction doubleTo needed capacity with
  | case1 capacity hle => omega
  | case2 => cases h
  | case3 capacity _ _ _ ih =>
    by_cases hnext : 2 * capacity < needed
    · exact ih hnext h
    · rw [doubleTo, if_pos (by omega)] at h
      cases h
      omega
  | case4 => cases h

theorem exists_doubleTo {needed capacity : Nat} (hpos : 0 < capacity)
    (hfits : 2 * needed ≤ Memory.maxWord) : ∃ doubled, doubleTo needed capacity = some doubled := by
  fun_induction doubleTo needed capacity with
  | case1 capacity _ => exact ⟨capacity, rfl⟩
  | case2 => exact absurd hpos (by omega)
  | case3 capacity _ _ _ ih => exact ih (by omega)
  | case4 capacity hlt _ hword => exact absurd hword (by omega)

end ItemArray

/-! ## 4. Enough memory -/

/-- A memory that grants every request of at most so many bytes, whenever it is made. -/
def Memory.GrantsUpTo (memory : Memory) (limit : Nat) : Prop :=
  ∀ request bytes, bytes ≤ limit → memory.grants request bytes = true

/-- Whatever the memory is, what a computation returns has a property; and it does return where a
    memory grants so many bytes at a time. -/
def Alloc.Yields {α : Type} (computation : Alloc α) (room : Nat) (property : α → Prop) : Prop :=
  ∀ memory, (∀ value, computation.outcome memory = .ok value → property value)
    ∧ (room ≤ Memory.maxBlock → memory.GrantsUpTo room →
        ∃ value, computation.outcome memory = .ok value)

theorem Alloc.Yields.imp {α : Type} {computation : Alloc α} {room : Nat}
    {property other : α → Prop} (h : computation.Yields room property)
    (himp : ∀ value, property value → other value) : computation.Yields room other := by
  intro memory
  refine ⟨?_, (h memory).2⟩
  intro value hvalue
  exact himp value ((h memory).1 value hvalue)

theorem Memory.grantsUpTo_standard {limit : Nat} (h : limit < 0x8000_0000_0000) :
    Memory.standard.GrantsUpTo limit :=
  fun _ _ hle => decide_eq_true (Nat.lt_of_le_of_lt hle h)

namespace ItemArray

variable {α : Type} {limit : Nat}

theorem exists_run_requestRoom {itemSize capacity : Nat} {memory : Memory}
    (hgrants : memory.GrantsUpTo limit) (hblock : limit ≤ Memory.maxBlock)
    (hroom : itemSize * capacity ≤ limit) :
    ∃ after, (requestRoom itemSize capacity).run.run memory = (.ok (), after)
      ∧ after.GrantsUpTo limit := by
  have hword : itemSize * capacity ≤ Memory.maxWord := by
    have : Memory.maxBlock ≤ Memory.maxWord := by decide
    omega
  refine ⟨{ memory with requests := memory.requests + 1 }, ?_, hgrants⟩
  rw [requestRoom, if_pos hword, Alloc.run_request, if_pos (Nat.le_trans hroom hblock),
    if_pos (hgrants _ _ hroom)]

/-- Doubling asks for less than twice the room that is needed. -/
theorem exists_on_growTo {array : ItemArray α} {memory : Memory} (needed : Nat)
    (hgrants : memory.GrantsUpTo limit) (hblock : limit ≤ Memory.maxBlock)
    (hsize : 0 < array.itemSize) (hcapacity : 0 < array.capacity)
    (hroom : array.itemSize * (2 * needed) ≤ limit) :
    ∃ capacity after, ((growTo needed).on array).run memory
        = ((.ok (), { array with capacity }), after)
      ∧ 0 < capacity ∧ after.GrantsUpTo limit := by
  rw [on_growTo]
  by_cases hfull : array.capacity < needed
  · have hword : 2 * needed ≤ Memory.maxWord := by
      have hone := Nat.mul_le_mul_right (2 * needed) hsize
      have : Memory.maxBlock ≤ Memory.maxWord := by decide
      omega
    obtain ⟨doubled, hdouble⟩ := exists_doubleTo hcapacity hword
    have hlt := lt_two_mul_of_doubleTo hfull hdouble
    have hle := le_of_doubleTo hdouble
    have hbytes : array.itemSize * doubled ≤ limit :=
      Nat.le_trans (Nat.mul_le_mul_left _ (Nat.le_of_lt hlt)) hroom
    obtain ⟨after, hrun, hafter⟩ := exists_run_requestRoom hgrants hblock hbytes
    rw [if_pos hfull, hdouble]
    simp only [hrun]
    exact ⟨doubled, after, rfl, by omega, hafter⟩
  · rw [if_neg hfull]
    exact ⟨array.capacity, memory, rfl, hcapacity, hgrants⟩

theorem exists_on_append {array : ItemArray α} {memory : Memory} (item : α)
    (hgrants : memory.GrantsUpTo limit) (hblock : limit ≤ Memory.maxBlock)
    (hsize : 0 < array.itemSize) (hcapacity : 0 < array.capacity)
    (hroom : array.itemSize * (2 * (array.size + 1)) ≤ limit) :
    ∃ longer after, ((append item).on array).run memory = ((.ok (), longer), after)
      ∧ longer.itemSize = array.itemSize ∧ longer.size = array.size + 1
      ∧ 0 < longer.capacity ∧ after.GrantsUpTo limit := by
  have hlive : array.isReleased = false := IsLive.isReleased hsize
  obtain ⟨capacity, after, hrun, hpos, hafter⟩ :=
    exists_on_growTo (array.size + 1) hgrants hblock hsize hcapacity hroom
  rw [on_append, hlive, if_neg Bool.false_ne_true, hrun]
  exact ⟨_, _, rfl, rfl, by simp [size], hpos, hafter⟩

theorem exists_on_reserve {array : ItemArray α} {memory : Memory} (additional : Nat)
    (hgrants : memory.GrantsUpTo limit) (hblock : limit ≤ Memory.maxBlock)
    (hsize : 0 < array.itemSize) (hcapacity : 0 < array.capacity)
    (hroom : array.itemSize * (2 * (array.size + additional)) ≤ limit) :
    ∃ capacity after, ((reserve additional).on array).run memory
        = ((.ok (), { array with capacity }), after)
      ∧ 0 < capacity ∧ after.GrantsUpTo limit := by
  have hlive : array.isReleased = false := IsLive.isReleased hsize
  have hword : array.size + additional ≤ Memory.maxWord := by
    have hone := Nat.mul_le_mul_right (2 * (array.size + additional)) hsize
    have : Memory.maxBlock ≤ Memory.maxWord := by decide
    omega
  rw [on_reserve, hlive, if_neg Bool.false_ne_true, if_pos hword]
  exact exists_on_growTo _ hgrants hblock hsize hcapacity hroom

/-- **Adding items returns when the memory grants twice the room that all of them need.** -/
theorem exists_on_appendAll {memory : Memory} (array : ItemArray α) (items : List α)
    (hgrants : memory.GrantsUpTo limit) (hblock : limit ≤ Memory.maxBlock)
    (hsize : 0 < array.itemSize) (hcapacity : 0 < array.capacity)
    (hroom : array.itemSize * (2 * (array.size + items.length)) ≤ limit) :
    ∃ longer after, ((appendAll items).on array).run memory = ((.ok (), longer), after)
      ∧ longer.itemSize = array.itemSize ∧ 0 < longer.capacity ∧ after.GrantsUpTo limit := by
  induction items generalizing array memory with
  | nil => exact ⟨array, memory, rfl, rfl, hcapacity, hgrants⟩
  | cons item items ih =>
    have hfirst : array.itemSize * (2 * (array.size + 1)) ≤ limit := by
      refine Nat.le_trans (Nat.mul_le_mul_left _ ?_) hroom
      rw [List.length_cons]
      omega
    obtain ⟨longer, between, hrun, hitem, hlength, hpos, hbetween⟩ :=
      exists_on_append item hgrants hblock hsize hcapacity hfirst
    have hrest : longer.itemSize * (2 * (longer.size + items.length)) ≤ limit := by
      rw [hitem, hlength, Nat.add_assoc, Nat.add_comm 1]
      exact hroom
    rw [appendAll, InPlace.on_bind, hrun, ← hitem]
    exact ih longer hbetween (by omega) hpos hrest

end ItemArray

/-! ## 5. Refusals are the only faults of a live array -/

/-- A computation that never breaks off, in whatever memory. -/
def Alloc.Unbroken {α : Type} (computation : Alloc α) : Prop :=
  ∀ memory cause, (computation.run.run memory).1 ≠ .error (.violation cause)

theorem Alloc.Unbroken.cases {α : Type} {computation : Alloc α} (h : computation.Unbroken)
    (memory : Memory) :
    (∃ value after, computation.run.run memory = (.ok value, after))
      ∨ ∃ cause after, computation.run.run memory = (.error (.failure cause), after) := by
  have hnever := h memory
  generalize computation.run.run memory = answer at hnever ⊢
  obtain ⟨(cause | cause) | value, after⟩ := answer
  · exact Or.inr ⟨cause, after, rfl⟩
  · exact absurd rfl (hnever cause)
  · exact Or.inl ⟨value, after, rfl⟩

namespace InPlace

variable {σ α β : Type} {kept : σ → Prop}

/-- An operation never breaks off on a value for which `kept` holds, and keeps it so. -/
def Unbroken (kept : σ → Prop) (operation : InPlace σ α) : Prop :=
  ∀ state memory, kept state →
    kept ((operation.on state).run memory).1.2
      ∧ ∀ cause, ((operation.on state).run memory).1.1 ≠ .error (.violation cause)

theorem unbroken_pure (value : α) : Unbroken kept (pure value : InPlace σ α) := by
  intro state memory hkept
  exact ⟨hkept, fun _ h => by cases h⟩

theorem unbroken_ofAlloc {computation : Alloc α} (h : computation.Unbroken) :
    Unbroken kept (ofAlloc computation : InPlace σ α) := by
  intro state memory hkept
  exact ⟨hkept, h memory⟩

theorem Unbroken.bind {first : InPlace σ α} {second : α → InPlace σ β}
    (hfirst : Unbroken kept first) (hsecond : ∀ value, Unbroken kept (second value)) :
    Unbroken kept (first >>= second) := by
  intro state memory hkept
  have h := hfirst state memory hkept
  rw [on_bind]
  generalize (first.on state).run memory = result at h ⊢
  obtain ⟨⟨_ | value, middle⟩, between⟩ := result
  · refine ⟨h.1, ?_⟩
    intro cause hcause
    cases hcause
    exact h.2 cause rfl
  · exact hsecond value middle between h.1

theorem Unbroken.apply {operation : InPlace σ α} (h : Unbroken kept operation) {value : σ}
    (hkept : kept value) : (operation.apply value).Unbroken := by
  intro memory cause
  have hcause := (h value memory hkept).2 cause
  rw [run_apply]
  generalize (operation.on value).run memory = result at hcause ⊢
  obtain ⟨⟨_ | _, _⟩, _⟩ := result
  · intro hfault
    cases hfault
    exact hcause rfl
  · intro hfault
    cases hfault

end InPlace

namespace ItemArray

variable {α : Type}

theorem unbroken_init {itemSize capacity : Nat} (hsize : 0 < itemSize) (hcapacity : 0 < capacity) :
    (init itemSize capacity : Alloc (ItemArray α)).Unbroken := by
  intro memory cause
  rw [run_init hsize hcapacity]
  rcases requestRoom_cases itemSize capacity memory with ⟨_, hrun, -⟩ | ⟨_, _, hrun, -⟩
  · rw [hrun]
    exact fun h => by cases h
  · rw [hrun]
    exact fun h => by cases h

theorem unbroken_growTo (needed : Nat) :
    InPlace.Unbroken IsLive (growTo needed : InPlace (ItemArray α) Unit) := by
  intro array memory hlive
  rcases growTo_cases needed array memory with ⟨_, _, hrun, -⟩ | ⟨_, _, hrun, -⟩
  · rw [hrun]
    exact ⟨hlive, fun _ h => by cases h⟩
  · rw [hrun]
    exact ⟨hlive, fun _ h => by cases h⟩

theorem unbroken_reserve (additional : Nat) :
    InPlace.Unbroken IsLive (reserve additional : InPlace (ItemArray α) Unit) := by
  intro array memory hlive
  rw [on_reserve, hlive.isReleased, if_neg Bool.false_ne_true]
  split
  next => exact unbroken_growTo _ array memory hlive
  next => exact ⟨hlive, fun _ h => by cases h⟩

theorem unbroken_append (item : α) : InPlace.Unbroken IsLive (append item) := by
  intro array memory hlive
  have h := unbroken_growTo (array.size + 1) array memory hlive
  rw [on_append, hlive.isReleased, if_neg Bool.false_ne_true]
  generalize ((growTo (array.size + 1)).on array).run memory = result at h ⊢
  obtain ⟨⟨_ | _, _⟩, _⟩ := result
  · exact h
  · exact ⟨h.1, fun _ h => by cases h⟩

theorem unbroken_appendAll (items : List α) : InPlace.Unbroken IsLive (appendAll items) := by
  induction items with
  | nil => exact InPlace.unbroken_pure ()
  | cons item items ih => exact (unbroken_append item).bind fun _ => ih

end ItemArray

end ErbTemplate
