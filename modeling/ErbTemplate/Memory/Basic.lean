import ErbTemplate.Fault

/-!
# Memory that may refuse

Growable containers ask for memory, and each single request may be refused. What is asked for, how
often, and what a refusal leaves behind is part of their contract, so memory is a value here: a
rule that grants or refuses the n-th request for so many bytes, and the number of requests made.
Nothing is assumed about the rule. A statement about all of `Memory` is a statement about every
pattern of refusals.

* `Alloc α` is a computation that asks for memory and ends with an `α` or with a fault.
* `InPlace σ α` also works on a value of `σ` that outlives it: a fault ends the computation, and
  the changes made so far stay.
-/

set_option autoImplicit false

namespace ErbTemplate

/-- The rule by which requests are granted, and the number of requests so far. -/
structure Memory where
  grants : Nat → Nat → Bool
  requests : Nat

namespace Memory

/-- The largest number of a 64-bit word. -/
def maxWord : Nat := 0xFFFF_FFFF_FFFF_FFFF

/-- The largest block that can be asked for: addresses within it are signed, and blocks are
aligned to sixteen bytes. -/
def maxBlock : Nat := 0x7FFF_FFFF_FFFF_FFF0

/-- The memory of a process whose addresses have 47 bits. -/
def standard : Memory where
  grants _ bytes := bytes < 0x8000_0000_0000
  requests := 0

end Memory

/-- A computation that may ask for memory. -/
abbrev Alloc (α : Type) := ExceptT Fault (StateM Memory) α

/-- A computation on a value in place, which may ask for memory. -/
abbrev InPlace (σ α : Type) := ExceptT Fault (StateT σ (StateM Memory)) α

namespace Alloc

/-- Stops with a failure. -/
def fail {α : Type} (cause : Failure) : Alloc α :=
  throw (.failure cause)

/-- Stops with a violation. -/
def violate {α : Type} (cause : Violation) : Alloc α :=
  throw (.violation cause)

/-- Asks for a block of so many bytes. -/
def request (bytes : Nat) : Alloc Unit := do
  if bytes ≤ Memory.maxBlock then
    let memory ← get
    set { memory with requests := memory.requests + 1 }
    unless memory.grants memory.requests bytes do
      fail (.allocation bytes)
  else
    fail (.allocation bytes)

/-- The outcome of a computation in a given memory. -/
def outcome {α : Type} (computation : Alloc α) (memory : Memory) : Except Fault α :=
  (computation.run.run memory).1

end Alloc

namespace InPlace

variable {σ α : Type}

/-- Stops with a violation. -/
def violate (cause : Violation) : InPlace σ α :=
  throw (.violation cause)

/-- A computation that leaves the value as it is. -/
def ofAlloc (computation : Alloc α) : InPlace σ α :=
  ExceptT.mk (StateT.lift computation.run)

/-- Runs an operation on a value: its outcome and what it leaves. -/
def on (operation : InPlace σ α) (value : σ) : StateM Memory (Except Fault α × σ) :=
  operation.run.run value

/-- The value after an operation; a fault is passed on and the value is given up. -/
def apply (operation : InPlace σ α) (value : σ) : Alloc σ :=
  ExceptT.mk do
    let (result, value) ← operation.on value
    return result.map fun _ => value

end InPlace

end ErbTemplate
