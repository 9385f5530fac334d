import ErbTemplate.Tree.Analysis
import ErbTemplate.Extraction

/-!
# Results that have to be given back

The engine hands out its results as resources: somebody has to release each of them, exactly once.
A `Handle` owns one resource and releases it when asked to, or at the end of its scope at the
latest. Releasing an empty handle does nothing, and so does reading it.

`convertScoped` and `convertProduced` are the two ways in which a result reaches a host. A producer
runs, its result goes into a handle, the host's converter reads it, the handle is released. What
happens is recorded as a list of events. The converter may give a value, refuse, or break off with
a violation; in the last case nothing after it runs, and only the end of the scope releases the
resource.

A producer that fails leaves a stand-in in the handle and its failure in a cell beside it, so that
all paths are the same; giving back the stand-in is recorded as an event of its own kind.
-/

set_option autoImplicit false

namespace ErbTemplate

/-! ## 1. Resources and handles -/

/-- The kinds of results. -/
inductive ResourceKind where
  | tokens
  | document
  | text
  deriving DecidableEq, Repr

namespace ResourceKind

/-- Every kind. -/
def all : List ResourceKind :=
  [tokens, document, text]

/-- The name of a kind. -/
def name : ResourceKind → String
  | tokens => "tokens"
  | document => "document"
  | text => "text"

end ResourceKind

/-- A result of the engine: a stand-in for one that failed, or a result that offers an output,
unless it was broken off. -/
inductive Resource (α : Type) where
  | standIn
  | live (output : Option α)
  deriving DecidableEq, Repr

/-- What a resource offers. -/
def Resource.output {α : Type} : Resource α → Option α
  | standIn => none
  | live output => output

/-- The text of a buffer after an extraction: nothing, if the extraction broke off. -/
def Resource.ofExtraction (result : Except Fault Unit) (buffer : TextBuffer) : Resource String :=
  match result with
  | .ok () => .live (some buffer.text)
  | .error _ => .live none

/-- What can be observed of the life of a resource. -/
inductive Event (α : Type) where
  | produced
  | converting (output : Option α)
  | released
  | standInReleased
  deriving DecidableEq, Repr

/-- The event of releasing a resource. -/
def Resource.releaseEvent {α : Type} : Resource α → Event α
  | standIn => .standInReleased
  | live _ => .released

/-- A computation that asks for memory and records events. -/
abbrev Scope (α β : Type) := StateT (List (Event α)) (StateM Memory) β

namespace Scope

variable {α β : Type}

/-- Records an event. -/
def record (event : Event α) : Scope α Unit :=
  modify fun events => events ++ [event]

/-- The outcome of a computation that asks for memory. -/
def attempt (computation : Alloc β) : Scope α (Except Fault β) :=
  StateT.lift computation.run

end Scope

/-- The owner of a resource, until it is released. -/
structure Handle (α : Type) where
  resource : Option (Resource α)
  deriving DecidableEq, Repr

namespace Handle

variable {α : Type}

/-- Takes charge of a resource. -/
def own (resource : Resource α) : Handle α :=
  ⟨some resource⟩

/-- What the resource offers; nothing after its release. -/
def output (handle : Handle α) : Option α :=
  handle.resource.bind Resource.output

/-- Whether the resource has been released. -/
def isReleased (handle : Handle α) : Bool :=
  handle.resource.isNone

/-- Releases the resource, unless that has been done. -/
def release (handle : Handle α) : Scope α (Handle α) :=
  match handle.resource with
  | none => return handle
  | some resource => do
    Scope.record resource.releaseEvent
    return ⟨none⟩

/-- The two things to do with a handle. -/
inductive Use where
  | read
  | release
  deriving DecidableEq, Repr

/-- Uses a handle once. -/
def use (handle : Handle α) : Use → Scope α (Handle α)
  | .read => return handle
  | .release => handle.release

/-- Uses a handle again and again; the handle after each use. -/
def useAll (handle : Handle α) : List Use → Scope α (List (Handle α))
  | [] => return []
  | first :: others => do
    let handle ← handle.use first
    return handle :: (← handle.useAll others)

end Handle

/-! ## 2. Scoped conversion -/

/-- Whether a computation broke off instead of coming to an end. -/
def breaksOff {β : Type} : Except Fault β → Bool
  | .error (.violation _) => true
  | _ => false

section Conversion

variable {α β : Type}

/-- Uses a resource and releases it: explicitly after the use, and at the end of the scope where
the use broke off. -/
def withResource (resource : Resource α) (run : Option α → Scope α (Except Fault β)) :
    Scope α (Except Fault β) := do
  let handle := Handle.own resource
  let result ← run handle.output
  let handle ← if breaksOff result then pure handle else handle.release
  let _ ← handle.release
  return result

/-- Lets a host's converter run on an output. -/
def runConverter (convert : Option α → Except Fault β) (output : Option α) :
    Scope α (Except Fault β) := do
  Scope.record (.converting output)
  return convert output

/-- Lets a producer run, puts its result into a handle and converts. A cell goes along, which the
producer fills and the converter reads. A producer that breaks off leaves nothing to release. -/
def convertWithCell {Cell : Type} (produce : Scope α (Except Violation (Resource α × Cell)))
    (convert : Cell → Option α → Scope α (Except Fault β)) : Scope α (Except Fault β) := do
  match ← produce with
  | .error cause => return .error (.violation cause)
  | .ok (resource, cell) => withResource resource (convert cell)

/-- A producer that makes a resource, with something in the cell. -/
def produceBeside {Cell : Type} (resource : Resource α) (cell : Cell) :
    Scope α (Except Violation (Resource α × Cell)) := do
  Scope.record .produced
  return .ok (resource, cell)

/-- Converts a resource, whether it offers an output or not. -/
def convertScoped (resource : Resource α) (convert : Option α → Except Fault β) :
    Scope α (Except Fault β) :=
  convertWithCell (produceBeside resource ()) fun _ => runConverter convert

/-- The failure of a resource that offers nothing. -/
def noResult : Failure :=
  .conversion "engine produced no result"

/-- What a producer comes to: a resource, or a stand-in with the failure in the cell. -/
def produceOrStandIn (produced : Except Fault (Resource α)) :
    Scope α (Except Violation (Resource α × Option Failure)) :=
  match produced with
  | .ok resource => produceBeside resource none
  | .error (.failure cause) => return .ok (.standIn, some cause)
  | .error (.violation cause) => return .error cause

/-- Converts what a producer produces. Where nothing is offered, the failure in the cell is that of
the conversion, and without one there is no result. -/
def convertProduced (produced : Except Fault (Resource α)) (convert : α → Except Fault β) :
    Scope α (Except Fault β) :=
  convertWithCell (produceOrStandIn produced) fun failure output =>
    match output with
    | some value => runConverter (fun _ => convert value) (some value)
    | none => return .error (.failure (failure.getD noResult))

end Conversion
end ErbTemplate
