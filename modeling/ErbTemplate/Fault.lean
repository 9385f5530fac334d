/-!
# What can go wrong

Two things are kept apart. A `Failure` is an outcome that every caller has to expect: memory is
refused, a result cannot be handed over, an argument has the wrong type, a file cannot be read.
A `Violation` is a mistake of the caller: an index out of range, the use of something released. A
`Fault` is either.

Each is a list of causes, and the wording of every cause stands in one place, its `message`.
-/

set_option autoImplicit false

namespace ErbTemplate

/-! ## 1. Failures -/

/-- Why a file could not be read. -/
inductive IoCause where
  | notFound
  | notDirectory
  | isDirectory
  | nameTooLong
  | invalidUtf8
  | nulInName
  | other (message : String)
  deriving DecidableEq, Repr

namespace IoCause

/-- The number the operating system gives to a cause; `none` for those it does not report. -/
def osCode : IoCause → Option Nat
  | notFound => some 2
  | notDirectory => some 20
  | isDirectory => some 21
  | nameTooLong => some 36
  | invalidUtf8 | nulInName | other _ => none

/-- The wording of a cause. -/
def message : IoCause → String
  | notFound => "No such file or directory (os error 2)"
  | notDirectory => "Not a directory (os error 20)"
  | isDirectory => "Is a directory (os error 21)"
  | nameTooLong => "File name too long (os error 36)"
  | invalidUtf8 => "stream did not contain valid UTF-8"
  | nulInName => "file name contained an unexpected NUL byte"
  | other message => message

end IoCause

/-- An outcome other than success that a caller has to expect. -/
inductive Failure where
  /-- So many bytes of memory were refused. -/
  | allocation (requested : Nat)
  /-- A result could not be turned into a value of the host. -/
  | conversion (message : String)
  /-- An argument had another type than the expected one. -/
  | inputType (expected found : String)
  /-- A file could not be read. -/
  | io (path : String) (cause : IoCause)
  deriving DecidableEq, Repr

namespace Failure

/-- The wording of a failure. -/
def message : Failure → String
  | allocation requested => s!"Allocation failed: could not reserve {requested} bytes"
  | conversion message => s!"Conversion failed: {message}"
  | inputType expected found => s!"Type error: expected {expected}, got {found}"
  | io path cause => s!"IO error: {path}: {cause.message}"

/-- Whether memory was refused. -/
def isAllocation : Failure → Bool
  | allocation _ => true
  | _ => false

/-- Whether a failure reports the failure of something below it. -/
def hasCause : Failure → Bool
  | io .. => true
  | _ => false

end Failure

/-! ## 2. Violations -/

/-- A mistake of the caller. -/
inductive Violation where
  | zeroItemSize
  | zeroCapacity
  | released
  | outOfBounds (index size : Nat)
  | itemLength (given itemSize : Nat)
  | outputLength (given itemSize : Nat)
  | typeSize (given itemSize : Nat)
  | notAscii
  /-- Bytes were accessed that lie outside of a block of memory, or that nobody has written. What
      follows such an access means nothing, and the wording is never seen. -/
  | strayAccess
  /-- Code of the host gave up with a message. -/
  | raised (message : String)
  /-- Code of the host gave up without a message. -/
  | silent
  deriving DecidableEq, Repr

namespace Violation

/-- The wording of two numbers that should have been equal. -/
def mismatch (what : String) (left right : Nat) : String :=
  s!"assertion `left == right` failed: {what}\n  left: {left}\n right: {right}"

/-- The wording of a violation. -/
def message : Violation → String
  | zeroItemSize => "HbNarray item size must be non-zero"
  | zeroCapacity => "HbNarray initial capacity must be non-zero"
  | released => "HbNarray used after deinit"
  | outOfBounds index size => s!"HbNarray index {index} out of bounds (size {size})"
  | itemLength given size => mismatch "item length does not match HbNarray item size" given size
  | outputLength given size =>
    mismatch "output length does not match HbNarray item size" given size
  | typeSize given size => mismatch "type size does not match HbNarray item size" given size
  | notAscii => "HbBuffer only accepts ASCII bytes"
  | strayAccess => "memory accessed outside of what has been written"
  | raised message => message
  | silent => "Unknown panic"

end Violation

/-! ## 3. Faults -/

/-- Anything that stops an operation. -/
inductive Fault where
  | failure (cause : Failure)
  | violation (cause : Violation)
  deriving DecidableEq, Repr

end ErbTemplate
