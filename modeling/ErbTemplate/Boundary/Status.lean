import ErbTemplate.Fault

/-!
# Status codes

Callers that know nothing but numbers are told by a status whether a call has succeeded. The codes
and their texts are fixed.
-/

set_option autoImplicit false

namespace ErbTemplate

/-- The outcome of a call, as a code. -/
inductive Status where
  | success
  | invalidInput
  | nullPointer
  | invalidUtf8
  | noMemory
  | unreadableFile
  | failedConversion
  | internalError
  deriving DecidableEq, Repr

namespace Status

/-- Every status. -/
def all : List Status :=
  [success, invalidInput, nullPointer, invalidUtf8, noMemory, unreadableFile, failedConversion,
   internalError]

/-- The number of a status. -/
def code : Status → Int
  | success => 0
  | invalidInput => -1
  | nullPointer => -2
  | invalidUtf8 => -3
  | noMemory => -4
  | unreadableFile => -5
  | failedConversion => -6
  | internalError => -9

/-- The text of a status. -/
def message : Status → String
  | success => "Success"
  | invalidInput => "Invalid input parameters"
  | nullPointer => "Null pointer provided"
  | invalidUtf8 => "Invalid UTF-8 string"
  | noMemory => "Memory allocation failed"
  | unreadableFile => "Could not read source file"
  | failedConversion => "Result conversion failed"
  | internalError => "Internal error"

/-- Whether a status means success. -/
def isSuccess (status : Status) : Bool :=
  status == success

/-- The status of a failure. -/
def ofFailure : Failure → Status
  | .allocation _ => noMemory
  | .conversion _ => failedConversion
  | .inputType .. => invalidInput
  | .io .. => unreadableFile

end Status
end ErbTemplate
