import ErbTemplate.Token.Piece

/-!
# Issues of a template

An issue is a cause and a place. The causes are listed here with everything that their wording
needs; element names in them are in small letters. Several causes are reported under one kind: an
element that is never closed is a missing closing tag where the closing tag may be left out, and
an unclosed element everywhere else.
-/

set_option autoImplicit false

namespace ErbTemplate

/-! ## 1. Element names -/

/-- The elements that have no content and no closing tag. -/
def voidNames : List String :=
  ["area", "base", "br", "col", "embed", "hr", "img", "input", "link", "meta", "source", "track",
   "wbr"]

/-- The elements whose closing tag may be left out. -/
def optionalEndNames : List String :=
  ["li", "p", "td", "th", "tr", "option", "dt", "dd"]

/-- Whether an element of this name has no content. -/
def isVoidName (name : List Char) : Bool :=
  voidNames.any fun void => void.toList == name

/-- Whether the closing tag of an element of this name may be left out. -/
def isOptionalEndName (name : List Char) : Bool :=
  optionalEndNames.any fun optional => optional.toList == name

/-! ## 2. Kinds and causes -/

/-- The kinds under which issues are reported. -/
inductive IssueKind where
  | unclosedElement
  | missingClosingTag
  | unexpectedClosingTag
  | unclosedComment
  | unclosedErbTag
  | unmatchedErbEnd
  | missingErbEnd
  deriving DecidableEq, Repr

/-- The name of a kind in reports. -/
def IssueKind.name : IssueKind → String
  | unclosedElement => "UnclosedElementError"
  | missingClosingTag => "MissingClosingTagError"
  | unexpectedClosingTag => "UnexpectedClosingTagError"
  | unclosedComment => "UnclosedCommentError"
  | unclosedErbTag => "UnclosedERBTagError"
  | unmatchedErbEnd => "UnmatchedERBEndError"
  | missingErbEnd => "MissingERBEndError"

/-- What is wrong. -/
inductive IssueCause where
  /-- The source ends inside of an opening tag. -/
  | unterminatedTag (name : List Char)
  /-- The source ends inside of an element. -/
  | neverClosed (name : List Char)
  /-- An element ends because one around it is closed. -/
  | closedImplicitly (name outer : List Char)
  /-- A closing tag has no element to close. -/
  | nothingToClose (name : List Char)
  /-- The source ends inside of a comment. -/
  | unclosedComment
  /-- The source ends inside of an ERB tag. -/
  | unclosedErbTag (opening : Opening)
  /-- An `end` has nothing to end. -/
  | unmatchedEnd
  /-- Code that needs an `end` has none. -/
  | missingEnd (code : List Char)
  deriving DecidableEq, Repr

namespace IssueCause

/-- The kind under which a cause is reported. -/
def kind : IssueCause → IssueKind
  | unterminatedTag _ => .unclosedElement
  | neverClosed name => if isOptionalEndName name then .missingClosingTag else .unclosedElement
  | closedImplicitly .. => .missingClosingTag
  | nothingToClose _ => .unexpectedClosingTag
  | unclosedComment => .unclosedComment
  | unclosedErbTag _ => .unclosedErbTag
  | unmatchedEnd => .unmatchedErbEnd
  | missingEnd _ => .missingErbEnd

/-- The wording of a cause. -/
def message : IssueCause → String
  | unterminatedTag name =>
    let name := String.ofList name
    s!"Opening tag `<{name}` is never terminated with `>`"
  | neverClosed name =>
    let name := String.ofList name
    s!"Opening tag `<{name}>` is never closed"
  | closedImplicitly name outer =>
    let name := String.ofList name
    let outer := String.ofList outer
    s!"Opening tag `<{name}>` is closed implicitly by `</{outer}>`"
  | nothingToClose name =>
    let name := String.ofList name
    s!"Found closing tag `</{name}>` without a matching opening tag"
  | unclosedComment => "HTML comment is never closed"
  | unclosedErbTag opening =>
    let opening := String.ofList opening.text
    s!"ERB tag `{opening}` is never closed"
  | unmatchedEnd => "`end` does not close any open ERB block"
  | missingEnd code =>
    let code := String.ofList code
    s!"`{code}` is never closed with `end`"

end IssueCause

/-- What is wrong, and where. -/
structure Issue where
  cause : IssueCause
  span : Span
  deriving DecidableEq, Repr

namespace Issue

/-- The kind of an issue. -/
def kind (issue : Issue) : IssueKind :=
  issue.cause.kind

/-- The wording of an issue. -/
def message (issue : Issue) : String :=
  issue.cause.message

/-- The lines and columns of an issue. -/
def location (issue : Issue) : Location :=
  issue.span.location

end Issue
end ErbTemplate
