/-!
# Options

What a caller can ask for when a template is parsed and when its code is extracted.
-/

set_option autoImplicit false

namespace ErbTemplate

/-- Options for parsing. -/
structure ParserOptions where
  /-- Keep the white space inside of opening tags. -/
  trackWhitespace : Bool := false
  /-- Classify the ERB tags and match them with their `end`. -/
  analyze : Bool := true
  /-- Report also the elements whose closing tag may be left out. -/
  strict : Bool := false
  deriving DecidableEq, Repr

/-- Options for the extraction of code. -/
structure ExtractOptions where
  /-- End each piece of code with a semicolon. -/
  semicolons : Bool := false
  /-- Keep ERB comments, as comments of the code. -/
  comments : Bool := false
  /-- Keep every byte of code at its offset in the template. -/
  preservePositions : Bool := true
  deriving DecidableEq, Repr

end ErbTemplate
