import ErbTemplate.Host.Contract

/-!
# Two hosts of JSON

The host of JSON texts writes every result as a compact JSON text; it serves callers that exchange
texts only. The host of JSON trees keeps the result as a value, for callers that build values of
their own from it. Reading the text of the first gives the tree of the second.
-/

set_option autoImplicit false

namespace ErbTemplate

/-- The host whose values are JSON texts. -/
def jsonTextHost : Host String where
  kind := "C ABI"
  package := "herb-ffi"
  packageVersion := engineVersion
  tokenList tokens := .ok tokens.toJson.compact
  document document := .ok document.toJson.compact
  string text := .ok text

/-- A host whose values are JSON trees. -/
def jsonTreeHost (kind package : String) : Host Json where
  kind
  package
  packageVersion := engineVersion
  tokenList tokens := .ok tokens.toJson
  document document := .ok document.toJson
  string text := .ok (.string text)

end ErbTemplate
