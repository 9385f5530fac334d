import ErbTemplate.Token.Lexer
import ErbTemplate.Memory.ItemArray

/-!
# Lexing in memory

The tokens of a source, collected in an array. What the tokens are is settled by `tokens`; here it
is only decided how much memory they ask for, and so when lexing can fail. The first request is
for one token per four bytes of source.
-/

set_option autoImplicit false

namespace ErbTemplate

/-- The tokens of one source, in memory. -/
abbrev TokenList := ItemArray Token

namespace TokenList

/-- The number of bytes of one token. -/
def tokenSize : Nat := 40

/-- The number of tokens for which room is made before the first one is read. -/
def firstCapacity (source : List Char) : Nat :=
  Text.byteLength source / 4 + 1

/-- The tokens, in source order. -/
def toList (list : TokenList) : List Token :=
  list.items.toList

end TokenList

/-- Collects the tokens of a source. -/
def lex (source : List Char) : Alloc TokenList := do
  let empty ← ItemArray.init TokenList.tokenSize (TokenList.firstCapacity source)
  (ItemArray.appendAll (tokens source)).apply empty

end ErbTemplate
