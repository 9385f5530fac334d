import ErbTemplate.Tree.Issue
import ErbTemplate.Options

/-!
# The tree of a template

A document is a list of nodes: texts, comments, ERB tags and elements, which hold nodes again. An
opening tag has items of its own: attributes, ERB tags and white space. The two are different
types, so an attribute outside of an opening tag, or an element inside of one, cannot be written
down.

Nodes hold spans and never text. Two templates that differ only inside of the texts have the same
tree, and the text of a node is read from the source when it is needed.

`Document.entries` is the tree in source order: each element stands before the items of its
opening tag, and these stand before its children.
-/

set_option autoImplicit false

namespace ErbTemplate

/-! ## 1. Nodes -/

/-- What an ERB tag does. -/
inductive ErbKind where
  /-- Prints a value. -/
  | output
  /-- Is a comment. -/
  | comment
  /-- Stands for the text of a tag. -/
  | escaped
  /-- Begins or continues a conditional or a loop. -/
  | control
  /-- Opens a `do` block. -/
  | block
  /-- Is an `end`. -/
  | blockEnd
  /-- Is any other code. -/
  | statement
  deriving DecidableEq, Repr

/-- The name of a kind in reports. -/
def ErbKind.name : ErbKind → String
  | output => "output"
  | comment => "comment"
  | escaped => "escaped"
  | control => "control"
  | block => "block"
  | blockEnd => "block_end"
  | statement => "statement"

/-- An ERB tag. Its content is empty, right after the opening, where the source ends there. -/
structure ErbTag where
  opening : Opening
  mark : Span
  content : Span
  closing : Option Span
  kind : Option ErbKind
  issues : List Issue
  deriving DecidableEq, Repr

/-- All of an ERB tag. -/
def ErbTag.span (tag : ErbTag) : Span :=
  ⟨tag.mark.start, (tag.closing.getD tag.content).stop⟩

/-- A comment of the markup. -/
structure Comment where
  content : Span
  span : Span
  issues : List Issue
  deriving DecidableEq, Repr

/-- The value of an attribute; the content is without the quotes. -/
structure AttributeValue where
  content : Span
  quoted : Bool
  span : Span
  deriving DecidableEq, Repr

/-- An attribute. -/
structure Attribute where
  name : Span
  value : Option AttributeValue
  span : Span
  deriving DecidableEq, Repr

/-- What stands inside of an opening tag. -/
inductive TagItem where
  | whitespace (span : Span)
  | attr (value : Attribute)
  | erb (tag : ErbTag)
  deriving DecidableEq, Repr

/-- Whether an item is white space. -/
def TagItem.isWhitespace : TagItem → Bool
  | whitespace _ => true
  | _ => false

/-- An opening tag. -/
structure OpenTag where
  name : Span
  items : List TagItem
  selfClosing : Bool
  span : Span
  deriving DecidableEq, Repr

/-- A closing tag. -/
structure CloseTag where
  name : Span
  span : Span
  deriving DecidableEq, Repr

/-- An element without its children. -/
structure ElementInfo where
  openTag : OpenTag
  closeTag : Option CloseTag
  isVoid : Bool
  span : Span
  issues : List Issue
  deriving DecidableEq, Repr

/-- A node of the tree. -/
inductive Node where
  | text (span : Span)
  | comment (value : Comment)
  | erb (tag : ErbTag)
  | element (info : ElementInfo) (children : List Node)
  deriving Repr

/-- All of a node. -/
def Node.span : Node → Span
  | text span => span
  | comment value => value.span
  | erb tag => tag.span
  | element info _ => info.span

/-- A parsed template. -/
structure Document where
  children : List Node
  issues : List Issue
  span : Span
  options : ParserOptions
  analyzed : Bool
  deriving Repr

/-! ## 2. Source order -/

/-- One node as it stands in source order; an element shows how many children it has. -/
inductive Entry where
  | text (span : Span)
  | whitespace (span : Span)
  | element (info : ElementInfo) (children : Nat)
  | attr (value : Attribute)
  | comment (value : Comment)
  | erb (tag : ErbTag)
  deriving DecidableEq, Repr

namespace Entry

/-- The entry of an item of an opening tag. -/
def ofItem : TagItem → Entry
  | .whitespace span => whitespace span
  | .attr value => attr value
  | .erb tag => erb tag

/-- The name of the type of a node in reports. -/
def typeName : Entry → String
  | text _ => "AST_HTML_TEXT_NODE"
  | whitespace _ => "AST_WHITESPACE_NODE"
  | element .. => "AST_HTML_ELEMENT_NODE"
  | attr _ => "AST_HTML_ATTRIBUTE_NODE"
  | comment _ => "AST_HTML_COMMENT_NODE"
  | erb _ => "AST_ERB_CONTENT_NODE"

/-- All of a node. -/
def span : Entry → Span
  | text span | whitespace span => span
  | element info _ => info.span
  | attr value => value.span
  | comment value => value.span
  | erb tag => tag.span

/-- The issues of a node itself. -/
def issues : Entry → List Issue
  | text _ | whitespace _ | attr _ => []
  | element info _ => info.issues
  | comment value => value.issues
  | erb tag => tag.issues

/-- The ERB tag, if the node is one. -/
def erbTag? : Entry → Option ErbTag
  | erb tag => some tag
  | _ => none

end Entry

mutual

/-- A node and all that is inside of it, in source order. -/
def Node.entries : Node → List Entry
  | .text span => [.text span]
  | .comment value => [.comment value]
  | .erb tag => [.erb tag]
  | .element info children =>
    .element info children.length :: info.openTag.items.map Entry.ofItem ++ entriesOfAll children

/-- The nodes of a list and all that is inside of them, in source order. -/
def Node.entriesOfAll : List Node → List Entry
  | [] => []
  | node :: nodes => node.entries ++ entriesOfAll nodes

end

namespace Document

/-- All nodes of a document, in source order. -/
def entries (document : Document) : List Entry :=
  Node.entriesOfAll document.children

/-- All issues: those of the document, then those of its nodes in source order. -/
def allIssues (document : Document) : List Issue :=
  document.issues ++ document.entries.flatMap Entry.issues

/-- All ERB tags, in source order. -/
def erbTags (document : Document) : List ErbTag :=
  document.entries.filterMap Entry.erbTag?

end Document

/-! ## 3. Replacing ERB tags -/

/-- Puts the next tag of a supply in the place of a tag, which stays when there is none. -/
def ErbTag.refill (tag : ErbTag) : List ErbTag → ErbTag × List ErbTag
  | [] => (tag, [])
  | next :: supply => (next, supply)

/-- Replaces the ERB tags among the items of an opening tag, in order. -/
def TagItem.refillAll : List TagItem → List ErbTag → List TagItem × List ErbTag
  | [], supply => ([], supply)
  | .erb tag :: items, supply =>
    let (tag, supply) := tag.refill supply
    let (items, supply) := refillAll items supply
    (.erb tag :: items, supply)
  | item :: items, supply =>
    let (items, supply) := refillAll items supply
    (item :: items, supply)

mutual

/-- Replaces the ERB tags of a node, in source order, and gives back what is left of the supply. -/
def Node.refill : Node → List ErbTag → Node × List ErbTag
  | .erb tag, supply =>
    let (tag, supply) := tag.refill supply
    (.erb tag, supply)
  | .element info children, supply =>
    let (items, supply) := TagItem.refillAll info.openTag.items supply
    let (children, supply) := refillAll children supply
    (.element { info with openTag := { info.openTag with items } } children, supply)
  | .text span, supply => (.text span, supply)
  | .comment value, supply => (.comment value, supply)

/-- Replaces the ERB tags of the nodes of a list, in source order. -/
def Node.refillAll : List Node → List ErbTag → List Node × List ErbTag
  | [], supply => ([], supply)
  | node :: nodes, supply =>
    let (node, supply) := node.refill supply
    let (nodes, supply) := refillAll nodes supply
    (node :: nodes, supply)

end

/-- Replaces the ERB tags of a document, in source order. -/
def Document.withErbTags (document : Document) (tags : List ErbTag) : Document :=
  { document with children := (Node.refillAll document.children tags).1 }

end ErbTemplate
