import ErbTemplate.Tree.Analysis
import ErbTemplate.Json.Basic

/-!
# Snapshots

A snapshot is a result that stands on its own: every span has been replaced by its text, so the
source and the memory of the result are no longer needed. Hosts build their values from snapshots
alone. The order of the fields is part of the contract, since one host writes them as JSON text.
-/

set_option autoImplicit false

namespace ErbTemplate

/-! ## 1. Places as JSON -/

/-- A position. -/
def Position.toJson (position : Position) : Json :=
  .object [("line", .nat position.line), ("column", .nat position.column)]

/-- A location. -/
def Location.toJson (location : Location) : Json :=
  .object [("start", location.start.toJson), ("end", location.stop.toJson)]

/-- A byte range. -/
def Range.toJson (range : Range) : Json :=
  .object [("from", .nat range.start), ("to", .nat range.stop)]

/-! ## 2. Tokens -/

/-- A token with its text. -/
structure TokenSnapshot where
  type : String
  value : String
  range : Range
  location : Location
  deriving DecidableEq, Repr

namespace TokenSnapshot

/-- The snapshot of a token. -/
def capture (token : Token) : TokenSnapshot :=
  ⟨token.kind.name, String.ofList token.text, token.range, token.location⟩

/-- The fields of a token. -/
def toJson (token : TokenSnapshot) : Json :=
  .object
    [("type", .string token.type), ("value", .string token.value),
     ("range", token.range.toJson), ("location", token.location.toJson)]

end TokenSnapshot

/-- The tokens of a source. -/
structure LexSnapshot where
  value : List TokenSnapshot
  source : String
  deriving DecidableEq, Repr

namespace LexSnapshot

/-- The snapshot of a list of tokens. -/
def capture (tokens : List Token) (source : List Char) : LexSnapshot :=
  ⟨tokens.map TokenSnapshot.capture, String.ofList source⟩

/-- The fields of the result of lexing. -/
def toJson (snapshot : LexSnapshot) : Json :=
  .object
    [("value", .array (snapshot.value.map TokenSnapshot.toJson)),
     ("source", .string snapshot.source)]

end LexSnapshot

/-! ## 3. Issues -/

/-- An issue with its wording. -/
structure IssueSnapshot where
  type : String
  message : String
  location : Location
  deriving DecidableEq, Repr

namespace IssueSnapshot

/-- The snapshot of an issue. -/
def capture (issue : Issue) : IssueSnapshot :=
  ⟨issue.kind.name, issue.message, issue.location⟩

/-- The fields of an issue. -/
def toJson (issue : IssueSnapshot) : Json :=
  .object
    [("type", .string issue.type), ("message", .string issue.message),
     ("location", issue.location.toJson)]

/-- The fields of issues. -/
def listToJson (issues : List IssueSnapshot) : Json :=
  .array (issues.map toJson)

end IssueSnapshot

/-! ## 4. Nodes -/

/-- A node with its texts. -/
inductive NodeSnapshot where
  | document (location : Location) (children : List NodeSnapshot) (issues : List IssueSnapshot)
  | text (location : Location) (content : String)
  | whitespace (location : Location) (value : String)
  | element (location : Location) (tagName : String) (openTag children : List NodeSnapshot)
      (isVoid isSelfClosing closed : Bool) (issues : List IssueSnapshot)
  | attr (location : Location) (name : String) (value : Option String) (quoted : Bool)
  | comment (location : Location) (content : String) (issues : List IssueSnapshot)
  | erb (location : Location) (opening content : String) (closing : Option String)
      (kind : Option ErbKind) (issues : List IssueSnapshot)
  deriving Repr

/-- The text of a span of a source. -/
def Span.string (span : Span) (source : List Char) : String :=
  String.ofList (span.text source)

namespace NodeSnapshot

/-- The snapshot of an ERB tag. -/
def ofErb (source : List Char) (tag : ErbTag) : NodeSnapshot :=
  .erb tag.span.location (tag.mark.string source) (tag.content.string source)
    (tag.closing.map fun closing => closing.string source) tag.kind
    (tag.issues.map IssueSnapshot.capture)

/-- The snapshot of an item of an opening tag. -/
def ofItem (source : List Char) : TagItem → NodeSnapshot
  | .whitespace span => .whitespace span.location (span.string source)
  | .attr value =>
    .attr value.span.location (value.name.string source)
      (value.value.map fun value => value.content.string source)
      (value.value.any AttributeValue.quoted)
  | .erb tag => ofErb source tag

mutual

/-- The snapshot of a node. -/
def ofNode (source : List Char) : Node → NodeSnapshot
  | .text span => .text span.location (span.string source)
  | .comment value =>
    .comment value.span.location (value.content.string source)
      (value.issues.map IssueSnapshot.capture)
  | .erb tag => ofErb source tag
  | .element info children =>
    .element info.span.location (info.openTag.name.string source)
      (info.openTag.items.map (ofItem source)) (ofNodes source children)
      info.isVoid info.openTag.selfClosing info.closeTag.isSome
      (info.issues.map IssueSnapshot.capture)

/-- The snapshots of nodes. -/
def ofNodes (source : List Char) : List Node → List NodeSnapshot
  | [] => []
  | node :: nodes => ofNode source node :: ofNodes source nodes

end

/-- The name of the type of a node. -/
def typeName : NodeSnapshot → String
  | document .. => "AST_DOCUMENT_NODE"
  | text .. => "AST_HTML_TEXT_NODE"
  | whitespace .. => "AST_WHITESPACE_NODE"
  | element .. => "AST_HTML_ELEMENT_NODE"
  | attr .. => "AST_HTML_ATTRIBUTE_NODE"
  | comment .. => "AST_HTML_COMMENT_NODE"
  | erb .. => "AST_ERB_CONTENT_NODE"

mutual

/-- The fields of a node. -/
def toJson (node : NodeSnapshot) : Json :=
  match node with
  | document location children issues =>
    .object
      [("type", .string node.typeName), ("location", location.toJson),
       ("children", .array (listToJson children)), ("errors", IssueSnapshot.listToJson issues)]
  | text location content =>
    .object
      [("type", .string node.typeName), ("location", location.toJson),
       ("content", .string content)]
  | whitespace location value =>
    .object
      [("type", .string node.typeName), ("location", location.toJson), ("value", .string value)]
  | element location tagName openTag children isVoid isSelfClosing closed issues =>
    .object
      [("type", .string node.typeName), ("location", location.toJson),
       ("tag_name", .string tagName), ("open_tag", .array (listToJson openTag)),
       ("children", .array (listToJson children)), ("is_void", .bool isVoid),
       ("is_self_closing", .bool isSelfClosing), ("closed", .bool closed),
       ("errors", IssueSnapshot.listToJson issues)]
  | attr location name value quoted =>
    .object
      [("type", .string node.typeName), ("location", location.toJson), ("name", .string name),
       ("value", .orNull .string value), ("quoted", .bool quoted)]
  | comment location content issues =>
    .object
      [("type", .string node.typeName), ("location", location.toJson),
       ("content", .string content), ("errors", IssueSnapshot.listToJson issues)]
  | erb location opening content closing kind issues =>
    .object
      [("type", .string node.typeName), ("location", location.toJson),
       ("tag_opening", .string opening), ("content", .string content),
       ("tag_closing", .orNull .string closing),
       ("kind", .orNull (fun kind => .string kind.name) kind),
       ("errors", IssueSnapshot.listToJson issues)]

/-- The fields of nodes. -/
def listToJson : List NodeSnapshot → List Json
  | [] => []
  | node :: nodes => node.toJson :: listToJson nodes

end

mutual

/-- The types of a node and of all that is inside of it, in source order, with their depth. -/
def outline (depth : Nat) (node : NodeSnapshot) : List (Nat × String) :=
  match node with
  | document _ children _ => (depth, node.typeName) :: outlineAll (depth + 1) children
  | element _ _ openTag children _ _ _ _ =>
    (depth, node.typeName) :: outlineAll (depth + 1) openTag ++ outlineAll (depth + 1) children
  | text .. | whitespace .. | attr .. | comment .. | erb .. => [(depth, node.typeName)]

/-- The outlines of nodes, one after the other. -/
def outlineAll (depth : Nat) : List NodeSnapshot → List (Nat × String)
  | [] => []
  | node :: nodes => node.outline depth ++ outlineAll depth nodes

end

end NodeSnapshot

/-! ## 5. Documents -/

/-- A parsed source. -/
structure ParseSnapshot where
  value : NodeSnapshot
  source : String
  issues : List IssueSnapshot
  deriving Repr

namespace ParseSnapshot

/-- The snapshot of a document. -/
def capture (document : Document) (source : List Char) : ParseSnapshot where
  value :=
    .document document.span.location (NodeSnapshot.ofNodes source document.children)
      (document.issues.map IssueSnapshot.capture)
  source := String.ofList source
  issues := document.allIssues.map IssueSnapshot.capture

/-- The fields of the result of parsing. -/
def toJson (snapshot : ParseSnapshot) : Json :=
  .object
    [("value", snapshot.value.toJson), ("source", .string snapshot.source),
     ("errors", IssueSnapshot.listToJson snapshot.issues)]

end ParseSnapshot
end ErbTemplate
