import ErbTemplate.Tree.Segment

/-!
# Nesting segments into a tree

Elements that are still open form a stack. An opening tag adds to the stack, unless its element has
no content. A closing tag looks for the innermost open element of its name; the elements further
inside end with it, and are reported unless their closing tag may be left out. At the end of the
source all elements that are still open end.

Lists of children grow at the front while they are built (`Frame.children`, `Builder.children`), so
the newest child is the first.
-/

set_option autoImplicit false

namespace ErbTemplate

/-- An element that is still open: its name in small letters, its opening tag and its children,
newest first. -/
structure Frame where
  name : List Char
  openTag : OpenTag
  children : List Node
  deriving Repr

namespace Frame

/-- The element of a frame that ends without a closing tag: with its last child, or with its
opening tag if it has none. -/
def toNode (frame : Frame) (issues : List Issue) : Node :=
  let stop := (frame.children.head?.map fun child => child.span.stop).getD frame.openTag.span.stop
  .element ⟨frame.openTag, none, false, ⟨frame.openTag.span.start, stop⟩, issues⟩
    frame.children.reverse

/-- The element of a frame that ends with a closing tag. -/
def closeWith (closeTag : CloseTag) (frame : Frame) : Node :=
  .element
    ⟨frame.openTag, some closeTag, false, ⟨frame.openTag.span.start, closeTag.span.stop⟩, []⟩
    frame.children.reverse

/-- Whether an element may end without a closing tag. -/
def mayOmitEnd (strict : Bool) (frame : Frame) : Bool :=
  !strict && isOptionalEndName frame.name

/-- The element of a frame that ends because the element `outer` around it is closed. -/
def closeImplicitly (strict : Bool) (outer : List Char) (frame : Frame) : Node :=
  frame.toNode <|
    if frame.mayOmitEnd strict then []
    else [⟨.closedImplicitly frame.name outer, frame.openTag.span⟩]

/-- The element of a frame that is open at the end of the source. -/
def closeAtEnd (strict : Bool) (frame : Frame) : Node :=
  frame.toNode <|
    if frame.mayOmitEnd strict then []
    else [⟨.neverClosed frame.name, frame.openTag.span⟩]

end Frame

/-- A tree under construction: the open elements, innermost first, and the children and the issues
of the document, newest first. -/
structure Builder where
  frames : List Frame
  children : List Node
  issues : List Issue
  deriving Repr

namespace Builder

/-- Nothing built yet. -/
def empty : Builder :=
  ⟨[], [], []⟩

/-- Changes the children of the innermost open element, or of the document. -/
def onChildren (change : List Node → List Node) (builder : Builder) : Builder :=
  match builder.frames with
  | [] => { builder with children := change builder.children }
  | frame :: frames =>
    { builder with frames := { frame with children := change frame.children } :: frames }

/-- Adds a node. -/
def add (node : Node) (builder : Builder) : Builder :=
  builder.onChildren (node :: ·)

/-- Puts a text in front of newer-first nodes: it joins a text that it touches. -/
def joinText (span : Span) : List Node → List Node
  | .text last :: nodes =>
    if last.stop.offset = span.start.offset then .text ⟨last.start, span.stop⟩ :: nodes
    else .text span :: .text last :: nodes
  | nodes => .text span :: nodes

/-- Takes the innermost open element off the stack and adds the node it becomes. -/
def pop (finish : Frame → Node) (builder : Builder) : Builder :=
  match builder.frames with
  | [] => builder
  | frame :: frames => { builder with frames }.add (finish frame)

/-- Opens an element; one without content is added at once. -/
def openElement (name : List Char) (tag : OpenTag) (terminated : Bool) (builder : Builder) :
    Builder :=
  let isVoid := isVoidName name
  if isVoid || tag.selfClosing || !terminated then
    let issues := if terminated then [] else [⟨.unterminatedTag name, tag.span⟩]
    builder.add (.element ⟨tag, none, isVoid, tag.span, issues⟩ [])
  else
    { builder with frames := ⟨name, tag, []⟩ :: builder.frames }

/-- Closes the innermost open element of a name and everything inside of it. -/
def closeElement (options : ParserOptions) (name : List Char) (tag : CloseTag)
    (builder : Builder) : Builder :=
  if builder.frames.any fun frame => frame.name == name then
    let inner := builder.frames.takeWhile fun frame => frame.name != name
    let builder :=
      inner.foldl (fun builder _ => builder.pop (Frame.closeImplicitly options.strict name)) builder
    builder.pop (Frame.closeWith tag)
  else
    { builder with issues := ⟨.nothingToClose name, tag.span⟩ :: builder.issues }

/-- Takes in one segment. -/
def step (options : ParserOptions) (builder : Builder) : Segment → Builder
  | .text token => builder.onChildren (joinText token.span)
  | .erb tag => builder.add (.erb tag)
  | .comment value => builder.add (.comment value)
  | .openTag name tag terminated => builder.openElement name tag terminated
  | .closeTag name tag => builder.closeElement options name tag

/-- Ends all elements that are still open. -/
def finish (options : ParserOptions) (builder : Builder) : Builder :=
  builder.frames.foldl (fun builder _ => builder.pop (Frame.closeAtEnd options.strict)) builder

/-- Builds the tree of a row of segments. -/
def build (options : ParserOptions) (segments : List Segment) : Builder :=
  (segments.foldl (step options) empty).finish options

end Builder

/-- The segments of a source, with white space in opening tags if it is asked for. -/
abbrev ParserOptions.segments (options : ParserOptions) (source : List Char) : List Segment :=
  ErbTemplate.segments options.trackWhitespace (locatedPieces source)

/-- The document of a source before its ERB tags are analysed. -/
def Document.ofSource (options : ParserOptions) (source : List Char) : Document :=
  let built := Builder.build options (options.segments source)
  { children := built.children.reverse
    issues := built.issues.reverse
    span := ⟨.origin, Point.origin.advance source⟩
    options
    analyzed := false }

end ErbTemplate
