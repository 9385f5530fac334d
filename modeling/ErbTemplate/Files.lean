import ErbTemplate.Fault
import ErbTemplate.Memory.TextBuffer

/-!
# Files

Sources can be read from files. A directory is a finite tree: names with files or directories under
them. A path is followed from the working directory, component by component; an empty component
and `.` stay where they are, and `..` goes one level up. Nothing is known above the working
directory, so a path that leaves it finds nothing but directories. Names and paths have a greatest
length, in bytes; a path that is too long is refused before it is followed, a name only where it
is looked up.

A file is a source if its bytes are UTF-8.
-/

set_option autoImplicit false

namespace ErbTemplate

/-- What a name in a directory stands for. -/
inductive FileEntry where
  | file (content : List UInt8)
  | directory (entries : List (String × FileEntry))

/-- A working directory. -/
structure Directory where
  entries : List (String × FileEntry)

namespace Directory

/-- The components of a path. -/
def components (path : List Char) : List (List Char) :=
  match path with
  | [] => [[]]
  | '/' :: path => [] :: components path
  | c :: path =>
    match components path with
    | [] => [[c]]
    | first :: others => (c :: first) :: others

/-! ## 1. Making directories -/

/-- Whether a component of a path stays where it is. -/
def staysHere (name : List Char) : Bool :=
  name == [] || name == ['.']

/-- Puts an entry under a path of names, and makes the directories on the way. A directory that is
there already keeps what it holds. -/
def put (entry : FileEntry) :
    List (List Char) → List (String × FileEntry) → List (String × FileEntry)
  | [], entries => entries
  | name :: path, entries =>
    let name := String.ofList name
    let inside :=
      match entries.lookup name with
      | some (.directory inside) => inside
      | _ => []
    let here :=
      match path, entry with
      | [], .file content => .file content
      | [], .directory more => .directory (more ++ inside)
      | path, _ => .directory (put entry path inside)
    (name, here) :: entries.filter fun other => other.1 != name

/-- A directory with one more entry, named by a path. -/
def insert (directory : Directory) (path : String) (entry : FileEntry) : Directory :=
  ⟨put entry ((components path.toList).filter fun name => !staysHere name) directory.entries⟩

/-! ## 2. Following paths -/

/-- The greatest length of a path, in bytes. -/
def maxPath : Nat := 4095

/-- The greatest length of a name, in bytes. -/
def maxName : Nat := 255

/-- A place while a path is followed: the entry there and the directories above it, nearest first.
Above the working directory there are only directories without known entries. -/
structure Place where
  entry : FileEntry
  above : List FileEntry

/-- Follows one component. -/
def step (place : Place) (name : List Char) : Except IoCause Place :=
  match place.entry with
  | .file _ => .error .notDirectory
  | .directory entries =>
    if staysHere name then
      .ok place
    else if name = ['.', '.'] then
      match place.above with
      | parent :: above => .ok ⟨parent, above⟩
      | [] => .ok ⟨.directory [], []⟩
    else if maxName < Text.byteLength name then
      .error .nameTooLong
    else
      match entries.lookup (String.ofList name) with
      | some entry => .ok ⟨entry, place.entry :: place.above⟩
      | none => .error .notFound

/-- The entry that a path leads to. -/
def find (directory : Directory) (path : String) : Except IoCause FileEntry := do
  let path := path.toList
  if path.contains '\x00' then
    throw .nulInName
  else if path.isEmpty then
    throw .notFound
  else if maxPath < Text.byteLength path then
    throw .nameTooLong
  else
    let root : FileEntry :=
      if path.head? = some '/' then .directory [] else .directory directory.entries
    let place ← (components path).foldlM step ⟨root, []⟩
    return place.entry

/-! ## 3. Reading files -/

/-- The text of the file that a path leads to. -/
def readText (directory : Directory) (path : String) : Except IoCause String := do
  match ← directory.find path with
  | .directory _ => throw .isDirectory
  | .file content =>
    match Text.ofBytes? content with
    | some text => return text
    | none => throw .invalidUtf8

/-- Reads a source from a file. -/
def readSource (directory : Directory) (path : String) : Except Failure (List Char) :=
  match directory.readText path with
  | .ok text => .ok text.toList
  | .error cause => .error (.io path cause)

end Directory
end ErbTemplate
