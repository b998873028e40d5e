/-
A disk: files and directories by their place.

A place is the list of names from the top directory down. A path is text; it starts at the top if it begins with a
slash and at the current directory otherwise. Empty names and `.` stay where they are, `..` goes one directory up, and
every other name on the way must be a directory. A name has at most 255 bytes, a path less than 4096.

Files are created or replaced as a whole (`save`). `makeDirectories` creates a directory and those above it that
are missing; what it has created stays if a later step is refused.
-/
import Asm6502.Fault

namespace Asm6502.Demo

/-- a path: the pieces of its text between slashes -/
structure Path where
  pieces : List String
  deriving DecidableEq, Repr

namespace Path

def ofString (text : String) : Path where
  pieces := (text.split '/').toList.map (·.copy)

def text (path : Path) : String :=
  "/".intercalate path.pieces

/-- a path is read back from its text, unless a slash is hidden in one of its pieces -/
theorem ofString_text (path : Path) (hne : path.pieces ≠ []) (h : ∀ piece ∈ path.pieces, '/' ∉ piece.toList) :
    ofString path.text = path := by
  have hpieces := String.toList_split_intercalate h
  rw [if_neg hne] at hpieces
  exact congrArg Path.mk hpieces

def absolute (path : Path) : Bool :=
  match path.pieces with
  | "" :: _ :: _ => true
  | _ => false

/-- whether the path ends in a slash -/
def closed (path : Path) : Bool :=
  path.pieces.getLast? = some ""

def names (path : Path) : List String :=
  path.pieces.filter (· ≠ "")

/-- whether a piece stays where it is -/
def idle (piece : String) : Bool :=
  piece = "" ∨ piece = "."

/-- the directory of what a path names; none if there is nothing but the top or the current directory above it -/
def parent? (path : Path) : Option Path :=
  let lowestFirst := path.pieces.reverse.dropWhile idle
  match (lowestFirst.drop 1).dropWhile idle with
  | [] => none
  | above => some ⟨above.reverse⟩

/-- the length of a text, with the zero that ends it, that the system takes as a path -/
def textLimit : Nat := 4096

/-- fails for a text that the system does not take as a path -/
def check (path : Path) : Except Refusal Unit :=
  if path.text.toList.contains '\x00' then
    .error .zeroInName
  else if textLimit ≤ path.text.utf8ByteSize then
    .error .nameTooLong
  else
    .ok ()

end Path

/-- the longest name of a file or directory, in bytes -/
def nameLimit : Nat := 255

/-- what stands at a place -/
inductive Entry where
  | file (content : ByteArray)
  | directory

/-- files and directories by place, and the current directory; the top directory is always there -/
structure Disk where
  entries : List (List String × Entry)
  current : List String

namespace Disk

def find? (disk : Disk) (place : List String) : Option Entry :=
  match place with
  | [] => some .directory
  | place => disk.entries.lookup place

/-- puts an entry at a place and leaves all others -/
def put (disk : Disk) (place : List String) (entry : Entry) : Disk :=
  { disk with entries := (place, entry) :: disk.entries.filter (·.1 ≠ place) }

/-- goes down from the directory `here` along the names -/
def walk (disk : Disk) (here : List String) : List String → Except Refusal (List String)
  | [] => .ok here
  | name :: names =>
    if name = "." then
      disk.walk here names
    else if name = ".." then
      disk.walk here.dropLast names
    else if nameLimit < name.utf8ByteSize then
      .error .nameTooLong
    else
      match disk.find? (here ++ [name]) with
      | some .directory => disk.walk (here ++ [name]) names
      | some (.file _) => .error .notDirectory
      | none => .error .missing

def start (disk : Disk) (path : Path) : List String :=
  if path.absolute then [] else disk.current

/-- the place of the file that a path names, in a directory that exists; directories are refused -/
def filePlace (disk : Disk) (path : Path) : Except Refusal (List String) := do
  path.check
  match path.names.getLast? with
  | none => throw (if path.absolute then .isDirectory else .missing)
  | some last =>
    let directory ← disk.walk (disk.start path) path.names.dropLast
    if last = "." ∨ last = ".." ∨ path.closed then
      throw .isDirectory
    else if nameLimit < last.utf8ByteSize then
      throw .nameTooLong
    else
      match disk.find? (directory ++ [last]) with
      | some .directory => throw .isDirectory
      | _ => pure (directory ++ [last])

/-- creates a file or replaces its content -/
def save (disk : Disk) (path : Path) (content : ByteArray) : Except Refusal Disk := do
  let place ← disk.filePlace path
  pure (disk.put place (.file content))

def content? (disk : Disk) (path : Path) : Option ByteArray :=
  match disk.filePlace path with
  | .ok place =>
    match disk.find? place with
    | some (.file content) => some content
    | _ => none
  | .error _ => none

def isDirectory (disk : Disk) (path : Path) : Bool :=
  match path.check, disk.walk (disk.start path) path.names with
  | .ok (), .ok _ => true
  | _, _ => false

def makeDirectory (disk : Disk) (path : Path) : Except Refusal Disk := do
  path.check
  match path.names.getLast? with
  | none => throw .alreadyExists
  | some last =>
    let directory ← disk.walk (disk.start path) path.names.dropLast
    if last = "." ∨ last = ".." then
      throw .alreadyExists
    else if nameLimit < last.utf8ByteSize then
      throw .nameTooLong
    else
      match disk.find? (directory ++ [last]) with
      | some _ => throw .alreadyExists
      | none => pure (disk.put (directory ++ [last]) .directory)

def ensureDirectory (path : Path) : EStateM Refusal Disk Unit := do
  let disk ← get
  match disk.makeDirectory path with
  | .ok disk => set disk
  | .error refusal => if disk.isDirectory path then pure () else throw refusal

/-- creates the directory with the given pieces, the lowest first, and those above it that are missing -/
def makeAll : (lowestFirst : List String) → EStateM Refusal Disk Unit
  | [] => pure ()
  | piece :: above => do
    if Path.idle piece then
      makeAll above
    else
      let path : Path := ⟨(piece :: above).reverse⟩
      match (← get).makeDirectory path with
      | .error .missing =>
        makeAll above
        ensureDirectory path
      | _ => ensureDirectory path

/-- creates a directory and those above it that are missing -/
def makeDirectories (path : Path) : EStateM Refusal Disk Unit :=
  makeAll path.pieces.reverse

end Disk

end Asm6502.Demo
