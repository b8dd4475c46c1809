import GuardLint.Files.Path

/-!
# Files and directories

What stands at the places that paths lead to. A directory has entries by name; a file has bytes.
Writing a file changes that place alone.
-/

namespace GuardLint

/-- A file or a directory. -/
inductive Entry where
  | file (bytes : List UInt8)
  | directory (entries : List (String × Entry))
  deriving Inhabited

namespace Entry

/-- A directory without entries. -/
def empty : Entry := .directory []

/-- The bytes of a file. -/
def bytes? : Entry → Option (List UInt8)
  | .file bytes => some bytes
  | .directory _ => none

/-- Whether something is a directory. -/
def isDirectory : Entry → Bool
  | .file _ => false
  | .directory _ => true

/-- The entry of a name, if there is one. -/
def child? (name : String) : Entry → Option Entry
  | .file _ => none
  | .directory entries => entries.lookup name

/-- What stands where names lead. -/
def find? : Entry → List String → Option Entry
  | e, [] => some e
  | e, name :: names =>
    match e.child? name with
    | some c => find? c names
    | none => none

/-- The entries of a directory with one in the place of that of its name, or at the end. -/
def setEntry (name : String) (e : Entry) : List (String × Entry) → List (String × Entry)
  | [] => [(name, e)]
  | (n, old) :: rest => if n = name then (n, e) :: rest else (n, old) :: setEntry name e rest

/-- Everything as it is, but with something else where names lead. Directories on the way are made
if they are missing. -/
def put (e : Entry) : List String → Entry → Entry
  | [], new => new
  | name :: names, new =>
    match e with
    | .file bytes => .file bytes
    | .directory entries =>
      .directory (setEntry name (put ((entries.lookup name).getD empty) names new) entries)

/-- The names from the root that a path leads to, after some names that are known to lead to a
directory: every name is that of an entry, and a name that leads back does so from a directory. -/
def locate? (e : Entry) : (here : List String) → List String → Option (List String)
  | here, [] => some here
  | here, name :: names =>
    if name = ".." then
      if ((e.find? here).map isDirectory).getD false then locate? e here.dropLast names else none
    else if (e.find? (here ++ [name])).isSome then locate? e (here ++ [name]) names
    else none

mutual

/-- The files below an entry whose own name satisfies `p`, by their names from there. -/
def filesBelow (p : String → Bool) : Entry → List (List String)
  | .file _ => []
  | .directory entries => filesAmong p entries

/-- The files among entries and below them whose own name satisfies `p`. -/
def filesAmong (p : String → Bool) : List (String × Entry) → List (List String)
  | [] => []
  | (name, e) :: entries =>
    (if p name && !e.isDirectory then [[name]] else []) ++
      (filesBelow p e).map (name :: ·) ++ filesAmong p entries

end

end Entry

/-- All files, and the directory that paths without root begin at. -/
structure Workspace where
  root : Entry
  home : Path

namespace Workspace

/-- The names from the root of all files that a path leads to, if anything stands there. -/
def place? (w : Workspace) (p : Path) : Option (List String) :=
  w.root.locate? [] (p.under w.home).names

/-- What stands where a path leads. -/
def entry? (w : Workspace) (p : Path) : Option Entry := (w.place? p).bind w.root.find?

/-- The files with a file written where a path leads, if anything stands there. -/
def write (w : Workspace) (p : Path) (bytes : List UInt8) : Workspace :=
  match w.place? p with
  | some names => { w with root := w.root.put names (.file bytes) }
  | none => w

end Workspace

end GuardLint
