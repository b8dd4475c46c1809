import GuardLint.Run.Session

/-!
# The program

Reads from the disk what a run can reach, prints what the run prints and writes the files that it
writes. The run itself is `Workspace.run`.
-/

namespace GuardLint.Disk

/-- The absolute path of some names from the root. -/
def absolute (names : List String) : String := "/" ++ "/".intercalate names

/-- Whether some names from the root lead to a directory on the disk. -/
def isDirectory (names : List String) : IO Bool := do
  try (← IO.FS.realPath (absolute names)).isDir catch _ => return false

/-- Puts an empty directory where names lead, unless something is there. -/
def ensure (root : Entry) (names : List String) : Entry :=
  if (root.find? names).isSome then root else root.put names .empty

/-- Puts what stands where names lead among all files: a file, or a directory with the directories
in it and the source files. -/
partial def fetchBelow (root : Entry) (here : List String) : IO Entry := do
  try
    let real ← IO.FS.realPath (absolute here)
    if ← real.isDir then
      let mut root := ensure root here
      for e in ← real.readDir do
        match (← e.path.symlinkMetadata).type with
        | .dir => root ← fetchBelow root (here ++ [e.fileName])
        | .file | .symlink =>
          let next := here ++ [e.fileName]
          if Workspace.isSourceName e.fileName && !(← isDirectory next) then
            root ← fetchBelow root next
        | .other => pure ()
      return root
    else return root.put here (.file (← IO.FS.readBinFile real).toList)
  catch _ => return root

/-- Puts what a path leads to among all files, and the directories on the way. -/
partial def fetch (root : Entry) (here : List String) : List String → IO Entry
  | [] => fetchBelow root here
  | ".." :: names => fetch root here.dropLast names
  | name :: names => do
    let next := here ++ [name]
    if names.isEmpty then fetchBelow root next
    else if ← isDirectory next then fetch (ensure root next) next names
    else return root

/-- The part of the disk that a command line can reach. -/
def workspace (words : List String) : IO Workspace := do
  let home := Path.ofText (← IO.currentDir).toString
  let paths := match Command.Options.ofTexts words with
    | .ok o => o.config.getD ⟨"", [Config.fileName]⟩ :: o.paths
    | .error _ => []
  let mut root := Entry.empty.put home.names .empty
  for p in paths do
    root ← fetch root [] (p.under home).names
  return ⟨root, home⟩

end GuardLint.Disk

open GuardLint in
/-- Runs the program on the words of its command line. -/
def main (words : List String) : IO UInt32 := do
  let w ← Disk.workspace words
  let outcome := w.run words
  IO.print outcome.stdout
  IO.eprint outcome.stderr
  for (path, bytes) in outcome.written do
    match w.place? path with
    | some names => IO.FS.writeBinFile (Disk.absolute names) ⟨bytes.toArray⟩
    | none => pure ()
  match outcome.status with
  | .ok status => return status.toUInt32
  | .error abort =>
    IO.eprintln abort.message
    return 1
