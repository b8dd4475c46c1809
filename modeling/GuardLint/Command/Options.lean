import GuardLint.Command.Word
import GuardLint.Files.Path
import GuardLint.Run.Config

/-!
# The command line

The paths and options of a run, from the words of a command line. Words are taken in order, so the
first that is wrong is the one reported, and a request for help wins over what comes after it. The
paths stand in one row; operands after that row are left over, and so are unknown options.
-/

namespace GuardLint.Command

/-- What a command line asks for. -/
structure Options where
  paths : List Path
  config : Option Path
  apply : Bool
  diff : Bool
  json : Bool
  verbose : Bool
  testOnly : Bool
  noSkipGenerated : Bool
  severity : Option Severity
  deriving DecidableEq, Repr

/-- Why a command line does not lead to a run. -/
inductive Stop where
  | help
  | misuse (misuse : Misuse)
  deriving DecidableEq, Repr

/-- How much of the row of paths is read. -/
inductive Row where
  | before
  | within
  | after
  deriving DecidableEq, Repr

/-- A command line of which some words are read. -/
structure Draft where
  options : Options
  row : Row
  leftOver : List String
  deriving DecidableEq, Repr

namespace Draft

/-- A command line of which nothing is read. -/
def blank : Draft where
  options := ⟨[], none, false, false, false, false, false, false, none⟩
  row := .before
  leftOver := []

/-- The row of paths ends at the latest where an option stands. -/
def endRow (d : Draft) : Draft := if d.row = .within then { d with row := .after } else d

/-- A word that is not taken. -/
def leave (d : Draft) (word : String) : Draft := { d with leftOver := d.leftOver ++ [word] }

/-- An operand goes to the row of paths unless that has ended. -/
def operand (d : Draft) (text : String) : Draft :=
  if d.row = .after then d.leave text
  else
    { d with
      row := .within
      options := { d.options with paths := d.options.paths ++ [Path.ofText text] } }

/-- The separator says nothing by itself, but is left over after the row of paths. -/
def separator (d : Draft) : Draft := if d.row = .after then d.leave "--" else d

/-- An option without a value. -/
def switch (d : Draft) (flag : Flag) : Except Stop Draft :=
  let o := d.options
  let set (o : Options) : Except Stop Draft := .ok { d.endRow with options := o }
  match flag with
  | .help => .error .help
  | .apply => set { o with apply := true }
  | .diff => set { o with diff := true }
  | .json => set { o with json := true }
  | .verbose => set { o with verbose := true }
  | .testOnly => set { o with testOnly := true }
  | .noSkipGenerated => set { o with noSkipGenerated := true }
  | .config | .severity => .error (.misuse (.missingValue flag))

/-- An option with a value. -/
def assign (d : Draft) (flag : Flag) (value : String) : Except Stop Draft :=
  let o := d.options
  let set (o : Options) : Except Stop Draft := .ok { d.endRow with options := o }
  match flag with
  | .config => set { o with config := some (Path.ofText value) }
  | .severity =>
    match Severity.ofText? value with
    | some s => set { o with severity := some s }
    | none =>
      .error (.misuse (.badChoice flag value (Severity.all.map Severity.text)))
  | _ => .error (.misuse (.unusedValue flag value))

/-- The short options that a word with one hyphen holds, and the rest of it from the first letter on
that names none. Nothing may be attached to them. -/
def cluster (flag : Flag) (bySign : Bool) : List Char →
    Except Misuse (List Flag × Option String)
  | [] => .error (.unusedValue flag "")
  | c :: text =>
    if bySign || c = '-' then .error (.unusedValue flag (String.ofList (c :: text)))
    else
      match Flag.named? (String.ofList ['-', c]) with
      | none => .ok ([flag], some (String.ofList ('-' :: c :: text)))
      | some next =>
        match text with
        | [] => .ok ([flag, next], none)
        | '=' :: value =>
          (cluster next true value).map fun (flags, rest) => (flag :: flags, rest)
        | c' :: text' =>
          (cluster next false (c' :: text')).map fun (flags, rest) => (flag :: flags, rest)

/-- The switches of a cluster, one after another, and what is left of its word. -/
def switches (d : Draft) (flags : List Flag) (rest : Option String) : Except Stop Draft := do
  let d ← flags.foldlM switch d
  return match rest with
    | some word => d.leave word
    | none => d

/-- A text right after an option. -/
def attached (d : Draft) (flag : Flag) (isShort bySign : Bool) (text : String) :
    Except Stop Draft :=
  if flag.takesValue then d.assign flag text
  else if isShort then
    match cluster flag bySign text.toList with
    | .ok (flags, rest) => d.switches flags rest
    | .error m => .error (.misuse m)
  else .error (.misuse (.unusedValue flag text))

/-- The words of a command line, one after another. An option that takes a value and has none
attached takes the operand after it. -/
def take (d : Draft) : List Word → Except Stop Draft
  | [] => .ok d
  | .operand text :: words => take (d.operand text) words
  | .separator :: words => take d.separator words
  | .unknown text :: words => take (d.endRow.leave text) words
  | .option flag isShort (.value text) :: words => do
    take (← d.attached flag isShort true text) words
  | .option flag isShort (.tail text) :: words => do
    take (← d.attached flag isShort false text) words
  | .option flag _ .nothing :: .operand text :: words => do
    if flag.takesValue then take (← d.assign flag text) words
    else take ((← d.switch flag).operand text) words
  | .option flag _ .nothing :: words => do take (← d.switch flag) words

end Draft

/-- What a command line asks for. -/
def Options.ofTexts (words : List String) : Except Stop Options :=
  match Word.ofTexts words with
  | .error m => .error (.misuse m)
  | .ok words => do
    let d ← Draft.blank.take words
    if d.options.paths.isEmpty then .error (.misuse .missingPaths)
    else if d.leftOver.isEmpty then .ok d.options
    else .error (.misuse (.unrecognized d.leftOver))

end GuardLint.Command
