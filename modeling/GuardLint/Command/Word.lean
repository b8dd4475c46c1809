import GuardLint.Command.Flag
import GuardLint.Text.Digit
import GuardLint.Text.Quoted

/-!
# Words of the command line

What each word of a command line is by itself: an option, perhaps with a value attached, or an
operand. A long option may be cut short as long as its name stays clear. After a word of two hyphens
every word is an operand.
-/

namespace GuardLint.Command

/-- What is wrong with a command line. -/
inductive Misuse where
  | ambiguous (word : String) (candidates : List String)
  | unusedValue (flag : Flag) (value : String)
  | missingValue (flag : Flag)
  | badChoice (flag : Flag) (value : String) (choices : List String)
  | missingPaths
  | unrecognized (words : List String)
  deriving DecidableEq, Repr

/-- A misuse in words. -/
def Misuse.message : Misuse → String
  | .ambiguous word candidates =>
    s!"ambiguous option: {word} could match " ++ ", ".intercalate candidates
  | .unusedValue flag value =>
    s!"argument {flag.label}: ignored explicit argument {Text.quoted value}"
  | .missingValue flag => s!"argument {flag.label}: expected one argument"
  | .badChoice flag value choices =>
    let listed := ", ".intercalate (choices.map Text.quoted)
    s!"argument {flag.label}: invalid choice: {Text.quoted value} (choose from {listed})"
  | .missingPaths => "the following arguments are required: paths"
  | .unrecognized words => "unrecognized arguments: " ++ " ".intercalate words

/-- How a value is attached to an option: not at all, by an equals sign, or right after a short
name. -/
inductive Attached where
  | nothing
  | value (text : String)
  | tail (text : String)
  deriving DecidableEq, Repr

/-- A word of a command line. -/
inductive Word where
  | operand (text : String)
  | separator
  | option (flag : Flag) (isShort : Bool) (attached : Attached)
  | unknown (text : String)
  deriving DecidableEq, Repr

namespace Word

/-- The text before the first equals sign, and the text after it if there is one. -/
def splitValue (word : List Char) : String × Option String :=
  match word.dropWhile (· != '=') with
  | [] => (String.ofList word, none)
  | _ :: value => (String.ofList (word.takeWhile (· != '=')), some (String.ofList value))

/-- A value as it is attached to a name by an equals sign. -/
def attach : Option String → Attached
  | none => .nothing
  | some value => .value value

/-- Whether a word that begins with a hyphen is a number below zero: digits, or digits with a point
among or before them, and perhaps a line feed at the end. -/
def isNegative (word : List Char) : Bool :=
  let text := word.drop 1
  let text := if text.getLast? = some '\n' then text.dropLast else text
  match text.dropWhile Text.isDecimal with
  | [] => !text.isEmpty
  | '.' :: digits => !digits.isEmpty && digits.all Text.isDecimal
  | _ => false

/-- A word that begins with a hyphen and names no option. -/
def other (word : List Char) : Word :=
  if isNegative word || word.contains ' ' then .operand (String.ofList word)
  else .unknown (String.ofList word)

/-- A word that begins with two hyphens and is no whole name: the only option whose name begins
like that, if there is one. -/
def long (word : List Char) : Except Misuse Word :=
  let (start, value) := splitValue word
  match Flag.table.filter fun f => start.toList.isPrefixOf f.1.toList with
  | [] => .ok (other word)
  | [(_, flag)] => .ok (.option flag false (attach value))
  | several => .error (.ambiguous (String.ofList word) (several.map Prod.fst))

/-- A word that begins with one hyphen and is no whole name: a short name with more after it. -/
def short (word : List Char) : Word :=
  match Flag.named? (String.ofList (word.take 2)) with
  | some flag => .option flag true (.tail (String.ofList (word.drop 2)))
  | none => other word

/-- Whether a name is short. -/
def isShortName (name : String) : Bool := name.length = 2

/-- What a word is by itself. -/
def ofText (word : String) : Except Misuse Word :=
  match word.toList with
  | '-' :: second :: _ =>
    let (name, value) := splitValue word.toList
    match Flag.named? word, Flag.named? name with
    | some flag, _ => .ok (.option flag (isShortName word) .nothing)
    | none, some flag => .ok (.option flag (isShortName name) (attach value))
    | none, none => if second = '-' then long word.toList else .ok (short word.toList)
  | _ => .ok (.operand word)

/-- The words of a command line. -/
def ofTexts : List String → Except Misuse (List Word)
  | [] => .ok []
  | word :: words =>
    if word = "--" then .ok (.separator :: words.map .operand)
    else do
      let first ← ofText word
      return first :: (← ofTexts words)

end Word

end GuardLint.Command
