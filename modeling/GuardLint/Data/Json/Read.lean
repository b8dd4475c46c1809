import GuardLint.Data.Json.Token
import GuardLint.Data.Table
import GuardLint.Location

/-!
# Reading data values

A data text is read token by token. What may come next depends on the containers that are open and
on how far the innermost is read; the first token that may not come is the defect that is reported,
and a text that ends too early has its defect at the end.
-/

namespace GuardLint.Json

/-- A container that is open: the items before, or the fields before and the name of the next. -/
inductive Frame where
  | array (items : List Value)
  | object (fields : List (String × Value)) (name : String)

/-- What may come next. -/
inductive Expected where
  /-- A value. -/
  | value (around : List Frame)
  /-- The first item of an array, or its end. -/
  | item (around : List Frame)
  /-- The name of a field. -/
  | name (around : List Frame) (fields : List (String × Value))
  /-- The name of the first field of an object, or its end. -/
  | firstName (around : List Frame)
  /-- The colon after a name. -/
  | colon (around : List Frame) (fields : List (String × Value)) (name : String)
  /-- What comes after a value. -/
  | rest (around : List Frame) (value : Value)

/-- Why a text is no value: it is malformed at a place, or holds a whole number with too many
digits. -/
inductive ReadError where
  | malformed (defect : Defect) (place : Position)
  | longNumber (digits : Nat)
  deriving DecidableEq, Repr

/-- How many digits a whole number may have. -/
def maxDigits : Nat := 4300

/-- An error in words. -/
def ReadError.message : ReadError → String
  | .malformed defect place =>
    s!"{defect.message}: line {place.line} column {place.column} (char {place.offset})"
  | .longNumber digits =>
    s!"Exceeds the limit ({maxDigits} digits) for integer string conversion: value has " ++
      s!"{digits} digits; use sys.set_int_max_str_digits() to increase the limit"

/-- Why a token cannot be taken. -/
inductive Refusal where
  | flaw (flaw : Flaw)
  | longNumber (digits : Nat)
  deriving DecidableEq, Repr

namespace Reader

/-- The refusal of a token at an offset. -/
def refuse {α : Type} (defect : Defect) (offset : Nat) : Except Refusal α :=
  .error (.flaw ⟨defect, offset⟩)

/-- How many digits a literal has, if it is a whole number. -/
def wholeDigits? (value : Value) : Option Nat :=
  match value with
  | .number text =>
    let digits := text.toList.dropWhile (· == '-')
    if !digits.isEmpty && digits.all Char.isDigit then some digits.length else none
  | _ => none

/-- A literal among open containers. -/
def literal (around : List Frame) (value : Value) : Except Refusal Expected :=
  match wholeDigits? value with
  | some n => if n > maxDigits then .error (.longNumber n) else .ok (.rest around value)
  | none => .ok (.rest around value)

/-- What may come after a token where a value is expected. -/
def takeValue (around : List Frame) (offset : Nat) : Token → Except Refusal Expected
  | .literal value => literal around value
  | .string (.ok text) => .ok (.rest around (.string text))
  | .string (.error flaw) => .error (.flaw flaw)
  | .openArray => .ok (.item around)
  | .openObject => .ok (.firstName around)
  | _ => refuse .noValue offset

/-- What may come after a token where a name is expected. -/
def takeName (around : List Frame) (fields : List (String × Value)) (offset : Nat) :
    Token → Except Refusal Expected
  | .string (.ok name) => .ok (.colon around fields name)
  | .string (.error flaw) => .error (.flaw flaw)
  | _ => refuse .noName offset

/-- What may come after a token where a value has ended. -/
def takeRest (value : Value) (offset : Nat) : List Frame → Token → Except Refusal Expected
  | .array items :: around, .comma => .ok (.value (.array (items ++ [value]) :: around))
  | .array items :: around, .closeArray => .ok (.rest around (.array (items ++ [value])))
  | .object fields name :: around, .comma => .ok (.name around (setValue fields name value))
  | .object fields name :: around, .closeObject =>
    .ok (.rest around (.object (setValue fields name value)))
  | _ :: _, _ => refuse .noComma offset
  | [], _ => refuse .moreData offset

/-- What may come after a token. -/
def take (offset : Nat) : Expected → Token → Except Refusal Expected
  | .item around, .closeArray => .ok (.rest around (.array []))
  | .item around, token => takeValue (.array [] :: around) offset token
  | .value around, token => takeValue around offset token
  | .firstName around, .closeObject => .ok (.rest around (.object []))
  | .firstName around, token => takeName around [] offset token
  | .name around fields, token => takeName around fields offset token
  | .colon around fields name, .colon => .ok (.value (.object fields name :: around))
  | .colon .., _ => refuse .noColon offset
  | .rest around value, token => takeRest value offset around token

/-- The value that is read when the text ends at an offset. -/
def finish (offset : Nat) : Expected → Except Refusal Value
  | .rest [] value => .ok value
  | .rest .. => refuse .noComma offset
  | .colon .. => refuse .noColon offset
  | .name .. | .firstName _ => refuse .noName offset
  | .value _ | .item _ => refuse .noValue offset

/-- The value that is read when tokens come and the text then ends. -/
def run (stop : Nat) (e : Expected) (tokens : List (Nat × Token)) : Except Refusal Value := do
  finish stop (← tokens.foldlM (fun e t => take t.1 e t.2) e)

end Reader

/-- A refusal as an error in a text. -/
def Refusal.inText (text : List Char) : Refusal → ReadError
  | .flaw f => .malformed f.defect (Position.origin.advance (text.take f.offset))
  | .longNumber digits => .longNumber digits

/-- The value that a text is. -/
def read (text : List Char) : Except ReadError Value :=
  let result := match text with
    | '\ufeff' :: _ => Reader.refuse .byteOrderMark 0
    | _ => Reader.run text.length (.value []) (Token.ofText 0 text)
  match result with
  | .ok value => .ok value
  | .error refusal => .error (refusal.inText text)

end GuardLint.Json
