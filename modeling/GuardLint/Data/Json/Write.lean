import GuardLint.Data.Value
import GuardLint.Text.Hex

/-!
# Writing data values

A value is written on one line, with a space after each comma and colon, and in ASCII alone: any
other character is escaped by its code units.
-/

namespace GuardLint.Json

/-- The escape of a code unit. -/
def escapeUnit (unit : Nat) : List Char := '\\' :: 'u' :: Text.hex 4 unit

/-- A character between quotes. -/
def escape (c : Char) : List Char :=
  let n := c.toNat
  match c with
  | '"' => ['\\', '"']
  | '\\' => ['\\', '\\']
  | '\n' => ['\\', 'n']
  | '\r' => ['\\', 'r']
  | '\t' => ['\\', 't']
  | '\x0c' => ['\\', 'f']
  | '\x08' => ['\\', 'b']
  | _ =>
    if 0x20 ≤ n && n < 0x7f then [c]
    else if n < 0x10000 then escapeUnit n
    else escapeUnit (0xd800 + (n - 0x10000) / 0x400) ++ escapeUnit (0xdc00 + n % 0x400)

/-- A text between quotes. -/
def quote (text : String) : String :=
  String.ofList ('"' :: text.toList.flatMap escape ++ ['"'])

mutual

/-- A value as a text. -/
def write : Value → String
  | .null => "null"
  | .bool true => "true"
  | .bool false => "false"
  | .number text => text
  | .string text => quote text
  | .array items => "[" ++ ", ".intercalate (writeItems items) ++ "]"
  | .object fields => "\x7b" ++ ", ".intercalate (writeFields fields) ++ "\x7d"

/-- The items of an array as texts. -/
def writeItems : List Value → List String
  | [] => []
  | item :: items => write item :: writeItems items

/-- The fields of an object as texts. -/
def writeFields : List (String × Value) → List String
  | [] => []
  | (name, value) :: fields => (quote name ++ ": " ++ write value) :: writeFields fields

end

end GuardLint.Json
