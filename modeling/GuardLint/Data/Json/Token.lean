import GuardLint.Data.Value

/-!
# The tokens of a data text

A data text is cut at blanks into marks, literals and strings. A string that is not well formed is
still a token, with what is wrong with it, since that matters only where a string may stand; and so
is a character that begins no token.
-/

namespace GuardLint.Json

/-- What is wrong with a data text. -/
inductive Defect where
  | byteOrderMark
  | noValue
  | noName
  | noColon
  | noComma
  | moreData
  | openString
  | controlCharacter
  | badEscape
  | badCodePoint
  deriving DecidableEq, Repr

/-- A defect in words. -/
def Defect.message : Defect → String
  | .byteOrderMark => "Unexpected UTF-8 BOM (decode using utf-8-sig)"
  | .noValue => "Expecting value"
  | .noName => "Expecting property name enclosed in double quotes"
  | .noColon => "Expecting ':' delimiter"
  | .noComma => "Expecting ',' delimiter"
  | .moreData => "Extra data"
  | .openString => "Unterminated string starting at"
  | .controlCharacter => "Invalid control character at"
  | .badEscape => "Invalid \\escape"
  | .badCodePoint => "Invalid \\uXXXX escape"

/-- A defect and the offset where it shows. -/
structure Flaw where
  defect : Defect
  offset : Nat
  deriving DecidableEq, Repr

/-- A token of a data text. -/
inductive Token where
  | openArray
  | closeArray
  | openObject
  | closeObject
  | colon
  | comma
  | literal (value : Value)
  | string (content : Except Flaw String)
  | stray

namespace Token

/-- A blank between tokens. -/
def isBlank (c : Char) : Bool := c == ' ' || c == '\t' || c == '\n' || c == '\r'

/-- How many decimal digits a text begins with. -/
def digits (text : List Char) : Nat := (text.takeWhile Char.isDigit).length

/-- The length of a whole number without sign. It begins with a zero only if it is zero. -/
def natural : List Char → Option Nat
  | [] => none
  | c :: text => if c = '0' then some 1 else if c.isDigit then some (1 + digits text) else none

/-- The length of a whole number. -/
def whole : List Char → Option Nat
  | '-' :: text => (natural text).map (1 + ·)
  | text => natural text

/-- The length of a fraction, which may be missing. -/
def fraction : List Char → Nat
  | '.' :: text => if digits text = 0 then 0 else 1 + digits text
  | _ => 0

/-- The length of an exponent, which may be missing. -/
def exponent : List Char → Nat
  | e :: text =>
    let sign := match text with
      | '+' :: _ | '-' :: _ => 1
      | _ => 0
    let count := digits (text.drop sign)
    if (e == 'e' || e == 'E') && count != 0 then 1 + sign + count else 0
  | [] => 0

/-- The length of a number. -/
def number (text : List Char) : Option Nat :=
  (whole text).map fun n =>
    let n := n + fraction (text.drop n)
    n + exponent (text.drop n)

/-- The words that are values. Three of them are numbers without digits. -/
def words : List (String × Value) :=
  [("null", .null), ("true", .bool true), ("false", .bool false), ("NaN", .number "NaN"),
   ("Infinity", .number "Infinity"), ("-Infinity", .number "-Infinity")]

/-- The value and the length of the literal that a text begins with. -/
def literal? (text : List Char) : Option (Value × Nat) :=
  match words.find? fun w => w.1.toList.isPrefixOf text with
  | some (word, value) => some (value, word.length)
  | none => (number text).map fun n => (.number (String.ofList (text.take n)), n)

/-- The number that a hexadecimal digit stands for. -/
def hexValue? (c : Char) : Option Nat :=
  if c.isDigit then some (c.toNat - 48)
  else if 'a' ≤ c && c ≤ 'f' then some (c.toNat - 87)
  else if 'A' ≤ c && c ≤ 'F' then some (c.toNat - 55)
  else none

/-- The number that four hexadecimal digits stand for. -/
def codeUnit? (a b c d : Char) : Option Nat := do
  return (← hexValue? a) * 0x1000 + (← hexValue? b) * 0x100 + (← hexValue? c) * 0x10 +
    (← hexValue? d)

/-- What a character stands for after a backslash. -/
def escaped? (c : Char) : Option Nat :=
  if c = '"' || c = '\\' || c = '/' then some c.toNat
  else [('b', 8), ('f', 12), ('n', 10), ('r', 13), ('t', 9)].lookup c

/-- The code units of a string from an offset on, and the offset after its closing quote. The
string began at `first`. The digits of an escape may not be the last of the text. -/
def content (first : Nat) : (offset : Nat) → List Char → Except Flaw (List Nat × Nat)
  | _, [] => .error ⟨.openString, first⟩
  | _, '\\' :: [] => .error ⟨.openString, first⟩
  | offset, '\\' :: 'u' :: a :: b :: c :: d :: text =>
    match codeUnit? a b c d with
    | some unit =>
      if text.isEmpty then .error ⟨.badCodePoint, offset + 1⟩
      else (content first (offset + 6) text).map fun (units, stop) => (unit :: units, stop)
    | none => .error ⟨.badCodePoint, offset + 1⟩
  | offset, '\\' :: c :: text =>
    match escaped? c with
    | some unit => (content first (offset + 2) text).map fun (units, stop) => (unit :: units, stop)
    | none => .error ⟨if c = 'u' then .badCodePoint else .badEscape,
        if c = 'u' then offset + 1 else offset⟩
  | offset, c :: text =>
    if c = '"' then .ok ([], offset + 1)
    else if c.toNat < 0x20 then .error ⟨.controlCharacter, offset⟩
    else (content first (offset + 1) text).map fun (units, stop) => (c.toNat :: units, stop)

/-- The first half of a pair of code units. -/
def isHigh (unit : Nat) : Bool := 0xd800 ≤ unit && unit < 0xdc00

/-- The second half of a pair of code units. -/
def isLow (unit : Nat) : Bool := 0xdc00 ≤ unit && unit < 0xe000

/-- The character of a code unit that is not in a pair; half a pair is no character and is
replaced. -/
def character (unit : Nat) : Char :=
  if isHigh unit || isLow unit then '\ufffd' else Char.ofNat unit

/-- The characters that code units stand for. -/
def characters : List Nat → List Char
  | [] => []
  | [unit] => [character unit]
  | high :: low :: units =>
    if isHigh high && isLow low then
      Char.ofNat (0x10000 + (high - 0xd800) * 0x400 + (low - 0xdc00)) :: characters units
    else character high :: characters (low :: units)

/-- The token that begins at an offset with a character, and how much of the text after that
character it takes. -/
def scan (offset : Nat) (c : Char) (text : List Char) : Token × Nat :=
  match c with
  | '[' => (.openArray, 0)
  | ']' => (.closeArray, 0)
  | '{' => (.openObject, 0)
  | '}' => (.closeObject, 0)
  | ':' => (.colon, 0)
  | ',' => (.comma, 0)
  | '"' =>
    match content offset (offset + 1) text with
    | .ok (units, stop) => (.string (.ok (String.ofList (characters units))), stop - offset - 1)
    | .error flaw => (.string (.error flaw), 0)
  | c =>
    match literal? (c :: text) with
    | some (value, length) => (.literal value, length - 1)
    | none => (.stray, 0)

/-- The tokens of a text that begins at an offset, each with its own offset. -/
def ofText (offset : Nat) : List Char → List (Nat × Token)
  | [] => []
  | c :: text =>
    if isBlank c then ofText (offset + 1) text
    else
      let (token, more) := scan offset c text
      (offset, token) :: ofText (offset + 1 + more) (text.drop more)
termination_by text => text.length
decreasing_by all_goals simp; try omega

end Token

end GuardLint.Json
