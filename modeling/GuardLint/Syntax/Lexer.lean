import GuardLint.Syntax.Token
import GuardLint.Text.Blank
import GuardLint.Text.Digit

/-!
# Lexemes

A source text is cut into lexemes from left to right. At each place the first class of lexeme that
fits there is taken, in the order number, comment, name, character, string, blank, mark, and as
much text as that class allows. Blanks and comments are gaps; every other lexeme is a token.

Each class is a function from the text that follows to the number of characters it takes.
-/

namespace GuardLint.Syntax

/-- What a lexeme is. -/
inductive Lexeme.Class where
  | token (kind : Kind)
  | comment
  | blank
  deriving DecidableEq, Repr

/-- A piece of a source text: what it is, its text, and where it stands. -/
structure Lexeme where
  kind : Lexeme.Class
  text : List Char
  location : Location
  deriving DecidableEq, Repr

namespace Lexer

/-- A character that may stand after the first digit of a decimal number. -/
def isDigitOrBar (c : Char) : Bool := Text.isDecimal c || c == '_'

/-- A character of the digits of a hexadecimal number. -/
def isHexOrBar (c : Char) : Bool :=
  c.isDigit || ('a' ≤ c && c ≤ 'f') || ('A' ≤ c && c ≤ 'F') || c == '_'

/-- A character of the digits of a binary number. -/
def isBinaryOrBar (c : Char) : Bool := c == '0' || c == '1' || c == '_'

/-- A character that may begin a name. -/
def isNameStart (c : Char) : Bool := c.isAlpha || c == '_' || c == '$'

/-- A character that may stand inside a name. -/
def isNamePart (c : Char) : Bool := c.isAlphanum || c == '_' || c == '$'

/-- The length of the longest start of a text whose characters all satisfy `p`. -/
def run (p : Char → Bool) (text : List Char) : Nat := (text.takeWhile p).length

/-- One if the text begins with one of the characters `cs`, and zero otherwise. -/
def oneOf (cs : List Char) : List Char → Nat
  | c :: _ => if cs.contains c then 1 else 0
  | [] => 0

/-- A number with a base mark: zero, the mark, digits and perhaps the suffix of a long. -/
def basedNumber (marks : List Char) (isDigit : Char → Bool) : List Char → Option Nat
  | '0' :: mark :: text =>
    let digits := run isDigit text
    if marks.contains mark && digits != 0 then
      some (2 + digits + oneOf ['l', 'L'] (text.drop digits))
    else none
  | _ => none

/-- The digits of a decimal number, with a point among them, before them or after them. -/
def mantissa : List Char → Option Nat
  | '.' :: d :: text => if Text.isDecimal d then some (2 + run isDigitOrBar text) else none
  | d :: text =>
    if Text.isDecimal d then
      let whole := run isDigitOrBar text
      match text.drop whole with
      | '.' :: rest => some (2 + whole + run isDigitOrBar rest)
      | _ => some (1 + whole)
    else none
  | [] => none

/-- The exponent of a decimal number, or nothing if no digit follows the mark and sign. -/
def exponent : List Char → Nat
  | e :: text =>
    if e == 'e' || e == 'E' then
      let sign := oneOf ['+', '-'] text
      let digits := run Text.isDecimal (text.drop sign)
      if digits = 0 then 0 else 1 + sign + digits
    else 0
  | [] => 0

/-- A decimal number: mantissa, exponent and type suffix. -/
def decimalNumber (text : List Char) : Option Nat :=
  (mantissa text).map fun digits =>
    let power := exponent (text.drop digits)
    digits + power + oneOf ['f', 'F', 'd', 'D', 'l', 'L'] (text.drop (digits + power))

/-- A number: hexadecimal, binary or decimal. -/
def number (text : List Char) : Option Nat :=
  basedNumber ['x', 'X'] isHexOrBar text <|> basedNumber ['b', 'B'] isBinaryOrBar text <|>
    decimalNumber text

/-- The length up to and with the first end mark of a block comment. -/
def blockEnd : List Char → Option Nat
  | '*' :: '/' :: _ => some 2
  | _ :: text => (blockEnd text).map (· + 1)
  | [] => none

/-- A comment: to the end of the line, or to the first end mark. -/
def comment : List Char → Option Nat
  | '/' :: '/' :: text => some (2 + run (· != '\n') text)
  | '/' :: '*' :: text => (blockEnd text).map (· + 2)
  | _ => none

/-- A name, reserved or not. -/
def name : List Char → Option Nat
  | c :: text => if isNameStart c then some (1 + run isNamePart text) else none
  | [] => none

/-- The length up to and with the closing quote. A line feed may not stand before it, and a
backslash takes the character after it along. -/
def closing (quote : Char) : List Char → Option Nat
  | [] => none
  | '\\' :: [] => none
  | '\\' :: c :: text => if c = '\n' then none else (closing quote text).map (· + 2)
  | c :: text =>
    if c = quote then some 1 else if c = '\n' then none else (closing quote text).map (· + 1)

/-- A character literal, which may hold several characters but not none. -/
def char : List Char → Option Nat
  | '\'' :: text => (closing '\'' text).bind fun n => if n = 1 then none else some (1 + n)
  | _ => none

/-- A string literal. -/
def string : List Char → Option Nat
  | '"' :: text => (closing '"' text).map (1 + ·)
  | _ => none

/-- A stretch of blanks. -/
def blank (text : List Char) : Option Nat :=
  let n := run Text.isBlank text
  if n = 0 then none else some n

/-- The longest mark that the text begins with. -/
def mark? (text : List Char) : Option Mark :=
  Mark.all.find? fun m => m.text.toList.isPrefixOf text

/-- A name is a reserved word if it is spelled like one. -/
def wordKind (text : List Char) : Kind :=
  match Keyword.ofText? (String.ofList text) with
  | some keyword => .word keyword
  | none => .name

/-- The class and the length of the lexeme that a text begins with. -/
def first? (text : List Char) : Option (Lexeme.Class × Nat) :=
  ((number text).map fun n => (.token .number, n)) <|>
  ((comment text).map fun n => (.comment, n)) <|>
  ((name text).map fun n => (.token (wordKind (text.take n)), n)) <|>
  ((char text).map fun n => (.token .char, n)) <|>
  ((string text).map fun n => (.token .string, n)) <|>
  ((blank text).map fun n => (.blank, n)) <|>
  ((mark? text).map fun m => (.token (.mark m), m.text.length))

end Lexer

/-- A place where no class of lexeme fits, and the character that stands there. -/
structure Stray where
  position : Position
  char : Char
  deriving DecidableEq, Repr

/-- The lexemes of a text that begins at a position, up to the first stray character. Every lexeme
takes a character at least, so no more than `fuel` are needed when the text is no longer than
that. -/
def Lexeme.cut : (fuel : Nat) → Position → List Char → List Lexeme × Option Stray
  | _, _, [] => ([], none)
  | 0, at_, c :: _ => ([], some ⟨at_, c⟩)
  | fuel + 1, at_, c :: text =>
    match Lexer.first? (c :: text) with
    | none => ([], some ⟨at_, c⟩)
    | some (kind, length) =>
      let piece := (c :: text).take length
      let after := at_.advance piece
      let (others, stray) := cut fuel after ((c :: text).drop length)
      (⟨kind, piece, ⟨at_, after⟩⟩ :: others, stray)

/-- The lexemes of a source text, up to the first stray character. -/
def Lexeme.ofSource (source : List Char) : List Lexeme × Option Stray :=
  Lexeme.cut source.length .origin source

/-- A lexeme as a token, unless it is a gap. -/
def Lexeme.token? (lexeme : Lexeme) : Option Token :=
  match lexeme.kind with
  | .token kind => some ⟨kind, String.ofList lexeme.text, lexeme.location⟩
  | _ => none

/-- The tokens of a source text, up to the first stray character. -/
def Token.ofSource (source : List Char) : List Token × Option Stray :=
  let (lexemes, stray) := Lexeme.ofSource source
  (lexemes.filterMap Lexeme.token?, stray)

end GuardLint.Syntax
