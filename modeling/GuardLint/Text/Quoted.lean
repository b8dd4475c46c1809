import GuardLint.Text.Hex
import GuardLint.Text.Printable

/-!
# Quoted text

How a text is shown inside a message: between quotes, with every character visible. Single quotes
are used unless the text holds a single quote and no double one.
-/

namespace GuardLint.Text

namespace Quoted

/-- The quote that a text is shown in. -/
def mark (text : List Char) : Char :=
  if text.contains '\'' && !text.contains '"' then '"' else '\''

/-- A character that cannot be shown is written by its code point, in the shortest of three
widths. -/
def codePoint (c : Char) : List Char :=
  let n := c.toNat
  if n < 0x100 then '\\' :: 'x' :: hex 2 n
  else if n < 0x10000 then '\\' :: 'u' :: hex 4 n
  else '\\' :: 'U' :: hex 8 n

/-- The form of one character between the quotes `quote`. -/
def escape (quote c : Char) : List Char :=
  if c = '\\' || c = quote then ['\\', c]
  else if c = '\t' then ['\\', 't']
  else if c = '\n' then ['\\', 'n']
  else if c = '\r' then ['\\', 'r']
  else if isPrintable c then [c]
  else codePoint c

end Quoted

/-- A text as messages show it. -/
def quoted (text : String) : String :=
  let chars := text.toList
  let quote := Quoted.mark chars
  String.ofList (quote :: chars.flatMap (Quoted.escape quote) ++ [quote])

/-- A list of texts as messages show it: quoted, separated by commas, in brackets. -/
def quotedList (texts : List String) : String :=
  "[" ++ ", ".intercalate (texts.map quoted) ++ "]"

end GuardLint.Text
