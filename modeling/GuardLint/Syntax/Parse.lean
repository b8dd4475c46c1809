import GuardLint.Grammar.Reading
import GuardLint.Syntax.Lexer
import GuardLint.Syntax.Start
import GuardLint.Text.Quoted

/-!
# Parsing

The tree of a source text, or the first thing wrong with it. Tokens are taken one at a time, so a
token that cannot continue any source file is found before a stray character that stands after it.
-/

namespace GuardLint.Syntax

/-- What is wrong with a source text: a character that begins no lexeme, a token that cannot follow
those before it, or an end where no source file may end. -/
inductive SyntaxError where
  | strayCharacter (stray : Stray)
  | unexpectedToken (token : Token)
  | unexpectedEnd
  deriving DecidableEq, Repr

namespace SyntaxError

/-- The text of a syntax error. -/
def message (e : SyntaxError) : String :=
  "syntax error: " ++
    match e with
    | .strayCharacter s =>
      s!"No terminal matches '{s.char}' in the current parser context, " ++
        s!"at line {s.position.line} col {s.position.column}"
    | .unexpectedToken t =>
      s!"Unexpected token Token({Text.quoted t.kind.label}, {Text.quoted t.text}) " ++
        s!"at line {t.location.first.line}, column {t.location.first.column}."
    | .unexpectedEnd => "Unexpected end-of-input. Expected one of: "

/-- Where a syntax error is, unless it is at the end of the text. -/
def position? : SyntaxError → Option Position
  | .strayCharacter s => some s.position
  | .unexpectedToken t => some t.location.first
  | .unexpectedEnd => none

end SyntaxError

/-- The tree of a source text, or what is wrong with it. -/
def CompilationUnit.parse (source : List Char) : Except SyntaxError CompilationUnit :=
  let (tokens, stray) := Token.ofSource source
  match Grammar.chart language tokens with
  | .error token => .error (.unexpectedToken token)
  | .ok chart =>
    match stray with
    | some s => .error (.strayCharacter s)
    | none =>
      match Grammar.reading language tokens chart with
      | some unit => .ok unit
      | none => .error .unexpectedEnd

end GuardLint.Syntax
