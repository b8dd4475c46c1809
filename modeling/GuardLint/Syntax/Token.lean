import GuardLint.Location

/-!
# Tokens

The words and marks that a source text is made of. A token keeps its text as written and where it
stands. `Kind.label` is the name by which a message mentions a kind.
-/

namespace GuardLint.Syntax

/-- The reserved words. -/
inductive Keyword where
  | static | void | this | super | new | «true» | «false» | null
  | package | «import» | «public» | «protected» | «private» | «abstract» | «final» | native
  | synchronized | transient | volatile | strictfp | «default» | «class» | interface | enum
  | «extends» | implements | throws | boolean | byte | char | short | int
  | long | float | double | «else» | «if» | «while» | «do» | «for»
  | «return» | «throw» | «break» | «continue» | «try» | assert | switch | «catch»
  | «finally» | «case» | instanceof
  deriving DecidableEq, Repr

namespace Keyword

/-- Every reserved word. -/
def all : List Keyword :=
  [.static, .void, .this, .super, .new, .«true», .«false», .null, .package, .«import», .«public»,
   .«protected», .«private», .«abstract», .«final», .native, .synchronized, .transient,
   .volatile, .strictfp, .«default», .«class», .interface, .enum, .«extends», .implements,
   .throws, .boolean, .byte, .char, .short, .int, .long, .float, .double, .«else», .«if»,
   .«while», .«do», .«for», .«return», .«throw», .«break», .«continue», .«try», .assert, .switch,
   .«catch», .«finally», .«case», .instanceof]

/-- A reserved word as it is written. -/
def text : Keyword → String
  | .static => "static"
  | .void => "void"
  | .this => "this"
  | .super => "super"
  | .new => "new"
  | .«true» => "true"
  | .«false» => "false"
  | .null => "null"
  | .package => "package"
  | .«import» => "import"
  | .«public» => "public"
  | .«protected» => "protected"
  | .«private» => "private"
  | .«abstract» => "abstract"
  | .«final» => "final"
  | .native => "native"
  | .synchronized => "synchronized"
  | .transient => "transient"
  | .volatile => "volatile"
  | .strictfp => "strictfp"
  | .«default» => "default"
  | .«class» => "class"
  | .interface => "interface"
  | .enum => "enum"
  | .«extends» => "extends"
  | .implements => "implements"
  | .throws => "throws"
  | .boolean => "boolean"
  | .byte => "byte"
  | .char => "char"
  | .short => "short"
  | .int => "int"
  | .long => "long"
  | .float => "float"
  | .double => "double"
  | .«else» => "else"
  | .«if» => "if"
  | .«while» => "while"
  | .«do» => "do"
  | .«for» => "for"
  | .«return» => "return"
  | .«throw» => "throw"
  | .«break» => "break"
  | .«continue» => "continue"
  | .«try» => "try"
  | .assert => "assert"
  | .switch => "switch"
  | .«catch» => "catch"
  | .«finally» => "finally"
  | .«case» => "case"
  | .instanceof => "instanceof"

/-- The reserved word that a name is, if it is one. -/
def ofText? (name : String) : Option Keyword :=
  all.find? (·.text == name)

/-- Messages mention a reserved word in capitals; `char` takes the first number, since the name is
taken by character literals. -/
def label : Keyword → String
  | .char => "__ANON_0"
  | word => word.text.map Char.toUpper

end Keyword

/-- The punctuation marks. -/
inductive Mark where
  | unsignedShiftAssign | ellipsis | leftShiftAssign | rightShiftAssign | plusAssign | minusAssign
  | timesAssign | overAssign | moduloAssign | andAssign | orAssign | xorAssign
  | arrow | orElse | andAlso | equals | differs | atMost
  | atLeast | leftShift | increment | decrement | doubleColon | semicolon
  | dot | star | atSign | comma | leftParen | rightParen
  | assign | leftBrace | rightBrace | less | more | ampersand
  | question | leftBracket | rightBracket | colon | bar | caret
  | plus | minus | slash | percent | tilde | bang
  deriving DecidableEq, Repr

namespace Mark

/-- Every mark, the longer before the shorter. -/
def all : List Mark :=
  [.unsignedShiftAssign, .ellipsis, .leftShiftAssign, .rightShiftAssign, .plusAssign,
   .minusAssign, .timesAssign, .overAssign, .moduloAssign, .andAssign, .orAssign, .xorAssign,
   .arrow, .orElse, .andAlso, .equals, .differs, .atMost, .atLeast, .leftShift, .increment,
   .decrement, .doubleColon, .semicolon, .dot, .star, .atSign, .comma, .leftParen, .rightParen,
   .assign, .leftBrace, .rightBrace, .less, .more, .ampersand, .question, .leftBracket,
   .rightBracket, .colon, .bar, .caret, .plus, .minus, .slash, .percent, .tilde, .bang]

/-- A mark as it is written. -/
def text : Mark → String
  | .unsignedShiftAssign => ">>>="
  | .ellipsis => "..."
  | .leftShiftAssign => "<<="
  | .rightShiftAssign => ">>="
  | .plusAssign => "+="
  | .minusAssign => "-="
  | .timesAssign => "*="
  | .overAssign => "/="
  | .moduloAssign => "%="
  | .andAssign => "&="
  | .orAssign => "|="
  | .xorAssign => "^="
  | .arrow => "->"
  | .orElse => "||"
  | .andAlso => "&&"
  | .equals => "=="
  | .differs => "!="
  | .atMost => "<="
  | .atLeast => ">="
  | .leftShift => "<<"
  | .increment => "++"
  | .decrement => "--"
  | .doubleColon => "::"
  | .semicolon => ";"
  | .dot => "."
  | .star => "*"
  | .atSign => "@"
  | .comma => ","
  | .leftParen => "("
  | .rightParen => ")"
  | .assign => "="
  | .leftBrace => "\x7b"
  | .rightBrace => "\x7d"
  | .less => "<"
  | .more => ">"
  | .ampersand => "&"
  | .question => "?"
  | .leftBracket => "["
  | .rightBracket => "]"
  | .colon => ":"
  | .bar => "|"
  | .caret => "^"
  | .plus => "+"
  | .minus => "-"
  | .slash => "/"
  | .percent => "%"
  | .tilde => "~"
  | .bang => "!"

/-- Messages mention a mark by a name, or by a number where it has no name. -/
def label : Mark → String
  | .unsignedShiftAssign => "__ANON_11"
  | .ellipsis => "ELLIPSIS"
  | .leftShiftAssign => "__ANON_9"
  | .rightShiftAssign => "__ANON_10"
  | .plusAssign => "__ANON_1"
  | .minusAssign => "__ANON_2"
  | .timesAssign => "__ANON_3"
  | .overAssign => "__ANON_4"
  | .moduloAssign => "__ANON_5"
  | .andAssign => "__ANON_6"
  | .orAssign => "__ANON_7"
  | .xorAssign => "__ANON_8"
  | .arrow => "__ANON_12"
  | .orElse => "__ANON_13"
  | .andAlso => "__ANON_14"
  | .equals => "__ANON_15"
  | .differs => "__ANON_16"
  | .atMost => "__ANON_17"
  | .atLeast => "__ANON_18"
  | .leftShift => "__ANON_19"
  | .increment => "__ANON_20"
  | .decrement => "__ANON_21"
  | .doubleColon => "__ANON_22"
  | .semicolon => "SEMICOLON"
  | .dot => "DOT"
  | .star => "STAR"
  | .atSign => "AT"
  | .comma => "COMMA"
  | .leftParen => "LPAR"
  | .rightParen => "RPAR"
  | .assign => "EQUAL"
  | .leftBrace => "LBRACE"
  | .rightBrace => "RBRACE"
  | .less => "LESSTHAN"
  | .more => "MORETHAN"
  | .ampersand => "AMPERSAND"
  | .question => "QMARK"
  | .leftBracket => "LSQB"
  | .rightBracket => "RSQB"
  | .colon => "COLON"
  | .bar => "VBAR"
  | .caret => "CIRCUMFLEX"
  | .plus => "PLUS"
  | .minus => "MINUS"
  | .slash => "SLASH"
  | .percent => "PERCENT"
  | .tilde => "TILDE"
  | .bang => "BANG"

end Mark

/-- What a token is. -/
inductive Kind where
  | number
  | name
  | char
  | string
  | word (k : Keyword)
  | mark (m : Mark)
  deriving DecidableEq, Repr

/-- The name by which messages mention a kind of token. -/
def Kind.label : Kind → String
  | .number => "NUMBER"
  | .name => "NAME"
  | .char => "CHAR"
  | .string => "STRING"
  | .word k => k.label
  | .mark m => m.label

/-- A token: what it is, its text as written, and where it stands. -/
structure Token where
  kind : Kind
  text : String
  location : Location
  deriving DecidableEq, Repr

/-- The location from the first token of a list to its last; a list without tokens has none and
gets the start of the text. -/
def Token.cover (tokens : List Token) : Location :=
  match tokens.head?, tokens.getLast? with
  | some a, some b => ⟨a.location.first, b.location.last⟩
  | _, _ => .empty

end GuardLint.Syntax
