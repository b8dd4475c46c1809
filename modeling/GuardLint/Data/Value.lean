/-!
# Data values

The values of a configuration file: the six kinds of JSON. A number keeps its text, since no
setting is a number. The fields of an object are kept in order, each name once.
-/

namespace GuardLint

/-- A value of a configuration file. -/
inductive Value where
  | null
  | bool (value : Bool)
  | number (text : String)
  | string (value : String)
  | array (items : List Value)
  | object (fields : List (String × Value))
  deriving Inhabited

namespace Value

/-- A value as a text. -/
def string? : Value → Option String
  | .string s => some s
  | _ => none

/-- A value as a list of texts. -/
def strings? : Value → Option (List String)
  | .array items => items.mapM string?
  | _ => none

/-- A list of texts as a value. -/
def ofStrings (texts : List String) : Value := .array (texts.map .string)

end Value

end GuardLint
