import GuardLint.Text.Quoted

/-!
# What cannot be resolved

The reasons for which a name, a call or a type cannot be told from one source file alone.
-/

namespace GuardLint

/-- Why something cannot be resolved. -/
inductive Unresolved where
  | hiddenType (name : String) (candidate : String) (package : String)
  | unknownMethod (name : String)
  | ambiguousImport (name : String) (owners : List String)
  | foreignSupertype (className : String) (supertype : String)
  | untypedVariable (name : String)
  | noInitializer (name : String)
  | unknownVariable (name : String)
  | unknownField (name : String)
  | unknownReturn (owner : String) (method : String)
  | notArray (type : String)
  | notNumeric (type : String)
  | noType (form : String)
  deriving DecidableEq, Repr

namespace Unresolved

/-- A reason in words. -/
def message : Unresolved → String
  | .hiddenType name candidate package =>
    s!"{Text.quoted name} may come from {candidate} or from package {package}"
  | .unknownMethod name => s!"cannot resolve method {Text.quoted name}"
  | .ambiguousImport name owners =>
    s!"ambiguous static import for {Text.quoted name}: " ++ ", ".intercalate owners
  | .foreignSupertype className supertype =>
    s!"{className} inherits from {supertype}, which is not declared here"
  | .untypedVariable name => s!"untyped variable {Text.quoted name}"
  | .noInitializer name => s!"cannot infer type of {Text.quoted name}"
  | .unknownVariable name => s!"unknown variable {Text.quoted name}"
  | .unknownField name => s!"unknown field {Text.quoted name}"
  | .unknownReturn owner method => s!"unknown return type of {owner}.{method}"
  | .notArray type => s!"indexing non-array type {type}"
  | .notNumeric type => s!"not a numeric type: {type}"
  | .noType form => s!"cannot type {form}"

end Unresolved

end GuardLint
