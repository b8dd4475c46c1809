import GuardLint.Syntax.Tree

/-!
# Variables and scopes

A variable is what a declaration of a field, local or parameter brings into scope. A scope lists
the variables that can be named at a place, the innermost first, shadowed ones included; binding
puts variables in front, so a scope that was taken earlier is never changed.
-/

namespace GuardLint

open Syntax

/-- How a variable was declared. -/
inductive VariableKind where
  | localVar | param | field
  deriving DecidableEq, Repr

/-- A declared variable. A field names the class that declares it; the type of a variable is
missing where none is written. -/
structure Variable where
  name : String
  type : Option TypeRef
  kind : VariableKind
  isFinal : Bool
  isStatic : Bool
  init : Option Expr
  annotations : List String
  owner : Option String

namespace Variable

/-- The variable that a parameter declares. -/
def ofParam (p : Param) : Variable where
  name := p.name
  type := p.type
  kind := .param
  isFinal := p.modifiers.contains .final
  isStatic := false
  init := none
  annotations := p.annotations.map Annotation.simpleName
  owner := none

/-- The local variables that a declaration declares, in order. -/
def ofLocals (d : VarDecl) : List Variable :=
  d.declarators.map fun v =>
    { name := v.name
      type := some (d.type.addDims v.dims)
      kind := .localVar
      isFinal := d.modifiers.contains .final
      isStatic := false
      init := v.init
      annotations := d.annotations.map Annotation.simpleName
      owner := none }

/-- The variable that a `catch` clause declares; it has a type only if the clause names one
alone. -/
def ofCatch (c : CatchClause) : Variable where
  name := c.name
  type := match c.types with
    | [t] => some t
    | _ => none
  kind := .localVar
  isFinal := false
  isStatic := false
  init := none
  annotations := []
  owner := none

/-- The constant of an enum, a field of the enum's own type. -/
def ofConstant (owner : String) (c : EnumConstant) : Variable where
  name := c.name
  type := some ⟨owner, [], 0, none⟩
  kind := .field
  isFinal := true
  isStatic := true
  init := none
  annotations := []
  owner := some owner

/-- The fields that a declaration declares, in order. The fields of an interface are constants,
whether or not they are marked so. -/
def ofFields (owner : String) (kind : TypeKind) (d : VarDecl) : List Variable :=
  d.declarators.map fun v =>
    { name := v.name
      type := some (d.type.addDims v.dims)
      kind := .field
      isFinal := kind == .interfaceType || d.modifiers.contains .final
      isStatic := kind == .interfaceType || d.modifiers.contains .static
      init := v.init
      annotations := d.annotations.map Annotation.simpleName
      owner := some owner }

/-- Puts a variable in a list with one variable to a name: in the place of the one with its name,
or at the end. -/
def put (vars : List Variable) (v : Variable) : List Variable :=
  match vars with
  | [] => [v]
  | w :: ws => if w.name = v.name then v :: ws else w :: put ws v

end Variable

/-- The variables that can be named at a place, the innermost first. -/
abbrev Scope := List Variable

namespace Scope

/-- The variable that a name denotes. -/
def lookup (s : Scope) (name : String) : Option Variable := s.find? (·.name == name)

/-- The scope with more variables, the last of them innermost. -/
def bind (s : Scope) (vars : List Variable) : Scope := vars.reverse ++ s

end Scope

end GuardLint
