import GuardLint.Semantics.Typing

/-!
# Compile-time constants

The expressions whose value the compiler knows: literals other than `null`, what operators and
casts make of constants, and final variables of a primitive type or `String` with a constant
initializer. A parameter counts if its annotation asks every caller for a constant.
-/

namespace GuardLint

open Syntax

namespace Constant

/-- The annotation of parameters that only take constants. -/
def annotationNames : List String := ["CompileTimeConstant"]

/-- Whether a constant may have some type. -/
def isConstantType (type : String) : Bool :=
  type == Typing.stringType || (type != "void" && UnitIndex.primitiveNames.contains type)

/-- Whether an expression is constant, given which variables are. -/
def isConstantWith (c : Setting) (isConstantVar : Variable → Except Failure Bool) :
    Expr → Except Failure Bool
  | .literal _ k _ => .ok (k != .null)
  | .paren _ e => isConstantWith c isConstantVar e
  | .cast _ t e => do
    if isConstantType (← Failure.lift (c.typeOfRef t)) then isConstantWith c isConstantVar e
    else .ok false
  | .unary _ _ e => isConstantWith c isConstantVar e
  | .binary _ _ a b => do
    if ← isConstantWith c isConstantVar a then isConstantWith c isConstantVar b else .ok false
  | .conditional _ q a b => do
    if ← isConstantWith c isConstantVar q then
      if ← isConstantWith c isConstantVar a then isConstantWith c isConstantVar b else .ok false
    else .ok false
  | .name _ n =>
    match c.scope.lookup n with
    | some v => isConstantVar v
    | none => .ok false
  | .field _ e n => do
    match ← Failure.lift (c.typeName? e) with
    | none => .ok false
    | some name =>
      let k := c.index.classNamed? (← Failure.lift (c.index.resolveType name))
      match k.bind (·.inner.field? n) with
      | some v => isConstantVar v
      | none => .ok false
  | _ => .ok false

/-- The name under which a variable is remembered: its own and that of its class. -/
def key (v : Variable) : String := v.owner.getD "" ++ "#" ++ v.name

/-- Whether a variable is constant, where those `seen` are being looked at already. No name is
looked at inside itself, so `fuel` need not exceed the number of variables. -/
def isConstantVar (c : Setting) :
    (fuel : Nat) → (seen : List String) → Variable → Except Failure Bool
  | 0, _, _ => .ok false
  | fuel + 1, seen, v =>
    if v.kind = .param then .ok (v.annotations.any annotationNames.contains)
    else
      match v.init with
      | none => .ok false
      | some e =>
        if !v.isFinal || seen.contains (key v) then .ok false
        else
          match c.variableType v with
          | .error (.unresolved _) => .ok false
          | .error (.fault f) => .error (.fault f)
          | .ok t =>
            if isConstantType t then isConstantWith c (isConstantVar c fuel (key v :: seen)) e
            else .ok false

end Constant

/-- Whether an expression is a compile-time constant. -/
def Setting.isConstant (c : Setting) (e : Expr) : Except Failure Bool :=
  Constant.isConstantWith c (Constant.isConstantVar c (c.variableCount + 1) []) e

end GuardLint
