import GuardLint.Semantics.Setting

/-!
# Static types

The types of expressions, as far as one source file tells them: literals, declared variables,
operators, some methods of the library, and the methods that the file declares. The type of a
variable declared with `var` is that of its initializer, read in the setting of the expression that
names the variable.
-/

namespace GuardLint

open Syntax

/-- A call bound to the class of its method. -/
structure ResolvedCall (Arg : Type) where
  owner : String
  method : String
  args : List Arg
  isStatic : Bool

namespace Typing

/-- The type of texts. -/
def stringType : String := "java.lang.String"

/-- The type of lambdas and method references, which have none of their own. -/
def functionalType : String := "<functional>"

/-- The type of a literal. -/
def literalType : LiteralKind → String
  | .string => stringType
  | .char => "char" | .int => "int" | .long => "long" | .float => "float" | .double => "double"
  | .boolean => "boolean" | .null => "null"

/-- The type of the elements of an array type. -/
def elementType? (type : String) : Option String :=
  match type.toList.reverse with
  | ']' :: '[' :: rest => some (String.ofList rest.reverse)
  | _ => none

/-- The numeric types, each followed by those that it widens to. -/
def numericTypes : List String := ["byte", "short", "char", "int", "long", "float", "double"]

/-- The class types that stand for primitive values. -/
def boxes : List (String × String) :=
  [("java.lang.Boolean", "boolean"), ("java.lang.Byte", "byte"), ("java.lang.Character", "char"),
   ("java.lang.Short", "short"), ("java.lang.Integer", "int"), ("java.lang.Long", "long"),
   ("java.lang.Float", "float"), ("java.lang.Double", "double")]

/-- The primitive type that a type stands for, or the type itself. -/
def unbox (type : String) : String := (boxes.lookup type).getD type

/-- The rank of a numeric type. -/
def rank (type : String) : Nat := numericTypes.idxOf type

/-- The type of a number under an arithmetic operator: `int` at least. -/
def promote (type : String) : Except Unresolved String :=
  let t := unbox type
  if !numericTypes.contains t then .error (.notNumeric type)
  else if rank t < rank "int" then .ok "int" else .ok t

/-- The type of two numbers under an arithmetic operator: the wider one. -/
def promoteBoth (left right : String) : Except Unresolved String := do
  let l ← promote left
  let r ← promote right
  .ok (if rank l < rank r then r else l)

/-- Whether an operator gives a truth value whatever its operands are. -/
def isTest : BinaryOp → Bool
  | .equal | .notEqual | .less | .greater | .lessEqual | .greaterEqual | .andAlso | .orElse => true
  | _ => false

/-- The type of a binary operator that is not a test, from those of its operands. -/
def operatorType (op : BinaryOp) (left right : String) : Except Unresolved String :=
  if op = .add && (left == stringType || right == stringType) then .ok stringType
  else
    match op with
    | .bitAnd | .bitOr | .bitXor =>
      if unbox left == "boolean" && unbox right == "boolean" then .ok "boolean"
      else promoteBoth left right
    | .shiftLeft | .shiftRight | .shiftRightUnsigned => promote left
    | _ => promoteBoth left right

/-- The type of a conditional from those of its branches. -/
def branchType (thenType elseType : String) : Except Unresolved String :=
  if thenType = elseType then .ok thenType
  else if thenType = "null" then .ok elseType
  else if elseType = "null" then .ok thenType
  else promoteBoth thenType elseType

/-- The library methods whose type is known by class and name. -/
def knownReturns : List ((String × String) × String) :=
  [((stringType, "valueOf"), stringType), ((stringType, "format"), stringType),
   ((stringType, "join"), stringType), (("java.util.Objects", "toString"), stringType),
   (("java.lang.Integer", "toString"), stringType), (("java.lang.Long", "toString"), stringType),
   (("java.lang.Boolean", "toString"), stringType), (("java.lang.Double", "toString"), stringType),
   (("com.google.common.base.Strings", "nullToEmpty"), stringType),
   (("com.google.common.base.Strings", "repeat"), stringType),
   (("com.google.common.base.Strings", "lenientFormat"), stringType),
   (("org.apache.commons.lang3.StringUtils", "join"), stringType)]

/-- The methods of a text whose type is known. -/
def stringMethods : List (String × String) :=
  [("concat", stringType), ("formatted", stringType), ("intern", stringType),
   ("repeat", stringType), ("replace", stringType), ("strip", stringType),
   ("substring", stringType), ("toLowerCase", stringType), ("toUpperCase", stringType),
   ("trim", stringType), ("length", "int"), ("isEmpty", "boolean"), ("equals", "boolean")]

/-- Whether a method can be called with some number of arguments. -/
def accepts (m : MethodDecl) (count : Nat) : Bool :=
  m.params.length == count ||
    match m.params.getLast? with
    | some p => p.varargs && m.params.length ≤ count + 1
    | none => false

/-- The type that the methods of some name in a declared class return for some number of arguments,
if it is the same for all. -/
def declaredReturn? (c : Setting) (k : ClassInfo) (method : String) (count : Nat) :
    Except Unresolved (Option String) := do
  let refs := ((k.methodsNamed method).filter (accepts · count)).filterMap MethodDecl.returnType
  match distinct (← refs.mapM c.typeOfRef) with
  | [t] => .ok (some t)
  | _ => .ok none

/-- The type of a call, once it is bound. -/
def returnType (c : Setting) (call : ResolvedCall Expr) : Except Unresolved String :=
  match knownReturns.lookup (call.owner, call.method) with
  | some t => .ok t
  | none =>
    match
      if call.owner == stringType && !call.isStatic then stringMethods.lookup call.method else none
    with
    | some t => .ok t
    | none => do
      match c.index.classNamed? call.owner with
      | some n =>
        match ← declaredReturn? c n.inner call.method call.args.length with
        | some t => .ok t
        | none => .error (.unknownReturn call.owner call.method)
      | none => .error (.unknownReturn call.owner call.method)

/-- A call bound to the class of its method. A target that names a type makes the call static;
`receiver` is the type of a target that does not. -/
def bindCall (c : Setting) (target : Option Expr) (receiver : Unit → Except Failure String)
    (method : String) (args : List Expr) : Except Failure (ResolvedCall Expr) :=
  match target with
  | none => do
    .ok ⟨← Failure.lift (c.bareOwner method), method, args, true⟩
  | some t => do
    match ← Failure.lift (c.typeName? t) with
    | some name => .ok ⟨← Failure.lift (c.index.resolveType name), method, args, true⟩
    | none => .ok ⟨← receiver (), method, args, false⟩

/-- The type of a call, given the type of its target. -/
def callType (c : Setting) (target : Option Expr) (receiver : Unit → Except Failure String)
    (method : String) (args : List Expr) : Except Failure String :=
  if method = "toString" && args.isEmpty then .ok stringType
  else do
    Failure.lift (returnType c (← bindCall c target receiver method args))

/-- The type of a field, given the types of variables and of the expression that it is a field
of. -/
def fieldType (c : Setting) (typeOfVar : Variable → Except Failure String) (target : Expr)
    (targetType : Unit → Except Failure String) (name : String) : Except Failure String := do
  let typeName ← Failure.lift (c.typeName? target)
  let isLength ← do
    if name = "length" && typeName.isNone then
      .ok (elementType? (← targetType ())).isSome
    else .ok false
  if isLength then .ok "int"
  else
    let owner ← match typeName, target with
      | some n, _ => do
        .ok ((c.index.classNamed? (← Failure.lift (c.index.resolveType n))).map Nest.inner)
      | none, .this _ => .ok (some c.enclosing.inner)
      | none, _ => do .ok ((c.index.classNamed? (← targetType ())).map Nest.inner)
    match owner.bind (·.field? name) with
    | some v => typeOfVar v
    | none => .error (.unresolved (.unknownField name))

/-- The type of an expression, given the types of variables. -/
def typeOf (c : Setting) (typeOfVar : Variable → Except Failure String) :
    Expr → Except Failure String
  | .literal _ k _ => .ok (literalType k)
  | .paren _ e => typeOf c typeOfVar e
  | .name _ n =>
    match c.scope.lookup n with
    | some v => typeOfVar v
    | none => .error (.unresolved (.unknownVariable n))
  | .field _ e n => fieldType c typeOfVar e (fun _ => typeOf c typeOfVar e) n
  | .call _ none n as =>
    callType c none (fun _ => .error (.unresolved (.unknownMethod n))) n as
  | .call _ (some e) n as => callType c (some e) (fun _ => typeOf c typeOfVar e) n as
  | .binary _ op a b =>
    if isTest op then .ok "boolean"
    else do
      let l ← typeOf c typeOfVar a
      let r ← typeOf c typeOfVar b
      Failure.lift (operatorType op l r)
  | .unary _ op e =>
    if op = .negate then .ok "boolean"
    else do Failure.lift (promote (← typeOf c typeOfVar e))
  | .preStep _ _ e | .postStep _ _ e => typeOf c typeOfVar e
  | .assign _ _ e _ => typeOf c typeOfVar e
  | .conditional _ _ a b => do
    let t ← typeOf c typeOfVar a
    let e ← typeOf c typeOfVar b
    Failure.lift (branchType t e)
  | .cast _ t _ | .newObject _ t _ _ | .newArray _ t _ _ => Failure.lift (c.typeOfRef t)
  | .index _ a _ => do
    let t ← typeOf c typeOfVar a
    match elementType? t with
    | some e => .ok e
    | none => .error (.unresolved (.notArray t))
  | .instanceOf .. => .ok "boolean"
  | .classLiteral .. => .ok "java.lang.Class"
  | .lambda .. | .lambdaBlock .. | .methodRef .. | .typeMethodRef .. => .ok functionalType
  | .this _ => .ok c.enclosing.inner.fullName
  | .super _ => .error (.unresolved (.noType "Super"))
  | .arrayInit .. => .error (.unresolved (.noType "ArrayInit"))

/-- The type of a variable, given the types of initializers. -/
def declaredType (c : Setting) (infer : Expr → Except Failure String) (v : Variable) :
    Except Failure String :=
  match v.type with
  | none => .error (.unresolved (.untypedVariable v.name))
  | some t =>
    if t.name = "var" && t.dims = 0 then
      match v.init with
      | some e => infer e
      | none => .error (.unresolved (.noInitializer v.name))
    else Failure.lift (c.typeOfRef t)

/-- The type of a variable, following at most `fuel` initializers one inside the other. -/
def typeOfVariable (c : Setting) : (fuel : Nat) → Variable → Except Failure String
  | 0, v => declaredType c (fun _ => .error (.fault .loop)) v
  | fuel + 1, v => declaredType c (typeOf c (typeOfVariable c fuel)) v

end Typing

namespace Setting

/-- The type of a variable. More initializers inside each other than there are variables are a loop,
since one of them then comes twice. -/
def variableType (c : Setting) (v : Variable) : Except Failure String :=
  Typing.typeOfVariable c c.variableCount v

/-- The type of an expression. -/
def staticType (c : Setting) (e : Expr) : Except Failure String :=
  Typing.typeOf c c.variableType e

/-- A call bound to the class of its method. -/
def resolveCall (c : Setting) (call : Call) : Except Failure (ResolvedCall Expr) :=
  Typing.bindCall c call.target
    (fun _ => match call.target with
      | some e => c.staticType e
      | none => .error (.unresolved (.unknownMethod call.name)))
    call.name call.args

end Setting

end GuardLint
