import GuardLint.Location

/-!
# Syntax trees

The tree of a source file: declarations, statements and expressions, each with its location. A
tree keeps what a reader of calls and their scopes needs; type parameters, `throws` clauses and
explicit type arguments of calls leave no trace in it.
-/

namespace GuardLint.Syntax

/-- What a literal denotes. -/
inductive LiteralKind where
  | string | char | int | long | float | double | boolean | null
  deriving DecidableEq, Repr

/-- An operator between two operands. -/
inductive BinaryOp where
  | orElse | andAlso | bitOr | bitXor | bitAnd | equal | notEqual
  | less | greater | lessEqual | greaterEqual
  | shiftLeft | shiftRight | shiftRightUnsigned
  | add | subtract | multiply | divide | remainder
  deriving DecidableEq, Repr

/-- A binary operator as it is written. -/
def BinaryOp.text : BinaryOp → String
  | .orElse => "||" | .andAlso => "&&" | .bitOr => "|" | .bitXor => "^" | .bitAnd => "&"
  | .equal => "==" | .notEqual => "!="
  | .less => "<" | .greater => ">" | .lessEqual => "<=" | .greaterEqual => ">="
  | .shiftLeft => "<<" | .shiftRight => ">>" | .shiftRightUnsigned => ">>>"
  | .add => "+" | .subtract => "-" | .multiply => "*" | .divide => "/" | .remainder => "%"

/-- An operator before its operand that only computes a value. -/
inductive UnaryOp where
  | plus | minus | complement | negate
  deriving DecidableEq, Repr

/-- A unary operator as it is written. -/
def UnaryOp.text : UnaryOp → String
  | .plus => "+" | .minus => "-" | .complement => "~" | .negate => "!"

/-- An operator that changes its operand by one. -/
inductive StepOp where
  | increment | decrement
  deriving DecidableEq, Repr

/-- A step operator as it is written. -/
def StepOp.text : StepOp → String
  | .increment => "++" | .decrement => "--"

/-- An assignment, plain or combined with a binary operator. -/
inductive AssignOp where
  | plain
  | combined (op : BinaryOp)
  deriving DecidableEq, Repr

/-- An assignment operator as it is written. -/
def AssignOp.text : AssignOp → String
  | .plain => "="
  | .combined op => op.text ++ "="

/-- A modifier of a declaration. -/
inductive Modifier where
  | publicAccess | protectedAccess | privateAccess
  | static | abstract | final | native | synchronized | transient | volatile | strictfp | default
  deriving DecidableEq, Repr

/-- A modifier as it is written. -/
def Modifier.text : Modifier → String
  | .publicAccess => "public" | .protectedAccess => "protected" | .privateAccess => "private"
  | .static => "static" | .abstract => "abstract" | .final => "final" | .native => "native"
  | .synchronized => "synchronized" | .transient => "transient" | .volatile => "volatile"
  | .strictfp => "strictfp" | .default => "default"

/-- What a type declaration declares. -/
inductive TypeKind where
  | classType | interfaceType | enumType
  deriving DecidableEq, Repr

/-- The text after the last dot of a name. -/
def lastPart (name : String) : String :=
  String.ofList (name.toList.reverse.takeWhile (· != '.')).reverse

/-- A type as it is written: a dotted name, type arguments and array dimensions. The name of a
wildcard is `?`, and its bound, if any, is its argument. -/
structure TypeRef where
  name : String
  args : List TypeRef
  dims : Nat
  location : Option Location
  deriving Repr

/-- The same type with `n` more array dimensions. -/
def TypeRef.addDims (type : TypeRef) (n : Nat) : TypeRef :=
  ⟨type.name, type.args, type.dims + n, type.location⟩

/-- An import declaration. -/
structure ImportDecl where
  location : Location
  name : String
  isStatic : Bool
  onDemand : Bool
  deriving DecidableEq, Repr

mutual

/-- An expression. -/
inductive Expr where
  | literal (location : Location) (kind : LiteralKind) (text : String)
  | name (location : Location) (ident : String)
  | this (location : Location)
  | super (location : Location)
  | paren (location : Location) (inner : Expr)
  | field (location : Location) (target : Expr) (name : String)
  | call (location : Location) (target : Option Expr) (name : String) (args : List Expr)
  | index (location : Location) (array : Expr) (position : Expr)
  | newObject (location : Location) (type : TypeRef) (args : List Expr)
      (body : Option (List Member))
  | newArray (location : Location) (type : TypeRef) (dims : List Expr) (init : Option Expr)
  | arrayInit (location : Location) (elements : List Expr)
  | classLiteral (location : Location) (type : TypeRef)
  | methodRef (location : Location) (target : Expr) (name : String)
  | typeMethodRef (location : Location) (type : TypeRef) (name : String)
  | binary (location : Location) (op : BinaryOp) (left : Expr) (right : Expr)
  | instanceOf (location : Location) (operand : Expr) (type : TypeRef)
  | unary (location : Location) (op : UnaryOp) (operand : Expr)
  | preStep (location : Location) (op : StepOp) (operand : Expr)
  | postStep (location : Location) (op : StepOp) (operand : Expr)
  | assign (location : Location) (op : AssignOp) (target : Expr) (value : Expr)
  | conditional (location : Location) (condition : Expr) (thenValue : Expr) (elseValue : Expr)
  | cast (location : Location) (type : TypeRef) (operand : Expr)
  | lambda (location : Location) (params : List Param) (body : Expr)
  | lambdaBlock (location : Location) (params : List Param) (body : Block)

/-- A statement. -/
inductive Stmt where
  | block (block : Block)
  | vars (decl : VarDecl)
  | expr (location : Location) (expr : Expr)
  | ifElse (location : Location) (condition : Expr) (thenStmt : Stmt) (elseStmt : Option Stmt)
  | whileLoop (location : Location) (condition : Expr) (body : Stmt)
  | doLoop (location : Location) (body : Stmt) (condition : Expr)
  | forLoop (location : Location) (init : List Setup) (condition : Option Expr)
      (update : List Expr) (body : Stmt)
  | forEach (location : Location) (loopVar : Param) (iterable : Expr) (body : Stmt)
  | returnStmt (location : Location) (value : Option Expr)
  | throwStmt (location : Location) (value : Expr)
  | breakStmt (location : Location) (label : Option String)
  | continueStmt (location : Location) (label : Option String)
  | tryStmt (location : Location) (resources : List Setup) (body : Block)
      (catches : List CatchClause) (finallyBlock : Option Block)
  | synchronizedStmt (location : Location) (lock : Expr) (body : Block)
  | assertStmt (location : Location) (condition : Expr) (message : Option Expr)
  | switchStmt (location : Location) (selector : Expr) (items : List SwitchItem)
  | labeled (location : Location) (label : String) (body : Stmt)
  | empty (location : Location)

/-- A sequence of statements in braces. -/
structure Block where
  location : Location
  statements : List Stmt

/-- The declaration of variables of one type: local variables or fields. -/
structure VarDecl where
  location : Location
  type : TypeRef
  declarators : List Declarator
  modifiers : List Modifier
  annotations : List Annotation

/-- One variable of a declaration, with the dimensions written after its name. -/
structure Declarator where
  location : Location
  name : String
  dims : Nat
  init : Option Expr

/-- What happens before the body of a `for` or `try`: a declaration or an expression. -/
inductive Setup where
  | vars (decl : VarDecl)
  | expr (expr : Expr)

/-- A `catch` clause, with the alternatives of its type. -/
structure CatchClause where
  location : Location
  types : List TypeRef
  name : String
  body : Block

/-- An item of the body of a `switch`: a label, without expression if it is the default, or a
statement. -/
inductive SwitchItem where
  | label (value : Option Expr)
  | stmt (stmt : Stmt)

/-- A parameter of a method or lambda, or the variable of a for-each loop. -/
structure Param where
  location : Location
  name : String
  type : Option TypeRef
  modifiers : List Modifier
  annotations : List Annotation
  varargs : Bool

/-- An annotation; of its arguments only the values are kept, and nested annotations are not. -/
structure Annotation where
  location : Location
  name : String
  args : List Expr

/-- A member of a class body. -/
inductive Member where
  | field (decl : VarDecl)
  | method (decl : MethodDecl)
  | initializer (location : Location) (body : Block) (isStatic : Bool)
  | type (decl : TypeDecl)

/-- The declaration of a method, or of a constructor, which has no return type. -/
structure MethodDecl where
  location : Location
  name : String
  returnType : Option TypeRef
  params : List Param
  body : Option Block
  modifiers : List Modifier
  annotations : List Annotation
  isConstructor : Bool

/-- A constant of an enum, with its arguments and its class body, if any. -/
structure EnumConstant where
  location : Location
  name : String
  args : List Expr
  body : Option (List Member)

/-- The declaration of a class, interface or enum. -/
structure TypeDecl where
  location : Location
  kind : TypeKind
  name : String
  members : List Member
  modifiers : List Modifier
  annotations : List Annotation
  constants : List EnumConstant
  supertypes : List TypeRef

end

/-- A source file. -/
structure CompilationUnit where
  location : Location
  package : Option String
  imports : List ImportDecl
  types : List TypeDecl

/-- The location of an expression. -/
def Expr.location : Expr → Location
  | .literal l .. | .name l .. | .this l | .super l | .paren l .. | .field l .. | .call l ..
  | .index l .. | .newObject l .. | .newArray l .. | .arrayInit l .. | .classLiteral l ..
  | .methodRef l .. | .typeMethodRef l .. | .binary l .. | .instanceOf l .. | .unary l ..
  | .preStep l .. | .postStep l .. | .assign l .. | .conditional l .. | .cast l ..
  | .lambda l .. | .lambdaBlock l .. => l

/-- The name of an annotation without the names of packages and classes before it. -/
def Annotation.simpleName (a : Annotation) : String := lastPart a.name

end GuardLint.Syntax
