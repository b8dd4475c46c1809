import GuardLint.Syntax.Rules

/-!
# The tokens that may begin a category

For each category, the kinds of token that a text of it may begin with. The sets may be larger
than need be, never smaller: a production is begun only if the set of its first element allows the
next token.
-/

namespace GuardLint.Syntax

open Grammar

namespace Kind

/-- Whether a token may begin a modifier. -/
def startsModifier : Kind → Bool
  | .word k =>
    match k with
    | .«public» | .«protected» | .«private» | .static | .«abstract» | .«final» | .native
    | .synchronized | .transient | .volatile | .strictfp | .«default» => true
    | _ => false
  | _ => false

/-- Whether a token may begin a modifier or an annotation. -/
def startsModifierItem (k : Kind) : Bool := k == .mark .atSign || k.startsModifier

/-- Whether a token is the word for a primitive type. -/
def startsPrimitive : Kind → Bool
  | .word k => Category.primitives.contains k
  | _ => false

/-- Whether a token may begin a type. -/
def startsType (k : Kind) : Bool := k == .name || k.startsPrimitive

/-- Whether a token may begin a declaration of variables. -/
def startsVars (k : Kind) : Bool := k.startsModifierItem || k.startsType

/-- Whether a token may begin a literal. -/
def startsLiteral : Kind → Bool
  | .number | .char | .string => true
  | .word k => k == .true || k == .false || k == .null
  | _ => false

/-- Whether a token may begin an expression that no operator begins. -/
def startsPrimary (k : Kind) : Bool :=
  k.startsLiteral || k.startsType ||
    match k with
    | .word w => w == .this || w == .super || w == .new || w == .void
    | .mark m => m == .leftParen
    | _ => false

/-- Whether a token may begin an expression of one operand without a sign. -/
def startsUnsigned (k : Kind) : Bool :=
  k.startsPrimary || k == .mark .tilde || k == .mark .bang

/-- Whether a token is a step operator. -/
def startsStep (k : Kind) : Bool := k == .mark .increment || k == .mark .decrement

/-- Whether a token may begin an expression. -/
def startsExpr (k : Kind) : Bool :=
  k.startsUnsigned || k.startsStep || k == .mark .plus || k == .mark .minus

/-- Whether a token may begin an expression that can stand alone. -/
def startsStatementExpr (k : Kind) : Bool := k.startsPrimary || k.startsStep

/-- Whether a token may begin a statement. -/
def startsStatement (k : Kind) : Bool :=
  k.startsStatementExpr ||
    match k with
    | .mark m => m == .leftBrace || m == .semicolon
    | .word w =>
      match w with
      | .«if» | .«while» | .«do» | .«for» | .«return» | .throw | .«break» | .«continue» | .«try»
      | .synchronized | .assert | .switch => true
      | _ => false
    | _ => false

/-- Whether a token may begin a type declaration. -/
def startsTypeDecl (k : Kind) : Bool :=
  k.startsModifierItem || k == .word .«class» || k == .word .interface || k == .word .enum

/-- Whether a token may begin a member of a class. -/
def startsMember (k : Kind) : Bool :=
  k.startsTypeDecl || k.startsType ||
    match k with
    | .word w => w == .void
    | .mark m => m == .less || m == .leftBrace || m == .semicolon
    | _ => false

/-- Whether a token may begin the value of an annotation's element. -/
def startsElementValue (k : Kind) : Bool :=
  k.startsExpr || k == .mark .atSign || k == .mark .leftBrace

end Kind

/-- Whether a token of a kind may begin a category. -/
def Category.mayStart (c : Category) (k : Kind) : Bool :=
  match c with
  | .compilationUnit =>
    k.startsTypeDecl || k == .mark .semicolon || k == .word .«import» || k == .word .«package»
  | .packageDecl => k == .mark .atSign || k == .word .«package»
  | .importDecl => k == .word .«import»
  | .annotationUse => k == .mark .atSign
  | .modifierItem => k.startsModifierItem
  | .modifier => k.startsModifier
  | .importAll | .dotName | .dotTypePart => k == .mark .dot
  | .elementValue | .elementValues => k.startsElementValue
  | .elementPair | .qualifiedName | .typeParam | .declarators | .declarator | .name | .classType
  | .classTypePart => k == .name
  | .enumConstants | .enumConstant => k == .name || k == .mark .atSign
  | .commaElementPair | .commaElementValue | .commaType | .commaTypeParam | .commaEnumConstant
  | .commaFormalParam | .commaDeclarator | .commaVarInit | .commaTypeArg | .commaStatementExpr
  | .commaLambdaParam | .commaExpr => k == .mark .comma
  | .elementArray | .classBody | .enumBody | .arrayInit | .block | .switchBody =>
    k == .mark .leftBrace
  | .annotationArgs | .formalParams | .resources | .paren | .cast | .arguments =>
    k == .mark .leftParen
  | .typeDecl => k.startsTypeDecl || k == .mark .semicolon
  | .classDecl | .interfaceDecl | .enumDecl => k.startsTypeDecl
  | .superclass | .superinterfaces | .typeBound => k == .word .«extends»
  | .interfaces => k == .word .implements
  | .typeList | .type | .bareType | .catchType => k.startsType
  | .typeParams | .typeArgs => k == .mark .less
  | .furtherBound => k == .mark .ampersand
  | .enumMembers | .furtherResource => k == .mark .semicolon
  | .member => k.startsMember
  | .fieldDecl | .localVars | .formalParamList | .formalParam => k.startsVars
  | .methodDecl | .constructorDecl => k.startsVars || k == .word .void || k == .mark .less
  | .methodBody => k == .mark .leftBrace || k == .mark .semicolon
  | .initializer => k == .mark .leftBrace || k == .word .static
  | .resultType => k.startsType || k == .word .void
  | .throwsClause => k == .word .throws
  | .initPart => k == .mark .assign
  | .varInit | .varInits => k.startsExpr || k == .mark .leftBrace
  | .primitiveType => k.startsPrimitive
  | .typeArg | .typeArgList => k.startsType || k == .mark .question
  | .wildcard => k == .mark .question
  | .dim | .dimExpr => k == .mark .leftBracket
  | .blockStmt => k.startsStatement || k.startsVars
  | .statement => k.startsStatement
  | .elsePart => k == .word .«else»
  | .forInit => k.startsVars || k.startsStatementExpr
  | .statementExprs | .statementExpr => k.startsStatementExpr
  | .resource => k.startsVars || k.startsExpr
  | .catchClause => k == .word .«catch»
  | .furtherCatchType => k == .mark .bar
  | .finallyClause => k == .word .«finally»
  | .assertMessage => k == .mark .colon
  | .switchLabel => k == .word .case || k == .word .«default»
  | .switchItem =>
    k == .word .case || k == .word .«default» || k.startsStatement || k.startsVars
  | .expr | .assignment | .conditional | .logicOr | .logicAnd | .bitOr | .bitXor | .bitAnd
  | .equality | .relational | .shift | .additive | .multiplicative | .unary | .exprs =>
    k.startsExpr
  | .assign | .assignTarget | .postfixExpr | .postStep | .primary | .fieldAccess | .methodCall
  | .arrayAccess | .methodRef => k.startsPrimary
  | .assignOp =>
    match k with
    | .mark m =>
      match m with
      | .assign | .plusAssign | .minusAssign | .timesAssign | .overAssign | .moduloAssign
      | .andAssign | .orAssign | .xorAssign | .leftShiftAssign | .rightShiftAssign
      | .unsignedShiftAssign => true
      | _ => false
    | _ => false
  | .lambda | .lambdaParams => k == .name || k == .mark .leftParen
  | .lambdaParamList | .lambdaParam => k.startsVars
  | .relationalOp =>
    k == .mark .less || k == .mark .more || k == .mark .atMost || k == .mark .atLeast
  | .shiftOp => k == .mark .leftShift || k == .mark .more
  | .unsignedUnary => k.startsUnsigned
  | .preStep | .stepOp => k.startsStep
  | .thisRef => k == .word .this
  | .superRef => k == .word .super
  | .newObject | .newArray => k == .word .new
  | .classLiteral => k.startsType || k == .word .void
  | .refName => k == .name || k == .word .new
  | .literal => k.startsLiteral

/-- The grammar of source files. -/
def language : Grammar Category.Value where
  rules := Category.rules
  start := .compilationUnit
  mayStart := Category.mayStart
  states := 2000

end GuardLint.Syntax
