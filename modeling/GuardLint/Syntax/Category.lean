import GuardLint.Syntax.Tree
import GuardLint.Syntax.Token

/-!
# Categories

The syntactic categories of the language, and what a text of each category stands for. Parts of
the syntax that a tree does not keep stand for nothing.
-/

namespace GuardLint.Syntax

/-- A syntactic category. -/
inductive Category where
  | compilationUnit | packageDecl | importDecl | importAll | qualifiedName | dotName
  | modifierItem | modifier | annotationUse | annotationArgs | elementPair | commaElementPair
  | elementValue | commaElementValue | elementValues | elementArray | typeDecl | classDecl
  | interfaceDecl | enumDecl | superclass | interfaces | superinterfaces | typeList | commaType
  | typeParams | typeParam | commaTypeParam | typeBound | furtherBound | classBody | enumBody
  | enumConstants | enumConstant | commaEnumConstant | enumMembers | member | fieldDecl
  | methodDecl | methodBody | constructorDecl | initializer | resultType | formalParams
  | formalParamList | formalParam | commaFormalParam | throwsClause | declarators | declarator
  | commaDeclarator | initPart | varInit | commaVarInit | varInits | arrayInit | type | bareType
  | primitiveType | classType | classTypePart | dotTypePart | typeArgs | typeArgList | typeArg
  | commaTypeArg | wildcard | dim | block | blockStmt | localVars | statement | elsePart
  | forInit | statementExprs | commaStatementExpr | resources | resource | furtherResource
  | catchClause | catchType | furtherCatchType | finallyClause | assertMessage | switchBody
  | switchLabel | switchItem | statementExpr | expr | assignment | assign | assignTarget
  | assignOp | lambda | lambdaParams | lambdaParamList | lambdaParam | commaLambdaParam
  | conditional | logicOr | logicAnd | bitOr | bitXor | bitAnd | equality | relational
  | relationalOp | shift | shiftOp | additive | multiplicative | unary | unsignedUnary | preStep
  | stepOp | cast | postfixExpr | postStep | primary | paren | thisRef | superRef | name
  | fieldAccess | methodCall | arrayAccess | newObject | newArray | dimExpr | classLiteral
  | methodRef | refName | arguments | exprs | commaExpr | literal
  deriving DecidableEq, Repr

/-- The values of a category. Where a text may hold something that a tree does not keep, such as a
stray semicolon among declarations or a nested annotation, the value may be missing. -/
@[reducible] def Category.Value : Category → Type
  | .compilationUnit => CompilationUnit
  | .packageDecl | .qualifiedName | .dotName | .refName => String
  | .importDecl => ImportDecl
  | .importAll | .typeParams | .typeParam | .commaTypeParam | .typeBound | .furtherBound
  | .throwsClause | .dim => PUnit
  | .modifierItem => Modifier ⊕ Annotation
  | .modifier => Modifier
  | .annotationUse => Annotation
  | .annotationArgs | .elementValues | .varInits | .statementExprs | .arguments | .exprs =>
    List Expr
  | .elementPair | .commaElementPair | .elementValue | .commaElementValue => Option Expr
  | .elementArray | .initPart | .varInit | .commaVarInit | .arrayInit | .commaStatementExpr
  | .assertMessage | .statementExpr | .expr | .assignment | .assign | .assignTarget | .lambda
  | .conditional | .logicOr | .logicAnd | .bitOr | .bitXor | .bitAnd | .equality | .relational
  | .shift | .additive | .multiplicative | .unary | .unsignedUnary | .preStep | .cast
  | .postfixExpr | .postStep | .primary | .paren | .thisRef | .superRef | .name | .fieldAccess
  | .methodCall | .arrayAccess | .newObject | .newArray | .dimExpr | .classLiteral | .methodRef
  | .commaExpr | .literal => Expr
  | .typeDecl => Option TypeDecl
  | .classDecl | .interfaceDecl | .enumDecl => TypeDecl
  | .superclass | .commaType | .resultType | .type | .bareType | .primitiveType | .classType
  | .typeArg | .commaTypeArg | .wildcard | .furtherCatchType => TypeRef
  | .interfaces | .superinterfaces | .typeList | .typeArgs | .typeArgList | .catchType =>
    List TypeRef
  | .classBody | .enumMembers => List Member
  | .enumBody => List EnumConstant × List Member
  | .enumConstants => List EnumConstant
  | .enumConstant | .commaEnumConstant => EnumConstant
  | .member => Option Member
  | .fieldDecl | .localVars => VarDecl
  | .methodDecl | .constructorDecl => MethodDecl
  | .methodBody => Option Block
  | .initializer => Member
  | .formalParams | .formalParamList | .lambdaParams | .lambdaParamList => List Param
  | .formalParam | .commaFormalParam | .lambdaParam | .commaLambdaParam => Param
  | .declarators => List Declarator
  | .declarator | .commaDeclarator => Declarator
  | .classTypePart | .dotTypePart => String × Option (List TypeRef)
  | .block | .finallyClause => Block
  | .blockStmt | .statement | .elsePart => Stmt
  | .forInit | .resources => List Setup
  | .resource | .furtherResource => Setup
  | .catchClause => CatchClause
  | .switchBody => List SwitchItem
  | .switchLabel | .switchItem => SwitchItem
  | .assignOp => AssignOp
  | .relationalOp | .shiftOp => BinaryOp
  | .stepOp => StepOp

end GuardLint.Syntax
