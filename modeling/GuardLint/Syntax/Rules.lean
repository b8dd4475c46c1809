import GuardLint.Grammar.Basic
import GuardLint.Syntax.Category

/-!
# The grammar of the language

The productions of each category, in order of preference, each with the tree that it builds. An
expression statement holds an expression that can stand alone, so a declaration such as
`List<String> xs = ys;` is never read as a comparison.

Where several trees fit one text, the order of the productions decides: a name before `::` is an
expression, an index after `new T[n]` is an access, and a lambda after a cast takes all it can.
-/

namespace GuardLint.Syntax

open Grammar

namespace Category

/-- A production of a category. -/
abbrev Rule (c : Category) := Production Category.Value c.Value

/-- A reserved word. -/
@[reducible] def word (k : Keyword) : Element Category := .need (.tok (.word k))

/-- A reserved word that may be left out. -/
@[reducible] def word? (k : Keyword) : Element Category := .maybe (.tok (.word k))

/-- A punctuation mark. -/
@[reducible] def mark (m : Mark) : Element Category := .need (.tok (.mark m))

/-- A punctuation mark that may be left out. -/
@[reducible] def mark? (m : Mark) : Element Category := .maybe (.tok (.mark m))

/-- A name. -/
@[reducible] def ident : Element Category := .need (.tok .name)

/-- A name that may be left out. -/
@[reducible] def ident? : Element Category := .maybe (.tok .name)

/-- A part of some category. -/
@[reducible] def a (c : Category) : Element Category := .need (.node (.one c))

/-- A part of some category that may be left out. -/
@[reducible] def a? (c : Category) : Element Category := .maybe (.node (.one c))

/-- One or more parts of some category. -/
@[reducible] def some_ (c : Category) : Element Category := .need (.node (.run c))

/-- Any number of parts of some category. -/
@[reducible] def any (c : Category) : Element Category := .many c

/-- A production that consists of another category and means the same. -/
def pass (c d : Category) (h : d.Value = c.Value) : Rule c :=
  ⟨[a d], fun _ v => h ▸ v⟩

/-- A production that consists of one token of some kind. -/
def token {α : Type} (k : Kind) (build : Location → Token → α) : Production Category.Value α :=
  ⟨[.need (.tok k)], build⟩

/-- Reserved words, each with its meaning. -/
def words {α : Type} (rows : List (Keyword × α)) : List (Production Category.Value α) :=
  rows.map fun row => token (.word row.1) fun _ _ => row.2

/-- Marks, each with its meaning. -/
def marks {α : Type} (rows : List (Mark × α)) : List (Production Category.Value α) :=
  rows.map fun row => token (.mark row.1) fun _ _ => row.2

/-- Two operands with a mark between them. -/
def infixed (c l r : Category) (m : Mark) (op : BinaryOp) (hl : l.Value = Expr)
    (hr : r.Value = Expr) (hc : Expr = c.Value) : Rule c :=
  ⟨[a l, mark m, a r], fun loc x _ y => hc ▸ Expr.binary loc op (hl ▸ x) (hr ▸ y)⟩

/-- The modifiers among modifiers and annotations. -/
def modifiersOf (items : List (Modifier ⊕ Annotation)) : List Modifier :=
  items.filterMap Sum.getLeft?

/-- The annotations among modifiers and annotations. -/
def annotationsOf (items : List (Modifier ⊕ Annotation)) : List Annotation :=
  items.filterMap Sum.getRight?

/-- A type declaration, from its parts. -/
def declare (kind : TypeKind) (loc : Location) (items : List (Modifier ⊕ Annotation)) (name : Token)
    (supertypes : List TypeRef) (constants : List EnumConstant) (members : List Member) :
    TypeDecl :=
  ⟨loc, kind, name.text, members, modifiersOf items, annotationsOf items, constants, supertypes⟩

/-- What a number denotes: its base and its last letter tell. -/
def numberKind (text : String) : LiteralKind :=
  let chars := text.toList.map Char.toLower
  let based := match chars with
    | '0' :: c :: _ => c == 'x' || c == 'b'
    | _ => false
  match chars.getLast? with
  | some 'l' => .long
  | some 'f' => if based then .int else .float
  | some 'd' => if based then .int else .double
  | _ => if !based && (chars.contains '.' || chars.contains 'e') then .double else .int

/-- The type that a dotted list of parts names; its arguments are those of the last part that has
any. -/
def typeOfParts (loc : Location) (parts : List (String × Option (List TypeRef))) : TypeRef :=
  ⟨".".intercalate (parts.map Prod.fst), ((parts.filterMap Prod.snd).getLast?).getD [], 0, loc⟩

/-- A type by its name alone. -/
def namedType (loc : Location) (name : String) : TypeRef := ⟨name, [], 0, loc⟩

/-- The words for primitive types. -/
def primitives : List Keyword :=
  [.boolean, .byte, .char, .short, .int, .long, .float, .double]

/-- The productions of a category, in order of preference. -/
def rules : (c : Category) → List (Rule c)
  -- Source files
  | .compilationUnit =>
    [⟨[a? .packageDecl, any .importDecl, any .typeDecl],
      fun loc package imports types => ⟨loc, package, imports, types.filterMap id⟩⟩]
  | .packageDecl =>
    [⟨[any .annotationUse, word .«package», a .qualifiedName, mark .semicolon],
      fun _ _ _ name _ => name⟩]
  | .importDecl =>
    [⟨[word .«import», word? .static, a .qualifiedName, a? .importAll, mark .semicolon],
      fun loc _ static name all _ => ⟨loc, name, static.isSome, all.isSome⟩⟩]
  | .importAll => [⟨[mark .dot, mark .star], fun _ _ _ => ⟨⟩⟩]
  | .qualifiedName =>
    [⟨[ident, any .dotName], fun _ first others => ".".intercalate (first.text :: others)⟩]
  | .dotName => [⟨[mark .dot, ident], fun _ _ name => name.text⟩]
  -- Modifiers and annotations
  | .modifierItem =>
    [⟨[a .annotationUse], fun _ x => .inr x⟩, ⟨[a .modifier], fun _ x => .inl x⟩]
  | .modifier =>
    words [(.«public», .publicAccess), (.«protected», .protectedAccess),
      (.«private», .privateAccess), (.static, .static), (.«abstract», .abstract),
      (.«final», .final), (.native, .native), (.synchronized, .synchronized),
      (.transient, .transient), (.volatile, .volatile), (.strictfp, .strictfp),
      (.«default», .default)]
  | .annotationUse =>
    [⟨[mark .atSign, a .qualifiedName, a? .annotationArgs],
      fun loc _ name args => ⟨loc, name, args.getD []⟩⟩]
  | .annotationArgs =>
    [⟨[mark .leftParen, mark .rightParen], fun _ _ _ => []⟩,
     ⟨[mark .leftParen, a .elementValue, mark .rightParen], fun _ _ value _ => value.toList⟩,
     ⟨[mark .leftParen, a .elementPair, any .commaElementPair, mark .rightParen],
      fun _ _ first others _ => (first :: others).filterMap id⟩]
  | .elementPair => [⟨[ident, mark .assign, a .elementValue], fun _ _ _ value => value⟩]
  | .commaElementPair => [⟨[mark .comma, a .elementPair], fun _ _ value => value⟩]
  | .elementValue =>
    [⟨[a .conditional], fun _ e => some e⟩, ⟨[a .annotationUse], fun _ _ => none⟩,
     ⟨[a .elementArray], fun _ e => some e⟩]
  | .commaElementValue => [⟨[mark .comma, a .elementValue], fun _ _ value => value⟩]
  | .elementValues =>
    [⟨[a .elementValue, any .commaElementValue],
      fun _ first others => (first :: others).filterMap id⟩]
  | .elementArray =>
    [⟨[mark .leftBrace, a? .elementValues, mark? .comma, mark .rightBrace],
      fun loc _ elements _ _ => .arrayInit loc (elements.getD [])⟩]
  -- Type declarations
  | .typeDecl =>
    [⟨[a .classDecl], fun _ d => some d⟩, ⟨[a .interfaceDecl], fun _ d => some d⟩,
     ⟨[a .enumDecl], fun _ d => some d⟩, ⟨[mark .semicolon], fun _ _ => none⟩]
  | .classDecl =>
    [⟨[any .modifierItem, word .«class», ident, a? .typeParams, a? .superclass, a? .interfaces,
        a .classBody],
      fun loc items _ name _ parent interfaces members =>
        declare .classType loc items name (parent.toList ++ interfaces.getD []) [] members⟩]
  | .interfaceDecl =>
    [⟨[any .modifierItem, word .interface, ident, a? .typeParams, a? .superinterfaces,
        a .classBody],
      fun loc items _ name _ parents members =>
        declare .interfaceType loc items name (parents.getD []) [] members⟩]
  | .enumDecl =>
    [⟨[any .modifierItem, word .enum, ident, a? .interfaces, a .enumBody],
      fun loc items _ name interfaces body =>
        declare .enumType loc items name (interfaces.getD []) body.1 body.2⟩]
  | .superclass => [⟨[word .«extends», a .type], fun _ _ t => t⟩]
  | .interfaces => [⟨[word .implements, a .typeList], fun _ _ ts => ts⟩]
  | .superinterfaces => [⟨[word .«extends», a .typeList], fun _ _ ts => ts⟩]
  | .typeList => [⟨[a .type, any .commaType], fun _ t ts => t :: ts⟩]
  | .commaType => [⟨[mark .comma, a .type], fun _ _ t => t⟩]
  | .typeParams =>
    [⟨[mark .less, a .typeParam, any .commaTypeParam, mark .more], fun _ _ _ _ _ => ⟨⟩⟩]
  | .typeParam => [⟨[ident, a? .typeBound], fun _ _ _ => ⟨⟩⟩]
  | .commaTypeParam => [⟨[mark .comma, a .typeParam], fun _ _ _ => ⟨⟩⟩]
  | .typeBound => [⟨[word .«extends», a .type, any .furtherBound], fun _ _ _ _ => ⟨⟩⟩]
  | .furtherBound => [⟨[mark .ampersand, a .type], fun _ _ _ => ⟨⟩⟩]
  | .classBody =>
    [⟨[mark .leftBrace, any .member, mark .rightBrace], fun _ _ members _ => members.filterMap id⟩]
  | .enumBody =>
    [⟨[mark .leftBrace, a? .enumConstants, mark? .comma, a? .enumMembers, mark .rightBrace],
      fun _ _ constants _ members _ => (constants.getD [], members.getD [])⟩]
  | .enumConstants => [⟨[a .enumConstant, any .commaEnumConstant], fun _ c cs => c :: cs⟩]
  | .commaEnumConstant => [⟨[mark .comma, a .enumConstant], fun _ _ c => c⟩]
  | .enumConstant =>
    [⟨[any .annotationUse, ident, a? .arguments, a? .classBody],
      fun loc _ name args body => ⟨loc, name.text, args.getD [], body⟩⟩]
  | .enumMembers => [⟨[mark .semicolon, any .member], fun _ _ members => members.filterMap id⟩]
  -- Members
  | .member =>
    [⟨[a .fieldDecl], fun _ d => some (.field d)⟩, ⟨[a .methodDecl], fun _ d => some (.method d)⟩,
     ⟨[a .constructorDecl], fun _ d => some (.method d)⟩, ⟨[a .initializer], fun _ m => some m⟩,
     ⟨[a .classDecl], fun _ d => some (.type d)⟩, ⟨[a .interfaceDecl], fun _ d => some (.type d)⟩,
     ⟨[a .enumDecl], fun _ d => some (.type d)⟩, ⟨[mark .semicolon], fun _ _ => none⟩]
  | .fieldDecl =>
    [⟨[any .modifierItem, a .type, a .declarators, mark .semicolon],
      fun loc items type declarators _ =>
        ⟨loc, type, declarators, modifiersOf items, annotationsOf items⟩⟩]
  | .methodDecl =>
    [⟨[any .modifierItem, a? .typeParams, a .resultType, ident, a .formalParams, any .dim,
        a? .throwsClause, a .methodBody],
      fun loc items _ result name params _ _ body =>
        ⟨loc, name.text, some result, params, body, modifiersOf items, annotationsOf items,
          false⟩⟩]
  | .methodBody => [⟨[a .block], fun _ b => some b⟩, ⟨[mark .semicolon], fun _ _ => none⟩]
  | .constructorDecl =>
    [⟨[any .modifierItem, a? .typeParams, ident, a .formalParams, a? .throwsClause, a .block],
      fun loc items _ name params _ body =>
        ⟨loc, name.text, none, params, some body, modifiersOf items, annotationsOf items, true⟩⟩]
  | .initializer =>
    [⟨[word? .static, a .block], fun loc static body => .initializer loc body static.isSome⟩]
  | .resultType =>
    [⟨[a .type], fun _ t => t⟩, ⟨[word .void], fun loc _ => namedType loc "void"⟩]
  | .formalParams =>
    [⟨[mark .leftParen, a? .formalParamList, mark .rightParen],
      fun _ _ params _ => params.getD []⟩]
  | .formalParamList => [⟨[a .formalParam, any .commaFormalParam], fun _ p ps => p :: ps⟩]
  | .formalParam =>
    [⟨[any .modifierItem, a .type, mark? .ellipsis, ident, any .dim],
      fun loc items type dots name dims =>
        ⟨loc, name.text, some (type.addDims (dims.length + if dots.isSome then 1 else 0)),
          modifiersOf items, annotationsOf items, dots.isSome⟩⟩]
  | .commaFormalParam => [⟨[mark .comma, a .formalParam], fun _ _ p => p⟩]
  | .throwsClause => [⟨[word .throws, a .typeList], fun _ _ _ => ⟨⟩⟩]
  | .declarators => [⟨[a .declarator, any .commaDeclarator], fun _ d ds => d :: ds⟩]
  | .declarator =>
    [⟨[ident, any .dim, a? .initPart],
      fun loc name dims init => ⟨loc, name.text, dims.length, init⟩⟩]
  | .commaDeclarator => [⟨[mark .comma, a .declarator], fun _ _ d => d⟩]
  | .initPart => [⟨[mark .assign, a .varInit], fun _ _ e => e⟩]
  | .varInit => [pass _ .expr rfl, pass _ .arrayInit rfl]
  | .commaVarInit => [⟨[mark .comma, a .varInit], fun _ _ e => e⟩]
  | .varInits => [⟨[a .varInit, any .commaVarInit], fun _ e es => e :: es⟩]
  | .arrayInit =>
    [⟨[mark .leftBrace, a? .varInits, mark? .comma, mark .rightBrace],
      fun loc _ elements _ _ => .arrayInit loc (elements.getD [])⟩]
  -- Types
  | .type =>
    [⟨[a .bareType, any .dim],
      fun loc t dims => ⟨t.name, t.args, t.dims + dims.length, some loc⟩⟩]
  | .bareType => [pass _ .primitiveType rfl, pass _ .classType rfl]
  | .primitiveType =>
    primitives.map fun k => token (.word k) fun loc t => namedType loc t.text
  | .classType =>
    [⟨[a .classTypePart, any .dotTypePart], fun loc p ps => typeOfParts loc (p :: ps)⟩]
  | .classTypePart => [⟨[ident, a? .typeArgs], fun _ name args => (name.text, args)⟩]
  | .dotTypePart => [⟨[mark .dot, a .classTypePart], fun _ _ p => p⟩]
  | .typeArgs =>
    [⟨[mark .less, a? .typeArgList, mark .more], fun _ _ args _ => args.getD []⟩]
  | .typeArgList => [⟨[a .typeArg, any .commaTypeArg], fun _ t ts => t :: ts⟩]
  | .typeArg => [pass _ .type rfl, pass _ .wildcard rfl]
  | .commaTypeArg => [⟨[mark .comma, a .typeArg], fun _ _ t => t⟩]
  | .wildcard =>
    [⟨[mark .question], fun loc _ => namedType loc "?"⟩,
     ⟨[mark .question, word .«extends», a .type], fun loc _ _ t => ⟨"?", [t], 0, some loc⟩⟩,
     ⟨[mark .question, word .super, a .type], fun loc _ _ t => ⟨"?", [t], 0, some loc⟩⟩]
  | .dim => [⟨[mark .leftBracket, mark .rightBracket], fun _ _ _ => ⟨⟩⟩]
  -- Statements
  | .block =>
    [⟨[mark .leftBrace, any .blockStmt, mark .rightBrace], fun loc _ stmts _ => ⟨loc, stmts⟩⟩]
  | .blockStmt =>
    [⟨[a .localVars, mark .semicolon], fun _ d _ => .vars d⟩, pass _ .statement rfl]
  | .localVars =>
    [⟨[any .modifierItem, a .type, a .declarators],
      fun loc items type declarators =>
        ⟨loc, type, declarators, modifiersOf items, annotationsOf items⟩⟩]
  | .statement =>
    [⟨[a .block], fun _ b => .block b⟩,
     ⟨[mark .semicolon], fun loc _ => .empty loc⟩,
     ⟨[a .statementExpr, mark .semicolon], fun loc e _ => .expr loc e⟩,
     ⟨[word .«if», mark .leftParen, a .expr, mark .rightParen, a .statement, a? .elsePart],
      fun loc _ _ c _ s e => .ifElse loc c s e⟩,
     ⟨[word .«while», mark .leftParen, a .expr, mark .rightParen, a .statement],
      fun loc _ _ c _ s => .whileLoop loc c s⟩,
     ⟨[word .«do», a .statement, word .«while», mark .leftParen, a .expr, mark .rightParen,
        mark .semicolon],
      fun loc _ s _ _ c _ _ => .doLoop loc s c⟩,
     ⟨[word .«for», mark .leftParen, a? .forInit, mark .semicolon, a? .expr, mark .semicolon,
        a? .statementExprs, mark .rightParen, a .statement],
      fun loc _ _ init _ c _ update _ s => .forLoop loc (init.getD []) c (update.getD []) s⟩,
     ⟨[word .«for», mark .leftParen, any .modifierItem, a .type, ident, mark .colon, a .expr,
        mark .rightParen, a .statement],
      fun loc _ _ items type name _ e _ s =>
        .forEach loc ⟨loc, name.text, some type, modifiersOf items, annotationsOf items, false⟩
          e s⟩,
     ⟨[word .«return», a? .expr, mark .semicolon], fun loc _ e _ => .returnStmt loc e⟩,
     ⟨[word .throw, a .expr, mark .semicolon], fun loc _ e _ => .throwStmt loc e⟩,
     ⟨[word .«break», ident?, mark .semicolon],
      fun loc _ label _ => .breakStmt loc (label.map Token.text)⟩,
     ⟨[word .«continue», ident?, mark .semicolon],
      fun loc _ label _ => .continueStmt loc (label.map Token.text)⟩,
     ⟨[word .«try», a? .resources, a .block, any .catchClause, a? .finallyClause],
      fun loc _ resources body catches last =>
        .tryStmt loc (resources.getD []) body catches last⟩,
     ⟨[word .synchronized, mark .leftParen, a .expr, mark .rightParen, a .block],
      fun loc _ _ e _ b => .synchronizedStmt loc e b⟩,
     ⟨[word .assert, a .expr, a? .assertMessage, mark .semicolon],
      fun loc _ c message _ => .assertStmt loc c message⟩,
     ⟨[word .switch, mark .leftParen, a .expr, mark .rightParen, a .switchBody],
      fun loc _ _ e _ items => .switchStmt loc e items⟩,
     ⟨[ident, mark .colon, a .statement], fun loc label _ s => .labeled loc label.text s⟩]
  | .elsePart => [⟨[word .«else», a .statement], fun _ _ s => s⟩]
  | .forInit =>
    [⟨[a .localVars], fun _ d => [.vars d]⟩, ⟨[a .statementExprs], fun _ es => es.map .expr⟩]
  | .statementExprs =>
    [⟨[a .statementExpr, any .commaStatementExpr], fun _ e es => e :: es⟩]
  | .commaStatementExpr => [⟨[mark .comma, a .statementExpr], fun _ _ e => e⟩]
  | .resources =>
    [⟨[mark .leftParen, a .resource, any .furtherResource, mark? .semicolon, mark .rightParen],
      fun _ _ r rs _ _ => r :: rs⟩]
  | .resource =>
    [⟨[any .modifierItem, a .type, ident, mark .assign, a .expr],
      fun loc items type name _ e =>
        .vars ⟨loc, type, [⟨loc, name.text, 0, some e⟩], modifiersOf items, annotationsOf items⟩⟩,
     ⟨[a .expr], fun _ e => .expr e⟩]
  | .furtherResource => [⟨[mark .semicolon, a .resource], fun _ _ r => r⟩]
  | .catchClause =>
    [⟨[word .«catch», mark .leftParen, any .modifierItem, a .catchType, ident, mark .rightParen,
        a .block],
      fun loc _ _ _ types name _ body => ⟨loc, types, name.text, body⟩⟩]
  | .catchType => [⟨[a .type, any .furtherCatchType], fun _ t ts => t :: ts⟩]
  | .furtherCatchType => [⟨[mark .bar, a .type], fun _ _ t => t⟩]
  | .finallyClause => [⟨[word .«finally», a .block], fun _ _ b => b⟩]
  | .assertMessage => [⟨[mark .colon, a .expr], fun _ _ e => e⟩]
  | .switchBody =>
    [⟨[mark .leftBrace, mark .rightBrace], fun _ _ _ => []⟩,
     ⟨[mark .leftBrace, a .switchLabel, any .switchItem, mark .rightBrace],
      fun _ _ first items _ => first :: items⟩]
  | .switchLabel =>
    [⟨[word .case, a .expr, mark .colon], fun _ _ e _ => .label (some e)⟩,
     ⟨[word .«default», mark .colon], fun _ _ _ => .label none⟩]
  | .switchItem => [pass _ .switchLabel rfl, ⟨[a .blockStmt], fun _ s => .stmt s⟩]
  | .statementExpr =>
    [pass _ .assign rfl, pass _ .preStep rfl, pass _ .postStep rfl, pass _ .methodCall rfl,
     pass _ .newObject rfl]
  -- Expressions
  | .expr => [pass _ .assignment rfl, pass _ .lambda rfl]
  | .assignment => [pass _ .conditional rfl, pass _ .assign rfl]
  | .assign =>
    [⟨[a .assignTarget, a .assignOp, a .expr], fun loc target op value =>
      .assign loc op target value⟩]
  | .assignTarget =>
    [pass _ .name rfl, pass _ .fieldAccess rfl, pass _ .arrayAccess rfl, pass _ .paren rfl]
  | .assignOp =>
    marks [(.assign, .plain), (.plusAssign, .combined .add), (.minusAssign, .combined .subtract),
      (.timesAssign, .combined .multiply), (.overAssign, .combined .divide),
      (.moduloAssign, .combined .remainder), (.andAssign, .combined .bitAnd),
      (.orAssign, .combined .bitOr), (.xorAssign, .combined .bitXor),
      (.leftShiftAssign, .combined .shiftLeft), (.rightShiftAssign, .combined .shiftRight),
      (.unsignedShiftAssign, .combined .shiftRightUnsigned)]
  | .lambda =>
    [⟨[a .lambdaParams, mark .arrow, a .expr], fun loc params _ e => .lambda loc params e⟩,
     ⟨[a .lambdaParams, mark .arrow, a .block], fun loc params _ b => .lambdaBlock loc params b⟩]
  | .lambdaParams =>
    [⟨[ident], fun loc name => [⟨loc, name.text, none, [], [], false⟩]⟩,
     ⟨[mark .leftParen, a? .lambdaParamList, mark .rightParen], fun _ _ params _ =>
      params.getD []⟩]
  | .lambdaParamList => [⟨[a .lambdaParam, any .commaLambdaParam], fun _ p ps => p :: ps⟩]
  | .lambdaParam =>
    [⟨[any .modifierItem, a .type, ident],
      fun loc items type name =>
        ⟨loc, name.text, some type, modifiersOf items, annotationsOf items, false⟩⟩,
     ⟨[ident], fun loc name => ⟨loc, name.text, none, [], [], false⟩⟩]
  | .commaLambdaParam => [⟨[mark .comma, a .lambdaParam], fun _ _ p => p⟩]
  | .conditional =>
    [pass _ .logicOr rfl,
     ⟨[a .logicOr, mark .question, a .expr, mark .colon, a .conditional],
      fun loc c _ x _ y => .conditional loc c x y⟩,
     ⟨[a .logicOr, mark .question, a .expr, mark .colon, a .lambda],
      fun loc c _ x _ y => .conditional loc c x y⟩]
  | .logicOr => [pass _ .logicAnd rfl, infixed _ .logicOr .logicAnd .orElse .orElse rfl rfl rfl]
  | .logicAnd => [pass _ .bitOr rfl, infixed _ .logicAnd .bitOr .andAlso .andAlso rfl rfl rfl]
  | .bitOr => [pass _ .bitXor rfl, infixed _ .bitOr .bitXor .bar .bitOr rfl rfl rfl]
  | .bitXor => [pass _ .bitAnd rfl, infixed _ .bitXor .bitAnd .caret .bitXor rfl rfl rfl]
  | .bitAnd => [pass _ .equality rfl, infixed _ .bitAnd .equality .ampersand .bitAnd rfl rfl rfl]
  | .equality =>
    [pass _ .relational rfl, infixed _ .equality .relational .equals .equal rfl rfl rfl,
     infixed _ .equality .relational .differs .notEqual rfl rfl rfl]
  | .relational =>
    [pass _ .shift rfl,
     ⟨[a .relational, a .relationalOp, a .shift], fun loc x op y => .binary loc op x y⟩,
     ⟨[a .relational, word .instanceof, a .type], fun loc x _ t => .instanceOf loc x t⟩]
  | .relationalOp =>
    marks [(.less, .less), (.more, .greater), (.atMost, .lessEqual), (.atLeast, .greaterEqual)]
  | .shift =>
    [pass _ .additive rfl,
     ⟨[a .shift, a .shiftOp, a .additive], fun loc x op y => .binary loc op x y⟩]
  | .shiftOp =>
    [⟨[mark .leftShift], fun _ _ => .shiftLeft⟩,
     ⟨[mark .more, mark .more], fun _ _ _ => .shiftRight⟩,
     ⟨[mark .more, mark .more, mark .more], fun _ _ _ _ => .shiftRightUnsigned⟩]
  | .additive =>
    [pass _ .multiplicative rfl, infixed _ .additive .multiplicative .plus .add rfl rfl rfl,
     infixed _ .additive .multiplicative .minus .subtract rfl rfl rfl]
  | .multiplicative =>
    [pass _ .unary rfl, infixed _ .multiplicative .unary .star .multiply rfl rfl rfl,
     infixed _ .multiplicative .unary .slash .divide rfl rfl rfl,
     infixed _ .multiplicative .unary .percent .remainder rfl rfl rfl]
  | .unary =>
    [pass _ .preStep rfl, ⟨[mark .plus, a .unary], fun loc _ e => .unary loc .plus e⟩,
     ⟨[mark .minus, a .unary], fun loc _ e => .unary loc .minus e⟩, pass _ .unsignedUnary rfl]
  | .unsignedUnary =>
    [pass _ .postfixExpr rfl, ⟨[mark .tilde, a .unary], fun loc _ e => .unary loc .complement e⟩,
     ⟨[mark .bang, a .unary], fun loc _ e => .unary loc .negate e⟩, pass _ .cast rfl]
  | .preStep => [⟨[a .stepOp, a .unary], fun loc op e => .preStep loc op e⟩]
  | .stepOp => marks [(.increment, .increment), (.decrement, .decrement)]
  | .cast =>
    [⟨[mark .leftParen, a .primitiveType, any .dim, mark .rightParen, a .unary],
      fun loc _ t dims _ e => .cast loc (t.addDims dims.length) e⟩,
     ⟨[mark .leftParen, a .classType, any .dim, mark .rightParen, a .unsignedUnary],
      fun loc _ t dims _ e => .cast loc (t.addDims dims.length) e⟩,
     ⟨[mark .leftParen, a .classType, any .dim, mark .rightParen, a .lambda],
      fun loc _ t dims _ e => .cast loc (t.addDims dims.length) e⟩]
  | .postfixExpr => [pass _ .primary rfl, pass _ .postStep rfl]
  | .postStep => [⟨[a .postfixExpr, a .stepOp], fun loc e op => .postStep loc op e⟩]
  | .primary =>
    [pass _ .literal rfl, pass _ .paren rfl, pass _ .thisRef rfl, pass _ .superRef rfl,
     pass _ .name rfl, pass _ .fieldAccess rfl, pass _ .methodCall rfl, pass _ .arrayAccess rfl,
     pass _ .newObject rfl, pass _ .newArray rfl, pass _ .classLiteral rfl, pass _ .methodRef rfl]
  | .paren => [⟨[mark .leftParen, a .expr, mark .rightParen], fun loc _ e _ => .paren loc e⟩]
  | .thisRef => [⟨[word .this], fun loc _ => .this loc⟩]
  | .superRef => [⟨[word .super], fun loc _ => .super loc⟩]
  | .name => [⟨[ident], fun loc t => .name loc t.text⟩]
  | .fieldAccess =>
    [⟨[a .primary, mark .dot, ident], fun loc e _ name => .field loc e name.text⟩]
  | .methodCall =>
    [⟨[a .primary, mark .dot, a? .typeArgs, ident, a .arguments],
      fun loc e _ _ name args => .call loc (some e) name.text args⟩,
     ⟨[ident, a .arguments], fun loc name args => .call loc none name.text args⟩]
  | .arrayAccess =>
    [⟨[a .primary, mark .leftBracket, a .expr, mark .rightBracket],
      fun loc e _ i _ => .index loc e i⟩]
  | .newObject =>
    [⟨[word .new, a .classType, a .arguments, a? .classBody],
      fun loc _ t args body => .newObject loc t args body⟩]
  | .newArray =>
    [⟨[word .new, a .bareType, some_ .dimExpr, any .dim],
      fun loc _ t sizes dims =>
        .newArray loc (t.addDims (sizes.length + dims.length)) sizes none⟩,
     ⟨[word .new, a .bareType, some_ .dim, a .arrayInit],
      fun loc _ t dims init => .newArray loc (t.addDims dims.length) [] (some init)⟩]
  | .dimExpr => [⟨[mark .leftBracket, a .expr, mark .rightBracket], fun _ _ e _ => e⟩]
  | .classLiteral =>
    [⟨[a .bareType, any .dim, mark .dot, word .«class»],
      fun loc t dims _ _ => .classLiteral loc (t.addDims dims.length)⟩,
     ⟨[word .void, any .dim, mark .dot, word .«class»],
      fun loc _ dims _ _ => .classLiteral loc ⟨"void", [], dims.length, none⟩⟩]
  | .methodRef =>
    [⟨[a .primary, mark .doubleColon, a .refName], fun loc e _ name => .methodRef loc e name⟩,
     ⟨[a .classType, mark .doubleColon, a .refName],
      fun loc t _ name => .typeMethodRef loc t name⟩]
  | .refName => [⟨[ident], fun _ t => t.text⟩, ⟨[word .new], fun _ t => t.text⟩]
  | .arguments =>
    [⟨[mark .leftParen, a? .exprs, mark .rightParen], fun _ _ args _ => args.getD []⟩]
  | .exprs => [⟨[a .expr, any .commaExpr], fun _ e es => e :: es⟩]
  | .commaExpr => [⟨[mark .comma, a .expr], fun _ _ e => e⟩]
  | .literal =>
    [token .string fun loc t => .literal loc .string t.text,
     token .char fun loc t => .literal loc .char t.text,
     token .number fun loc t => .literal loc (numberKind t.text) t.text,
     token (.word .true) fun loc t => .literal loc .boolean t.text,
     token (.word .false) fun loc t => .literal loc .boolean t.text,
     token (.word .null) fun loc t => .literal loc .null t.text]

end Category

end GuardLint.Syntax
