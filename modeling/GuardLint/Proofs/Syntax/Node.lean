import Mathlib.Data.List.Basic
import Mathlib.Logic.Relation
import GuardLint.Proofs.Grammar.Gather
import GuardLint.Proofs.Syntax.Expression

/-!
# Expressions and statements as parts of each other

The expressions and statements directly in an expression or a statement, in the order of the text,
also where a declaration, a parameter, a clause or a class body stands in between. What a production
builds adds at most one to those that its parts hold, at the location of the production.
-/

namespace GuardLint.Syntax

open Grammar

/-- The location of a statement. -/
def Stmt.location : Stmt → Location
  | .block b => b.location
  | .vars d => d.location
  | .expr l .. | .ifElse l .. | .whileLoop l .. | .doLoop l .. | .forLoop l .. | .forEach l ..
  | .returnStmt l .. | .throwStmt l .. | .breakStmt l .. | .continueStmt l .. | .tryStmt l ..
  | .synchronizedStmt l .. | .assertStmt l .. | .switchStmt l .. | .labeled l .. | .empty l => l

/-- An expression or a statement of a tree. -/
inductive Node where
  | expr (expr : Expr)
  | stmt (stmt : Stmt)

namespace Node

/-- Where an expression or a statement stands. -/
def location : Node → Location
  | .expr e => e.location
  | .stmt s => s.location

/-- Whether an expression is a call. -/
def isCall : Node → Bool
  | .expr (.call ..) => true
  | _ => false

/-- Whether something is an expression that has a value by itself, so no array initializer. -/
def isValue : Node → Bool
  | .expr (.arrayInit ..) => false
  | .expr _ => true
  | .stmt _ => false

/-- A block as a statement. -/
def block (b : Block) : Node := .stmt (.block b)

/-! ### What declarations and clauses hold -/

/-- The arguments of an annotation. -/
def ofAnnotation (a : Annotation) : List Node := a.args.map .expr

/-- The arguments of some annotations. -/
def ofAnnotations (as : List Annotation) : List Node := as.flatMap ofAnnotation

/-- A parameter holds the arguments of its annotations. -/
def ofParam (p : Param) : List Node := ofAnnotations p.annotations

/-- A variable holds what it is initialized with. -/
def ofDeclarator (d : Declarator) : List Node := d.init.toList.map .expr

/-- A declaration holds what its annotations and its variables hold. -/
def ofVars (d : VarDecl) : List Node :=
  ofAnnotations d.annotations ++ d.declarators.flatMap ofDeclarator

/-- A declaration or an expression before a body, as a statement or as an expression. -/
def ofSetup : Setup → Node
  | .vars d => .stmt (.vars d)
  | .expr e => .expr e

/-- A `catch` clause holds its body. -/
def ofCatch (c : CatchClause) : Node := block c.body

/-- An item of a `switch` is a statement, or a label with an expression at most. -/
def ofItem : SwitchItem → List Node
  | .label e => e.toList.map .expr
  | .stmt s => [.stmt s]

/-- A method holds its body, behind what annotations of it and of its parameters hold. -/
def ofMethod (m : MethodDecl) : List Node :=
  ofAnnotations m.annotations ++ m.params.flatMap ofParam ++ m.body.toList.map block

mutual

/-- What a member of a class body holds. -/
def ofMember : Member → List Node
  | .field d => ofVars d
  | .method m => ofMethod m
  | .initializer _ b _ => [block b]
  | .type d => ofType d

/-- What some members hold. -/
def ofMembers : List Member → List Node
  | [] => []
  | m :: ms => ofMember m ++ ofMembers ms

/-- What a constant of an enum holds: its arguments, and what its class body holds. -/
def ofConstant : EnumConstant → List Node
  | ⟨_, _, as, none⟩ => as.map .expr
  | ⟨_, _, as, some ms⟩ => as.map .expr ++ ofMembers ms

/-- What some constants hold. -/
def ofConstants : List EnumConstant → List Node
  | [] => []
  | c :: cs => ofConstant c ++ ofConstants cs

/-- What the declaration of a class, interface or enum holds. -/
def ofType : TypeDecl → List Node
  | ⟨_, _, _, ms, _, as, cs, _⟩ => ofAnnotations as ++ ofConstants cs ++ ofMembers ms

end

/-- The outermost expressions and statements of a source file. -/
def ofUnit (unit : CompilationUnit) : List Node := unit.types.flatMap ofType

/-! ### What expressions and statements hold -/

/-- The expressions and statements directly in an expression. -/
def ofExpr : Expr → List Node
  | .literal .. | .name .. | .this _ | .super _ | .classLiteral .. | .typeMethodRef .. => []
  | .paren _ e | .field _ e _ | .methodRef _ e _ | .instanceOf _ e _ | .unary _ _ e
  | .preStep _ _ e | .postStep _ _ e | .cast _ _ e => [.expr e]
  | .call _ t _ as => t.toList.map .expr ++ as.map .expr
  | .index _ a b | .binary _ _ a b | .assign _ _ a b => [.expr a, .expr b]
  | .conditional _ c a b => [.expr c, .expr a, .expr b]
  | .newObject _ _ as b => as.map .expr ++ b.toList.flatMap ofMembers
  | .newArray _ _ ds i => ds.map .expr ++ i.toList.map .expr
  | .arrayInit _ es => es.map .expr
  | .lambda _ ps e => ps.flatMap ofParam ++ [.expr e]
  | .lambdaBlock _ ps b => ps.flatMap ofParam ++ [block b]

/-- The expressions and statements directly in a statement. -/
def ofStmt : Stmt → List Node
  | .block b => b.statements.map .stmt
  | .vars d => ofVars d
  | .expr _ e | .throwStmt _ e => [.expr e]
  | .ifElse _ c s e => .expr c :: .stmt s :: e.toList.map .stmt
  | .whileLoop _ c s => [.expr c, .stmt s]
  | .doLoop _ s c => [.stmt s, .expr c]
  | .forLoop _ i c u s => i.map ofSetup ++ c.toList.map .expr ++ u.map .expr ++ [.stmt s]
  | .forEach _ v e s => ofParam v ++ [.expr e, .stmt s]
  | .returnStmt _ e => e.toList.map .expr
  | .breakStmt .. | .continueStmt .. | .empty _ => []
  | .tryStmt _ rs b cs f => rs.map ofSetup ++ block b :: (cs.map ofCatch ++ f.toList.map block)
  | .synchronizedStmt _ e b => [.expr e, block b]
  | .assertStmt _ c m => .expr c :: m.toList.map .expr
  | .switchStmt _ e is => .expr e :: is.flatMap ofItem
  | .labeled _ _ s => [.stmt s]

/-- The expressions and statements directly in an expression or a statement, in the order of its
fields. This is the order of the text: annotations, whose arguments come first, stand before all
else. -/
def parts : Node → List Node
  | .expr e => ofExpr e
  | .stmt s => ofStmt s

/-- An expression or a statement is inside another, however deep. -/
def Below : Node → Node → Prop := Relation.TransGen fun m n ↦ m ∈ n.parts

/-- The expressions and statements of a source file. -/
def Of (unit : CompilationUnit) (n : Node) : Prop :=
  ∃ m ∈ ofUnit unit, n = m ∨ n.Below m

/-! ### Lists and parts that may be missing -/

theorem ofMembers_eq : ofMembers = fun ms ↦ ms.flatMap ofMember := by
  funext ms
  induction ms with
  | nil => rw [ofMembers, List.flatMap_nil]
  | cons m ms ih => rw [ofMembers, ih, List.flatMap_cons]

theorem ofConstants_eq : ofConstants = fun cs ↦ cs.flatMap ofConstant := by
  funext cs
  induction cs with
  | nil => rw [ofConstants, List.flatMap_nil]
  | cons c cs ih => rw [ofConstants, ih, List.flatMap_cons]

theorem ofConstant_mk (l : Location) (n : String) (as : List Expr) (b : Option (List Member)) :
    ofConstant ⟨l, n, as, b⟩ = as.map .expr ++ b.toList.flatMap ofMembers := by
  cases b <;> simp [ofConstant]

/-- The annotations among modifiers and annotations. -/
def ofModifierItem (item : Modifier ⊕ Annotation) : List Node :=
  item.getRight?.toList.flatMap ofAnnotation

theorem ofAnnotations_nil : ofAnnotations [] = [] := rfl

theorem ofAnnotations_annotationsOf (items : List (Modifier ⊕ Annotation)) :
    ofAnnotations (Category.annotationsOf items) = items.flatMap ofModifierItem := by
  rw [ofAnnotations, Category.annotationsOf, List.filterMap_eq_flatMap_toList, List.flatMap_assoc]
  rfl

/-! ### Categories -/

/-- The outermost expressions and statements of a value of a category. -/
def ofCategory : (c : Category) → c.Value → List Node
  | .compilationUnit => ofUnit
  | .modifierItem => ofModifierItem
  | .annotationUse => ofAnnotation
  | .elementPair | .commaElementPair | .elementValue | .commaElementValue =>
    fun e ↦ e.toList.map .expr
  | .typeDecl => fun d ↦ d.toList.flatMap ofType
  | .classDecl | .interfaceDecl | .enumDecl => ofType
  | .classBody | .enumMembers => ofMembers
  | .enumBody => fun b ↦ ofConstants b.1 ++ ofMembers b.2
  | .enumConstants => ofConstants
  | .enumConstant | .commaEnumConstant => ofConstant
  | .member => fun m ↦ m.toList.flatMap ofMember
  | .initializer => ofMember
  | .fieldDecl => ofVars
  | .localVars => fun d ↦ [.stmt (.vars d)]
  | .methodDecl | .constructorDecl => ofMethod
  | .methodBody => fun b ↦ b.toList.map block
  | .formalParams | .formalParamList | .lambdaParams | .lambdaParamList => List.flatMap ofParam
  | .formalParam | .commaFormalParam | .lambdaParam | .commaLambdaParam => ofParam
  | .declarators => List.flatMap ofDeclarator
  | .declarator | .commaDeclarator => ofDeclarator
  | .block | .finallyClause => fun b ↦ [block b]
  | .blockStmt | .statement | .elsePart => fun s ↦ [.stmt s]
  | .forInit | .resources => fun ss ↦ ss.map ofSetup
  | .resource | .furtherResource => fun s ↦ [ofSetup s]
  | .catchClause => fun c ↦ [ofCatch c]
  | .switchBody => List.flatMap ofItem
  | .switchLabel | .switchItem => ofItem
  | .annotationArgs | .elementValues | .varInits | .statementExprs | .arguments | .exprs =>
    fun es ↦ es.map .expr
  | .elementArray | .initPart | .varInit | .commaVarInit | .arrayInit | .commaStatementExpr
  | .assertMessage | .statementExpr | .expr | .assignment | .assign | .assignTarget | .lambda
  | .conditional | .logicOr | .logicAnd | .bitOr | .bitXor | .bitAnd | .equality | .relational
  | .shift | .additive | .multiplicative | .unary | .unsignedUnary | .preStep | .cast
  | .postfixExpr | .postStep | .primary | .paren | .thisRef | .superRef | .name | .fieldAccess
  | .methodCall | .arrayAccess | .newObject | .newArray | .dimExpr | .classLiteral | .methodRef
  | .commaExpr | .literal => fun e ↦ [.expr e]
  | _ => fun _ ↦ []

/-- What a production builds holds what its parts hold, or it is one expression or statement at the
location of the production, and this holds what the parts hold; only one category builds calls, and
only the categories of expressions build expressions other than array initializers. Something may be
left out. -/
inductive Made (c : Category) (l : Location) (inner : List Node) : List Node → Prop where
  | held {ns : List Node} : ns.Sublist inner → Made c l inner ns
  | one {n : Node} : c ≠ .compilationUnit → n.isCall = decide (c = .methodCall) →
      n.isValue = c.isExpression → n.location = l → n.parts.Sublist inner → Made c l inner [n]

variable {c : Category} {l : Location} {inner ns : List Node} {n : Node}

private theorem made_self : Made c l ns ns := .held (.refl ns)

private theorem made_nil : Made c l inner [] := .held (List.nil_sublist inner)

private theorem made_append (ms : List Node) : Made c l (ms ++ ns) ns :=
  .held (List.sublist_append_right ms ns)

private theorem made_append_nil : Made c l (ns ++ []) ns := by
  rw [List.append_nil]
  exact made_self

private theorem made_one (h : c ≠ .compilationUnit ∧ n.isCall = decide (c = .methodCall) ∧
    n.isValue = c.isExpression ∧ n.location = l ∧ n.parts = inner) : Made c l inner [n] :=
  .one h.1 h.2.1 h.2.2.1 h.2.2.2.1 (h.2.2.2.2 ▸ .refl _)

/-- A production passes on what its parts hold or builds one expression or statement of it. -/
theorem made_value (c : Category) : ∀ p ∈ c.rules, ∀ (l : Location)
    (vs : Values Category.Value p.elements),
      Made c l (gather ofCategory p.elements vs) (ofCategory c (p.value l vs)) := by
  cases c with
  | _ =>
    repeat' refine List.forall_mem_cons.mpr ⟨fun l vs ↦ ?_, ?_⟩
    all_goals
      -- Where no list is put together and nothing may be missing, this is so by definition.
      first
      | exact fun _ h ↦ absurd h List.not_mem_nil
      | exact made_self
      | exact made_one ⟨by decide, rfl, rfl, rfl, rfl⟩
      | exact made_append_nil
      | simp only [Category.declare, Production.value, Action.apply, gather, Element.gather,
          Symbol.gather, ofCategory.eq_def, ofUnit, ofExpr, ofStmt, block, ofVars, ofDeclarator, ofSetup,
          ofCatch, ofMember, ofMembers_eq, ofMethod, ofParam, ofAnnotation,
          ofAnnotations_annotationsOf, ofConstant_mk, ofConstants_eq, ofType, flatMap_none,
          flatMap_getD, location, Expr.location, Stmt.location, parts, List.map_eq_flatMap,
          List.filterMap_eq_flatMap_toList, List.flatMap_assoc, List.flatMap_append, and_self,
          List.append_nil, List.nil_append, Option.toList_some, Option.toList_none,
          List.flatMap_cons, List.flatMap_nil, List.append_assoc, id_eq, List.cons_append,
          made_self, made_nil, made_append, made_one, isCall, isValue, Category.isExpression,
          decide_false, decide_true, ne_eq, reduceCtorEq, not_false_eq_true]

end Node

end GuardLint.Syntax
