import Mathlib.Data.List.Basic
import GuardLint.Syntax.Start

/-!
# Trees without locations

A tree as it is without its locations, with other statements in place of some of its expression
statements. What a production builds of rewritten parts is what it builds of the parts, rewritten,
except that an expression statement may be replaced as a whole.
-/

namespace GuardLint.Syntax

open Grammar

/-- Which statements take the place of the expression statements at some locations. -/
abbrev Rewrite := Location → Option Stmt

namespace Rewrite

/-- The rewrite that replaces no statement. -/
def none : Rewrite := fun _ ↦ .none

mutual

/-- A type without its locations. -/
def type : TypeRef → TypeRef
  | ⟨n, as, d, l⟩ => ⟨n, types as, d, l.map fun _ ↦ .empty⟩

/-- Types without their locations. -/
def types : List TypeRef → List TypeRef
  | [] => []
  | t :: ts => type t :: types ts

end

variable (f : Rewrite)

mutual

/-- An expression, rewritten. -/
def expr : Expr → Expr
  | .literal _ k s => .literal .empty k s
  | .name _ n => .name .empty n
  | .this _ => .this .empty
  | .super _ => .super .empty
  | .paren _ e => .paren .empty (expr e)
  | .field _ e n => .field .empty (expr e) n
  | .call _ t n as => .call .empty (expr? t) n (exprs as)
  | .index _ a b => .index .empty (expr a) (expr b)
  | .newObject _ t as .none => .newObject .empty (type t) (exprs as) .none
  | .newObject _ t as (some ms) => .newObject .empty (type t) (exprs as) (some (members ms))
  | .newArray _ t ds i => .newArray .empty (type t) (exprs ds) (expr? i)
  | .arrayInit _ es => .arrayInit .empty (exprs es)
  | .classLiteral _ t => .classLiteral .empty (type t)
  | .methodRef _ e n => .methodRef .empty (expr e) n
  | .typeMethodRef _ t n => .typeMethodRef .empty (type t) n
  | .binary _ op a b => .binary .empty op (expr a) (expr b)
  | .instanceOf _ e t => .instanceOf .empty (expr e) (type t)
  | .unary _ op e => .unary .empty op (expr e)
  | .preStep _ op e => .preStep .empty op (expr e)
  | .postStep _ op e => .postStep .empty op (expr e)
  | .assign _ op a b => .assign .empty op (expr a) (expr b)
  | .conditional _ c a b => .conditional .empty (expr c) (expr a) (expr b)
  | .cast _ t e => .cast .empty (type t) (expr e)
  | .lambda _ ps e => .lambda .empty (params ps) (expr e)
  | .lambdaBlock _ ps b => .lambdaBlock .empty (params ps) (block b)

/-- An expression that may be missing, rewritten. -/
def expr? : Option Expr → Option Expr
  | .none => .none
  | some e => some (expr e)

/-- Expressions, rewritten. -/
def exprs : List Expr → List Expr
  | [] => []
  | e :: es => expr e :: exprs es

/-- A statement, rewritten. -/
def stmt : Stmt → Stmt
  | .block b => .block (block b)
  | .vars d => .vars (varDecl d)
  | .expr l e => (f l).getD (.expr .empty (expr e))
  | .ifElse _ c s .none => .ifElse .empty (expr c) (stmt s) .none
  | .ifElse _ c s (some e) => .ifElse .empty (expr c) (stmt s) (some (stmt e))
  | .whileLoop _ c s => .whileLoop .empty (expr c) (stmt s)
  | .doLoop _ s c => .doLoop .empty (stmt s) (expr c)
  | .forLoop _ i c u s => .forLoop .empty (setups i) (expr? c) (exprs u) (stmt s)
  | .forEach _ v e s => .forEach .empty (param v) (expr e) (stmt s)
  | .returnStmt _ e => .returnStmt .empty (expr? e)
  | .throwStmt _ e => .throwStmt .empty (expr e)
  | .breakStmt _ n => .breakStmt .empty n
  | .continueStmt _ n => .continueStmt .empty n
  | .tryStmt _ rs b cs l => .tryStmt .empty (setups rs) (block b) (catches cs) (block? l)
  | .synchronizedStmt _ e b => .synchronizedStmt .empty (expr e) (block b)
  | .assertStmt _ c m => .assertStmt .empty (expr c) (expr? m)
  | .switchStmt _ e is => .switchStmt .empty (expr e) (items is)
  | .labeled _ n s => .labeled .empty n (stmt s)
  | .empty _ => .empty .empty

/-- A block, rewritten. -/
def block : Block → Block
  | ⟨_, ss⟩ => ⟨.empty, stmts ss⟩

/-- A block that may be missing, rewritten. -/
def block? : Option Block → Option Block
  | .none => .none
  | some b => some (block b)

/-- Statements, rewritten. -/
def stmts : List Stmt → List Stmt
  | [] => []
  | s :: ss => stmt s :: stmts ss

/-- A declaration of variables, rewritten. -/
def varDecl : VarDecl → VarDecl
  | ⟨_, t, ds, ms, as⟩ => ⟨.empty, type t, declarators ds, ms, annotations as⟩

/-- A declarator, rewritten. -/
def declarator : Declarator → Declarator
  | ⟨_, n, d, e⟩ => ⟨.empty, n, d, expr? e⟩

/-- Declarators, rewritten. -/
def declarators : List Declarator → List Declarator
  | [] => []
  | d :: ds => declarator d :: declarators ds

/-- A declaration or expression before a body, rewritten. -/
def setup : Setup → Setup
  | .vars d => .vars (varDecl d)
  | .expr e => .expr (expr e)

/-- What happens before a body, rewritten. -/
def setups : List Setup → List Setup
  | [] => []
  | s :: ss => setup s :: setups ss

/-- A `catch` clause, rewritten. -/
def catchClause : CatchClause → CatchClause
  | ⟨_, ts, n, b⟩ => ⟨.empty, types ts, n, block b⟩

/-- `catch` clauses, rewritten. -/
def catches : List CatchClause → List CatchClause
  | [] => []
  | c :: cs => catchClause c :: catches cs

/-- An item of a `switch`, rewritten. -/
def item : SwitchItem → SwitchItem
  | .label e => .label (expr? e)
  | .stmt s => .stmt (stmt s)

/-- The body of a `switch`, rewritten. -/
def items : List SwitchItem → List SwitchItem
  | [] => []
  | i :: is => item i :: items is

/-- A parameter, rewritten. -/
def param : Param → Param
  | ⟨_, n, t, ms, as, v⟩ => ⟨.empty, n, t.map type, ms, annotations as, v⟩

/-- Parameters, rewritten. -/
def params : List Param → List Param
  | [] => []
  | p :: ps => param p :: params ps

/-- An annotation, rewritten. -/
def annotationUse : Annotation → Annotation
  | ⟨_, n, es⟩ => ⟨.empty, n, exprs es⟩

/-- Annotations, rewritten. -/
def annotations : List Annotation → List Annotation
  | [] => []
  | a :: as => annotationUse a :: annotations as

/-- A member of a class, rewritten. -/
def member : Member → Member
  | .field d => .field (varDecl d)
  | .method m => .method (method m)
  | .initializer _ b s => .initializer .empty (block b) s
  | .type d => .type (typeDecl d)

/-- The members of a class, rewritten. -/
def members : List Member → List Member
  | [] => []
  | m :: ms => member m :: members ms

/-- The declaration of a method, rewritten. -/
def method : MethodDecl → MethodDecl
  | ⟨_, n, t, ps, b, ms, as, c⟩ =>
    ⟨.empty, n, t.map type, params ps, block? b, ms, annotations as, c⟩

/-- A constant of an enum, rewritten. -/
def constant : EnumConstant → EnumConstant
  | ⟨_, n, as, .none⟩ => ⟨.empty, n, exprs as, .none⟩
  | ⟨_, n, as, some ms⟩ => ⟨.empty, n, exprs as, some (members ms)⟩

/-- The constants of an enum, rewritten. -/
def constants : List EnumConstant → List EnumConstant
  | [] => []
  | c :: cs => constant c :: constants cs

/-- A declared class, rewritten. -/
def typeDecl : TypeDecl → TypeDecl
  | ⟨_, k, n, ms, mods, as, cs, ts⟩ =>
    ⟨.empty, k, n, members ms, mods, annotations as, constants cs, types ts⟩

end

/-- An import declaration without its location. -/
def importDecl (d : ImportDecl) : ImportDecl := { d with location := .empty }

/-- A source file, rewritten. -/
def unit (u : CompilationUnit) : CompilationUnit :=
  ⟨.empty, u.package, u.imports.map importDecl, u.types.map (typeDecl f)⟩

/-! ### Categories -/

/-- A value of a category, rewritten. -/
def category : (c : Category) → c.Value → c.Value
  | .compilationUnit => unit f
  | .importDecl => importDecl
  | .modifierItem => Sum.map id (annotationUse f)
  | .annotationUse => annotationUse f
  | .annotationArgs | .elementValues | .varInits | .statementExprs | .arguments | .exprs =>
    exprs f
  | .elementPair | .commaElementPair | .elementValue | .commaElementValue => Option.map (expr f)
  | .elementArray | .initPart | .varInit | .commaVarInit | .arrayInit | .commaStatementExpr
  | .assertMessage | .statementExpr | .expr | .assignment | .assign | .assignTarget | .lambda
  | .conditional | .logicOr | .logicAnd | .bitOr | .bitXor | .bitAnd | .equality | .relational
  | .shift | .additive | .multiplicative | .unary | .unsignedUnary | .preStep | .cast
  | .postfixExpr | .postStep | .primary | .paren | .thisRef | .superRef | .name | .fieldAccess
  | .methodCall | .arrayAccess | .newObject | .newArray | .dimExpr | .classLiteral | .methodRef
  | .commaExpr | .literal => expr f
  | .typeDecl => Option.map (typeDecl f)
  | .classDecl | .interfaceDecl | .enumDecl => typeDecl f
  | .superclass | .commaType | .resultType | .type | .bareType | .primitiveType | .classType
  | .typeArg | .commaTypeArg | .wildcard | .furtherCatchType => type
  | .interfaces | .superinterfaces | .typeList | .typeArgs | .typeArgList | .catchType => types
  | .classBody | .enumMembers => members f
  | .enumBody => Prod.map (constants f) (members f)
  | .enumConstants => constants f
  | .enumConstant | .commaEnumConstant => constant f
  | .member => Option.map (member f)
  | .fieldDecl | .localVars => varDecl f
  | .methodDecl | .constructorDecl => method f
  | .methodBody => block? f
  | .initializer => member f
  | .formalParams | .formalParamList | .lambdaParams | .lambdaParamList => params f
  | .formalParam | .commaFormalParam | .lambdaParam | .commaLambdaParam => param f
  | .declarators => declarators f
  | .declarator | .commaDeclarator => declarator f
  | .classTypePart | .dotTypePart => Prod.map id (Option.map types)
  | .block | .finallyClause => block f
  | .blockStmt | .statement | .elsePart => stmt f
  | .forInit | .resources => setups f
  | .resource | .furtherResource => setup f
  | .catchClause => catchClause f
  | .switchBody => items f
  | .switchLabel | .switchItem => item f
  | _ => id

/-- The value of a symbol, rewritten. -/
def symbol : (s : Symbol Category) → s.Value Category.Value → s.Value Category.Value
  | .tok _ => fun t ↦ { t with location := .empty }
  | .node (.one c) => category f c
  | .node (.run c) => List.map (category f c)

/-- The value of an element, rewritten. -/
def element : (e : Element Category) → e.Value Category.Value → e.Value Category.Value
  | .need s => symbol f s
  | .maybe s => Option.map (symbol f s)
  | .many c => symbol f (.node (.run c))

/-- The values of some elements, rewritten. -/
def elements :
    (es : List (Element Category)) → Values Category.Value es → Values Category.Value es
  | [], _ => ⟨⟩
  | e :: es, (v, vs) => (element f e v, elements es vs)

private theorem eq_map {α : Type} {g : α → α} {gs : List α → List α} (hn : gs [] = [])
    (hc : ∀ x xs, gs (x :: xs) = g x :: gs xs) : gs = List.map g := by
  funext xs
  induction xs with
  | nil => exact hn
  | cons x xs ih => rw [hc, ih, List.map_cons]

theorem types_eq : types = List.map type := eq_map (by rw [types]) fun t ts ↦ by rw [types]

theorem exprs_eq : exprs f = List.map (expr f) := eq_map (by rw [exprs]) fun e es ↦ by rw [exprs]

theorem expr?_eq : expr? f = Option.map (expr f) := by
  funext e
  cases e <;> rw [expr?] <;> rfl

theorem stmts_eq : stmts f = List.map (stmt f) := eq_map (by rw [stmts]) fun s ss ↦ by rw [stmts]

theorem block?_eq : block? f = Option.map (block f) := by
  funext b
  cases b <;> rw [block?] <;> rfl

theorem declarators_eq : declarators f = List.map (declarator f) :=
  eq_map (by rw [declarators]) fun d ds ↦ by rw [declarators]

theorem setups_eq : setups f = List.map (setup f) :=
  eq_map (by rw [setups]) fun s ss ↦ by rw [setups]

theorem catches_eq : catches f = List.map (catchClause f) :=
  eq_map (by rw [catches]) fun c cs ↦ by rw [catches]

theorem items_eq : items f = List.map (item f) := eq_map (by rw [items]) fun i is ↦ by rw [items]

theorem params_eq : params f = List.map (param f) :=
  eq_map (by rw [params]) fun p ps ↦ by rw [params]

theorem annotations_eq : annotations f = List.map (annotationUse f) :=
  eq_map (by rw [annotations]) fun a as ↦ by rw [annotations]

theorem members_eq : members f = List.map (member f) :=
  eq_map (by rw [members]) fun m ms ↦ by rw [members]

theorem constants_eq : constants f = List.map (constant f) :=
  eq_map (by rw [constants]) fun c cs ↦ by rw [constants]

theorem expr_newObject (l : Location) (t : TypeRef) (as : List Expr) (b : Option (List Member)) :
    expr f (.newObject l t as b) =
      .newObject .empty (type t) (exprs f as) (b.map (members f)) := by
  cases b <;> simp [expr]

theorem constant_mk (l : Location) (n : String) (as : List Expr) (b : Option (List Member)) :
    constant f ⟨l, n, as, b⟩ = ⟨.empty, n, exprs f as, b.map (members f)⟩ := by
  cases b <;> simp [constant]

theorem stmt_ifElse (l : Location) (c : Expr) (s : Stmt) (e : Option Stmt) :
    stmt f (.ifElse l c s e) = .ifElse .empty (expr f c) (stmt f s) (e.map (stmt f)) := by
  cases e <;> simp [stmt]

/-! ### Productions -/

private theorem modifiersOf_map (items : List (Modifier ⊕ Annotation)) :
    Category.modifiersOf (items.map (Sum.map id (annotationUse f))) = Category.modifiersOf items := by
  unfold Category.modifiersOf
  rw [List.filterMap_map]
  congr 1
  funext x
  cases x <;> rfl

private theorem annotationsOf_map (items : List (Modifier ⊕ Annotation)) :
    Category.annotationsOf (items.map (Sum.map id (annotationUse f))) =
      (Category.annotationsOf items).map (annotationUse f) := by
  unfold Category.annotationsOf
  rw [List.filterMap_map, List.map_filterMap]
  congr 1
  funext x
  cases x <;> rfl

private theorem map_filterMap_self {α β : Type} (g : α → β) (xs : List (Option α)) :
    (xs.filterMap fun x ↦ x).map g = (xs.map (Option.map g)).filterMap fun x ↦ x := by
  rw [List.map_filterMap, List.filterMap_map]
  rfl

private theorem getD_map {α β : Type} (g : α → β) (o : Option (List α)) :
    (o.map (List.map g)).getD [] = (o.getD []).map g := by
  cases o <;> rfl

private theorem toList_map {α β : Type} (g : α → β) (o : Option α) :
    (o.map g).toList = o.toList.map g := by
  cases o <;> rfl

private theorem type_name (t : TypeRef) : (type t).name = t.name := by
  obtain ⟨_, _, _, _⟩ := t
  rfl

private theorem type_args (t : TypeRef) : (type t).args = t.args.map type := by
  obtain ⟨_, _, _, _⟩ := t
  rw [type, types_eq]

private theorem type_dims (t : TypeRef) : (type t).dims = t.dims := by
  obtain ⟨_, _, _, _⟩ := t
  rfl

private theorem type_addDims (t : TypeRef) (n : Nat) :
    type (t.addDims n) = (type t).addDims n := by
  obtain ⟨_, _, _, _⟩ := t
  simp [type, TypeRef.addDims]

private theorem type_typeOfParts (l : Location) (parts : List (String × Option (List TypeRef))) :
    type (Category.typeOfParts l parts) =
      Category.typeOfParts .empty (parts.map (Prod.map id (Option.map types))) := by
  have hfst : (parts.map (Prod.map id (Option.map types))).map Prod.fst = parts.map Prod.fst := by
    simp
  have hsnd : (parts.map (Prod.map id (Option.map types))).filterMap Prod.snd =
      (parts.filterMap Prod.snd).map types := by
    rw [List.filterMap_map, List.map_filterMap]
    rfl
  unfold Category.typeOfParts
  rw [type, hfst, hsnd, List.getLast?_map, types_eq, getD_map]
  rfl

private theorem category_value {c : Category} (hc : c ≠ .statement) :
    ∀ p ∈ c.rules, ∀ (l : Location) (vs : Values Category.Value p.elements),
      category f c (p.value l vs) = p.value .empty (elements f p.elements vs) := by
  cases c with
  | statement => exact absurd rfl hc
  | _ =>
    simp only [Category.rules, Category.pass, Category.infixed, Category.token, Category.words,
      Category.marks, Category.primitives, Category.declare, Category.namedType, Production.value,
      Action.apply, elements, element, symbol, category.eq_def, unit, importDecl, type, types_eq,
      expr, expr?_eq, exprs_eq, expr_newObject, stmt, block, block?_eq, stmts_eq, varDecl,
      declarator, declarators_eq, setup, setups_eq, catchClause, item, items_eq, param, params_eq,
      annotationUse, annotations_eq, member, members_eq, method, constant_mk, constants_eq,
      typeDecl, modifiersOf_map, annotationsOf_map, map_filterMap_self, getD_map, toList_map,
      type_addDims, type_typeOfParts, type_name, type_args, type_dims, List.mem_cons,
      List.not_mem_nil, or_false, forall_eq, forall_eq_or_imp, implies_true, and_self, id_eq,
      Function.comp_apply, List.filterMap_map, Option.map_id, Option.isSome_map,
      List.map_id_fun, Sum.map_inr, Sum.map_inl, List.map_cons, List.map_nil, Option.map_some,
      Option.map_none, List.map_append, Prod.map_snd, Prod.map_fst, Prod.map_apply, List.map_map,
      List.map_inj_left, List.length_map]

/-- The elements of an expression statement. -/
def isExprStmt : List (Element Category) → Bool
  | .need s :: _ => s == .node (.one .statementExpr)
  | _ => false

private theorem statement_value : ∀ p ∈ Category.rules .statement, isExprStmt p.elements = false →
    ∀ (l : Location) (vs : Values Category.Value p.elements),
      category f .statement (p.value l vs) = p.value .empty (elements f p.elements vs) := by
  simp only [Category.rules, Production.value, Action.apply, elements, element, symbol,
    category.eq_def, expr?_eq, exprs_eq, stmt, stmt_ifElse, block?_eq, setups_eq, catches_eq,
    items_eq, param, annotations_eq, modifiersOf_map, annotationsOf_map, getD_map, List.mem_cons,
    List.not_mem_nil, or_false, forall_eq, forall_eq_or_imp, implies_true, and_self,
    Option.map_some, isExprStmt, beq_eq_false_iff_ne, ne_eq, Symbol.node.injEq, Head.one.injEq,
    reduceCtorEq, not_false_eq_true, BEq.rfl, Bool.true_eq_false, Prod.forall, forall_const,
    false_implies, Option.map_map, Function.comp_def]

private theorem exprStmt_value : ∀ p ∈ Category.rules .statement, isExprStmt p.elements = true →
    ∀ (l : Location), f l = .none → ∀ (vs : Values Category.Value p.elements),
      category f .statement (p.value l vs) = p.value .empty (elements f p.elements vs) := by
  repeat' refine List.forall_mem_cons.mpr ⟨fun he l hl vs ↦ ?_, ?_⟩
  all_goals
    first
    | exact List.forall_mem_nil _
    | exact absurd he Bool.false_ne_true
    | simp [Production.value, Action.apply, elements, element, symbol, category.eq_def, stmt, hl]

/-- What a production builds, rewritten, is what it builds of the rewritten parts, unless it is an
expression statement that is replaced. -/
theorem symbol_value {h : Head Category}
    {p : Production Category.Value (h.Value Category.Value)} (hp : p ∈ language.productions h)
    {l : Location}
    (hl : h = .one .statement → isExprStmt p.elements = true → f l = .none)
    (vs : Values Category.Value p.elements) :
    symbol f (.node h) (p.value l vs) = p.value .empty (elements f p.elements vs) := by
  cases h with
  | one c =>
    by_cases hc : c = .statement
    · subst hc
      cases he : isExprStmt p.elements with
      | false => exact statement_value f p hp he l vs
      | true => exact exprStmt_value f p hp he l (hl rfl he) vs
    · exact category_value f hc p hp l vs
  | run c =>
    simp only [productions, List.mem_cons, List.not_mem_nil, or_false] at hp
    rcases hp with rfl | rfl
    · rfl
    · exact List.map_append

theorem element_present (e : Element Category) (v : e.symbol.Value Category.Value) :
    element f e (e.present v) = e.present (symbol f e.symbol v) := by
  cases e <;> rfl

theorem element_absent {e : Element Category} {v : e.Value Category.Value}
    (h : e.absent? = some v) : element f e v = v := by
  cases e <;> cases h <;> rfl

end Rewrite

end GuardLint.Syntax
