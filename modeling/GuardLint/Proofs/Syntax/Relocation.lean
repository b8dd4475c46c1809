import Mathlib.Data.List.Basic
import GuardLint.Proofs.Grammar.Conversion
import GuardLint.Syntax.Start

/-!
# Trees at other places

A tree with every location exchanged for another one. What is read from tokens that stand elsewhere
is what was read from them before, relocated.
-/

namespace GuardLint.Syntax

open Grammar

/-- Where what stood at a location stands instead. -/
abbrev Relocation := Location → Location

namespace Relocation

variable (g : Relocation)

/-- A token, relocated. -/
def token (t : Token) : Token := { t with location := g t.location }

mutual

/-- A type, relocated. -/
def type : TypeRef → TypeRef
  | ⟨n, as, d, l⟩ => ⟨n, types as, d, l.map g⟩

/-- Types, relocated. -/
def types : List TypeRef → List TypeRef
  | [] => []
  | t :: ts => type t :: types ts

end

mutual

/-- An expression, relocated. -/
def expr : Expr → Expr
  | .literal l k s => .literal (g l) k s
  | .name l n => .name (g l) n
  | .this l => .this (g l)
  | .super l => .super (g l)
  | .paren l e => .paren (g l) (expr e)
  | .field l e n => .field (g l) (expr e) n
  | .call l t n as => .call (g l) (expr? t) n (exprs as)
  | .index l a b => .index (g l) (expr a) (expr b)
  | .newObject l t as none => .newObject (g l) (type g t) (exprs as) none
  | .newObject l t as (some ms) => .newObject (g l) (type g t) (exprs as) (some (members ms))
  | .newArray l t ds i => .newArray (g l) (type g t) (exprs ds) (expr? i)
  | .arrayInit l es => .arrayInit (g l) (exprs es)
  | .classLiteral l t => .classLiteral (g l) (type g t)
  | .methodRef l e n => .methodRef (g l) (expr e) n
  | .typeMethodRef l t n => .typeMethodRef (g l) (type g t) n
  | .binary l op a b => .binary (g l) op (expr a) (expr b)
  | .instanceOf l e t => .instanceOf (g l) (expr e) (type g t)
  | .unary l op e => .unary (g l) op (expr e)
  | .preStep l op e => .preStep (g l) op (expr e)
  | .postStep l op e => .postStep (g l) op (expr e)
  | .assign l op a b => .assign (g l) op (expr a) (expr b)
  | .conditional l c a b => .conditional (g l) (expr c) (expr a) (expr b)
  | .cast l t e => .cast (g l) (type g t) (expr e)
  | .lambda l ps e => .lambda (g l) (params ps) (expr e)
  | .lambdaBlock l ps b => .lambdaBlock (g l) (params ps) (block b)

/-- An expression that may be missing, relocated. -/
def expr? : Option Expr → Option Expr
  | none => none
  | some e => some (expr e)

/-- Expressions, relocated. -/
def exprs : List Expr → List Expr
  | [] => []
  | e :: es => expr e :: exprs es

/-- A statement, relocated. -/
def stmt : Stmt → Stmt
  | .block b => .block (block b)
  | .vars d => .vars (varDecl d)
  | .expr l e => .expr (g l) (expr e)
  | .ifElse l c s none => .ifElse (g l) (expr c) (stmt s) none
  | .ifElse l c s (some e) => .ifElse (g l) (expr c) (stmt s) (some (stmt e))
  | .whileLoop l c s => .whileLoop (g l) (expr c) (stmt s)
  | .doLoop l s c => .doLoop (g l) (stmt s) (expr c)
  | .forLoop l i c u s => .forLoop (g l) (setups i) (expr? c) (exprs u) (stmt s)
  | .forEach l v e s => .forEach (g l) (param v) (expr e) (stmt s)
  | .returnStmt l e => .returnStmt (g l) (expr? e)
  | .throwStmt l e => .throwStmt (g l) (expr e)
  | .breakStmt l n => .breakStmt (g l) n
  | .continueStmt l n => .continueStmt (g l) n
  | .tryStmt l rs b cs f => .tryStmt (g l) (setups rs) (block b) (catches cs) (block? f)
  | .synchronizedStmt l e b => .synchronizedStmt (g l) (expr e) (block b)
  | .assertStmt l c m => .assertStmt (g l) (expr c) (expr? m)
  | .switchStmt l e is => .switchStmt (g l) (expr e) (items is)
  | .labeled l n s => .labeled (g l) n (stmt s)
  | .empty l => .empty (g l)

/-- A block, relocated. -/
def block : Block → Block
  | ⟨l, ss⟩ => ⟨g l, stmts ss⟩

/-- A block that may be missing, relocated. -/
def block? : Option Block → Option Block
  | none => none
  | some b => some (block b)

/-- Statements, relocated. -/
def stmts : List Stmt → List Stmt
  | [] => []
  | s :: ss => stmt s :: stmts ss

/-- A declaration of variables, relocated. -/
def varDecl : VarDecl → VarDecl
  | ⟨l, t, ds, ms, as⟩ => ⟨g l, type g t, declarators ds, ms, annotations as⟩

/-- A declarator, relocated. -/
def declarator : Declarator → Declarator
  | ⟨l, n, d, e⟩ => ⟨g l, n, d, expr? e⟩

/-- Declarators, relocated. -/
def declarators : List Declarator → List Declarator
  | [] => []
  | d :: ds => declarator d :: declarators ds

/-- A declaration or expression before a body, relocated. -/
def setup : Setup → Setup
  | .vars d => .vars (varDecl d)
  | .expr e => .expr (expr e)

/-- What happens before a body, relocated. -/
def setups : List Setup → List Setup
  | [] => []
  | s :: ss => setup s :: setups ss

/-- A `catch` clause, relocated. -/
def catchClause : CatchClause → CatchClause
  | ⟨l, ts, n, b⟩ => ⟨g l, types g ts, n, block b⟩

/-- `catch` clauses, relocated. -/
def catches : List CatchClause → List CatchClause
  | [] => []
  | c :: cs => catchClause c :: catches cs

/-- An item of a `switch`, relocated. -/
def item : SwitchItem → SwitchItem
  | .label e => .label (expr? e)
  | .stmt s => .stmt (stmt s)

/-- The body of a `switch`, relocated. -/
def items : List SwitchItem → List SwitchItem
  | [] => []
  | i :: is => item i :: items is

/-- A parameter, relocated. -/
def param : Param → Param
  | ⟨l, n, t, ms, as, v⟩ => ⟨g l, n, t.map (type g), ms, annotations as, v⟩

/-- Parameters, relocated. -/
def params : List Param → List Param
  | [] => []
  | p :: ps => param p :: params ps

/-- An annotation, relocated. -/
def annotationUse : Annotation → Annotation
  | ⟨l, n, es⟩ => ⟨g l, n, exprs es⟩

/-- Annotations, relocated. -/
def annotations : List Annotation → List Annotation
  | [] => []
  | a :: as => annotationUse a :: annotations as

/-- A member of a class, relocated. -/
def member : Member → Member
  | .field d => .field (varDecl d)
  | .method m => .method (method m)
  | .initializer l b s => .initializer (g l) (block b) s
  | .type d => .type (typeDecl d)

/-- The members of a class, relocated. -/
def members : List Member → List Member
  | [] => []
  | m :: ms => member m :: members ms

/-- The declaration of a method, relocated. -/
def method : MethodDecl → MethodDecl
  | ⟨l, n, t, ps, b, ms, as, c⟩ =>
    ⟨g l, n, t.map (type g), params ps, block? b, ms, annotations as, c⟩

/-- A constant of an enum, relocated. -/
def constant : EnumConstant → EnumConstant
  | ⟨l, n, as, none⟩ => ⟨g l, n, exprs as, none⟩
  | ⟨l, n, as, some ms⟩ => ⟨g l, n, exprs as, some (members ms)⟩

/-- The constants of an enum, relocated. -/
def constants : List EnumConstant → List EnumConstant
  | [] => []
  | c :: cs => constant c :: constants cs

/-- A declared class, relocated. -/
def typeDecl : TypeDecl → TypeDecl
  | ⟨l, k, n, ms, mods, as, cs, ts⟩ =>
    ⟨g l, k, n, members ms, mods, annotations as, constants cs, types g ts⟩

end

/-- An import declaration, relocated. -/
def importDecl (d : ImportDecl) : ImportDecl := { d with location := g d.location }

/-- A source file, relocated. -/
def unit (u : CompilationUnit) : CompilationUnit :=
  ⟨g u.location, u.package, u.imports.map (importDecl g), u.types.map (typeDecl g)⟩

/-! ### Lists and parts that may be missing -/

private theorem eq_map {α : Type} {f : α → α} {fs : List α → List α} (hn : fs [] = [])
    (hc : ∀ x xs, fs (x :: xs) = f x :: fs xs) : fs = List.map f := by
  funext xs
  induction xs with
  | nil => exact hn
  | cons x xs ih => rw [hc, ih, List.map_cons]

theorem types_eq : types g = List.map (type g) := eq_map (by rw [types]) fun t ts ↦ by rw [types]

theorem exprs_eq : exprs g = List.map (expr g) := eq_map (by rw [exprs]) fun e es ↦ by rw [exprs]

theorem expr?_eq : expr? g = Option.map (expr g) := by
  funext e
  cases e <;> rw [expr?] <;> rfl

theorem stmts_eq : stmts g = List.map (stmt g) := eq_map (by rw [stmts]) fun s ss ↦ by rw [stmts]

theorem block?_eq : block? g = Option.map (block g) := by
  funext b
  cases b <;> rw [block?] <;> rfl

theorem declarators_eq : declarators g = List.map (declarator g) :=
  eq_map (by rw [declarators]) fun d ds ↦ by rw [declarators]

theorem setups_eq : setups g = List.map (setup g) :=
  eq_map (by rw [setups]) fun s ss ↦ by rw [setups]

theorem catches_eq : catches g = List.map (catchClause g) :=
  eq_map (by rw [catches]) fun c cs ↦ by rw [catches]

theorem items_eq : items g = List.map (item g) := eq_map (by rw [items]) fun i is ↦ by rw [items]

theorem params_eq : params g = List.map (param g) :=
  eq_map (by rw [params]) fun p ps ↦ by rw [params]

theorem annotations_eq : annotations g = List.map (annotationUse g) :=
  eq_map (by rw [annotations]) fun a as ↦ by rw [annotations]

theorem members_eq : members g = List.map (member g) :=
  eq_map (by rw [members]) fun m ms ↦ by rw [members]

theorem constants_eq : constants g = List.map (constant g) :=
  eq_map (by rw [constants]) fun c cs ↦ by rw [constants]

theorem expr_newObject (l : Location) (t : TypeRef) (as : List Expr) (b : Option (List Member)) :
    expr g (.newObject l t as b) =
      .newObject (g l) (type g t) (exprs g as) (b.map (members g)) := by
  cases b <;> simp [expr]

theorem constant_mk (l : Location) (n : String) (as : List Expr) (b : Option (List Member)) :
    constant g ⟨l, n, as, b⟩ = ⟨g l, n, exprs g as, b.map (members g)⟩ := by
  cases b <;> simp [constant]

theorem stmt_ifElse (l : Location) (c : Expr) (s : Stmt) (e : Option Stmt) :
    stmt g (.ifElse l c s e) = .ifElse (g l) (expr g c) (stmt g s) (e.map (stmt g)) := by
  cases e <;> simp [stmt]

@[simp] theorem type_name (t : TypeRef) : (type g t).name = t.name := by
  obtain ⟨_, _, _, _⟩ := t
  rfl

@[simp] theorem type_dims (t : TypeRef) : (type g t).dims = t.dims := by
  obtain ⟨_, _, _, _⟩ := t
  rfl

private theorem type_args (t : TypeRef) : (type g t).args = t.args.map (type g) := by
  obtain ⟨_, _, _, _⟩ := t
  rw [type, types_eq]

theorem type_addDims (t : TypeRef) (n : Nat) : type g (t.addDims n) = (type g t).addDims n := by
  obtain ⟨_, _, _, _⟩ := t
  simp [type, TypeRef.addDims]

@[simp] theorem expr_location (e : Expr) : (expr g e).location = g e.location := by
  cases e with
  | newObject l t as b => cases b <;> simp [expr, Expr.location]
  | _ => simp [expr, Expr.location]

@[simp] theorem annotationUse_simpleName (a : Annotation) :
    (annotationUse g a).simpleName = a.simpleName := by
  obtain ⟨_, _, _⟩ := a
  simp [annotationUse, Annotation.simpleName]

private theorem declarator_mk (d : Declarator) :
    declarator g d = ⟨g d.location, d.name, d.dims, d.init.map (expr g)⟩ := by
  obtain ⟨_, _, _, _⟩ := d
  rw [declarator, expr?_eq]

@[simp] theorem declarator_name (d : Declarator) : (declarator g d).name = d.name := by
  rw [declarator_mk]

@[simp] theorem declarator_dims (d : Declarator) : (declarator g d).dims = d.dims := by
  rw [declarator_mk]

@[simp] theorem declarator_init (d : Declarator) : (declarator g d).init = d.init.map (expr g) := by
  rw [declarator_mk]

private theorem typeDecl_mk (d : TypeDecl) :
    typeDecl g d =
      ⟨g d.location, d.kind, d.name, d.members.map (member g), d.modifiers,
        d.annotations.map (annotationUse g), d.constants.map (constant g),
        d.supertypes.map (type g)⟩ := by
  obtain ⟨_, _, _, _, _, _, _, _⟩ := d
  rw [typeDecl, members_eq, annotations_eq, constants_eq, types_eq]

@[simp] theorem typeDecl_name (d : TypeDecl) : (typeDecl g d).name = d.name := by
  rw [typeDecl_mk]

@[simp] theorem typeDecl_kind (d : TypeDecl) : (typeDecl g d).kind = d.kind := by
  rw [typeDecl_mk]

@[simp] theorem typeDecl_members (d : TypeDecl) :
    (typeDecl g d).members = d.members.map (member g) := by
  rw [typeDecl_mk]

@[simp] theorem typeDecl_constants (d : TypeDecl) :
    (typeDecl g d).constants = d.constants.map (constant g) := by
  rw [typeDecl_mk]

@[simp] theorem typeDecl_annotations (d : TypeDecl) :
    (typeDecl g d).annotations = d.annotations.map (annotationUse g) := by
  rw [typeDecl_mk]

@[simp] theorem typeDecl_supertypes (d : TypeDecl) :
    (typeDecl g d).supertypes = d.supertypes.map (type g) := by
  rw [typeDecl_mk]

private theorem method_mk (m : MethodDecl) :
    method g m =
      ⟨g m.location, m.name, m.returnType.map (type g), m.params.map (param g),
        m.body.map (block g), m.modifiers, m.annotations.map (annotationUse g),
        m.isConstructor⟩ := by
  obtain ⟨_, _, _, _, _, _, _, _⟩ := m
  rw [method, params_eq, block?_eq, annotations_eq]

@[simp] theorem method_name (m : MethodDecl) : (method g m).name = m.name := by
  rw [method_mk]

@[simp] theorem method_isConstructor (m : MethodDecl) :
    (method g m).isConstructor = m.isConstructor := by
  rw [method_mk]

@[simp] theorem method_returnType (m : MethodDecl) :
    (method g m).returnType = m.returnType.map (type g) := by
  rw [method_mk]

@[simp] theorem method_params (m : MethodDecl) : (method g m).params = m.params.map (param g) := by
  rw [method_mk]

@[simp] theorem method_annotations (m : MethodDecl) :
    (method g m).annotations = m.annotations.map (annotationUse g) := by
  rw [method_mk]

@[simp] theorem param_varargs (p : Param) : (param g p).varargs = p.varargs := by
  obtain ⟨_, _, _, _, _, _⟩ := p
  simp [param]

/-! ### Productions -/

/-- A value of a category, relocated. -/
def category : (c : Category) → c.Value → c.Value
  | .compilationUnit => unit g
  | .importDecl => importDecl g
  | .modifierItem => Sum.map id (annotationUse g)
  | .annotationUse => annotationUse g
  | .annotationArgs | .elementValues | .varInits | .statementExprs | .arguments | .exprs =>
    exprs g
  | .elementPair | .commaElementPair | .elementValue | .commaElementValue => Option.map (expr g)
  | .elementArray | .initPart | .varInit | .commaVarInit | .arrayInit | .commaStatementExpr
  | .assertMessage | .statementExpr | .expr | .assignment | .assign | .assignTarget | .lambda
  | .conditional | .logicOr | .logicAnd | .bitOr | .bitXor | .bitAnd | .equality | .relational
  | .shift | .additive | .multiplicative | .unary | .unsignedUnary | .preStep | .cast
  | .postfixExpr | .postStep | .primary | .paren | .thisRef | .superRef | .name | .fieldAccess
  | .methodCall | .arrayAccess | .newObject | .newArray | .dimExpr | .classLiteral | .methodRef
  | .commaExpr | .literal => expr g
  | .typeDecl => Option.map (typeDecl g)
  | .classDecl | .interfaceDecl | .enumDecl => typeDecl g
  | .superclass | .commaType | .resultType | .type | .bareType | .primitiveType | .classType
  | .typeArg | .commaTypeArg | .wildcard | .furtherCatchType => type g
  | .interfaces | .superinterfaces | .typeList | .typeArgs | .typeArgList | .catchType => types g
  | .classBody | .enumMembers => members g
  | .enumBody => Prod.map (constants g) (members g)
  | .enumConstants => constants g
  | .enumConstant | .commaEnumConstant => constant g
  | .member => Option.map (member g)
  | .fieldDecl | .localVars => varDecl g
  | .methodDecl | .constructorDecl => method g
  | .methodBody => block? g
  | .initializer => member g
  | .formalParams | .formalParamList | .lambdaParams | .lambdaParamList => params g
  | .formalParam | .commaFormalParam | .lambdaParam | .commaLambdaParam => param g
  | .declarators => declarators g
  | .declarator | .commaDeclarator => declarator g
  | .classTypePart | .dotTypePart => Prod.map id (Option.map (types g))
  | .block | .finallyClause => block g
  | .blockStmt | .statement | .elsePart => stmt g
  | .forInit | .resources => setups g
  | .resource | .furtherResource => setup g
  | .catchClause => catchClause g
  | .switchBody => items g
  | .switchLabel | .switchItem => item g
  | _ => id

private theorem modifiersOf_map (items : List (Modifier ⊕ Annotation)) :
    Category.modifiersOf (items.map (Sum.map id (annotationUse g))) = Category.modifiersOf items := by
  unfold Category.modifiersOf
  rw [List.filterMap_map]
  congr 1
  funext x
  cases x <;> rfl

private theorem annotationsOf_map (items : List (Modifier ⊕ Annotation)) :
    Category.annotationsOf (items.map (Sum.map id (annotationUse g))) =
      (Category.annotationsOf items).map (annotationUse g) := by
  unfold Category.annotationsOf
  rw [List.filterMap_map, List.map_filterMap]
  congr 1
  funext x
  cases x <;> rfl

private theorem map_filterMap_self {α β : Type} (f : α → β) (xs : List (Option α)) :
    (xs.filterMap fun x ↦ x).map f = (xs.map (Option.map f)).filterMap fun x ↦ x := by
  rw [List.map_filterMap, List.filterMap_map]
  rfl

private theorem getD_map {α β : Type} (f : α → β) (o : Option (List α)) :
    (o.map (List.map f)).getD [] = (o.getD []).map f := by
  cases o <;> rfl

private theorem toList_map {α β : Type} (f : α → β) (o : Option α) :
    (o.map f).toList = o.toList.map f := by
  cases o <;> rfl

private theorem type_typeOfParts (l : Location) (parts : List (String × Option (List TypeRef))) :
    type g (Category.typeOfParts l parts) =
      Category.typeOfParts (g l) (parts.map (Prod.map id (Option.map (types g)))) := by
  have hfst : (parts.map (Prod.map id (Option.map (types g)))).map Prod.fst =
      parts.map Prod.fst := by
    simp
  have hsnd : (parts.map (Prod.map id (Option.map (types g)))).filterMap Prod.snd =
      (parts.filterMap Prod.snd).map (types g) := by
    rw [List.filterMap_map, List.map_filterMap]
    rfl
  unfold Category.typeOfParts
  rw [type, hfst, hsnd, List.getLast?_map, types_eq, getD_map]
  rfl

private theorem category_value (c : Category) :
    ∀ p ∈ c.rules, ∀ (l : Location) (vs : Values Category.Value p.elements),
      category g c (p.value l vs) =
        p.value (g l) (convert (category g) (token g) p.elements vs) := by
  cases c with
  | _ =>
    simp only [Category.rules, Category.pass, Category.infixed, Category.token, Category.words,
      Category.marks, Category.primitives, Category.declare, Category.namedType, Production.value,
      Action.apply, convert, Element.convert, Symbol.convert, category.eq_def, unit, importDecl,
      type, types_eq, expr, expr?_eq, exprs_eq, expr_newObject, stmt, stmt_ifElse, block, block?_eq,
      stmts_eq, varDecl, declarator, declarators_eq, setup, setups_eq, catchClause, catches_eq,
      item, items_eq, param, params_eq, annotationUse, annotations_eq, member, members_eq, method,
      constant_mk, constants_eq, typeDecl, token, modifiersOf_map, annotationsOf_map,
      map_filterMap_self, getD_map, toList_map, type_addDims, type_typeOfParts, type_name,
      type_args, type_dims, List.mem_cons, List.not_mem_nil, or_false, forall_eq, forall_eq_or_imp,
      implies_true, and_self, id_eq, List.filterMap_map, Option.map_id,
      Option.isSome_map, List.map_id_fun, Sum.map_inr, Sum.map_inl, List.map_cons, List.map_nil,
      Option.map_some, Option.map_none, List.map_append, Prod.map_snd, Prod.map_fst,
      Prod.map_apply, List.map_map, List.length_map, Option.map_map,
      Function.comp_def]

/-- Relocation converts what the grammar of the language reads. -/
theorem converts : Converts language (category g) (token g) g where
  kind _ := rfl
  value c p hp l vs := category_value g c p hp l vs

end Relocation

end GuardLint.Syntax
