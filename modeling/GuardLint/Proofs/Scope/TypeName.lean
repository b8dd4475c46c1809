import Mathlib.Data.List.Basic
import GuardLint.Syntax.Tree

/-!
# The names of types in a source file

The names by which a source file calls types where it says what something is: the classes that it
declares, and the types of variables, of what methods return, of casts and of what is made with
`new`. The names inside type arguments and annotations are not among them.
-/

namespace GuardLint.Syntax.TypeName

/-- The name of the type of a parameter, if it has one. -/
def ofParam (p : Param) : List String := p.type.toList.map TypeRef.name

mutual

/-- The names of types in an expression. -/
def ofExpr : Expr → List String
  | .literal .. | .name .. | .this _ | .super _ | .classLiteral .. | .typeMethodRef .. => []
  | .paren _ e | .field _ e _ | .methodRef _ e _ | .instanceOf _ e _ | .unary _ _ e
  | .preStep _ _ e | .postStep _ _ e => ofExpr e
  | .cast _ t e => t.name :: ofExpr e
  | .call _ t _ as => ofExpr? t ++ ofExprs as
  | .index _ a b | .binary _ _ a b | .assign _ _ a b => ofExpr a ++ ofExpr b
  | .conditional _ c a b => ofExpr c ++ ofExpr a ++ ofExpr b
  | .newObject _ t as none => t.name :: ofExprs as
  | .newObject _ t as (some ms) => t.name :: (ofExprs as ++ ofMembers ms)
  | .newArray _ t ds i => t.name :: (ofExprs ds ++ ofExpr? i)
  | .arrayInit _ es => ofExprs es
  | .lambda _ ps e => ps.flatMap ofParam ++ ofExpr e
  | .lambdaBlock _ ps b => ps.flatMap ofParam ++ ofBlock b

/-- The names of types in an expression that may be missing. -/
def ofExpr? : Option Expr → List String
  | none => []
  | some e => ofExpr e

/-- The names of types in some expressions. -/
def ofExprs : List Expr → List String
  | [] => []
  | e :: es => ofExpr e ++ ofExprs es

/-- The names of types in a statement. -/
def ofStmt : Stmt → List String
  | .block b => ofBlock b
  | .vars d => ofVars d
  | .expr _ e | .throwStmt _ e => ofExpr e
  | .ifElse _ c s none => ofExpr c ++ ofStmt s
  | .ifElse _ c s (some e) => ofExpr c ++ ofStmt s ++ ofStmt e
  | .whileLoop _ c s => ofExpr c ++ ofStmt s
  | .doLoop _ s c => ofStmt s ++ ofExpr c
  | .forLoop _ i c u s => ofSetups i ++ ofExpr? c ++ ofExprs u ++ ofStmt s
  | .forEach _ v e s => ofParam v ++ ofExpr e ++ ofStmt s
  | .returnStmt _ e => ofExpr? e
  | .breakStmt .. | .continueStmt .. | .empty _ => []
  | .tryStmt _ rs b cs f => ofSetups rs ++ ofBlock b ++ ofCatches cs ++ ofBlock? f
  | .synchronizedStmt _ e b => ofExpr e ++ ofBlock b
  | .assertStmt _ c m => ofExpr c ++ ofExpr? m
  | .switchStmt _ e is => ofExpr e ++ ofItems is
  | .labeled _ _ s => ofStmt s

/-- The names of types in a block. -/
def ofBlock : Block → List String
  | ⟨_, ss⟩ => ofStmts ss

/-- The names of types in a block that may be missing. -/
def ofBlock? : Option Block → List String
  | none => []
  | some b => ofBlock b

/-- The names of types in some statements. -/
def ofStmts : List Stmt → List String
  | [] => []
  | s :: ss => ofStmt s ++ ofStmts ss

/-- The names of types in a declaration of variables. -/
def ofVars : VarDecl → List String
  | ⟨_, t, ds, _, _⟩ => t.name :: ofDeclarators ds

/-- The names of types in the initializers of some declarators. -/
def ofDeclarators : List Declarator → List String
  | [] => []
  | ⟨_, _, _, e⟩ :: ds => ofExpr? e ++ ofDeclarators ds

/-- The names of types in what happens before the body of a `for` or `try`. -/
def ofSetups : List Setup → List String
  | [] => []
  | .vars d :: rest => ofVars d ++ ofSetups rest
  | .expr e :: rest => ofExpr e ++ ofSetups rest

/-- The names of types in some `catch` clauses. -/
def ofCatches : List CatchClause → List String
  | [] => []
  | ⟨_, ts, _, b⟩ :: cs => ts.map TypeRef.name ++ ofBlock b ++ ofCatches cs

/-- The names of types in the body of a `switch`. -/
def ofItems : List SwitchItem → List String
  | [] => []
  | .label e :: is => ofExpr? e ++ ofItems is
  | .stmt s :: is => ofStmt s ++ ofItems is

/-- The names of types in a member of a class body. -/
def ofMember : Member → List String
  | .field d => ofVars d
  | .method m => ofMethod m
  | .initializer _ b _ => ofBlock b
  | .type d => ofType d

/-- The names of types in some members. -/
def ofMembers : List Member → List String
  | [] => []
  | m :: ms => ofMember m ++ ofMembers ms

/-- The names of types in the declaration of a method. -/
def ofMethod : MethodDecl → List String
  | ⟨_, _, t, ps, b, _, _, _⟩ => t.toList.map TypeRef.name ++ ps.flatMap ofParam ++ ofBlock? b

/-- The names of types in a constant of an enum. -/
def ofConstant : EnumConstant → List String
  | ⟨_, _, as, none⟩ => ofExprs as
  | ⟨_, _, as, some ms⟩ => ofExprs as ++ ofMembers ms

/-- The names of types in some constants. -/
def ofConstants : List EnumConstant → List String
  | [] => []
  | c :: cs => ofConstant c ++ ofConstants cs

/-- The name of a declared class, and the names of types in its declaration. -/
def ofType : TypeDecl → List String
  | ⟨_, _, n, ms, _, _, cs, _⟩ => n :: (ofConstants cs ++ ofMembers ms)

end

/-- The name of a type that an import declaration supplies, if it supplies one. -/
def ofImport (i : ImportDecl) : List String := if i.isStatic || i.onDemand then [] else [i.name]

/-- The names of types in a source file: its package, the types that it imports one by one, and the
types that it declares and mentions. -/
def ofUnit (unit : CompilationUnit) : List String :=
  unit.package.toList ++ unit.imports.flatMap ofImport ++ unit.types.flatMap ofType

/-! ### Lists and parts that may be missing -/

theorem ofExpr?_eq (e : Option Expr) : ofExpr? e = e.toList.flatMap ofExpr := by
  cases e <;> simp [ofExpr?]

theorem ofExprs_eq (es : List Expr) : ofExprs es = es.flatMap ofExpr := by
  induction es with
  | nil => rw [ofExprs, List.flatMap_nil]
  | cons e es ih => rw [ofExprs, ih, List.flatMap_cons]

theorem ofDeclarators_eq (ds : List Declarator) :
    ofDeclarators ds = ds.flatMap fun d ↦ ofExpr? d.init := by
  induction ds with
  | nil => rw [ofDeclarators, List.flatMap_nil]
  | cons d ds ih =>
    obtain ⟨_, _, _, _⟩ := d
    rw [ofDeclarators, ih, List.flatMap_cons]

theorem ofMembers_eq (ms : List Member) : ofMembers ms = ms.flatMap ofMember := by
  induction ms with
  | nil => rw [ofMembers, List.flatMap_nil]
  | cons m ms ih => rw [ofMembers, ih, List.flatMap_cons]

/-- The names in the initializer of a variable are names in its declaration. -/
theorem mem_ofVars {d : VarDecl} {v : Declarator} (hv : v ∈ d.declarators) {e : Expr}
    (he : e ∈ v.init) {n : String} (hn : n ∈ ofExpr e) : n ∈ ofVars d := by
  obtain ⟨_, _, ds, _, _⟩ := d
  rw [ofVars, ofDeclarators_eq]
  refine List.mem_cons_of_mem _ (List.mem_flatMap.mpr ⟨v, hv, ?_⟩)
  rw [Option.mem_def.mp he]
  exact hn

theorem type_mem_ofVars (d : VarDecl) : d.type.name ∈ ofVars d := by
  obtain ⟨_, _, _, _, _⟩ := d
  exact List.mem_cons_self

theorem name_mem_ofType (d : TypeDecl) : d.name ∈ ofType d := by
  obtain ⟨_, _, _, _, _, _, _, _⟩ := d
  exact List.mem_cons_self

/-- The names in a member of a class are names in its declaration. -/
theorem mem_ofType {d : TypeDecl} {m : Member} (hm : m ∈ d.members) {n : String}
    (hn : n ∈ ofMember m) : n ∈ ofType d := by
  obtain ⟨_, _, _, ms, _, _, _, _⟩ := d
  rw [ofType, ofMembers_eq]
  exact List.mem_cons_of_mem _ (List.mem_append_right _ (List.mem_flatMap.mpr ⟨m, hm, hn⟩))

end GuardLint.Syntax.TypeName
