import GuardLint.Scope.UnitIndex

/-!
# Call sites

Every method call of a source file, in the order of the text, with what can be named there. A walk
goes down the tree with the scope of the place it has reached. A declaration of locals extends the
scope of the statements after it in the same block; nothing else leaves a trace in the scope that
follows.

Classes that carry one of the annotations to skip are passed over, and the walk says so.
-/

namespace GuardLint

open Syntax

/-- A method call of the text; without a target it names a method in scope. -/
structure Call where
  location : Location
  target : Option Expr
  name : String
  args : List Expr

/-- A call and what there is to know about its place. `statement` is where the expression statement
stands that consists of the call alone; `beforeElse` says that this statement ends right before
the `else` of an `if` around it. -/
structure CallSite where
  call : Call
  statement : Option Location
  beforeElse : Bool
  scope : Scope
  enclosing : Nest
  method : Option MethodDecl

/-- What a walk meets: a call, or a class that it passes over. -/
inductive Encounter where
  | call (site : CallSite)
  | skipped (className : String)

namespace Encounter

/-- The call that was met, if it was one. -/
def site? : Encounter → Option CallSite
  | .call site => some site
  | .skipped _ => none

/-- The class that was passed over, if it was one. -/
def skipped? : Encounter → Option String
  | .call _ => none
  | .skipped name => some name

end Encounter

/-- A part of a walk: from the number of anonymous classes met before it, the number met after it
and what it met itself. -/
def Walk := Nat → Nat × List Encounter

namespace Walk

/-- The walk that meets nothing. -/
def nothing : Walk := fun n => (n, [])

/-- The walk that meets one thing. -/
def meet (e : Encounter) : Walk := fun n => (n, [e])

/-- One walk after another. -/
def andThen (a b : Walk) : Walk := fun n =>
  let (m, xs) := a n
  let (k, ys) := b m
  (k, xs ++ ys)

instance : Append Walk := ⟨andThen⟩

/-- A walk through one more anonymous class, which is given its number. -/
def numbered (f : Nat → Walk) : Walk := fun n => f (n + 1) (n + 1)

end Walk

/-- Where a walk is: the annotations to skip, the scope, the classes around and the method. -/
structure Place where
  skip : List String
  scope : Scope
  enclosing : Nest
  method : Option MethodDecl

namespace Place

/-- A place with more variables in scope. -/
def bind (p : Place) (vars : List Variable) : Place := { p with scope := p.scope.bind vars }

/-- The place after a statement of a block. -/
def after (p : Place) : Stmt → Place
  | .vars d => p.bind (Variable.ofLocals d)
  | _ => p

/-- The place after one of the things before the body of a `for` or `try`. -/
def afterSetup (p : Place) : Setup → Place
  | .vars d => p.bind (Variable.ofLocals d)
  | .expr _ => p

/-- The place after all of the things before the body of a `for` or `try`. -/
def afterSetups (p : Place) (setups : List Setup) : Place := setups.foldl afterSetup p

/-- The place after an item of the body of a `switch`. -/
def afterItem (p : Place) : SwitchItem → Place
  | .label _ => p
  | .stmt s => p.after s

/-- The place in the body of an anonymous class, which is named by its number. -/
def anonymous (p : Place) (location : Location) (members : List Member)
    (supertype : Option TypeRef) (number : Nat) : Place :=
  let info := ClassInfo.anonymous location members supertype
    (p.enclosing.inner.fullName ++ "$" ++ toString number)
  { p with
    scope := p.scope.bind info.fields
    enclosing := p.enclosing.push info
    method := none }

/-- The place in the body of a declared class, where only the fields of the classes around it are in
scope. -/
def ofClass (skip : List String) (n : Nest) : Place := ⟨skip, n.fieldScope, n, none⟩

/-- The place at the start of the body of a method. -/
def inMethod (p : Place) (m : MethodDecl) : Place :=
  { p with scope := p.scope.bind (m.params.map Variable.ofParam), method := some m }

/-- The site of a call at a place. -/
def site (p : Place) (call : Call) (statement : Option Location) (beforeElse : Bool) : CallSite :=
  ⟨call, statement, beforeElse, p.scope, p.enclosing, p.method⟩

end Place

namespace Walk

mutual

/-- The walk through an expression. -/
def ofExpr (p : Place) : Expr → Walk
  | .literal .. | .name .. | .this _ | .super _ | .classLiteral .. | .typeMethodRef .. => nothing
  | .paren _ e | .field _ e _ | .methodRef _ e _ | .instanceOf _ e _ | .unary _ _ e
  | .preStep _ _ e | .postStep _ _ e | .cast _ _ e => ofExpr p e
  | .call l t n as =>
    meet (.call (p.site ⟨l, t, n, as⟩ none false)) ++ ofExpr? p t ++ ofExprs p as
  | .index _ a b | .binary _ _ a b | .assign _ _ a b => ofExpr p a ++ ofExpr p b
  | .conditional _ c a b => ofExpr p c ++ ofExpr p a ++ ofExpr p b
  | .newObject _ _ as none => ofExprs p as
  | .newObject l t as (some ms) =>
    ofExprs p as ++ numbered fun k => ofMembers (p.anonymous l ms (some t) k) ms
  | .newArray _ _ ds i => ofExprs p ds ++ ofExpr? p i
  | .arrayInit _ es => ofExprs p es
  | .lambda _ ps e => ofExpr (p.bind (ps.map Variable.ofParam)) e
  | .lambdaBlock _ ps b => ofBlock (p.bind (ps.map Variable.ofParam)) b

/-- The walk through an expression that may be missing. -/
def ofExpr? (p : Place) : Option Expr → Walk
  | none => nothing
  | some e => ofExpr p e

/-- The walk through expressions, one after the other. -/
def ofExprs (p : Place) : List Expr → Walk
  | [] => nothing
  | e :: es => ofExpr p e ++ ofExprs p es

/-- The walk through a statement; `beforeElse` says that the statement ends right before the `else`
of an `if` around it. -/
def ofStmt (p : Place) (beforeElse : Bool) : Stmt → Walk
  | .block b => ofBlock p b
  | .vars d => ofVars (p.bind (Variable.ofLocals d)) d
  | .expr l (.call cl t n as) =>
    meet (.call (p.site ⟨cl, t, n, as⟩ (some l) beforeElse)) ++ ofExpr? p t ++ ofExprs p as
  | .expr _ e => ofExpr p e
  | .ifElse _ c s none => ofExpr p c ++ ofStmt p beforeElse s
  | .ifElse _ c s (some e) => ofExpr p c ++ ofStmt p true s ++ ofStmt p beforeElse e
  | .whileLoop _ c s => ofExpr p c ++ ofStmt p beforeElse s
  | .doLoop _ s c => ofStmt p false s ++ ofExpr p c
  | .forLoop _ i c u s =>
    let q := p.afterSetups i
    ofSetups p i ++ ofExpr? q c ++ ofExprs q u ++ ofStmt q beforeElse s
  | .forEach _ v e s => ofExpr p e ++ ofStmt (p.bind [Variable.ofParam v]) beforeElse s
  | .returnStmt _ e => ofExpr? p e
  | .throwStmt _ e => ofExpr p e
  | .breakStmt .. | .continueStmt .. | .empty _ => nothing
  | .tryStmt _ rs b cs f =>
    ofSetups p rs ++ ofBlock (p.afterSetups rs) b ++ ofCatches p cs ++ ofBlock? p f
  | .synchronizedStmt _ e b => ofExpr p e ++ ofBlock p b
  | .assertStmt _ c m => ofExpr p c ++ ofExpr? p m
  | .switchStmt _ e is => ofExpr p e ++ ofItems p is
  | .labeled _ _ s => ofStmt p beforeElse s

/-- The walk through a block. -/
def ofBlock (p : Place) : Block → Walk
  | ⟨_, stmts⟩ => ofStmts p stmts

/-- The walk through a block that may be missing. -/
def ofBlock? (p : Place) : Option Block → Walk
  | none => nothing
  | some b => ofBlock p b

/-- The walk through the statements of a block, each in the scope that those before it leave. -/
def ofStmts (p : Place) : List Stmt → Walk
  | [] => nothing
  | s :: ss => ofStmt p false s ++ ofStmts (p.after s) ss

/-- The walk through the initializers of a declaration. -/
def ofVars (p : Place) : VarDecl → Walk
  | ⟨_, _, ds, _, _⟩ => ofDeclarators p ds

/-- The walk through the initializers of declarators. -/
def ofDeclarators (p : Place) : List Declarator → Walk
  | [] => nothing
  | ⟨_, _, _, e⟩ :: ds => ofExpr? p e ++ ofDeclarators p ds

/-- The walk through what happens before the body of a `for` or `try`. -/
def ofSetups (p : Place) : List Setup → Walk
  | [] => nothing
  | .vars d :: rest =>
    let q := p.bind (Variable.ofLocals d)
    ofVars q d ++ ofSetups q rest
  | .expr e :: rest => ofExpr p e ++ ofSetups p rest

/-- The walk through `catch` clauses. -/
def ofCatches (p : Place) : List CatchClause → Walk
  | [] => nothing
  | ⟨l, ts, n, b⟩ :: cs => ofBlock (p.bind [Variable.ofCatch ⟨l, ts, n, b⟩]) b ++ ofCatches p cs

/-- The walk through the body of a `switch`, each item in the scope that those before it leave. -/
def ofItems (p : Place) : List SwitchItem → Walk
  | [] => nothing
  | .label e :: is => ofExpr? p e ++ ofItems p is
  | .stmt s :: is => ofStmt p false s ++ ofItems (p.after s) is

/-- The walk through the members of a class body, each in the scope of the body. -/
def ofMembers (p : Place) : List Member → Walk
  | [] => nothing
  | .field d :: ms => ofVars { p with method := none } d ++ ofMembers p ms
  | .method m :: ms => ofMethod p m ++ ofMembers p ms
  | .initializer _ b _ :: ms => ofBlock { p with method := none } b ++ ofMembers p ms
  | .type d :: ms => ofType p.skip (p.enclosing.member d) d ++ ofMembers p ms

/-- The walk through the body of a method. -/
def ofMethod (p : Place) : MethodDecl → Walk
  | ⟨l, n, r, ps, b, ms, as, c⟩ => ofBlock? (p.inMethod ⟨l, n, r, ps, b, ms, as, c⟩) b

/-- The walk through the constants of an enum. -/
def ofConstants (p : Place) : List EnumConstant → Walk
  | [] => nothing
  | ⟨_, _, as, none⟩ :: cs => ofExprs p as ++ ofConstants p cs
  | ⟨l, _, as, some ms⟩ :: cs =>
    ofExprs p as ++ (numbered fun k => ofMembers (p.anonymous l ms none k) ms) ++ ofConstants p cs

/-- The walk through a declared class, unless it carries an annotation to skip. -/
def ofType (skip : List String) (n : Nest) : TypeDecl → Walk
  | ⟨_, _, _, members, _, _, constants, _⟩ =>
    if n.inner.annotatedWith skip then meet (.skipped n.inner.fullName)
    else ofConstants (.ofClass skip n) constants ++ ofMembers (.ofClass skip n) members

end

end Walk

namespace CallSite

/-- What a walk through a source file meets, in the order of the text. -/
def encounters (unit : CompilationUnit) (skip : List String) : List Encounter :=
  let walks := unit.types.map fun d => Walk.ofType skip (UnitIndex.topLevel unit.package d) d
  (walks.foldr (· ++ ·) Walk.nothing 0).2

/-- The call sites of a source file, in the order of the text. -/
def ofUnit (unit : CompilationUnit) (skip : List String) : List CallSite :=
  (encounters unit skip).filterMap Encounter.site?

end CallSite

end GuardLint
