import GuardLint.Scope.CallSite

/-!
# Occurrences of calls

The calls of a tree in the order of the text, each with the expression statement that consists of
it alone, if there is one. A walk meets the same calls, except in the classes that it passes over,
and adds to each what is in scope there.
-/

namespace GuardLint

open Syntax

/-- A call of a tree. `statement` is where the expression statement stands that consists of the
call alone; `beforeElse` says that the tree has an `else` right after this statement. -/
structure Occurrence where
  call : Call
  statement : Option Location
  beforeElse : Bool

/-- The occurrence that a site is about. -/
def CallSite.occurrence (s : CallSite) : Occurrence := ⟨s.call, s.statement, s.beforeElse⟩

namespace Occurrence

mutual

/-- The calls in an expression. -/
def ofExpr : Expr → List Occurrence
  | .literal .. | .name .. | .this _ | .super _ | .classLiteral .. | .typeMethodRef .. => []
  | .paren _ e | .field _ e _ | .methodRef _ e _ | .instanceOf _ e _ | .unary _ _ e
  | .preStep _ _ e | .postStep _ _ e | .cast _ _ e => ofExpr e
  | .call l t n as => ⟨⟨l, t, n, as⟩, none, false⟩ :: (ofExpr? t ++ ofExprs as)
  | .index _ a b | .binary _ _ a b | .assign _ _ a b => ofExpr a ++ ofExpr b
  | .conditional _ c a b => ofExpr c ++ ofExpr a ++ ofExpr b
  | .newObject _ _ as none => ofExprs as
  | .newObject _ _ as (some ms) => ofExprs as ++ ofMembers ms
  | .newArray _ _ ds i => ofExprs ds ++ ofExpr? i
  | .arrayInit _ es => ofExprs es
  | .lambda _ _ e => ofExpr e
  | .lambdaBlock _ _ b => ofBlock b

/-- The calls in an expression that may be missing. -/
def ofExpr? : Option Expr → List Occurrence
  | none => []
  | some e => ofExpr e

/-- The calls in some expressions. -/
def ofExprs : List Expr → List Occurrence
  | [] => []
  | e :: es => ofExpr e ++ ofExprs es

/-- The calls in a statement; `beforeElse` says that an `else` of the tree follows. -/
def ofStmt (beforeElse : Bool) : Stmt → List Occurrence
  | .block b => ofBlock b
  | .vars d => ofVars d
  | .expr l (.call cl t n as) =>
    ⟨⟨cl, t, n, as⟩, some l, beforeElse⟩ :: (ofExpr? t ++ ofExprs as)
  | .expr _ e => ofExpr e
  | .ifElse _ c s none => ofExpr c ++ ofStmt beforeElse s
  | .ifElse _ c s (some e) => ofExpr c ++ ofStmt true s ++ ofStmt beforeElse e
  | .whileLoop _ c s => ofExpr c ++ ofStmt beforeElse s
  | .doLoop _ s c => ofStmt false s ++ ofExpr c
  | .forLoop _ i c u s => ofSetups i ++ ofExpr? c ++ ofExprs u ++ ofStmt beforeElse s
  | .forEach _ _ e s => ofExpr e ++ ofStmt beforeElse s
  | .returnStmt _ e => ofExpr? e
  | .throwStmt _ e => ofExpr e
  | .breakStmt .. | .continueStmt .. | .empty _ => []
  | .tryStmt _ rs b cs f => ofSetups rs ++ ofBlock b ++ ofCatches cs ++ ofBlock? f
  | .synchronizedStmt _ e b => ofExpr e ++ ofBlock b
  | .assertStmt _ c m => ofExpr c ++ ofExpr? m
  | .switchStmt _ e is => ofExpr e ++ ofItems is
  | .labeled _ _ s => ofStmt beforeElse s

/-- The calls in a block. -/
def ofBlock : Block → List Occurrence
  | ⟨_, stmts⟩ => ofStmts stmts

/-- The calls in a block that may be missing. -/
def ofBlock? : Option Block → List Occurrence
  | none => []
  | some b => ofBlock b

/-- The calls in the statements of a block. -/
def ofStmts : List Stmt → List Occurrence
  | [] => []
  | s :: ss => ofStmt false s ++ ofStmts ss

/-- The calls in the initializers of a declaration. -/
def ofVars : VarDecl → List Occurrence
  | ⟨_, _, ds, _, _⟩ => ofDeclarators ds

/-- The calls in the initializer of a declarator. -/
def ofDeclarator : Declarator → List Occurrence
  | ⟨_, _, _, e⟩ => ofExpr? e

/-- The calls in the initializers of declarators. -/
def ofDeclarators : List Declarator → List Occurrence
  | [] => []
  | d :: ds => ofDeclarator d ++ ofDeclarators ds

/-- The calls in one of the things before the body of a `for` or `try`. -/
def ofSetup : Setup → List Occurrence
  | .vars d => ofVars d
  | .expr e => ofExpr e

/-- The calls in what happens before the body of a `for` or `try`. -/
def ofSetups : List Setup → List Occurrence
  | [] => []
  | s :: ss => ofSetup s ++ ofSetups ss

/-- The calls in a `catch` clause. -/
def ofCatch : CatchClause → List Occurrence
  | ⟨_, _, _, b⟩ => ofBlock b

/-- The calls in `catch` clauses. -/
def ofCatches : List CatchClause → List Occurrence
  | [] => []
  | c :: cs => ofCatch c ++ ofCatches cs

/-- The calls in an item of the body of a `switch`. -/
def ofItem : SwitchItem → List Occurrence
  | .label e => ofExpr? e
  | .stmt s => ofStmt false s

/-- The calls in the body of a `switch`. -/
def ofItems : List SwitchItem → List Occurrence
  | [] => []
  | i :: is => ofItem i ++ ofItems is

/-- The calls in a member of a class body. -/
def ofMember : Member → List Occurrence
  | .field d => ofVars d
  | .method m => ofMethod m
  | .initializer _ b _ => ofBlock b
  | .type d => ofType d

/-- The calls in the members of a class body. -/
def ofMembers : List Member → List Occurrence
  | [] => []
  | m :: ms => ofMember m ++ ofMembers ms

/-- The calls in the body of a method. -/
def ofMethod : MethodDecl → List Occurrence
  | ⟨_, _, _, _, b, _, _, _⟩ => ofBlock? b

/-- The calls in a constant of an enum. -/
def ofConstant : EnumConstant → List Occurrence
  | ⟨_, _, as, none⟩ => ofExprs as
  | ⟨_, _, as, some ms⟩ => ofExprs as ++ ofMembers ms

/-- The calls in the constants of an enum. -/
def ofConstants : List EnumConstant → List Occurrence
  | [] => []
  | c :: cs => ofConstant c ++ ofConstants cs

/-- The calls in a declared class. -/
def ofType : TypeDecl → List Occurrence
  | ⟨_, _, _, members, _, _, constants, _⟩ => ofConstants constants ++ ofMembers members

end

/-- The calls of a source file. -/
def ofUnit (unit : CompilationUnit) : List Occurrence := unit.types.flatMap ofType

end Occurrence

namespace Walk

/-- The calls that a walk meets are some of the occurrences, in their order. -/
def Finds (w : Walk) (xs : List Occurrence) : Prop :=
  ∀ n, (((w n).2.filterMap Encounter.site?).map CallSite.occurrence).Sublist xs

theorem finds_nothing {xs : List Occurrence} : Finds nothing xs := fun _ ↦ List.nil_sublist xs

theorem finds_skipped {name : String} {xs : List Occurrence} : Finds (meet (.skipped name)) xs :=
  fun _ ↦ List.nil_sublist xs

theorem finds_call {site : CallSite} : Finds (meet (.call site)) [site.occurrence] :=
  fun _ ↦ List.Sublist.refl _

theorem finds_append {a b : Walk} {xs ys : List Occurrence} (ha : Finds a xs) (hb : Finds b ys) :
    Finds (a ++ b) (xs ++ ys) := by
  intro n
  have h : ((a ++ b) n).2 = (a n).2 ++ (b (a n).1).2 := rfl
  rw [h, List.filterMap_append, List.map_append]
  exact (ha n).append (hb _)

theorem finds_numbered {f : Nat → Walk} {xs : List Occurrence} (h : ∀ k, Finds (f k) xs) :
    Finds (numbered f) xs :=
  fun n ↦ h (n + 1) (n + 1)

mutual

/-- A walk through an expression meets its calls. -/
theorem finds_ofExpr (p : Place) : (e : Expr) → Finds (ofExpr p e) (Occurrence.ofExpr e)
  | .literal .. | .name .. | .this _ | .super _ | .classLiteral .. | .typeMethodRef .. => by
    unfold ofExpr
    exact finds_nothing
  | .paren _ e | .field _ e _ | .methodRef _ e _ | .instanceOf _ e _ | .unary _ _ e
  | .preStep _ _ e | .postStep _ _ e | .cast _ _ e => by
    unfold ofExpr Occurrence.ofExpr
    exact finds_ofExpr p e
  | .call l t n as => by
    unfold ofExpr Occurrence.ofExpr
    exact finds_append (finds_append finds_call (finds_ofExpr? p t)) (finds_ofExprs p as)
  | .index _ a b | .binary _ _ a b | .assign _ _ a b => by
    unfold ofExpr Occurrence.ofExpr
    exact finds_append (finds_ofExpr p a) (finds_ofExpr p b)
  | .conditional _ c a b => by
    unfold ofExpr Occurrence.ofExpr
    exact finds_append (finds_append (finds_ofExpr p c) (finds_ofExpr p a)) (finds_ofExpr p b)
  | .newObject _ _ as none => by
    unfold ofExpr Occurrence.ofExpr
    exact finds_ofExprs p as
  | .newObject l t as (some ms) => by
    unfold ofExpr Occurrence.ofExpr
    exact finds_append (finds_ofExprs p as) (finds_numbered fun k ↦ finds_ofMembers _ ms)
  | .newArray _ _ ds i => by
    unfold ofExpr Occurrence.ofExpr
    exact finds_append (finds_ofExprs p ds) (finds_ofExpr? p i)
  | .arrayInit _ es => by
    unfold ofExpr Occurrence.ofExpr
    exact finds_ofExprs p es
  | .lambda _ _ e => by
    unfold ofExpr Occurrence.ofExpr
    exact finds_ofExpr _ e
  | .lambdaBlock _ _ b => by
    unfold ofExpr Occurrence.ofExpr
    exact finds_ofBlock _ b

theorem finds_ofExpr? (p : Place) :
    (e : Option Expr) → Finds (ofExpr? p e) (Occurrence.ofExpr? e)
  | none => by
    unfold ofExpr?
    exact finds_nothing
  | some e => by
    unfold ofExpr? Occurrence.ofExpr?
    exact finds_ofExpr p e

theorem finds_ofExprs (p : Place) :
    (es : List Expr) → Finds (ofExprs p es) (Occurrence.ofExprs es)
  | [] => by
    unfold ofExprs
    exact finds_nothing
  | e :: es => by
    unfold ofExprs Occurrence.ofExprs
    exact finds_append (finds_ofExpr p e) (finds_ofExprs p es)

/-- A walk through a statement meets its calls. -/
theorem finds_ofStmt (p : Place) (b : Bool) :
    (s : Stmt) → Finds (ofStmt p b s) (Occurrence.ofStmt b s)
  | .block b => by
    unfold ofStmt Occurrence.ofStmt
    exact finds_ofBlock p b
  | .vars d => by
    unfold ofStmt Occurrence.ofStmt
    exact finds_ofVars _ d
  | .expr l (.call cl t n as) => by
    unfold ofStmt Occurrence.ofStmt
    exact finds_append (finds_append finds_call (finds_ofExpr? p t)) (finds_ofExprs p as)
  | .expr _ (.literal ..) | .expr _ (.name ..) | .expr _ (.this _) | .expr _ (.super _)
  | .expr _ (.paren ..) | .expr _ (.field ..) | .expr _ (.index ..) | .expr _ (.newObject ..)
  | .expr _ (.newArray ..) | .expr _ (.arrayInit ..) | .expr _ (.classLiteral ..)
  | .expr _ (.methodRef ..) | .expr _ (.typeMethodRef ..) | .expr _ (.binary ..)
  | .expr _ (.instanceOf ..) | .expr _ (.unary ..) | .expr _ (.preStep ..)
  | .expr _ (.postStep ..) | .expr _ (.assign ..) | .expr _ (.conditional ..)
  | .expr _ (.cast ..) | .expr _ (.lambda ..) | .expr _ (.lambdaBlock ..) => by
    unfold ofStmt Occurrence.ofStmt
    exact finds_ofExpr p _
  | .ifElse _ c s none => by
    unfold ofStmt Occurrence.ofStmt
    exact finds_append (finds_ofExpr p c) (finds_ofStmt p b s)
  | .ifElse _ c s (some e) => by
    unfold ofStmt Occurrence.ofStmt
    exact finds_append (finds_append (finds_ofExpr p c) (finds_ofStmt p true s))
      (finds_ofStmt p b e)
  | .whileLoop _ c s => by
    unfold ofStmt Occurrence.ofStmt
    exact finds_append (finds_ofExpr p c) (finds_ofStmt p b s)
  | .doLoop _ s c => by
    unfold ofStmt Occurrence.ofStmt
    exact finds_append (finds_ofStmt p false s) (finds_ofExpr p c)
  | .forLoop _ i c u s => by
    unfold ofStmt Occurrence.ofStmt
    exact finds_append (finds_append (finds_append (finds_ofSetups p i) (finds_ofExpr? _ c))
      (finds_ofExprs _ u)) (finds_ofStmt _ b s)
  | .forEach _ _ e s => by
    unfold ofStmt Occurrence.ofStmt
    exact finds_append (finds_ofExpr p e) (finds_ofStmt _ b s)
  | .returnStmt _ e => by
    unfold ofStmt Occurrence.ofStmt
    exact finds_ofExpr? p e
  | .throwStmt _ e => by
    unfold ofStmt Occurrence.ofStmt
    exact finds_ofExpr p e
  | .breakStmt .. | .continueStmt .. | .empty _ => by
    unfold ofStmt
    exact finds_nothing
  | .tryStmt _ rs b cs f => by
    unfold ofStmt Occurrence.ofStmt
    exact finds_append (finds_append (finds_append (finds_ofSetups p rs) (finds_ofBlock _ b))
      (finds_ofCatches p cs)) (finds_ofBlock? p f)
  | .synchronizedStmt _ e b => by
    unfold ofStmt Occurrence.ofStmt
    exact finds_append (finds_ofExpr p e) (finds_ofBlock p b)
  | .assertStmt _ c m => by
    unfold ofStmt Occurrence.ofStmt
    exact finds_append (finds_ofExpr p c) (finds_ofExpr? p m)
  | .switchStmt _ e is => by
    unfold ofStmt Occurrence.ofStmt
    exact finds_append (finds_ofExpr p e) (finds_ofItems p is)
  | .labeled _ _ s => by
    unfold ofStmt Occurrence.ofStmt
    exact finds_ofStmt p b s

theorem finds_ofBlock (p : Place) : (b : Block) → Finds (ofBlock p b) (Occurrence.ofBlock b)
  | ⟨_, stmts⟩ => by
    unfold ofBlock Occurrence.ofBlock
    exact finds_ofStmts p stmts

theorem finds_ofBlock? (p : Place) :
    (b : Option Block) → Finds (ofBlock? p b) (Occurrence.ofBlock? b)
  | none => by
    unfold ofBlock?
    exact finds_nothing
  | some b => by
    unfold ofBlock? Occurrence.ofBlock?
    exact finds_ofBlock p b

theorem finds_ofStmts (p : Place) :
    (ss : List Stmt) → Finds (ofStmts p ss) (Occurrence.ofStmts ss)
  | [] => by
    unfold ofStmts
    exact finds_nothing
  | s :: ss => by
    unfold ofStmts Occurrence.ofStmts
    exact finds_append (finds_ofStmt p false s) (finds_ofStmts _ ss)

theorem finds_ofVars (p : Place) : (d : VarDecl) → Finds (ofVars p d) (Occurrence.ofVars d)
  | ⟨_, _, ds, _, _⟩ => by
    unfold ofVars Occurrence.ofVars
    exact finds_ofDeclarators p ds

theorem finds_ofDeclarators (p : Place) :
    (ds : List Declarator) → Finds (ofDeclarators p ds) (Occurrence.ofDeclarators ds)
  | [] => by
    unfold ofDeclarators
    exact finds_nothing
  | ⟨_, _, _, e⟩ :: ds => by
    unfold ofDeclarators Occurrence.ofDeclarators Occurrence.ofDeclarator
    exact finds_append (finds_ofExpr? p e) (finds_ofDeclarators p ds)

theorem finds_ofSetups (p : Place) :
    (ss : List Setup) → Finds (ofSetups p ss) (Occurrence.ofSetups ss)
  | [] => by
    unfold ofSetups
    exact finds_nothing
  | .vars d :: rest => by
    unfold ofSetups Occurrence.ofSetups Occurrence.ofSetup
    exact finds_append (finds_ofVars _ d) (finds_ofSetups _ rest)
  | .expr e :: rest => by
    unfold ofSetups Occurrence.ofSetups Occurrence.ofSetup
    exact finds_append (finds_ofExpr p e) (finds_ofSetups p rest)

theorem finds_ofCatches (p : Place) :
    (cs : List CatchClause) → Finds (ofCatches p cs) (Occurrence.ofCatches cs)
  | [] => by
    unfold ofCatches
    exact finds_nothing
  | ⟨_, _, _, b⟩ :: cs => by
    unfold ofCatches Occurrence.ofCatches Occurrence.ofCatch
    exact finds_append (finds_ofBlock _ b) (finds_ofCatches p cs)

theorem finds_ofItems (p : Place) :
    (is : List SwitchItem) → Finds (ofItems p is) (Occurrence.ofItems is)
  | [] => by
    unfold ofItems
    exact finds_nothing
  | .label e :: is => by
    unfold ofItems Occurrence.ofItems Occurrence.ofItem
    exact finds_append (finds_ofExpr? p e) (finds_ofItems p is)
  | .stmt s :: is => by
    unfold ofItems Occurrence.ofItems Occurrence.ofItem
    exact finds_append (finds_ofStmt p false s) (finds_ofItems _ is)

theorem finds_ofMembers (p : Place) :
    (ms : List Member) → Finds (ofMembers p ms) (Occurrence.ofMembers ms)
  | [] => by
    unfold ofMembers
    exact finds_nothing
  | .field d :: ms => by
    unfold ofMembers Occurrence.ofMembers Occurrence.ofMember
    exact finds_append (finds_ofVars _ d) (finds_ofMembers p ms)
  | .method m :: ms => by
    unfold ofMembers Occurrence.ofMembers Occurrence.ofMember
    exact finds_append (finds_ofMethod p m) (finds_ofMembers p ms)
  | .initializer _ b _ :: ms => by
    unfold ofMembers Occurrence.ofMembers Occurrence.ofMember
    exact finds_append (finds_ofBlock _ b) (finds_ofMembers p ms)
  | .type d :: ms => by
    unfold ofMembers Occurrence.ofMembers Occurrence.ofMember
    exact finds_append (finds_ofType _ _ d) (finds_ofMembers p ms)

theorem finds_ofMethod (p : Place) :
    (m : MethodDecl) → Finds (ofMethod p m) (Occurrence.ofMethod m)
  | ⟨_, _, _, _, b, _, _, _⟩ => by
    unfold ofMethod Occurrence.ofMethod
    exact finds_ofBlock? _ b

theorem finds_ofConstants (p : Place) :
    (cs : List EnumConstant) → Finds (ofConstants p cs) (Occurrence.ofConstants cs)
  | [] => by
    unfold ofConstants
    exact finds_nothing
  | ⟨_, _, as, none⟩ :: cs => by
    unfold ofConstants Occurrence.ofConstants Occurrence.ofConstant
    exact finds_append (finds_ofExprs p as) (finds_ofConstants p cs)
  | ⟨_, _, as, some ms⟩ :: cs => by
    unfold ofConstants Occurrence.ofConstants Occurrence.ofConstant
    exact finds_append (finds_append (finds_ofExprs p as)
      (finds_numbered fun k ↦ finds_ofMembers _ ms)) (finds_ofConstants p cs)

/-- A walk through a declared class meets its calls, or none. -/
theorem finds_ofType (skip : List String) (n : Nest) :
    (d : TypeDecl) → Finds (ofType skip n d) (Occurrence.ofType d)
  | ⟨_, _, _, members, _, _, constants, _⟩ => by
    unfold ofType Occurrence.ofType
    split
    · exact finds_skipped
    · exact finds_append (finds_ofConstants _ constants) (finds_ofMembers _ members)

end

end Walk

/-- The call sites of a source file are about some of the calls of its tree, in their order. -/
theorem CallSite.occurrences_sublist (unit : CompilationUnit) (skip : List String) :
    ((CallSite.ofUnit unit skip).map CallSite.occurrence).Sublist (Occurrence.ofUnit unit) := by
  have key : ∀ types : List TypeDecl, Walk.Finds
      ((types.map fun d ↦ Walk.ofType skip (UnitIndex.topLevel unit.package d) d).foldr (· ++ ·)
        Walk.nothing) (types.flatMap Occurrence.ofType) := by
    intro types
    induction types with
    | nil => exact Walk.finds_nothing
    | cons d ds ih => exact Walk.finds_append (Walk.finds_ofType skip _ d) ih
  exact key unit.types 0

/-- Every call site of a source file is about a call that occurs in its tree. -/
theorem CallSite.occurrence_mem {unit : CompilationUnit} {skip : List String} {site : CallSite}
    (hs : site ∈ CallSite.ofUnit unit skip) : site.occurrence ∈ Occurrence.ofUnit unit :=
  (CallSite.occurrences_sublist unit skip).subset (List.mem_map_of_mem hs)

end GuardLint
