import Mathlib.Data.List.Forall2
import GuardLint.Proofs.Syntax.Extent
import GuardLint.Scope.ClassInfo

/-!
# Declarations and where they hold

The declarations of variables in a tree in the order of the text, each with the region of the text
in which its variable can be named. A parameter holds in the body of its method or lambda, the
variable of a for-each loop in the body of the loop, that of a `catch` clause in the block of the
clause. A local variable holds from its declaration on: to the end of its block or `switch`, of the
`for` statement whose loop it starts, or of the block after the resources of a `try`. A field holds
in all of its class body.

Between them stand the bodies of member classes, since only fields are named from outside of them.
-/

namespace GuardLint

open Syntax

/-- A piece of a text lies in another. -/
def Location.Within (l m : Location) : Prop := m.start ≤ l.start ∧ l.stop ≤ m.stop

instance (l m : Location) : Decidable (l.Within m) := inferInstanceAs (Decidable (_ ∧ _))

/-- The declaration of one variable. -/
inductive Declaration where
  | param (param : Param)
  | localVar (decl : VarDecl) (declarator : Declarator)
  | caught (clause : CatchClause)
  | constant (constant : EnumConstant)
  | field (kind : TypeKind) (decl : VarDecl) (declarator : Declarator)

namespace Declaration

/-- The name of the variable. -/
def name : Declaration → String
  | .param p => p.name
  | .localVar _ v | .field _ _ v => v.name
  | .caught c => c.name
  | .constant c => c.name

/-- Whether a field is declared. -/
def isField : Declaration → Bool
  | .constant _ | .field .. => true
  | _ => false

/-- Where the declaration of this one variable stands. -/
def location : Declaration → Location
  | .param p => p.location
  | .localVar _ v | .field _ _ v => v.location
  | .caught c => c.location
  | .constant c => c.location

/-- A variable is what a declaration declares; a field names its class besides. -/
def Declares : Declaration → Variable → Prop
  | .param p, x => x = Variable.ofParam p
  | .localVar d v, x => x ∈ Variable.ofLocals { d with declarators := [v] }
  | .caught c, x => x = Variable.ofCatch c
  | .constant c, x => ∃ owner, x = Variable.ofConstant owner c
  | .field k d v, x => ∃ owner, x ∈ Variable.ofFields owner k { d with declarators := [v] }

variable {d : Declaration} {x : Variable}

theorem Declares.name_eq (h : d.Declares x) : x.name = d.name := by
  cases d with
  | param p => exact congrArg Variable.name h
  | localVar d v => exact congrArg Variable.name (List.mem_singleton.mp h)
  | caught c => exact congrArg Variable.name h
  | constant c =>
    obtain ⟨owner, rfl⟩ := h
    rfl
  | field k d v =>
    obtain ⟨owner, h⟩ := h
    exact congrArg Variable.name (List.mem_singleton.mp h)

theorem Declares.kind_eq (h : d.Declares x) : (x.kind == .field) = d.isField := by
  cases d with
  | param p =>
    rw [show x = _ from h]
    rfl
  | localVar d v =>
    rw [List.mem_singleton.mp h]
    rfl
  | caught c =>
    rw [show x = _ from h]
    rfl
  | constant c =>
    obtain ⟨owner, rfl⟩ := h
    rfl
  | field k d v =>
    obtain ⟨owner, h⟩ := h
    rw [List.mem_singleton.mp h]
    rfl

/-- The local variables that a declaration declares. -/
def ofLocals (d : VarDecl) : List Declaration := d.declarators.map (localVar d)

/-- The fields that a member of a class body declares. -/
def ofMember (kind : TypeKind) : Member → List Declaration
  | .field d => d.declarators.map (field kind d)
  | _ => []

/-- The fields that a class body declares, constants of an enum first. -/
def ofBody (kind : TypeKind) (constants : List EnumConstant) (members : List Member) :
    List Declaration :=
  constants.map constant ++ members.flatMap (ofMember kind)

theorem declares_ofParams (ps : List Param) :
    List.Forall₂ Declares (ps.map param) (ps.map Variable.ofParam) := by
  induction ps with
  | nil => exact .nil
  | cons p ps ih => exact .cons rfl ih

theorem declares_ofLocals (d : VarDecl) :
    List.Forall₂ Declares (ofLocals d) (Variable.ofLocals d) := by
  have key : ∀ vs : List Declarator, List.Forall₂ Declares (vs.map (localVar d))
      (Variable.ofLocals { d with declarators := vs }) := by
    intro vs
    induction vs with
    | nil => exact .nil
    | cons v vs ih => exact .cons (List.mem_singleton.mpr rfl) ih
  exact key d.declarators

theorem declares_ofFields (owner : String) (k : TypeKind) (d : VarDecl) :
    List.Forall₂ Declares (d.declarators.map (field k d)) (Variable.ofFields owner k d) := by
  have key : ∀ vs : List Declarator, List.Forall₂ Declares (vs.map (field k d))
      (Variable.ofFields owner k { d with declarators := vs }) := by
    intro vs
    induction vs with
    | nil => exact .nil
    | cons v vs ih => exact .cons ⟨owner, List.mem_singleton.mpr rfl⟩ ih
  exact key d.declarators

theorem isField_of_mem_ofBody {kind : TypeKind} {constants : List EnumConstant}
    {members : List Member} (h : d ∈ ofBody kind constants members) : d.isField = true := by
  rcases List.mem_append.mp h with h | h
  · obtain ⟨c, -, rfl⟩ := List.mem_map.mp h
    rfl
  · obtain ⟨m, -, h⟩ := List.mem_flatMap.mp h
    cases m with
    | field decl =>
      obtain ⟨v, -, rfl⟩ := List.mem_map.mp h
      rfl
    | _ => cases h

end Declaration

namespace ClassInfo

variable (c : ClassInfo)

/-- The declarations of the fields of a class. -/
def declarations : List Declaration :=
  Declaration.ofBody c.decl.kind c.decl.constants c.decl.members

/-- The fields of a class as they are written, also those that a later one with their name
replaces. -/
def written : List Variable :=
  c.decl.constants.map (Variable.ofConstant c.fullName) ++ c.decl.members.flatMap c.memberFields

theorem declares_written : List.Forall₂ Declaration.Declares c.declarations c.written := by
  refine List.rel_append ?_ ?_
  · induction c.decl.constants with
    | nil => exact .nil
    | cons k ks ih => exact .cons ⟨c.fullName, rfl⟩ ih
  · induction c.decl.members with
    | nil => exact .nil
    | cons m ms ih =>
      refine List.rel_append ?_ ih
      cases m with
      | field d => exact Declaration.declares_ofFields c.fullName c.decl.kind d
      | _ => exact .nil

theorem kind_of_mem_written {x : Variable} (h : x ∈ c.written) : x.kind = .field := by
  rcases List.mem_append.mp h with h | h
  · obtain ⟨k, -, rfl⟩ := List.mem_map.mp h
    rfl
  · obtain ⟨m, -, h⟩ := List.mem_flatMap.mp h
    cases m with
    | field d =>
      obtain ⟨v, -, rfl⟩ := List.mem_map.mp h
      rfl
    | _ => cases h

theorem owner_of_mem_written {x : Variable} (h : x ∈ c.written) : x.owner = some c.fullName := by
  rcases List.mem_append.mp h with h | h
  · obtain ⟨k, -, rfl⟩ := List.mem_map.mp h
    rfl
  · obtain ⟨m, -, h⟩ := List.mem_flatMap.mp h
    cases m with
    | field d =>
      obtain ⟨v, -, rfl⟩ := List.mem_map.mp h
      rfl
    | _ => cases h

end ClassInfo

/-- The declaration of a variable with the region in which the variable can be named. -/
structure Binding where
  declaration : Declaration
  region : Location

/-- What decides along a tree which variables can be named: a declaration, or the body of a member
class. -/
inductive Landmark where
  | binding (binding : Binding)
  | memberClass (body : Location)

namespace Landmark

/-- The declaration, if it is one. -/
def binding? : Landmark → Option Binding
  | .binding b => some b
  | .memberClass _ => none

/-- The region of a declaration, or the body of a member class. -/
def region : Landmark → Location
  | .binding b => b.region
  | .memberClass body => body

/-- Declarations that hold in one region. -/
def bindings (region : Location) (ds : List Declaration) : List Landmark :=
  ds.map fun d ↦ .binding ⟨d, region⟩

/-- The region from a declaration of local variables to some place. -/
def fromDecl (d : VarDecl) (stop : Position) : Location := ⟨d.location.first, stop⟩

/-- The stretch of a class body, from the first to the last of the expressions and statements in
it. -/
def body (constants : List EnumConstant) (members : List Member) : Location :=
  Node.extent (Node.ofConstants constants ++ Node.ofMembers members)

/-- The fields of a class body, which hold in all of it. -/
def fields (kind : TypeKind) (constants : List EnumConstant) (members : List Member) :
    List Landmark :=
  bindings (body constants members) (Declaration.ofBody kind constants members)

mutual

/-- The landmarks in an expression. -/
def ofExpr : Expr → List Landmark
  | .literal .. | .name .. | .this _ | .super _ | .classLiteral .. | .typeMethodRef .. => []
  | .paren _ e | .field _ e _ | .methodRef _ e _ | .instanceOf _ e _ | .unary _ _ e
  | .preStep _ _ e | .postStep _ _ e | .cast _ _ e => ofExpr e
  | .call _ t _ as => ofExpr? t ++ ofExprs as
  | .index _ a b | .binary _ _ a b | .assign _ _ a b => ofExpr a ++ ofExpr b
  | .conditional _ c a b => ofExpr c ++ ofExpr a ++ ofExpr b
  | .newObject _ _ as none => ofExprs as
  | .newObject _ _ as (some ms) => ofExprs as ++ (fields .classType [] ms ++ ofMembers ms)
  | .newArray _ _ ds i => ofExprs ds ++ ofExpr? i
  | .arrayInit _ es => ofExprs es
  | .lambda _ ps e => bindings e.location (ps.map .param) ++ ofExpr e
  | .lambdaBlock _ ps b => bindings b.location (ps.map .param) ++ ofBlock b

/-- The landmarks in an expression that may be missing. -/
def ofExpr? : Option Expr → List Landmark
  | none => []
  | some e => ofExpr e

/-- The landmarks in some expressions. -/
def ofExprs : List Expr → List Landmark
  | [] => []
  | e :: es => ofExpr e ++ ofExprs es

/-- The landmarks in a statement. A declaration that is no part of a block holds in itself only. -/
def ofStmt : Stmt → List Landmark
  | .block b => ofBlock b
  | .vars d => bindings d.location (Declaration.ofLocals d) ++ ofVars d
  | .expr _ e | .throwStmt _ e => ofExpr e
  | .ifElse _ c s none => ofExpr c ++ ofStmt s
  | .ifElse _ c s (some e) => ofExpr c ++ ofStmt s ++ ofStmt e
  | .whileLoop _ c s => ofExpr c ++ ofStmt s
  | .doLoop _ s c => ofStmt s ++ ofExpr c
  | .forLoop l i c u s => ofSetups l.last i ++ (ofExpr? c ++ ofExprs u ++ ofStmt s)
  | .forEach _ v e s => ofExpr e ++ (bindings s.location [.param v] ++ ofStmt s)
  | .returnStmt _ e => ofExpr? e
  | .breakStmt .. | .continueStmt .. | .empty _ => []
  | .tryStmt _ rs b cs f =>
    ofSetups b.location.last rs ++ ofBlock b ++ ofCatches cs ++ ofBlock? f
  | .synchronizedStmt _ e b => ofExpr e ++ ofBlock b
  | .assertStmt _ c m => ofExpr c ++ ofExpr? m
  | .switchStmt l e is => ofExpr e ++ ofItems l.last is
  | .labeled _ _ s => ofStmt s

/-- The landmarks in a block. -/
def ofBlock : Block → List Landmark
  | ⟨l, stmts⟩ => ofStmts l.last stmts

/-- The landmarks in a block that may be missing. -/
def ofBlock? : Option Block → List Landmark
  | none => []
  | some b => ofBlock b

/-- The landmarks in the statements of a block that ends at some place. -/
def ofStmts (stop : Position) : List Stmt → List Landmark
  | [] => []
  | .vars d :: ss =>
    bindings (fromDecl d stop) (Declaration.ofLocals d) ++ (ofVars d ++ ofStmts stop ss)
  | s :: ss => ofStmt s ++ ofStmts stop ss

/-- The landmarks in the initializers of a declaration. -/
def ofVars : VarDecl → List Landmark
  | ⟨_, _, ds, _, _⟩ => ofDeclarators ds

/-- The landmarks in the initializers of declarators. -/
def ofDeclarators : List Declarator → List Landmark
  | [] => []
  | ⟨_, _, _, e⟩ :: ds => ofExpr? e ++ ofDeclarators ds

/-- The landmarks in what happens before the body of a `for` or `try`; what is declared there holds
to some place. -/
def ofSetups (stop : Position) : List Setup → List Landmark
  | [] => []
  | .vars d :: ss =>
    bindings (fromDecl d stop) (Declaration.ofLocals d) ++ (ofVars d ++ ofSetups stop ss)
  | .expr e :: ss => ofExpr e ++ ofSetups stop ss

/-- The landmarks in `catch` clauses. -/
def ofCatches : List CatchClause → List Landmark
  | [] => []
  | ⟨l, ts, n, b⟩ :: cs =>
    bindings b.location [.caught ⟨l, ts, n, b⟩] ++ ofBlock b ++ ofCatches cs

/-- The landmarks in the body of a `switch` that ends at some place. -/
def ofItems (stop : Position) : List SwitchItem → List Landmark
  | [] => []
  | .label e :: is => ofExpr? e ++ ofItems stop is
  | .stmt (.vars d) :: is =>
    bindings (fromDecl d stop) (Declaration.ofLocals d) ++ (ofVars d ++ ofItems stop is)
  | .stmt s :: is => ofStmt s ++ ofItems stop is

/-- The landmarks in the members of a class body. -/
def ofMembers : List Member → List Landmark
  | [] => []
  | .field d :: ms => ofVars d ++ ofMembers ms
  | .method m :: ms => ofMethod m ++ ofMembers ms
  | .initializer _ b _ :: ms => ofBlock b ++ ofMembers ms
  | .type d :: ms => .memberClass (body d.constants d.members) :: (ofType d ++ ofMembers ms)

/-- The landmarks in a method. -/
def ofMethod : MethodDecl → List Landmark
  | ⟨_, _, _, _, none, _, _, _⟩ => []
  | ⟨_, _, _, ps, some b, _, _, _⟩ => bindings b.location (ps.map .param) ++ ofBlock b

/-- The landmarks in the constants of an enum. -/
def ofConstants : List EnumConstant → List Landmark
  | [] => []
  | ⟨_, _, as, none⟩ :: cs => ofExprs as ++ ofConstants cs
  | ⟨_, _, as, some ms⟩ :: cs =>
    ofExprs as ++ (fields .classType [] ms ++ ofMembers ms) ++ ofConstants cs

/-- The landmarks in a declared class. -/
def ofType : TypeDecl → List Landmark
  | ⟨_, k, _, members, _, _, constants, _⟩ =>
    fields k constants members ++ (ofConstants constants ++ ofMembers members)

end

/-- The landmarks of a source file. -/
def ofUnit (unit : CompilationUnit) : List Landmark := unit.types.flatMap ofType

/-- The variables that can be named at a place after one more landmark: the variable of a
declaration that holds there, and in a member class only fields. -/
def enter (place : Location) (bs : List Binding) : Landmark → List Binding
  | .binding b => if place.Within b.region then b :: bs else bs
  | .memberClass body =>
    if place.Within body then bs.filter (·.declaration.isField) else bs

/-- The declarations that are in force at a place, the innermost first. -/
def inForce (place : Location) (ls : List Landmark) : List Binding := ls.foldl (enter place) []

end Landmark

/-- The declarations of variables of a source file, each with its region. -/
def Binding.ofUnit (unit : CompilationUnit) : List Binding :=
  (Landmark.ofUnit unit).filterMap Landmark.binding?

end GuardLint
