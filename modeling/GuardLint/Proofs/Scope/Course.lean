import Mathlib.Logic.Relation
import GuardLint.Proofs.Scope.Placement
import GuardLint.Proofs.Scope.Visibility

/-!
# The places of a walk

A walk goes through the parts of a tree, from each to those right inside it, and has a place in
each. Every call that it records is recorded at the place that it has in the call.

Here a walk goes into all classes, also those that it is to skip, so that a place in a class does
not depend on what is skipped elsewhere.
-/

namespace GuardLint

open Syntax

/-- A part of a tree that a walk has a place in. `locals` are the initializers of a declaration of
local variables, and `body` is a class body. -/
inductive Part where
  | expr (expr : Expr)
  | stmt (stmt : Stmt)
  | stmts (stmts : List Stmt)
  | locals (decl : VarDecl)
  | setups (setups : List Setup)
  | items (items : List SwitchItem)
  | body (constants : List EnumConstant) (members : List Member)
  | constants (constants : List EnumConstant)
  | members (members : List Member)

namespace Part

/-- Expressions at one place. -/
def exprs (p : Place) (es : List Expr) : List (Place × Part) := es.map fun e ↦ (p, .expr e)

/-- A block at a place. -/
def block (p : Place) (b : Block) : Place × Part := (p, .stmts b.statements)

/-- The initializers of a declaration at a place. -/
def inits (p : Place) (d : VarDecl) : List (Place × Part) :=
  exprs p (d.declarators.filterMap Declarator.init)

/-- The parts right inside an expression, each with its place. The class body of an anonymous class
is numbered `k`. -/
def ofExpr (k : Nat) (p : Place) : Expr → List (Place × Part)
  | .literal .. | .name .. | .this _ | .super _ | .classLiteral .. | .typeMethodRef .. => []
  | .paren _ e | .field _ e _ | .methodRef _ e _ | .instanceOf _ e _ | .unary _ _ e
  | .preStep _ _ e | .postStep _ _ e | .cast _ _ e => [(p, .expr e)]
  | .call _ t _ as => exprs p t.toList ++ exprs p as
  | .index _ a b | .binary _ _ a b | .assign _ _ a b => [(p, .expr a), (p, .expr b)]
  | .conditional _ c a b => [(p, .expr c), (p, .expr a), (p, .expr b)]
  | .newObject l t as b =>
    exprs p as ++ b.toList.map fun ms ↦ (p.anonymous l ms (some t) k, .body [] ms)
  | .newArray _ _ ds i => exprs p ds ++ exprs p i.toList
  | .arrayInit _ es => exprs p es
  | .lambda _ ps e => [(p.bind (ps.map Variable.ofParam), .expr e)]
  | .lambdaBlock _ ps b => [block (p.bind (ps.map Variable.ofParam)) b]

/-- The parts right inside a statement, each with its place. -/
def ofStmt (p : Place) : Stmt → List (Place × Part)
  | .block b => [block p b]
  | .vars d => [(p.bind (Variable.ofLocals d), .locals d)]
  | .expr _ e | .throwStmt _ e => [(p, .expr e)]
  | .ifElse _ c s e => [(p, .expr c), (p, .stmt s)] ++ e.toList.map fun e ↦ (p, .stmt e)
  | .whileLoop _ c s => [(p, .expr c), (p, .stmt s)]
  | .doLoop _ s c => [(p, .stmt s), (p, .expr c)]
  | .forLoop _ i c u s =>
    let q := p.afterSetups i
    [(p, .setups i)] ++ exprs q c.toList ++ exprs q u ++ [(q, .stmt s)]
  | .forEach _ v e s => [(p, .expr e), (p.bind [Variable.ofParam v], .stmt s)]
  | .returnStmt _ e => exprs p e.toList
  | .breakStmt .. | .continueStmt .. | .empty _ => []
  | .tryStmt _ rs b cs f =>
    [(p, .setups rs), block (p.afterSetups rs) b] ++
      (cs.map fun c ↦ block (p.bind [Variable.ofCatch c]) c.body) ++ f.toList.map (block p)
  | .synchronizedStmt _ e b => [(p, .expr e), block p b]
  | .assertStmt _ c m => [(p, .expr c)] ++ exprs p m.toList
  | .switchStmt _ e is => [(p, .expr e), (p, .items is)]
  | .labeled _ _ s => [(p, .stmt s)]

/-- The parts right inside a member of a class body, each with its place. -/
def ofMember (p : Place) : Member → List (Place × Part)
  | .field d => inits { p with method := none } d
  | .method m => m.body.toList.map (block (p.inMethod m))
  | .initializer _ b _ => [block { p with method := none } b]
  | .type d => [(.ofClass p.skip (p.enclosing.member d), .body d.constants d.members)]

/-- The parts right inside a part, each with its place. -/
def inside (k : Nat) (p : Place) : Part → List (Place × Part)
  | .expr e => ofExpr k p e
  | .stmt s => ofStmt p s
  | .stmts [] | .setups [] | .items [] | .constants [] | .members [] => []
  | .stmts (s :: ss) => [(p, .stmt s), (p.after s, .stmts ss)]
  | .locals d => inits p d
  | .setups (.vars d :: ss) =>
    [(p.bind (Variable.ofLocals d), .locals d), (p.bind (Variable.ofLocals d), .setups ss)]
  | .setups (.expr e :: ss) => [(p, .expr e), (p, .setups ss)]
  | .items (.label e :: is) => exprs p e.toList ++ [(p, .items is)]
  | .items (.stmt s :: is) => [(p, .stmt s), (p.after s, .items is)]
  | .body cs ms => [(p, .constants cs), (p, .members ms)]
  | .constants (c :: cs) =>
    exprs p c.args ++
      (c.body.toList.map fun ms ↦ (p.anonymous c.location ms none k, .body [] ms)) ++
      [(p, .constants cs)]
  | .members (m :: ms) => ofMember p m ++ [(p, .members ms)]

/-- A walk leads from its place in one part to its place in another. -/
def Leads : Place × Part → Place × Part → Prop :=
  Relation.ReflTransGen fun a b ↦ ∃ k, b ∈ a.2.inside k a.1

/-- A walk through a source file has a place in a part. -/
def Reached (unit : CompilationUnit) (skip : List String) (a : Place × Part) : Prop :=
  ∃ d ∈ unit.types, Leads (.ofClass skip (UnitIndex.topLevel unit.package d),
    .body d.constants d.members) a

end Part

namespace Walk

open Part

/-- A walk records a call only at the place that it has in the call, if it starts at its places in
some parts. -/
def Traces (as : List (Place × Part)) (w : Walk) : Prop :=
  ∀ site, w.Meets site → ∃ a ∈ as, ∃ q, Leads a (q, .expr site.call.expr) ∧
    site = q.site site.call site.statement site.beforeElse

variable {as bs : List (Place × Part)} {a b w : Walk} {p : Place} {x : Part}

theorem traces_nothing : Traces as nothing := fun _ h ↦ absurd h not_meets_nothing

theorem traces_skipped (name : String) : Traces as (meet (.skipped name)) :=
  fun _ h ↦ absurd h not_meets_skipped

theorem Traces.mono (h : Traces as w) (hs : as ⊆ bs) : Traces bs w := fun site hm ↦ by
  obtain ⟨a, ha, hq⟩ := h site hm
  exact ⟨a, hs ha, hq⟩

theorem Traces.both (ha : Traces as a) (hb : Traces as b) : Traces as (a ++ b) :=
  fun site hm ↦ (meets_append hm).elim (ha site) (hb site)

theorem Traces.append (ha : Traces as a) (hb : Traces bs b) : Traces (as ++ bs) (a ++ b) :=
  (ha.mono (List.subset_append_left _ _)).both (hb.mono (List.subset_append_right _ _))

theorem Traces.inside (k : Nat) (h : Traces (x.inside k p) w) : Traces [(p, x)] w :=
  fun site hm ↦ by
    obtain ⟨a, ha, q, hq, hsite⟩ := h site hm
    exact ⟨_, List.mem_singleton_self _, q, .head ⟨k, ha⟩ hq, hsite⟩

theorem Traces.numbered {f : Nat → Walk} (h : ∀ k, Traces (x.inside k p) (f k)) :
    Traces [(p, x)] (numbered f) := fun site hm ↦ by
  obtain ⟨k, hm⟩ := meets_numbered hm
  exact (h k).inside k site hm

/-- A call is recorded at the place that the walk has in it, and the other calls are in its parts. -/
private theorem traces_call (l : Location) (t : Option Expr) (n : String) (es : List Expr)
    (s : Option Location) (e : Bool) (ha : Traces (exprs p t.toList) a)
    (hb : Traces (exprs p es) b) :
    Traces [(p, .expr (.call l t n es))] (meet (.call (p.site ⟨l, t, n, es⟩ s e)) ++ a ++ b) := by
  rw [append_assoc]
  refine Traces.both (fun site hm ↦ ?_) (Traces.inside 0 (ha.append hb))
  obtain rfl := eq_of_meets_call hm
  exact ⟨_, List.mem_singleton_self _, p, .refl, rfl⟩

mutual

theorem traces_ofExpr (p : Place) : (e : Expr) → Traces [(p, .expr e)] (ofExpr p e)
  | .literal .. | .name .. | .this _ | .super _ | .classLiteral .. | .typeMethodRef .. => by
    unfold ofExpr
    exact traces_nothing
  | .paren _ e | .field _ e _ | .methodRef _ e _ | .instanceOf _ e _ | .unary _ _ e
  | .preStep _ _ e | .postStep _ _ e | .cast _ _ e => by
    unfold ofExpr
    exact .inside 0 (traces_ofExpr p e)
  | .call l t n as => by
    unfold ofExpr
    exact traces_call l t n as none false (traces_ofExpr? p t) (traces_ofExprs p as)
  | .index _ a b | .binary _ _ a b | .assign _ _ a b => by
    unfold ofExpr
    exact .inside 0 ((traces_ofExpr p a).append (traces_ofExpr p b))
  | .conditional _ c a b => by
    unfold ofExpr
    exact .inside 0 (((traces_ofExpr p c).append (traces_ofExpr p a)).append (traces_ofExpr p b))
  | .newObject _ _ as none => by
    unfold ofExpr
    exact .inside 0 ((traces_ofExprs p as).mono (List.subset_append_left _ _))
  | .newObject l t as (some ms) => by
    unfold ofExpr
    refine .both (.inside 0 ((traces_ofExprs p as).mono (List.subset_append_left _ _)))
      (.numbered fun k ↦ Traces.mono ?_ (List.subset_append_right _ _))
    exact .inside 0 ((traces_ofMembers (p.anonymous l ms (some t) k) ms).mono
      (List.subset_cons_self _ _))
  | .newArray _ _ ds i => by
    unfold ofExpr
    exact .inside 0 ((traces_ofExprs p ds).append (traces_ofExpr? p i))
  | .arrayInit _ es => by
    unfold ofExpr
    exact .inside 0 (traces_ofExprs p es)
  | .lambda _ ps e => by
    unfold ofExpr
    exact .inside 0 (traces_ofExpr _ e)
  | .lambdaBlock _ ps b => by
    unfold ofExpr
    exact .inside 0 (traces_ofBlock _ b)

theorem traces_ofExpr? (p : Place) : (e : Option Expr) → Traces (exprs p e.toList) (ofExpr? p e)
  | none => by
    unfold ofExpr?
    exact traces_nothing
  | some e => by
    unfold ofExpr?
    exact traces_ofExpr p e

theorem traces_ofExprs (p : Place) : (es : List Expr) → Traces (exprs p es) (ofExprs p es)
  | [] => by
    unfold ofExprs
    exact traces_nothing
  | e :: es => by
    unfold ofExprs
    exact (traces_ofExpr p e).append (traces_ofExprs p es)

theorem traces_ofStmt (p : Place) (b : Bool) : (s : Stmt) → Traces [(p, .stmt s)] (ofStmt p b s)
  | .block b => by
    unfold ofStmt
    exact .inside 0 (traces_ofBlock p b)
  | .vars d => by
    unfold ofStmt
    exact .inside 0 (.inside 0 (traces_ofVars _ d))
  | .expr l (.call cl t n as) => by
    unfold ofStmt
    exact .inside 0 (traces_call cl t n as (some l) b (traces_ofExpr? p t) (traces_ofExprs p as))
  | .expr _ (.literal ..) | .expr _ (.name ..) | .expr _ (.this _) | .expr _ (.super _)
  | .expr _ (.paren ..) | .expr _ (.field ..) | .expr _ (.index ..) | .expr _ (.newObject ..)
  | .expr _ (.newArray ..) | .expr _ (.arrayInit ..) | .expr _ (.classLiteral ..)
  | .expr _ (.methodRef ..) | .expr _ (.typeMethodRef ..) | .expr _ (.binary ..)
  | .expr _ (.instanceOf ..) | .expr _ (.unary ..) | .expr _ (.preStep ..)
  | .expr _ (.postStep ..) | .expr _ (.assign ..) | .expr _ (.conditional ..)
  | .expr _ (.cast ..) | .expr _ (.lambda ..) | .expr _ (.lambdaBlock ..) => by
    unfold ofStmt
    exact .inside 0 (traces_ofExpr p _)
  | .ifElse _ c s none => by
    unfold ofStmt
    exact .inside 0 ((traces_ofExpr p c).append (traces_ofStmt p b s))
  | .ifElse _ c s (some e) => by
    unfold ofStmt
    exact .inside 0 (((traces_ofExpr p c).append (traces_ofStmt p true s)).append
      (traces_ofStmt p b e))
  | .whileLoop _ c s => by
    unfold ofStmt
    exact .inside 0 ((traces_ofExpr p c).append (traces_ofStmt p b s))
  | .doLoop _ s c => by
    unfold ofStmt
    exact .inside 0 ((traces_ofStmt p false s).append (traces_ofExpr p c))
  | .forLoop _ i c u s => by
    unfold ofStmt
    exact .inside 0 ((((traces_ofSetups p i).append (traces_ofExpr? _ c)).append
      (traces_ofExprs _ u)).append (traces_ofStmt _ b s))
  | .forEach _ v e s => by
    unfold ofStmt
    exact .inside 0 ((traces_ofExpr p e).append (traces_ofStmt _ b s))
  | .returnStmt _ e => by
    unfold ofStmt
    exact .inside 0 (traces_ofExpr? p e)
  | .throwStmt _ e => by
    unfold ofStmt
    exact .inside 0 (traces_ofExpr p e)
  | .breakStmt .. | .continueStmt .. | .empty _ => by
    unfold ofStmt
    exact traces_nothing
  | .tryStmt _ rs b cs f => by
    unfold ofStmt
    exact .inside 0 ((((traces_ofSetups p rs).append (traces_ofBlock _ b)).append
      (traces_ofCatches p cs)).append (traces_ofBlock? p f))
  | .synchronizedStmt _ e b => by
    unfold ofStmt
    exact .inside 0 ((traces_ofExpr p e).append (traces_ofBlock p b))
  | .assertStmt _ c m => by
    unfold ofStmt
    exact .inside 0 ((traces_ofExpr p c).append (traces_ofExpr? p m))
  | .switchStmt _ e is => by
    unfold ofStmt
    exact .inside 0 ((traces_ofExpr p e).append (traces_ofItems p is))
  | .labeled _ _ s => by
    unfold ofStmt
    exact .inside 0 (traces_ofStmt p b s)

theorem traces_ofBlock (p : Place) : (b : Block) → Traces [block p b] (ofBlock p b)
  | ⟨_, ss⟩ => by
    unfold ofBlock
    exact traces_ofStmts p ss

theorem traces_ofBlock? (p : Place) : (b : Option Block) →
    Traces (b.toList.map (block p)) (ofBlock? p b)
  | none => by
    unfold ofBlock?
    exact traces_nothing
  | some b => by
    unfold ofBlock?
    exact traces_ofBlock p b

theorem traces_ofStmts (p : Place) : (ss : List Stmt) → Traces [(p, .stmts ss)] (ofStmts p ss)
  | [] => by
    unfold ofStmts
    exact traces_nothing
  | s :: ss => by
    unfold ofStmts
    exact .inside 0 ((traces_ofStmt p false s).append (traces_ofStmts _ ss))

theorem traces_ofVars (p : Place) : (d : VarDecl) → Traces (inits p d) (ofVars p d)
  | ⟨_, _, ds, _, _⟩ => by
    unfold ofVars
    exact traces_ofDeclarators p ds

theorem traces_ofDeclarators (p : Place) : (ds : List Declarator) →
    Traces (exprs p (ds.filterMap Declarator.init)) (ofDeclarators p ds)
  | [] => by
    unfold ofDeclarators
    exact traces_nothing
  | ⟨_, _, _, none⟩ :: ds => by
    unfold ofDeclarators
    exact .both (traces_ofExpr? p none |>.mono (List.nil_subset _)) (traces_ofDeclarators p ds)
  | ⟨_, _, _, some e⟩ :: ds => by
    unfold ofDeclarators
    exact (traces_ofExpr? p (some e)).append (traces_ofDeclarators p ds)

theorem traces_ofSetups (p : Place) : (ss : List Setup) → Traces [(p, .setups ss)] (ofSetups p ss)
  | [] => by
    unfold ofSetups
    exact traces_nothing
  | .vars d :: ss => by
    unfold ofSetups
    have hd : Traces [(p.bind (Variable.ofLocals d), .locals d)] _ := .inside 0 (traces_ofVars _ d)
    exact .inside 0 (hd.append (traces_ofSetups _ ss))
  | .expr e :: ss => by
    unfold ofSetups
    exact .inside 0 ((traces_ofExpr p e).append (traces_ofSetups p ss))

theorem traces_ofCatches (p : Place) : (cs : List CatchClause) →
    Traces (cs.map fun c ↦ block (p.bind [Variable.ofCatch c]) c.body) (ofCatches p cs)
  | [] => by
    unfold ofCatches
    exact traces_nothing
  | ⟨l, ts, n, b⟩ :: cs => by
    unfold ofCatches
    exact (traces_ofBlock _ b).append (traces_ofCatches p cs)

theorem traces_ofItems (p : Place) : (is : List SwitchItem) →
    Traces [(p, .items is)] (ofItems p is)
  | [] => by
    unfold ofItems
    exact traces_nothing
  | .label e :: is => by
    unfold ofItems
    exact .inside 0 ((traces_ofExpr? p e).append (traces_ofItems p is))
  | .stmt s :: is => by
    unfold ofItems
    exact .inside 0 ((traces_ofStmt p false s).append (traces_ofItems _ is))

theorem traces_ofMembers (p : Place) : (ms : List Member) →
    Traces [(p, .members ms)] (ofMembers p ms)
  | [] => by
    unfold ofMembers
    exact traces_nothing
  | .field d :: ms => by
    unfold ofMembers
    exact .inside 0 ((traces_ofVars _ d).append (traces_ofMembers p ms))
  | .method m :: ms => by
    unfold ofMembers
    exact .inside 0 ((traces_ofMethod p m).append (traces_ofMembers p ms))
  | .initializer _ b _ :: ms => by
    unfold ofMembers
    exact .inside 0 ((traces_ofBlock _ b).append (traces_ofMembers p ms))
  | .type d :: ms => by
    unfold ofMembers
    exact .inside 0 ((traces_ofType p.skip (p.enclosing.member d) d).append (traces_ofMembers p ms))

theorem traces_ofMethod (p : Place) : (m : MethodDecl) →
    Traces (m.body.toList.map (block (p.inMethod m))) (ofMethod p m)
  | ⟨_, _, _, _, b, _, _, _⟩ => by
    unfold ofMethod
    exact traces_ofBlock? _ b

theorem traces_ofConstants (p : Place) : (cs : List EnumConstant) →
    Traces [(p, .constants cs)] (ofConstants p cs)
  | [] => by
    unfold ofConstants
    exact traces_nothing
  | ⟨_, _, as, none⟩ :: cs => by
    unfold ofConstants
    refine .inside 0 (.append ?_ (traces_ofConstants p cs))
    exact (traces_ofExprs p as).mono (List.subset_append_left _ _)
  | ⟨l, _, as, some ms⟩ :: cs => by
    unfold ofConstants
    refine .both (.both (.inside 0 ?_) (.numbered fun k ↦ ?_)) (.inside 0 ?_)
    · exact (traces_ofExprs p as).mono fun _ h ↦
        List.mem_append_left _ (List.mem_append_left _ h)
    · have hbody : Traces [(p.anonymous l ms none k, .body [] ms)]
          (ofMembers (p.anonymous l ms none k) ms) :=
        .inside 0 ((traces_ofMembers _ ms).mono (List.subset_cons_self _ _))
      exact hbody.mono fun _ h ↦ List.mem_append_left _ (List.mem_append_right _ h)
    · exact (traces_ofConstants p cs).mono fun _ h ↦ List.mem_append_right _ h

theorem traces_ofType (skip : List String) (n : Nest) : (d : TypeDecl) →
    Traces [(.ofClass skip n, .body d.constants d.members)] (ofType skip n d)
  | ⟨_, _, _, ms, _, _, cs, _⟩ => by
    unfold ofType
    split
    · exact traces_skipped _
    · exact .inside 0 ((traces_ofConstants _ cs).append (traces_ofMembers _ ms))

end

end Walk

/-- A walk through a source file has a place in every call that it records, and records it there. -/
theorem CallSite.reached {unit : CompilationUnit} {skip : List String} {site : CallSite}
    (hs : site ∈ CallSite.ofUnit unit skip) :
    ∃ q, Part.Reached unit skip (q, .expr site.call.expr) ∧
      site = q.site site.call site.statement site.beforeElse := by
  have key : ∀ types : List TypeDecl, Walk.Traces
      (types.map fun d ↦ (.ofClass skip (UnitIndex.topLevel unit.package d),
        .body d.constants d.members))
      ((types.map fun d ↦ Walk.ofType skip (UnitIndex.topLevel unit.package d) d).foldr (· ++ ·)
        Walk.nothing) := by
    intro types
    induction types with
    | nil => exact Walk.traces_nothing
    | cons d ds ih => exact (Walk.traces_ofType skip _ d).append ih
  obtain ⟨encounter, hmem, hsite⟩ := List.mem_filterMap.mp hs
  cases encounter with
  | skipped name => cases hsite
  | call other =>
    cases hsite
    obtain ⟨_, ha, q, hq, hsite⟩ := key unit.types site ⟨0, hmem⟩
    obtain ⟨d, hd, rfl⟩ := List.mem_map.mp ha
    exact ⟨q, ⟨d, hd, hq⟩, hsite⟩

end GuardLint
