import GuardLint.Proofs.Scope.Placement
import GuardLint.Proofs.Syntax.Numbers

/-!
# Which calls a walk records

All the calls of a tree in the order of the text, each with what it is inside of: an argument of an
annotation, and declared classes. A walk records every one of them once and in this order, except
those in annotations and those in classes that carry an annotation to skip, nested classes
included.

Unlike a walk, the list of the calls goes into every part of the tree and has no scope to carry.
-/

namespace GuardLint

open Syntax

/-- Whether a declared class carries an annotation with one of some simple names. -/
def Syntax.TypeDecl.carries (names : List String) (d : TypeDecl) : Bool :=
  d.annotations.any fun a ↦ names.contains a.simpleName

/-- A call of a tree. `inAnnotation` says that it is inside an argument of an annotation; `classes`
are the declared classes that it is inside of, the outermost first. -/
structure CallNode where
  call : Call
  inAnnotation : Bool
  classes : List TypeDecl

namespace CallNode

/-- A call as it is inside an argument of an annotation. -/
def annotated (x : CallNode) : CallNode := { x with inAnnotation := true }

/-- A call as it is inside a declared class. -/
def inClass (d : TypeDecl) (x : CallNode) : CallNode := { x with classes := d :: x.classes }

mutual

/-- The calls in an expression. -/
def ofExpr : Expr → List CallNode
  | .literal .. | .name .. | .this _ | .super _ | .classLiteral .. | .typeMethodRef .. => []
  | .paren _ e | .field _ e _ | .methodRef _ e _ | .instanceOf _ e _ | .unary _ _ e
  | .preStep _ _ e | .postStep _ _ e | .cast _ _ e => ofExpr e
  | .call l t n as => ⟨⟨l, t, n, as⟩, false, []⟩ :: (ofExpr? t ++ ofExprs as)
  | .index _ a b | .binary _ _ a b | .assign _ _ a b => ofExpr a ++ ofExpr b
  | .conditional _ c a b => ofExpr c ++ ofExpr a ++ ofExpr b
  | .newObject _ _ as none => ofExprs as
  | .newObject _ _ as (some ms) => ofExprs as ++ ofMembers ms
  | .newArray _ _ ds i => ofExprs ds ++ ofExpr? i
  | .arrayInit _ es => ofExprs es
  | .lambda _ ps e => ofParams ps ++ ofExpr e
  | .lambdaBlock _ ps b => ofParams ps ++ ofBlock b

/-- The calls in an expression that may be missing. -/
def ofExpr? : Option Expr → List CallNode
  | none => []
  | some e => ofExpr e

/-- The calls in some expressions. -/
def ofExprs : List Expr → List CallNode
  | [] => []
  | e :: es => ofExpr e ++ ofExprs es

/-- The calls in a statement. -/
def ofStmt : Stmt → List CallNode
  | .block b => ofBlock b
  | .vars d => ofVars d
  | .expr _ e | .throwStmt _ e => ofExpr e
  | .ifElse _ c s none => ofExpr c ++ ofStmt s
  | .ifElse _ c s (some e) => ofExpr c ++ ofStmt s ++ ofStmt e
  | .whileLoop _ c s => ofExpr c ++ ofStmt s
  | .doLoop _ s c => ofStmt s ++ ofExpr c
  | .forLoop _ i c u s => ofSetups i ++ ofExpr? c ++ ofExprs u ++ ofStmt s
  | .forEach _ v e s => ofParam v ++ ofExpr e ++ ofStmt s
  | .returnStmt _ e => ofExpr? e
  | .breakStmt .. | .continueStmt .. | .empty _ => []
  | .tryStmt _ rs b cs f => ofSetups rs ++ ofBlock b ++ ofCatches cs ++ ofBlock? f
  | .synchronizedStmt _ e b => ofExpr e ++ ofBlock b
  | .assertStmt _ c m => ofExpr c ++ ofExpr? m
  | .switchStmt _ e is => ofExpr e ++ ofItems is
  | .labeled _ _ s => ofStmt s

/-- The calls in a block. -/
def ofBlock : Block → List CallNode
  | ⟨_, stmts⟩ => ofStmts stmts

/-- The calls in a block that may be missing. -/
def ofBlock? : Option Block → List CallNode
  | none => []
  | some b => ofBlock b

/-- The calls in some statements. -/
def ofStmts : List Stmt → List CallNode
  | [] => []
  | s :: ss => ofStmt s ++ ofStmts ss

/-- The calls in a declaration of variables. -/
def ofVars : VarDecl → List CallNode
  | ⟨_, _, ds, _, as⟩ => ofAnnotations as ++ ofDeclarators ds

/-- The calls in some declarators. -/
def ofDeclarators : List Declarator → List CallNode
  | [] => []
  | ⟨_, _, _, e⟩ :: ds => ofExpr? e ++ ofDeclarators ds

/-- The calls in what happens before the body of a `for` or `try`. -/
def ofSetups : List Setup → List CallNode
  | [] => []
  | .vars d :: ss => ofVars d ++ ofSetups ss
  | .expr e :: ss => ofExpr e ++ ofSetups ss

/-- The calls in `catch` clauses. -/
def ofCatches : List CatchClause → List CallNode
  | [] => []
  | ⟨_, _, _, b⟩ :: cs => ofBlock b ++ ofCatches cs

/-- The calls in the body of a `switch`. -/
def ofItems : List SwitchItem → List CallNode
  | [] => []
  | .label e :: is => ofExpr? e ++ ofItems is
  | .stmt s :: is => ofStmt s ++ ofItems is

/-- The calls in a parameter. -/
def ofParam : Param → List CallNode
  | ⟨_, _, _, _, as, _⟩ => ofAnnotations as

/-- The calls in some parameters. -/
def ofParams : List Param → List CallNode
  | [] => []
  | p :: ps => ofParam p ++ ofParams ps

/-- The calls in some annotations. -/
def ofAnnotations : List Annotation → List CallNode
  | [] => []
  | ⟨_, _, es⟩ :: as => (ofExprs es).map annotated ++ ofAnnotations as

/-- The calls in the members of a class body. -/
def ofMembers : List Member → List CallNode
  | [] => []
  | .field d :: ms => ofVars d ++ ofMembers ms
  | .method m :: ms => ofMethod m ++ ofMembers ms
  | .initializer _ b _ :: ms => ofBlock b ++ ofMembers ms
  | .type d :: ms => ofType d ++ ofMembers ms

/-- The calls in a method. -/
def ofMethod : MethodDecl → List CallNode
  | ⟨_, _, _, ps, b, _, as, _⟩ => ofAnnotations as ++ ofParams ps ++ ofBlock? b

/-- The calls in the constants of an enum. -/
def ofConstants : List EnumConstant → List CallNode
  | [] => []
  | ⟨_, _, as, none⟩ :: cs => ofExprs as ++ ofConstants cs
  | ⟨_, _, as, some ms⟩ :: cs => ofExprs as ++ ofMembers ms ++ ofConstants cs

/-- The calls in a declared class. -/
def ofType : TypeDecl → List CallNode
  | ⟨l, k, n, members, mods, as, constants, ts⟩ =>
    (ofAnnotations as ++ ofConstants constants ++ ofMembers members).map
      (inClass ⟨l, k, n, members, mods, as, constants, ts⟩)

end

/-- The calls of a source file. -/
def ofUnit (unit : CompilationUnit) : List CallNode := unit.types.flatMap ofType

/-- Whether a call is to be recorded if classes with some annotations are skipped. -/
def recorded (skip : List String) (x : CallNode) : Bool :=
  !x.inAnnotation && !x.classes.any (·.carries skip)

/-- The calls among some that are to be recorded. -/
def kept (skip : List String) (xs : List CallNode) : List Call :=
  (xs.filter (recorded skip)).map CallNode.call

variable {skip : List String} {xs ys : List CallNode}

@[simp] theorem kept_nil : kept skip [] = [] := rfl

@[simp] theorem kept_append : kept skip (xs ++ ys) = kept skip xs ++ kept skip ys := by
  simp [kept]

theorem kept_call (c : Call) : kept skip (⟨c, false, []⟩ :: xs) = c :: kept skip xs := by
  simp [kept, recorded]

@[simp] theorem kept_annotated : kept skip (xs.map annotated) = [] := by
  simp [kept, recorded, annotated]

theorem kept_inClass (d : TypeDecl) :
    kept skip (xs.map (inClass d)) = if d.carries skip then [] else kept skip xs := by
  cases h : d.carries skip with
  | true => simp [kept, recorded, inClass, h]
  | false =>
    have hkeep : recorded skip ∘ inClass d = recorded skip := by
      funext x
      simp [recorded, inClass, h]
    rw [kept, List.filter_map, hkeep, List.map_map]
    rfl

@[simp] theorem kept_ofAnnotations : (as : List Annotation) → kept skip (ofAnnotations as) = []
  | [] => by rw [ofAnnotations, kept_nil]
  | ⟨_, _, es⟩ :: as => by rw [ofAnnotations, kept_append, kept_annotated, kept_ofAnnotations as]; rfl

@[simp] theorem kept_ofParam : (p : Param) → kept skip (ofParam p) = []
  | ⟨_, _, _, _, as, _⟩ => by rw [ofParam, kept_ofAnnotations]

@[simp] theorem kept_ofParams : (ps : List Param) → kept skip (ofParams ps) = []
  | [] => by rw [ofParams, kept_nil]
  | p :: ps => by rw [ofParams, kept_append, kept_ofParam, kept_ofParams ps]; rfl

end CallNode

namespace Place

theorem skip_after (p : Place) (s : Stmt) : (p.after s).skip = p.skip := by
  cases s <;> rfl

theorem skip_afterSetups (p : Place) (setups : List Setup) :
    (p.afterSetups setups).skip = p.skip := by
  induction setups generalizing p with
  | nil => rfl
  | cons s setups ih => exact (ih _).trans (by cases s <;> rfl)

end Place

namespace Walk

/-- The calls that a walk records are those to be kept of some calls, in their order. -/
def Records (skip : List String) (w : Walk) (xs : List CallNode) : Prop :=
  ∀ n, ((w n).2.filterMap Encounter.site?).map CallSite.call = CallNode.kept skip xs

variable {skip : List String} {a b : Walk} {xs ys : List CallNode}

theorem records_nothing : Records skip nothing [] := fun _ ↦ rfl

theorem records_append (ha : Records skip a xs) (hb : Records skip b ys) :
    Records skip (a ++ b) (xs ++ ys) := by
  intro n
  have h : ((a ++ b) n).2 = (a n).2 ++ (b (a n).1).2 := rfl
  rw [h, List.filterMap_append, List.map_append, ha, hb, CallNode.kept_append]

theorem records_numbered {f : Nat → Walk} (h : ∀ k, Records skip (f k) xs) :
    Records skip (numbered f) xs :=
  fun n ↦ h (n + 1) (n + 1)

/-- A walk passes over calls that are not to be kept. -/
theorem records_past (hx : CallNode.kept skip xs = []) (h : Records skip a ys) :
    Records skip a (xs ++ ys) := by
  intro n
  rw [h, CallNode.kept_append, hx, List.nil_append]

/-- A call is recorded before those in it. -/
theorem records_call {site : CallSite} (ha : Records skip a xs) (hb : Records skip b ys) :
    Records skip (meet (.call site) ++ a ++ b) (⟨site.call, false, []⟩ :: (xs ++ ys)) := by
  intro n
  have h : ((meet (.call site) ++ a ++ b) n).2 = .call site :: ((a ++ b) n).2 := rfl
  have hmap : (((a ++ b) n).2.filterMap Encounter.site?).map CallSite.call =
      CallNode.kept skip (xs ++ ys) := records_append ha hb n
  rw [h, CallNode.kept_call, ← hmap]
  rfl

/-- A declared class is passed over as a whole or not at all. -/
theorem records_class {d : TypeDecl} {name : String} (h : Records skip a xs) :
    Records skip (if d.carries skip then meet (.skipped name) else a)
      (xs.map (CallNode.inClass d)) := by
  intro n
  rw [CallNode.kept_inClass]
  split
  · rfl
  · exact h n

mutual

/-- A walk through an expression records its calls. -/
theorem records_ofExpr (p : Place) :
    (e : Expr) → Records p.skip (ofExpr p e) (CallNode.ofExpr e)
  | .literal .. | .name .. | .this _ | .super _ | .classLiteral .. | .typeMethodRef .. => by
    unfold ofExpr CallNode.ofExpr
    exact records_nothing
  | .paren _ e | .field _ e _ | .methodRef _ e _ | .instanceOf _ e _ | .unary _ _ e
  | .preStep _ _ e | .postStep _ _ e | .cast _ _ e => by
    unfold ofExpr CallNode.ofExpr
    exact records_ofExpr p e
  | .call l t n as => by
    unfold ofExpr CallNode.ofExpr
    exact records_call (records_ofExpr? p t) (records_ofExprs p as)
  | .index _ a b | .binary _ _ a b | .assign _ _ a b => by
    unfold ofExpr CallNode.ofExpr
    exact records_append (records_ofExpr p a) (records_ofExpr p b)
  | .conditional _ c a b => by
    unfold ofExpr CallNode.ofExpr
    exact records_append (records_append (records_ofExpr p c) (records_ofExpr p a))
      (records_ofExpr p b)
  | .newObject _ _ as none => by
    unfold ofExpr CallNode.ofExpr
    exact records_ofExprs p as
  | .newObject l t as (some ms) => by
    unfold ofExpr CallNode.ofExpr
    exact records_append (records_ofExprs p as)
      (records_numbered fun k ↦ records_ofMembers (p.anonymous l ms (some t) k) ms)
  | .newArray _ _ ds i => by
    unfold ofExpr CallNode.ofExpr
    exact records_append (records_ofExprs p ds) (records_ofExpr? p i)
  | .arrayInit _ es => by
    unfold ofExpr CallNode.ofExpr
    exact records_ofExprs p es
  | .lambda _ ps e => by
    unfold ofExpr CallNode.ofExpr
    exact records_past (CallNode.kept_ofParams ps)
      (records_ofExpr (p.bind (ps.map Variable.ofParam)) e)
  | .lambdaBlock _ ps b => by
    unfold ofExpr CallNode.ofExpr
    exact records_past (CallNode.kept_ofParams ps)
      (records_ofBlock (p.bind (ps.map Variable.ofParam)) b)

theorem records_ofExpr? (p : Place) :
    (e : Option Expr) → Records p.skip (ofExpr? p e) (CallNode.ofExpr? e)
  | none => by
    unfold ofExpr? CallNode.ofExpr?
    exact records_nothing
  | some e => by
    unfold ofExpr? CallNode.ofExpr?
    exact records_ofExpr p e

theorem records_ofExprs (p : Place) :
    (es : List Expr) → Records p.skip (ofExprs p es) (CallNode.ofExprs es)
  | [] => by
    unfold ofExprs CallNode.ofExprs
    exact records_nothing
  | e :: es => by
    unfold ofExprs CallNode.ofExprs
    exact records_append (records_ofExpr p e) (records_ofExprs p es)

/-- A walk through a statement records its calls. -/
theorem records_ofStmt (p : Place) (b : Bool) :
    (s : Stmt) → Records p.skip (ofStmt p b s) (CallNode.ofStmt s)
  | .block b => by
    unfold ofStmt CallNode.ofStmt
    exact records_ofBlock p b
  | .vars d => by
    unfold ofStmt CallNode.ofStmt
    exact records_ofVars (p.bind (Variable.ofLocals d)) d
  | .expr l (.call cl t n as) => by
    unfold ofStmt CallNode.ofStmt CallNode.ofExpr
    exact records_call (records_ofExpr? p t) (records_ofExprs p as)
  | .expr _ (.literal ..) | .expr _ (.name ..) | .expr _ (.this _) | .expr _ (.super _)
  | .expr _ (.paren ..) | .expr _ (.field ..) | .expr _ (.index ..) | .expr _ (.newObject ..)
  | .expr _ (.newArray ..) | .expr _ (.arrayInit ..) | .expr _ (.classLiteral ..)
  | .expr _ (.methodRef ..) | .expr _ (.typeMethodRef ..) | .expr _ (.binary ..)
  | .expr _ (.instanceOf ..) | .expr _ (.unary ..) | .expr _ (.preStep ..)
  | .expr _ (.postStep ..) | .expr _ (.assign ..) | .expr _ (.conditional ..)
  | .expr _ (.cast ..) | .expr _ (.lambda ..) | .expr _ (.lambdaBlock ..) => by
    unfold ofStmt CallNode.ofStmt
    exact records_ofExpr p _
  | .ifElse _ c s none => by
    unfold ofStmt CallNode.ofStmt
    exact records_append (records_ofExpr p c) (records_ofStmt p b s)
  | .ifElse _ c s (some e) => by
    unfold ofStmt CallNode.ofStmt
    exact records_append (records_append (records_ofExpr p c) (records_ofStmt p true s))
      (records_ofStmt p b e)
  | .whileLoop _ c s => by
    unfold ofStmt CallNode.ofStmt
    exact records_append (records_ofExpr p c) (records_ofStmt p b s)
  | .doLoop _ s c => by
    unfold ofStmt CallNode.ofStmt
    exact records_append (records_ofStmt p false s) (records_ofExpr p c)
  | .forLoop _ i c u s => by
    unfold ofStmt CallNode.ofStmt
    have hskip := p.skip_afterSetups i
    exact records_append (records_append (records_append (records_ofSetups p i)
      (hskip ▸ records_ofExpr? (p.afterSetups i) c)) (hskip ▸ records_ofExprs (p.afterSetups i) u))
      (hskip ▸ records_ofStmt (p.afterSetups i) b s)
  | .forEach _ v e s => by
    unfold ofStmt CallNode.ofStmt
    rw [List.append_assoc]
    exact records_past (CallNode.kept_ofParam v) (records_append (records_ofExpr p e)
      (records_ofStmt (p.bind [Variable.ofParam v]) b s))
  | .returnStmt _ e => by
    unfold ofStmt CallNode.ofStmt
    exact records_ofExpr? p e
  | .throwStmt _ e => by
    unfold ofStmt CallNode.ofStmt
    exact records_ofExpr p e
  | .breakStmt .. | .continueStmt .. | .empty _ => by
    unfold ofStmt CallNode.ofStmt
    exact records_nothing
  | .tryStmt _ rs b cs f => by
    unfold ofStmt CallNode.ofStmt
    exact records_append (records_append (records_append (records_ofSetups p rs)
      (p.skip_afterSetups rs ▸ records_ofBlock (p.afterSetups rs) b)) (records_ofCatches p cs))
      (records_ofBlock? p f)
  | .synchronizedStmt _ e b => by
    unfold ofStmt CallNode.ofStmt
    exact records_append (records_ofExpr p e) (records_ofBlock p b)
  | .assertStmt _ c m => by
    unfold ofStmt CallNode.ofStmt
    exact records_append (records_ofExpr p c) (records_ofExpr? p m)
  | .switchStmt _ e is => by
    unfold ofStmt CallNode.ofStmt
    exact records_append (records_ofExpr p e) (records_ofItems p is)
  | .labeled _ _ s => by
    unfold ofStmt CallNode.ofStmt
    exact records_ofStmt p b s

theorem records_ofBlock (p : Place) :
    (b : Block) → Records p.skip (ofBlock p b) (CallNode.ofBlock b)
  | ⟨_, stmts⟩ => by
    unfold ofBlock CallNode.ofBlock
    exact records_ofStmts p stmts

theorem records_ofBlock? (p : Place) :
    (b : Option Block) → Records p.skip (ofBlock? p b) (CallNode.ofBlock? b)
  | none => by
    unfold ofBlock? CallNode.ofBlock?
    exact records_nothing
  | some b => by
    unfold ofBlock? CallNode.ofBlock?
    exact records_ofBlock p b

theorem records_ofStmts (p : Place) :
    (ss : List Stmt) → Records p.skip (ofStmts p ss) (CallNode.ofStmts ss)
  | [] => by
    unfold ofStmts CallNode.ofStmts
    exact records_nothing
  | s :: ss => by
    unfold ofStmts CallNode.ofStmts
    exact records_append (records_ofStmt p false s)
      (p.skip_after s ▸ records_ofStmts (p.after s) ss)

theorem records_ofVars (p : Place) :
    (d : VarDecl) → Records p.skip (ofVars p d) (CallNode.ofVars d)
  | ⟨_, _, ds, _, as⟩ => by
    unfold ofVars CallNode.ofVars
    exact records_past (CallNode.kept_ofAnnotations as) (records_ofDeclarators p ds)

theorem records_ofDeclarators (p : Place) :
    (ds : List Declarator) → Records p.skip (ofDeclarators p ds) (CallNode.ofDeclarators ds)
  | [] => by
    unfold ofDeclarators CallNode.ofDeclarators
    exact records_nothing
  | ⟨_, _, _, e⟩ :: ds => by
    unfold ofDeclarators CallNode.ofDeclarators
    exact records_append (records_ofExpr? p e) (records_ofDeclarators p ds)

theorem records_ofSetups (p : Place) :
    (ss : List Setup) → Records p.skip (ofSetups p ss) (CallNode.ofSetups ss)
  | [] => by
    unfold ofSetups CallNode.ofSetups
    exact records_nothing
  | .vars d :: rest => by
    unfold ofSetups CallNode.ofSetups
    exact records_append (records_ofVars (p.bind (Variable.ofLocals d)) d)
      (records_ofSetups (p.bind (Variable.ofLocals d)) rest)
  | .expr e :: rest => by
    unfold ofSetups CallNode.ofSetups
    exact records_append (records_ofExpr p e) (records_ofSetups p rest)

theorem records_ofCatches (p : Place) :
    (cs : List CatchClause) → Records p.skip (ofCatches p cs) (CallNode.ofCatches cs)
  | [] => by
    unfold ofCatches CallNode.ofCatches
    exact records_nothing
  | ⟨l, ts, n, b⟩ :: cs => by
    unfold ofCatches CallNode.ofCatches
    exact records_append (records_ofBlock (p.bind [Variable.ofCatch ⟨l, ts, n, b⟩]) b)
      (records_ofCatches p cs)

theorem records_ofItems (p : Place) :
    (is : List SwitchItem) → Records p.skip (ofItems p is) (CallNode.ofItems is)
  | [] => by
    unfold ofItems CallNode.ofItems
    exact records_nothing
  | .label e :: is => by
    unfold ofItems CallNode.ofItems
    exact records_append (records_ofExpr? p e) (records_ofItems p is)
  | .stmt s :: is => by
    unfold ofItems CallNode.ofItems
    exact records_append (records_ofStmt p false s)
      (p.skip_after s ▸ records_ofItems (p.after s) is)

theorem records_ofMembers (p : Place) :
    (ms : List Member) → Records p.skip (ofMembers p ms) (CallNode.ofMembers ms)
  | [] => by
    unfold ofMembers CallNode.ofMembers
    exact records_nothing
  | .field d :: ms => by
    unfold ofMembers CallNode.ofMembers
    exact records_append (records_ofVars { p with method := none } d) (records_ofMembers p ms)
  | .method m :: ms => by
    unfold ofMembers CallNode.ofMembers
    exact records_append (records_ofMethod p m) (records_ofMembers p ms)
  | .initializer _ b _ :: ms => by
    unfold ofMembers CallNode.ofMembers
    exact records_append (records_ofBlock { p with method := none } b) (records_ofMembers p ms)
  | .type d :: ms => by
    unfold ofMembers CallNode.ofMembers
    exact records_append (records_ofType p.skip (p.enclosing.member d) d rfl)
      (records_ofMembers p ms)

theorem records_ofMethod (p : Place) :
    (m : MethodDecl) → Records p.skip (ofMethod p m) (CallNode.ofMethod m)
  | ⟨l, n, r, ps, b, ms, as, c⟩ => by
    unfold ofMethod CallNode.ofMethod
    rw [List.append_assoc]
    exact records_past (CallNode.kept_ofAnnotations as) (records_past (CallNode.kept_ofParams ps)
      (records_ofBlock? (p.inMethod ⟨l, n, r, ps, b, ms, as, c⟩) b))

theorem records_ofConstants (p : Place) :
    (cs : List EnumConstant) → Records p.skip (ofConstants p cs) (CallNode.ofConstants cs)
  | [] => by
    unfold ofConstants CallNode.ofConstants
    exact records_nothing
  | ⟨_, _, as, none⟩ :: cs => by
    unfold ofConstants CallNode.ofConstants
    exact records_append (records_ofExprs p as) (records_ofConstants p cs)
  | ⟨l, _, as, some ms⟩ :: cs => by
    unfold ofConstants CallNode.ofConstants
    exact records_append (records_append (records_ofExprs p as)
      (records_numbered fun k ↦ records_ofMembers (p.anonymous l ms none k) ms))
      (records_ofConstants p cs)

/-- A walk through a declared class records its calls, unless the class is to be skipped. -/
theorem records_ofType (skip : List String) (n : Nest) :
    (d : TypeDecl) → n.inner.decl = d → Records skip (ofType skip n d) (CallNode.ofType d)
  | ⟨_, _, _, members, _, as, constants, _⟩, hd => by
    unfold ofType CallNode.ofType ClassInfo.annotatedWith
    rw [hd, List.append_assoc]
    exact records_class (records_past (CallNode.kept_ofAnnotations as)
      (records_append (records_ofConstants (.ofClass skip n) constants)
        (records_ofMembers (.ofClass skip n) members)))

end

end Walk

/-- The call sites of a source file are all its calls that are to be recorded, each once. -/
theorem CallSite.map_call_ofUnit (unit : CompilationUnit) (skip : List String) :
    (CallSite.ofUnit unit skip).map CallSite.call = CallNode.kept skip (CallNode.ofUnit unit) := by
  have key : ∀ types : List TypeDecl, Walk.Records skip
      ((types.map fun d ↦ Walk.ofType skip (UnitIndex.topLevel unit.package d) d).foldr (· ++ ·)
        Walk.nothing) (types.flatMap CallNode.ofType) := by
    intro types
    induction types with
    | nil => exact Walk.records_nothing
    | cons d ds ih => exact Walk.records_append (Walk.records_ofType skip _ d rfl) ih
  exact key unit.types 0

/-- The call sites of a source text are all calls of its tree, each once, except those in
annotations and those in classes that carry an annotation to skip; and they are in the order of the
text, each call before those in it. -/
theorem CallSite.ofUnit_complete {source : List Char} {unit : CompilationUnit}
    (hp : CompilationUnit.parse source = .ok unit) (skip : List String) :
    (CallSite.ofUnit unit skip).map CallSite.call =
        ((CallNode.ofUnit unit).filter (CallNode.recorded skip)).map CallNode.call ∧
      ((CallSite.ofUnit unit skip).map fun s ↦ s.call.location).Pairwise Location.Before := by
  refine ⟨CallSite.map_call_ofUnit unit skip, ?_⟩
  obtain ⟨tokens, htokens, hr⟩ := CompilationUnit.parse_eq_ok.mp hp
  have hsub := (CallSite.occurrences_sublist unit skip).map fun o ↦ o.call.location
  rw [List.map_map] at hsub
  exact (Occurrence.fits_ofUnit htokens hr).ascending.sublist hsub

/-- A text with a call in an annotation, one inside another, and one in a class to be skipped. -/
private def annotatedText : List Char :=
  "@A(f())class B\x7b\x7bg(h());\x7d\x7d@Generated class C\x7b\x7bk();\x7d\x7d".toList

private theorem annotatedText_calls :
    (match CompilationUnit.parse annotatedText with
      | .ok unit => ((CallSite.ofUnit unit ["Generated"]).map fun s ↦ s.call.name,
          (CallNode.ofUnit unit).map fun x ↦ x.call.name)
      | .error _ => ([], [])) = (["g", "h"], ["f", "g", "h", "k"]) := by
  have htext : annotatedText = _ := String.toList_ofList
  rw [htext, CompilationUnit.parse_eq_parseNumbered]
  decide +kernel

/-- Of four calls, one in an annotation and one in a class to be skipped, the other two are
recorded. -/
theorem CallSite.ofUnit_annotatedText : ∃ unit,
    CompilationUnit.parse annotatedText = .ok unit ∧
      (CallNode.ofUnit unit).map (fun x ↦ x.call.name) = ["f", "g", "h", "k"] ∧
      ((CallNode.ofUnit unit).filter (CallNode.recorded ["Generated"])).map
        (fun x ↦ x.call.name) = ["g", "h"] := by
  have hcalls := annotatedText_calls
  split at hcalls
  · next unit hp =>
    obtain ⟨hsites, hnodes⟩ := Prod.mk.inj hcalls
    refine ⟨unit, hp, hnodes, ?_⟩
    have hall := congrArg (List.map Call.name) (CallSite.ofUnit_complete hp ["Generated"]).1
    rw [List.map_map, List.map_map] at hall
    exact hall.symm.trans hsites
  · cases hcalls

end GuardLint
