import Mathlib.Data.List.Basic
import GuardLint.Proofs.Grammar.Gather
import GuardLint.Proofs.Scope.Occurrence
import GuardLint.Syntax.Start

/-!
# Calls and productions

The calls of what a production builds are the calls of its parts, in their order. Only a call adds
one of its own, and only statements care whether an `else` follows.
-/

namespace GuardLint

open Syntax Grammar

namespace Occurrence

/-! ### Lists and parts that may be missing -/

private theorem flatMap_filterMap_self {α β : Type} (xs : List (Option α)) (f : α → List β) :
    (xs.filterMap fun x ↦ x).flatMap f = xs.flatMap fun o ↦ o.toList.flatMap f := by
  induction xs with
  | nil => rfl
  | cons o xs ih =>
    cases o with
    | none => exact ih
    | some x =>
      rw [List.flatMap_cons, ← ih]
      exact congrArg (· ++ _) (List.append_nil (f x)).symm

private theorem eq_flatMap {α β : Type} {f : α → List β} {fs : List α → List β} (hn : fs [] = [])
    (hc : ∀ x xs, fs (x :: xs) = f x ++ fs xs) : fs = fun xs ↦ xs.flatMap f := by
  funext xs
  induction xs with
  | nil => exact hn
  | cons x xs ih => rw [hc, ih, List.flatMap_cons]

theorem ofExpr?_eq (e : Option Expr) : ofExpr? e = e.toList.flatMap ofExpr := by
  cases e <;> simp [ofExpr?]

theorem ofBlock?_eq : ofBlock? = fun b ↦ b.toList.flatMap ofBlock := by
  funext b
  cases b <;> simp [ofBlock?]

theorem ofExprs_eq : ofExprs = fun es ↦ es.flatMap ofExpr :=
  eq_flatMap (by rw [ofExprs]) fun e es ↦ by rw [ofExprs]

theorem ofStmts_eq : ofStmts = fun ss ↦ ss.flatMap (ofStmt false) :=
  eq_flatMap (by rw [ofStmts]) fun s ss ↦ by rw [ofStmts]

theorem ofDeclarators_eq : ofDeclarators = fun ds ↦ ds.flatMap ofDeclarator :=
  eq_flatMap (by rw [ofDeclarators]) fun d ds ↦ by rw [ofDeclarators]

theorem ofSetups_eq : ofSetups = fun ss ↦ ss.flatMap ofSetup :=
  eq_flatMap (by rw [ofSetups]) fun s ss ↦ by rw [ofSetups]

theorem ofCatches_eq : ofCatches = fun cs ↦ cs.flatMap ofCatch :=
  eq_flatMap (by rw [ofCatches]) fun c cs ↦ by rw [ofCatches]

theorem ofItems_eq : ofItems = fun is ↦ is.flatMap ofItem :=
  eq_flatMap (by rw [ofItems]) fun i is ↦ by rw [ofItems]

theorem ofMembers_eq : ofMembers = fun ms ↦ ms.flatMap ofMember :=
  eq_flatMap (by rw [ofMembers]) fun m ms ↦ by rw [ofMembers]

theorem ofConstants_eq : ofConstants = fun cs ↦ cs.flatMap ofConstant :=
  eq_flatMap (by rw [ofConstants]) fun c cs ↦ by rw [ofConstants]

theorem ofExpr_newObject (l : Location) (t : TypeRef) (as : List Expr) (b : Option (List Member)) :
    ofExpr (.newObject l t as b) = ofExprs as ++ b.toList.flatMap ofMembers := by
  cases b <;> simp [ofExpr]

theorem ofConstant_mk (l : Location) (n : String) (as : List Expr) (b : Option (List Member)) :
    ofConstant ⟨l, n, as, b⟩ = ofExprs as ++ b.toList.flatMap ofMembers := by
  cases b <;> simp [ofConstant]

/-! ### Categories -/

/-- The calls in a value of a category. -/
def ofCategory (beforeElse : Bool) : (c : Category) → c.Value → List Occurrence
  | .compilationUnit => ofUnit
  | .typeDecl => fun d ↦ d.toList.flatMap ofType
  | .classDecl | .interfaceDecl | .enumDecl => ofType
  | .classBody | .enumMembers => ofMembers
  | .enumBody => fun b ↦ ofConstants b.1 ++ ofMembers b.2
  | .enumConstants => ofConstants
  | .enumConstant | .commaEnumConstant => ofConstant
  | .member => fun m ↦ m.toList.flatMap ofMember
  | .initializer => ofMember
  | .fieldDecl | .localVars => ofVars
  | .methodDecl | .constructorDecl => ofMethod
  | .methodBody => ofBlock?
  | .declarators => ofDeclarators
  | .declarator | .commaDeclarator => ofDeclarator
  | .block | .finallyClause => ofBlock
  | .blockStmt => ofStmt false
  | .statement | .elsePart => ofStmt beforeElse
  | .forInit | .resources => ofSetups
  | .resource | .furtherResource => ofSetup
  | .catchClause => ofCatch
  | .switchBody => ofItems
  | .switchLabel | .switchItem => ofItem
  | .varInits | .statementExprs | .arguments | .exprs => ofExprs
  | .initPart | .varInit | .commaVarInit | .arrayInit | .commaStatementExpr | .assertMessage
  | .statementExpr | .expr | .assignment | .assign | .assignTarget | .lambda | .conditional
  | .logicOr | .logicAnd | .bitOr | .bitXor | .bitAnd | .equality | .relational | .shift
  | .additive | .multiplicative | .unary | .unsignedUnary | .preStep | .cast | .postfixExpr
  | .postStep | .primary | .paren | .thisRef | .superRef | .name | .fieldAccess | .methodCall
  | .arrayAccess | .newObject | .newArray | .dimExpr | .classLiteral | .methodRef | .commaExpr
  | .literal => ofExpr
  | _ => fun _ ↦ []

/-- The calls in the value of a symbol. -/
def ofSymbol (beforeElse : Bool) : (s : Symbol Category) → s.Value Category.Value → List Occurrence
  | .tok _ => fun _ ↦ []
  | .node (.one c) => ofCategory beforeElse c
  | .node (.run c) => fun vs ↦ vs.flatMap (ofCategory false c)

/-- The calls in the value of an element. -/
def ofElement (beforeElse : Bool) :
    (e : Element Category) → e.Value Category.Value → List Occurrence
  | .need s => ofSymbol beforeElse s
  | .maybe s => fun v ↦ v.toList.flatMap (ofSymbol beforeElse s)
  | .many c => ofSymbol beforeElse (.node (.run c))

/-- The calls in the values of some elements. -/
def ofElements (beforeElse : Bool) :
    (es : List (Element Category)) → Values Category.Value es → List Occurrence
  | [], _ => []
  | e :: es, (v, vs) => ofElement beforeElse e v ++ ofElements beforeElse es vs

/-- The calls of what a production builds are the calls of its parts. -/
theorem ofCategory_value {c : Category} (hcall : c ≠ .methodCall) (hstmt : c ≠ .statement)
    (hval : c ≠ .elementValue) {b : Bool} (hb : c = .blockStmt → b = false) :
    ∀ p ∈ c.rules, ∀ (l : Location) (vs : Values Category.Value p.elements),
      ofCategory b c (p.value l vs) = ofElements b p.elements vs := by
  cases c with
  | methodCall => exact absurd rfl hcall
  | statement => exact absurd rfl hstmt
  | elementValue => exact absurd rfl hval
  | blockStmt =>
    obtain rfl := hb rfl
    simp only [Category.rules, Category.pass, Production.value, Action.apply, ofElements, ofElement,
      ofSymbol, ofCategory.eq_def, ofStmt, List.mem_cons, List.not_mem_nil, or_false, forall_eq_or_imp,
      forall_eq, implies_true, and_self, List.append_nil]
  | _ =>
    simp only [Category.rules, Category.pass, Category.infixed, Category.token, Category.words,
      Category.marks, Category.primitives, Category.declare, Production.value, Action.apply,
      ofElements, ofElement, ofSymbol, ofCategory.eq_def, ofUnit, ofExpr, ofExpr?_eq, ofExprs_eq,
      ofExpr_newObject, ofBlock, ofBlock?_eq, ofStmts_eq, ofVars, ofDeclarator, ofDeclarators_eq,
      ofSetup, ofSetups_eq, ofCatch, ofItem, ofItems_eq, ofMember, ofMembers_eq, ofMethod,
      ofConstant_mk, ofConstants_eq, ofType, flatMap_none, flatMap_getD, flatMap_filterMap_self,
      List.flatMap_map, List.mem_cons, List.not_mem_nil, or_false, forall_eq_or_imp, forall_eq,
      implies_true, and_self, List.append_nil, List.nil_append, List.nil_eq, List.map_cons,
      List.map_nil, Option.toList_some, Option.toList_none, List.flatMap_cons, List.flatMap_nil,
      List.append_assoc, id_eq]

/-- A call adds itself to the calls of its parts. -/
theorem ofCategory_methodCall (b : Bool) :
    ∀ p ∈ Category.rules .methodCall, ∀ (l : Location) (vs : Values Category.Value p.elements),
      ∃ target name args, p.value l vs = .call l target name args ∧
        ofCategory b .methodCall (p.value l vs) =
          ⟨⟨l, target, name, args⟩, none, false⟩ :: ofElements b p.elements vs := by
  simp [Category.rules, Production.value, Action.apply, ofElements, ofElement, ofSymbol,
    ofCategory.eq_def, ofExpr, ofExpr?_eq, flatMap_none]

/-- The elements of an expression statement, of an `if` or of a `do`. -/
def isBranching : List (Element Category) → Bool
  | .need s :: _ =>
    s == .node (.one .statementExpr) || s == .tok (.word .if) || s == .tok (.word .do)
  | _ => false

/-- The calls of any other statement are the calls of its parts. -/
theorem ofCategory_statement (b : Bool) :
    ∀ p ∈ Category.rules .statement, isBranching p.elements = false →
      ∀ (l : Location) (vs : Values Category.Value p.elements),
        ofCategory b .statement (p.value l vs) = ofElements b p.elements vs := by
  simp only [isBranching, Category.rules, Production.value, Action.apply, ofElements, ofElement,
    ofSymbol, ofCategory.eq_def, ofExpr?_eq, ofExprs_eq, ofStmt, ofBlock?_eq, ofSetups_eq, ofCatches_eq,
    ofItems_eq, flatMap_none, flatMap_getD, List.mem_cons, List.not_mem_nil, or_false,
    forall_eq_or_imp, forall_eq, implies_true, and_self, List.append_nil, List.nil_append,
    List.append_assoc, beq_eq_false_iff_ne, ne_eq, Symbol.node.injEq, Symbol.tok.injEq,
    Head.one.injEq, reduceCtorEq, not_false_eq_true, BEq.rfl, Bool.true_eq_false,
    Bool.or_eq_false_iff, Prod.forall, forall_const, true_and, Bool.or_true, Bool.true_or,
    IsEmpty.forall_iff]

end Occurrence

end GuardLint
