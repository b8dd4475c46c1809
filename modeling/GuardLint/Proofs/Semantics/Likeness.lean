import GuardLint.Check.Gate
import GuardLint.Proofs.Data.Table
import GuardLint.Proofs.Scope.StaticImport
import GuardLint.Proofs.Semantics.Naming
import GuardLint.Semantics.Effect

/-!
# Alike settings answer alike

In alike settings every question about a piece of code and about the same piece at another place has
the same answer, up to names that stand for the same.
-/

namespace GuardLint

open Syntax

/-! ### Lists of names -/

private theorem exists_of_mem_mapM {ε α β : Type} {f : α → Except ε β} {xs : List α} {ys : List β}
    (h : xs.mapM f = .ok ys) {y : β} (hy : y ∈ ys) : ∃ x ∈ xs, f x = .ok y := by
  induction xs generalizing ys with
  | nil =>
    cases h
    cases hy
  | cons x xs ih =>
    rw [List.mapM_cons] at h
    cases hx : f x with
    | error e => rw [hx] at h; cases h
    | ok z =>
      rw [hx] at h
      cases hxs : xs.mapM f with
      | error e => rw [hxs] at h; cases h
      | ok zs =>
        rw [hxs] at h
        cases h
        rcases List.mem_cons.mp hy with rfl | hy
        · exact ⟨x, List.mem_cons_self, hx⟩
        · obtain ⟨x', hx', hf⟩ := ih hxs hy
          exact ⟨x', List.mem_cons_of_mem x hx', hf⟩

namespace Naming

variable {x : UnitIndex} {Written : String → Prop} {N : Naming x Written} {g : Relocation}
  {c c' : Setting} {k k' : ClassInfo} {t t' : TypeRef} {v v' : Variable}

/-! ### Names -/

/-- A name that no text gives is not told from one that stands for the same. -/
theorem eq_iff_of_plain {a a' : String} (h : N.Same a a') {s : String} (hs : Plain s) :
    a = s ↔ a' = s := N.same_iff h (N.plain hs)

/-- Looking a name up where only plain names are gives the same. -/
theorem lookup_eq {α : Type} {a a' : String} (h : N.Same a a') {rows : List (String × α)}
    (hrows : ∀ r ∈ rows, Plain r.1) : rows.lookup a' = rows.lookup a := by
  rcases N.strange h with rfl | ⟨ha, ha'⟩
  · rfl
  · have hnone : ∀ s : String, '$' ∈ s.toList → rows.lookup s = none := fun s hs ↦
      List.lookup_eq_none_iff.mpr fun r hr ↦ by
        rw [bne_iff_ne]
        rintro rfl
        exact (hrows r hr).1 hs
    rw [hnone a ha, hnone a' ha']

theorem contains_eq {a a' : String} (h : N.Same a a') {names : List String}
    (hnames : ∀ s ∈ names, Plain s) : names.contains a' = names.contains a := by
  rcases N.strange h with rfl | ⟨ha, ha'⟩
  · rfl
  · have hnot : ∀ s : String, '$' ∈ s.toList → names.contains s = false := fun s hs ↦ by
      rw [← Bool.not_eq_true, List.contains_iff_mem]
      exact fun hmem ↦ (hnames s hmem).1 hs
    rw [hnot a ha, hnot a' ha']

/-! ### Types under operators -/

theorem elementType {a a' : String} (ha : N.Same a a') : Answer N.Same
    (match Typing.elementType? a with
      | some e => .ok e
      | none => .error (.unresolved (.notArray a)))
    (match Typing.elementType? a' with
      | some e => .ok e
      | none => .error (.unresolved (.notArray a'))) := by
  obtain ⟨he, he'⟩ | ⟨_, _, he, he', hee⟩ := rel_cases (N.element ha)
  · simp only [he, he']
    exact .unresolved _ _
  · simp only [he, he']
    exact .ok hee

/-- The names of types that operators know are plain. -/
private theorem plain_operands : (∀ r ∈ Typing.boxes, Plain r.1 ∧ Plain r.2) ∧
    (∀ s ∈ Typing.numericTypes, Plain s) ∧ "int" ∈ Typing.numericTypes ∧
      ∀ s ∈ [Typing.stringType, "boolean", "null"], Plain s := by decide

private theorem numeric_plain (s : String) (hs : s ∈ Typing.numericTypes) : Plain s :=
  plain_operands.2.1 s hs

theorem unbox {a a' : String} (ha : N.Same a a') :
    N.Same (Typing.unbox a) (Typing.unbox a') := by
  have hboxes := plain_operands.1
  unfold Typing.unbox
  rw [lookup_eq ha fun r hr ↦ (hboxes r hr).1]
  cases hb : Typing.boxes.lookup a with
  | none => exact ha
  | some b => exact N.plain (hboxes _ (mem_of_lookup hb)).2

/-- What an operator makes of a number is one of the numeric types. -/
theorem promote {a a' : String} (ha : N.Same a a') :
    Resolve (fun r r' ↦ r = r' ∧ r ∈ Typing.numericTypes) (Typing.promote a)
      (Typing.promote a') := by
  have hu := unbox ha
  unfold Typing.promote
  dsimp only
  rw [contains_eq hu numeric_plain]
  split
  · exact .error trivial
  · next hmem =>
    have hmem : Typing.unbox a ∈ Typing.numericTypes := by simpa using hmem
    rw [(eq_iff_of_plain hu (numeric_plain _ hmem)).mp rfl]
    split
    · exact .ok ⟨rfl, plain_operands.2.2.1⟩
    · exact .ok ⟨rfl, hmem⟩

theorem promoteBoth {a a' b b' : String} (ha : N.Same a a') (hb : N.Same b b') :
    Resolve N.Same (Typing.promoteBoth a b) (Typing.promoteBoth a' b') := by
  refine (promote ha).bind ?_
  rintro l _ ⟨rfl, hl⟩
  refine (promote hb).bind ?_
  rintro r _ ⟨rfl, hr⟩
  refine .ok (N.plain ?_)
  split
  · exact numeric_plain r hr
  · exact numeric_plain l hl

theorem promote_same {a a' : String} (ha : N.Same a a') :
    Resolve N.Same (Typing.promote a) (Typing.promote a') := by
  refine (promote ha).imp ?_
  rintro r _ ⟨rfl, hr⟩
  exact N.plain (numeric_plain r hr)

theorem beq_eq_of_plain {a a' : String} (h : N.Same a a') {s : String} (hs : Plain s) :
    (a' == s) = (a == s) :=
  Bool.eq_iff_iff.mpr (by simpa using (eq_iff_of_plain h hs).symm)

theorem operatorType (op : BinaryOp) {a a' b b' : String} (ha : N.Same a a')
    (hb : N.Same b b') :
    Resolve N.Same (Typing.operatorType op a b) (Typing.operatorType op a' b') := by
  have hstring : Plain Typing.stringType := plain_operands.2.2.2 _ (by simp)
  have hboolean : Plain "boolean" := plain_operands.2.2.2 _ (by simp)
  unfold Typing.operatorType
  rw [beq_eq_of_plain ha hstring, beq_eq_of_plain hb hstring, beq_eq_of_plain (unbox ha) hboolean,
    beq_eq_of_plain (unbox hb) hboolean]
  split
  · exact .ok (N.plain hstring)
  · split
    case h_4 | h_5 | h_6 => exact promote_same ha
    case h_7 => exact promoteBoth ha hb
    all_goals
      split
      · exact .ok (N.plain hboolean)
      · exact promoteBoth ha hb

theorem branchType {a a' b b' : String} (ha : N.Same a a') (hb : N.Same b b') :
    Resolve N.Same (Typing.branchType a b) (Typing.branchType a' b') := by
  have hnull : Plain "null" := plain_operands.2.2.2 _ (by simp)
  unfold Typing.branchType
  simp only [N.same_iff ha hb, eq_iff_of_plain ha hnull, eq_iff_of_plain hb hnull]
  split
  · exact .ok ha
  · split
    · exact .ok hb
    · split
      · exact .ok ha
      · exact promoteBoth ha hb

namespace OfSetting

variable (h : N.OfSetting g c c')
include h

theorem resolveType (n : String) : c'.index.resolveType n = c.index.resolveType n := by
  rw [h.index, h.index', Relocation.index_resolveType]

theorem classNamed? (n : String) :
    c'.index.classNamed? n = (c.index.classNamed? n).map g.nest := by
  rw [h.index, h.index', Relocation.index_classNamed?]

/-- Classes of one full name, or of names that stand for the same, are alike. -/
theorem rel_classNamed? {a a' : String} (ha : a' = a ∨ N.Same a a') :
    Option.Rel (fun n n' ↦ n ∈ x.classes ∧ n' = g.nest n) (c.index.classNamed? a)
      (c'.index.classNamed? a') := by
  have heq : c.index.classNamed? a' = c.index.classNamed? a := by
    rcases ha with rfl | ha
    · rfl
    · rw [h.index]
      exact N.classNamed ha
  rw [h.classNamed?, heq]
  cases hn : c.index.classNamed? a with
  | none => exact .none
  | some n =>
    rw [h.index] at hn
    exact .some ⟨List.mem_of_find?_eq_some hn, rfl⟩

theorem lookup (n : String) :
    Option.Rel (N.OfVariable g) (c.scope.lookup n) (c'.scope.lookup n) :=
  rel_find? h.scope fun v v' hv ↦ by rw [hv.name]

/-- The name of a type that an expression names does not depend on places. -/
theorem typeName? : (e : Expr) → c'.typeName? (g.expr e) = c.typeName? e
  | .name l n => by
    simp only [Relocation.expr, Setting.typeName?]
    obtain ⟨hv, hv'⟩ | ⟨v, v', hv, hv', -⟩ := rel_cases (h.lookup n)
    · rw [hv, hv']
    · rw [hv, hv']
      rfl
  | .field l e n => by
    simp only [Relocation.expr, Setting.typeName?, typeName? e]
    congr 1
    funext name
    cases name with
    | none => rfl
    | some head =>
      simp only [h.resolveType]
      congr 1
      funext full
      obtain ⟨hk, hk'⟩ | ⟨k, _, hk, hk', hmem, rfl⟩ :=
        rel_cases (h.rel_classNamed? (.inl (rfl : full = full)))
      · rw [hk, hk']
      · rw [hk, hk']
        have hclass : N.OfClass g k.inner (g.nest k).inner := N.ofClass_declared hmem
        obtain ⟨hv, hv'⟩ | ⟨v, v', hv, hv', -⟩ := rel_cases (hclass.field? n)
        · simp only [hv, hv']
        · simp only [hv, hv']
          rfl
  | .literal .. | .this .. | .super .. | .paren .. | .call .. | .index .. | .newArray ..
  | .arrayInit .. | .classLiteral .. | .methodRef .. | .typeMethodRef .. | .binary ..
  | .instanceOf .. | .unary .. | .preStep .. | .postStep .. | .assign .. | .conditional ..
  | .cast .. | .lambda .. | .lambdaBlock .. => by
    simp only [Relocation.expr, Setting.typeName?]
  | .newObject _ _ _ none | .newObject _ _ _ (some _) => by
    simp only [Relocation.expr, Setting.typeName?]

/-! ### Types as they are written -/

theorem typeOfRef_type (t : TypeRef) : c'.typeOfRef (g.type t) = c.typeOfRef t := by
  simp only [Setting.typeOfRef, Relocation.type_name, Relocation.type_dims, h.resolveType]

theorem same_of_written (ht : Written t.name) {r : String} (hr : c.typeOfRef t = .ok r) :
    N.Same r r := by
  unfold Setting.typeOfRef at hr
  rw [h.index] at hr
  cases hn : x.resolveType t.name with
  | error e => rw [hn] at hr; cases hr
  | ok n =>
    rw [hn] at hr
    cases hr
    exact N.written ht hn t.dims

theorem typeOfRef (ht : N.Ref t t') : Resolve N.Same (c.typeOfRef t) (c'.typeOfRef t') := by
  cases ht with
  | written hw hname hdims =>
    have heq : c'.typeOfRef t' = c.typeOfRef t := by
      simp only [Setting.typeOfRef, hname, hdims, h.resolveType]
    rw [heq]
    cases hr : c.typeOfRef t with
    | error e => exact .error trivial
    | ok r => exact .ok (h.same_of_written hw hr)
  | same hs hd hd' =>
    simp only [Setting.typeOfRef, hd, hd', h.resolveType]
    refine Agree.bind (R := N.Same) ?_ fun a b hab ↦ .ok (by simpa using hab)
    rw [h.index]
    exact N.resolve hs

end OfSetting

/-! ### Owners of methods -/

theorem contains_same {seen seen' : List String} (hs : List.Forall₂ N.Same seen seen')
    {a a' : String} (ha : N.Same a a') : seen'.contains a' = seen.contains a := by
  induction hs with
  | nil => rfl
  | cons hb _ ih =>
    rw [List.contains_cons, List.contains_cons, ih]
    congr 1
    exact Bool.eq_iff_iff.mpr (by simpa using (N.same_iff ha hb).symm)

/-- Answers of searches alike: owners that stand for the same, and the classes searched. -/
def Found (r r' : Option String × List String) : Prop :=
  Option.Rel N.Same r.1 r'.1 ∧ List.Forall₂ N.Same r.2 r'.2

/-- Owners alike: they are equal or stand for the same. -/
def Owner (a a' : String) : Prop := a' = a ∨ N.Same a a'

namespace OfSetting

variable (h : N.OfSetting g c c')
include h

theorem searchTypes {name name' : String}
    {search search' : ClassInfo → List String → Except Unresolved (Option String × List String)}
    (hsearch : ∀ k k' seen seen', N.OfClass g k k' → List.Forall₂ N.Same seen seen' →
      Resolve N.Found (search k seen) (search' k' seen')) (ts : List TypeRef)
    {seen seen' : List String} (hs : List.Forall₂ N.Same seen seen') :
    Resolve N.Found (c.searchTypes name search ts seen)
      (c'.searchTypes name' search' (ts.map g.type) seen') := by
  induction ts generalizing seen seen' with
  | nil => exact .ok ⟨.none, hs⟩
  | cons t ts ih =>
    rw [List.map_cons]
    simp only [Setting.searchTypes, Relocation.type_name, h.resolveType]
    refine (Agree.self (c.index.resolveType t.name)).bind ?_
    rintro full _ rfl
    obtain ⟨hk, hk'⟩ | ⟨k, _, hk, hk', hmem, rfl⟩ :=
      rel_cases (h.rel_classNamed? (.inl (rfl : full = full)))
    · rw [hk, hk']
      exact .error trivial
    · rw [hk, hk']
      refine Agree.bind (hsearch _ _ _ _ (N.ofClass_declared hmem) hs) ?_
      rintro ⟨owner, seen⟩ ⟨owner', seen'⟩ ⟨ho, hs⟩
      cases ho with
      | none => exact ih hs
      | some ho => exact .ok ⟨.some ho, hs⟩

theorem inheritedFrom (method : String) (fuel : Nat) (hk : N.OfClass g k k')
    {seen seen' : List String} (hs : List.Forall₂ N.Same seen seen') :
    Resolve N.Found (c.inheritedFrom method fuel k seen)
      (c'.inheritedFrom method fuel k' seen') := by
  induction fuel generalizing k k' seen seen' with
  | zero => exact .ok ⟨.none, hs⟩
  | succ fuel ih =>
    unfold Setting.inheritedFrom
    rw [contains_same hs hk.fullName, hk.declares]
    split
    · exact .ok ⟨.none, hs⟩
    · split
      · exact .ok ⟨.some hk.fullName, .cons hk.fullName hs⟩
      · rw [hk.decl, Relocation.typeDecl_supertypes]
        exact h.searchTypes (fun _ _ _ _ hk hs ↦ ih hk hs) _ (.cons hk.fullName hs)

theorem length_classes : c'.index.classes.length = c.index.classes.length := by
  rw [h.index, h.index', Relocation.index_classes, List.length_map]

theorem memberOwner (method : String) {ks ks' : List ClassInfo}
    (hks : List.Forall₂ (N.OfClass g) ks ks') :
    Resolve (Option.Rel N.Same) (c.memberOwner method ks) (c'.memberOwner method ks') := by
  induction hks with
  | nil => exact .ok .none
  | cons hk _ ih =>
    simp only [Setting.memberOwner, h.length_classes]
    refine Agree.bind (h.inheritedFrom method _ hk .nil) ?_
    rintro ⟨owner, seen⟩ ⟨owner', seen'⟩ ⟨ho, -⟩
    cases ho with
    | none => exact ih
    | some ho => exact .ok (.some ho)

theorem chain : List.Forall₂ (N.OfClass g) c.enclosing.chain c'.enclosing.chain :=
  .cons h.inner h.outer

theorem bareOwner (method : String) :
    Resolve N.Owner (c.bareOwner method) (c'.bareOwner method) := by
  refine Agree.bind (h.memberOwner method h.chain) fun owner owner' ho ↦ ?_
  cases ho with
  | some ho => exact .ok (.inr ho)
  | none =>
    dsimp only
    rw [h.index, h.index', Relocation.index_staticOwners]
    split
    · exact .error trivial
    · exact .ok (.inl rfl)
    · exact .error trivial

/-! ### Calls -/

/-- What the methods of a declared class return does not depend on places. -/
theorem declaredReturn? {n : Nest} (hn : n ∈ x.classes) (method : String) (count : Nat) :
    Typing.declaredReturn? c' (g.nest n).inner method count =
      Typing.declaredReturn? c n.inner method count := by
  have hclass : N.OfClass g n.inner (g.nest n).inner := N.ofClass_declared hn
  have haccepts : ∀ m, Typing.accepts (g.method m) count = Typing.accepts m count := by
    intro m
    simp only [Typing.accepts, Relocation.method_params, List.length_map, List.getLast?_map]
    cases m.params.getLast? <;> simp
  have hrefs : (((g.nest n).inner.methodsNamed method).filter (Typing.accepts · count)).filterMap
        MethodDecl.returnType =
      ((((n.inner.methodsNamed method).filter (Typing.accepts · count)).filterMap
        MethodDecl.returnType)).map g.type := by
    rw [hclass.methodsNamed, List.filter_map, List.filterMap_map, List.map_filterMap]
    simp only [Function.comp_def, haccepts, Relocation.method_returnType]
  have hmap : ∀ ts : List TypeRef, (ts.map g.type).mapM c'.typeOfRef = ts.mapM c.typeOfRef := by
    intro ts
    induction ts with
    | nil => rfl
    | cons t ts ih => rw [List.map_cons, List.mapM_cons, List.mapM_cons, ih, h.typeOfRef_type]
  unfold Typing.declaredReturn?
  dsimp only
  rw [hrefs, hmap]

/-- What the methods of a declared class return is a type that is written in the text. -/
theorem same_declaredReturn {n : Nest} (hn : n ∈ x.classes) {method : String} {count : Nat}
    {r : String} (hr : Typing.declaredReturn? c n.inner method count = .ok (some r)) :
    N.Same r r := by
  unfold Typing.declaredReturn? at hr
  dsimp only at hr
  generalize hrefs : ((n.inner.methodsNamed method).filter (Typing.accepts · count)).filterMap
    MethodDecl.returnType = refs at hr
  cases htypes : refs.mapM c.typeOfRef with
  | error e => rw [htypes] at hr; cases hr
  | ok types =>
    rw [htypes] at hr
    have hmem : r ∈ types := by
      refine mem_distinct.mp ?_
      simp only [bind, Except.bind] at hr
      split at hr
      · next t ht =>
        cases hr
        rw [ht]
        exact List.mem_singleton_self r
      · cases hr
    obtain ⟨t, ht, hr⟩ := exists_of_mem_mapM htypes hmem
    refine h.same_of_written ?_ hr
    rw [← hrefs] at ht
    obtain ⟨m, hm, hreturn⟩ := List.mem_filterMap.mp ht
    obtain ⟨member, hmember, hmethod⟩ :=
      List.mem_filterMap.mp (List.mem_of_mem_filter (List.mem_of_mem_filter hm))
    refine (N.declared n hn).2 _ (TypeName.mem_ofType hmember ?_)
    cases member with
    | method m' =>
      simp only [ClassInfo.method?] at hmethod
      split at hmethod
      · cases hmethod
      · cases hmethod
        obtain ⟨_, _, _, _, _, _, _, _⟩ := m
        obtain rfl : _ = some t := hreturn
        simp [TypeName.ofMember, TypeName.ofMethod]
    | field | initializer | type => cases hmethod

end OfSetting

/-- Calls alike that are bound. -/
structure OfBound (g : Relocation) (call call' : ResolvedCall Expr) : Prop where
  owner : N.Owner call.owner call'.owner
  method : call'.method = call.method
  args : call'.args = call.args.map g.expr
  isStatic : call'.isStatic = call.isStatic

theorem Owner.lookup_pair {a a' method : String} (h : N.Owner a a')
    {rows : List ((String × String) × String)} (hrows : ∀ r ∈ rows, Plain r.1.1) :
    rows.lookup (a', method) = rows.lookup (a, method) := by
  rcases h with rfl | h
  · rfl
  · rcases N.strange h with rfl | ⟨ha, ha'⟩
    · rfl
    · have hnone : ∀ s : String, '$' ∈ s.toList → rows.lookup (s, method) = none := fun s hs ↦
        List.lookup_eq_none_iff.mpr fun r hr ↦ by
          rw [bne_iff_ne]
          intro heq
          refine (hrows r hr).1 ?_
          rw [← heq]
          exact hs
      rw [hnone a ha, hnone a' ha']

theorem Owner.beq_eq {a a' : String} (h : N.Owner a a') {s : String} (hs : Plain s) :
    (a' == s) = (a == s) := by
  rcases h with rfl | h
  · rfl
  · exact beq_eq_of_plain h hs

theorem OfBound.catalog {call call' : ResolvedCall Expr} (hcall : N.OfBound g call call') :
    Catalog.lookup call'.owner call'.method = Catalog.lookup call.owner call.method := by
  have howners : ∀ s ∈ Catalog.shapes, Plain s.owner := by decide +kernel
  rw [Catalog.lookup, Catalog.lookup, hcall.method]
  have hfind : Catalog.shapes.find? (·.owner == call'.owner) =
      Catalog.shapes.find? (·.owner == call.owner) := by
    generalize Catalog.shapes = shapes at howners
    induction shapes with
    | nil => rfl
    | cons s shapes ih =>
      obtain ⟨hs, hshapes⟩ := List.forall_mem_cons.mp howners
      rw [List.find?_cons, List.find?_cons, BEq.comm, hcall.owner.beq_eq hs, BEq.comm, ih hshapes]
  rw [hfind]

namespace OfSetting

variable (h : N.OfSetting g c c')
include h

theorem returnType {call call' : ResolvedCall Expr} (hcall : N.OfBound g call call') :
    Resolve N.Same (Typing.returnType c call) (Typing.returnType c' call') := by
  have hrows : ∀ r ∈ Typing.knownReturns, Plain r.1.1 ∧ Plain r.2 := by decide +kernel
  have hmethods : ∀ r ∈ Typing.stringMethods, Plain r.2 := by decide +kernel
  unfold Typing.returnType
  rw [hcall.owner.beq_eq (by decide), hcall.isStatic, hcall.method, hcall.args,
    List.length_map, hcall.owner.lookup_pair fun r hr ↦ (hrows r hr).1]
  split
  · next t ht => exact .ok (N.plain (hrows _ (mem_of_lookup ht)).2)
  · split
    · next t ht =>
      refine .ok (N.plain ?_)
      split at ht
      · exact hmethods _ (mem_of_lookup ht)
      · cases ht
    · obtain ⟨hk, hk'⟩ | ⟨k, _, hk, hk', hmem, rfl⟩ := rel_cases (h.rel_classNamed? hcall.owner)
      · rw [hk, hk']
        exact .error trivial
      · rw [hk, hk']
        dsimp only
        rw [h.declaredReturn? hmem]
        cases hr : Typing.declaredReturn? c k.inner call.method call.args.length with
        | error e => exact .error trivial
        | ok r =>
          cases r with
          | none => exact .error trivial
          | some r => exact .ok (h.same_declaredReturn hmem hr)

theorem bindCall {target : Option Expr} {receiver receiver' : Unit → Except Failure String}
    (hreceiver : target.isSome = true → Answer N.Same (receiver ()) (receiver' ()))
    (method : String) (args : List Expr) :
    Answer (N.OfBound g) (Typing.bindCall c target receiver method args)
      (Typing.bindCall c' (target.map g.expr) receiver' method (args.map g.expr)) := by
  cases target with
  | none =>
    exact (h.bareOwner method).lift.bind fun owner owner' ho ↦ .ok ⟨ho, rfl, rfl, rfl⟩
  | some e =>
    simp only [Option.map_some, Typing.bindCall, h.typeName?]
    refine (Agree.self (c.typeName? e)).lift.bind ?_
    rintro name _ rfl
    cases name with
    | some name =>
      simp only [h.resolveType]
      refine (Agree.self (c.index.resolveType name)).lift.bind ?_
      rintro owner _ rfl
      exact .ok ⟨.inl rfl, rfl, rfl, rfl⟩
    | none => exact (hreceiver rfl).bind fun owner owner' ho ↦ .ok ⟨.inr ho, rfl, rfl, rfl⟩

theorem callType {target : Option Expr} {receiver receiver' : Unit → Except Failure String}
    (hreceiver : target.isSome = true → Answer N.Same (receiver ()) (receiver' ()))
    (method : String) (args : List Expr) :
    Answer N.Same (Typing.callType c target receiver method args)
      (Typing.callType c' (target.map g.expr) receiver' method (args.map g.expr)) := by
  unfold Typing.callType
  rw [List.isEmpty_map]
  split
  · exact .ok (N.plain (by decide))
  · exact (h.bindCall hreceiver method args).bind fun call call' hcall ↦ (h.returnType hcall).lift

/-! ### Types of expressions -/

omit h in
/-- Whatever class a field is looked for in, only names that stand for the same make a
difference. -/
private theorem fieldOf {ofVar ofVar' : Variable → Except Failure String}
    (hvar : ∀ v v', N.OfVariable g v v' → Answer N.Same (ofVar v) (ofVar' v'))
    {k? k?' : Option ClassInfo} (hrel : Option.Rel (N.OfClass g) k? k?') (n : String) :
    Answer N.Same
      (match k?.bind (·.field? n) with
        | some v => ofVar v
        | none => .error (.unresolved (.unknownField n)))
      (match k?'.bind (·.field? n) with
        | some v => ofVar' v
        | none => .error (.unresolved (.unknownField n))) := by
  obtain ⟨rfl, rfl⟩ | ⟨k, k', rfl, rfl, hk⟩ := rel_cases hrel
  · exact .unresolved _ _
  · obtain ⟨hv, hv'⟩ | ⟨v, v', hv, hv', hvv⟩ := rel_cases (hk.field? n)
    · simp only [Option.bind_some, hv, hv']
      exact .unresolved _ _
    · simp only [Option.bind_some, hv, hv']
      exact hvar v v' hvv

theorem fieldType {ofVar ofVar' : Variable → Except Failure String}
    (hvar : ∀ v v', N.OfVariable g v v' → Answer N.Same (ofVar v) (ofVar' v')) {target : Expr}
    {targetType targetType' : Unit → Except Failure String}
    (htarget : Answer N.Same (targetType ()) (targetType' ())) (n : String) :
    Answer N.Same (Typing.fieldType c ofVar target targetType n)
      (Typing.fieldType c' ofVar' (g.expr target) targetType' n) := by
  have hfield := fun {k? k?' : Option ClassInfo} (hrel : Option.Rel (N.OfClass g) k? k?') ↦
    fieldOf hvar hrel n
  have hclass : ∀ {a a'}, N.Owner a a' → Option.Rel (N.OfClass g)
      ((c.index.classNamed? a).map Nest.inner) ((c'.index.classNamed? a').map Nest.inner) := by
    intro a a' ha
    obtain ⟨hk, hk'⟩ | ⟨k, _, hk, hk', hmem, rfl⟩ := rel_cases (h.rel_classNamed? ha)
    · rw [hk, hk']
      exact .none
    · rw [hk, hk']
      exact .some (N.ofClass_declared hmem)
  unfold Typing.fieldType
  rw [h.typeName?]
  refine (Agree.self (c.typeName? target)).lift.bind ?_
  rintro typeName _ rfl
  dsimp only
  split
  case' isTrue => refine htarget.bind fun t t' ht ↦ ?_
  case' isTrue =>
    have hlength : (Typing.elementType? t').isSome = (Typing.elementType? t).isSome := by
      obtain ⟨he, he'⟩ | ⟨_, _, he, he', -⟩ := rel_cases (N.element ht) <;> rw [he, he']
      rfl
    rw [hlength]
  all_goals
    refine Agree.bind (R := Eq) (.ok rfl) ?_
    rintro isLength _ rfl
    split
    · exact .ok (N.plain (by decide))
    cases typeName with
    | some name =>
      simp only [h.resolveType]
      refine (Agree.self (c.index.resolveType name)).lift.bind ?_
      rintro full _ rfl
      exact hfield (hclass (.inl rfl))
    | none =>
      cases target with
      | this l =>
        simp only [Relocation.expr]
        exact hfield (.some h.inner)
      | newObject l t as b =>
        simp only [Relocation.expr_newObject]
        exact htarget.bind fun t t' ht ↦ hfield (hclass (.inr ht))
      | _ =>
        simp only [Relocation.expr]
        exact htarget.bind fun t t' ht ↦ hfield (hclass (.inr ht))

/-- An expression has the same type wherever it stands, up to names that stand for the same. -/
theorem typeOf {ofVar ofVar' : Variable → Except Failure String}
    (hvar : ∀ v v', N.OfVariable g v v' → Answer N.Same (ofVar v) (ofVar' v')) :
    (e : Expr) → (∀ n ∈ TypeName.ofExpr e, Written n) →
      Answer N.Same (Typing.typeOf c ofVar e) (Typing.typeOf c' ofVar' (g.expr e))
  | .literal _ k _, _ => by
    simp only [Relocation.expr, Typing.typeOf]
    exact .ok (N.plain (by cases k <;> decide))
  | .paren _ e, hw | .preStep _ _ e, hw | .postStep _ _ e, hw => by
    rw [TypeName.ofExpr] at hw
    simp only [Relocation.expr, Typing.typeOf]
    exact typeOf hvar e hw
  | .assign _ _ e _, hw => by
    rw [TypeName.ofExpr, List.forall_mem_append] at hw
    simp only [Relocation.expr, Typing.typeOf]
    exact typeOf hvar e hw.1
  | .name _ n, _ => by
    simp only [Relocation.expr, Typing.typeOf]
    obtain ⟨hv, hv'⟩ | ⟨v, v', hv, hv', hvv⟩ := rel_cases (h.lookup n)
    · simp only [hv, hv']
      exact .unresolved _ _
    · simp only [hv, hv']
      exact hvar v v' hvv
  | .field _ e n, hw => by
    rw [TypeName.ofExpr] at hw
    simp only [Relocation.expr, Typing.typeOf]
    exact h.fieldType hvar (typeOf hvar e hw) n
  | .call _ none n as, _ => by
    simp only [Relocation.expr, Relocation.expr?_eq, Relocation.exprs_eq, Option.map_none,
      Typing.typeOf]
    exact h.callType (fun hs ↦ by cases hs) n as
  | .call _ (some e) n as, hw => by
    rw [TypeName.ofExpr, List.forall_mem_append, TypeName.ofExpr?] at hw
    simp only [Relocation.expr, Relocation.expr?_eq, Relocation.exprs_eq, Option.map_some,
      Typing.typeOf]
    exact h.callType (fun _ ↦ typeOf hvar e hw.1) n as
  | .binary _ op a b, hw => by
    rw [TypeName.ofExpr, List.forall_mem_append] at hw
    simp only [Relocation.expr, Typing.typeOf]
    split
    · exact .ok (N.plain (by decide))
    · refine (typeOf hvar a hw.1).bind fun l l' hl ↦ (typeOf hvar b hw.2).bind fun r r' hr ↦ ?_
      exact (operatorType op hl hr).lift
  | .unary _ op e, hw => by
    rw [TypeName.ofExpr] at hw
    simp only [Relocation.expr, Typing.typeOf]
    split
    · exact .ok (N.plain (by decide))
    · exact (typeOf hvar e hw).bind fun t t' ht ↦ (promote_same ht).lift
  | .conditional _ q a b, hw => by
    rw [TypeName.ofExpr, List.forall_mem_append, List.forall_mem_append] at hw
    simp only [Relocation.expr, Typing.typeOf]
    refine (typeOf hvar a hw.1.2).bind fun l l' hl ↦ (typeOf hvar b hw.2).bind fun r r' hr ↦ ?_
    exact (branchType hl hr).lift
  | .cast _ t _, hw | .newArray _ t _ _, hw | .newObject _ t _ none, hw
  | .newObject _ t _ (some _), hw => by
    rw [TypeName.ofExpr] at hw
    simp only [Relocation.expr, Typing.typeOf]
    exact (h.typeOfRef (ref_type (hw t.name List.mem_cons_self))).lift
  | .index _ a _, hw => by
    rw [TypeName.ofExpr, List.forall_mem_append] at hw
    simp only [Relocation.expr, Typing.typeOf]
    exact (typeOf hvar a hw.1).bind fun t t' ht ↦ elementType ht
  | .instanceOf .., _ | .classLiteral .., _ | .lambda .., _ | .lambdaBlock .., _
  | .methodRef .., _ | .typeMethodRef .., _ => by
    simp only [Relocation.expr, Typing.typeOf]
    exact .ok (N.plain (by decide))
  | .this _, _ => by
    simp only [Relocation.expr, Typing.typeOf]
    exact .ok h.inner.fullName
  | .super _, _ | .arrayInit .., _ => by
    simp only [Relocation.expr, Typing.typeOf]
    exact .unresolved _ _

/-- A variable has the same type, up to names that stand for the same. -/
theorem declaredType {infer infer' : Expr → Except Failure String} (hv : N.OfVariable g v v')
    (hinfer : ∀ e ∈ v.init, Answer N.Same (infer e) (infer' (g.expr e))) :
    Answer N.Same (Typing.declaredType c infer v) (Typing.declaredType c' infer' v') := by
  unfold Typing.declaredType
  rw [hv.init, hv.name]
  obtain ⟨ht, ht'⟩ | ⟨t, t', ht, ht', htt⟩ := rel_cases hv.type
  · simp only [ht, ht']
    exact .unresolved _ _
  · simp only [ht, ht']
    have hvar : (t'.name = "var" && t'.dims = 0) = (t.name = "var" && t.dims = 0) := by
      cases htt with
      | written _ hname hdims => rw [hname, hdims]
      | same hs hd hd' => simp [hd, hd', eq_iff_of_plain hs (s := "var") (by decide)]
    rw [hvar]
    split
    · cases hi : v.init with
      | none => exact .unresolved _ _
      | some e => exact hinfer e hi
    · exact (h.typeOfRef htt).lift

theorem typeOfVariable (fuel : Nat) (hv : N.OfVariable g v v') :
    Answer N.Same (Typing.typeOfVariable c fuel v) (Typing.typeOfVariable c' fuel v') := by
  induction fuel generalizing v v' with
  | zero => exact h.declaredType hv fun _ _ ↦ .error (.fault _)
  | succ fuel ih => exact h.declaredType hv fun e he ↦ h.typeOf (fun _ _ ↦ ih) e (hv.written e he)

/-- As many variables can be named. -/
theorem variableCount : c'.variableCount = c.variableCount := by
  have hfields : ∀ {k k'}, N.OfClass g k k' → k'.fields.length = k.fields.length :=
    fun hk ↦ hk.fields.length_eq.symm
  have hchain : ∀ {ks ks'}, List.Forall₂ (N.OfClass g) ks ks' →
      (ks'.flatMap (·.fields)).length = (ks.flatMap (·.fields)).length := by
    intro ks ks' hks
    induction hks with
    | nil => rfl
    | cons hk _ ih => rw [List.flatMap_cons, List.flatMap_cons, List.length_append,
        List.length_append, ih, hfields hk]
  have hclasses : (c'.index.classes.flatMap (·.inner.fields)).length =
      (c.index.classes.flatMap (·.inner.fields)).length := by
    rw [h.index, h.index', Relocation.index_classes, List.length_flatMap, List.length_flatMap,
      List.map_map]
    congr 1
    exact List.map_congr_left fun n hn ↦ hfields (N.ofClass_declared hn)
  rw [Setting.variableCount, Setting.variableCount, hchain h.chain, hclasses, h.scope.length_eq]

theorem variableType (hv : N.OfVariable g v v') :
    Answer N.Same (c.variableType v) (c'.variableType v') := by
  unfold Setting.variableType
  rw [h.variableCount]
  exact h.typeOfVariable c.variableCount hv

theorem staticType {e : Expr} (hw : ∀ n ∈ TypeName.ofExpr e, Written n) :
    Answer N.Same (c.staticType e) (c'.staticType (g.expr e)) :=
  h.typeOf (fun _ _ ↦ h.variableType) e hw

theorem resolveCall {call : Call} (hw : ∀ e ∈ call.target, ∀ n ∈ TypeName.ofExpr e, Written n) :
    Answer (N.OfBound g) (c.resolveCall call) (c'.resolveCall (g.call call)) := by
  refine h.bindCall (fun hs ↦ ?_) call.name call.args
  cases ht : call.target with
  | none => rw [ht] at hs; cases hs
  | some e =>
    simp only [Relocation.call, ht, Option.map_some]
    exact h.staticType (hw e ht)

/-! ### Constants and effects -/

omit h in
theorem isConstantType {a a' : String} (ha : N.Same a a') :
    Constant.isConstantType a' = Constant.isConstantType a := by
  unfold Constant.isConstantType
  rw [beq_eq_of_plain ha (by decide), contains_eq ha (by decide), bne, bne,
    beq_eq_of_plain ha (by decide)]

/-- An expression is constant wherever it stands. -/
theorem isConstantWith {ofVar ofVar' : Variable → Except Failure Bool}
    (hvar : ∀ v v', N.OfVariable g v v' → Answer Eq (ofVar v) (ofVar' v')) :
    (e : Expr) → (∀ n ∈ TypeName.ofExpr e, Written n) →
      Answer Eq (Constant.isConstantWith c ofVar e) (Constant.isConstantWith c' ofVar' (g.expr e))
  | .literal .., _ => by
    simp only [Relocation.expr, Constant.isConstantWith]
    exact .ok rfl
  | .paren _ e, hw | .unary _ _ e, hw => by
    rw [TypeName.ofExpr] at hw
    simp only [Relocation.expr, Constant.isConstantWith]
    exact isConstantWith hvar e hw
  | .cast _ t e, hw => by
    rw [TypeName.ofExpr, List.forall_mem_cons] at hw
    simp only [Relocation.expr, Constant.isConstantWith]
    refine (h.typeOfRef (ref_type hw.1)).lift.bind fun r r' hr ↦ ?_
    rw [isConstantType hr]
    split
    · exact isConstantWith hvar e hw.2
    · exact .ok rfl
  | .binary _ _ a b, hw => by
    rw [TypeName.ofExpr, List.forall_mem_append] at hw
    simp only [Relocation.expr, Constant.isConstantWith]
    refine (isConstantWith hvar a hw.1).bind ?_
    rintro first _ rfl
    split
    · exact isConstantWith hvar b hw.2
    · exact .ok rfl
  | .conditional _ q a b, hw => by
    rw [TypeName.ofExpr, List.forall_mem_append, List.forall_mem_append] at hw
    simp only [Relocation.expr, Constant.isConstantWith]
    refine (isConstantWith hvar q hw.1.1).bind ?_
    rintro test _ rfl
    split
    · refine (isConstantWith hvar a hw.1.2).bind ?_
      rintro first _ rfl
      split
      · exact isConstantWith hvar b hw.2
      · exact .ok rfl
    · exact .ok rfl
  | .name _ n, _ => by
    simp only [Relocation.expr, Constant.isConstantWith]
    obtain ⟨hv, hv'⟩ | ⟨v, v', hv, hv', hvv⟩ := rel_cases (h.lookup n)
    · simp only [hv, hv']
      exact .ok rfl
    · simp only [hv, hv']
      exact hvar v v' hvv
  | .field _ e n, _ => by
    simp only [Relocation.expr, Constant.isConstantWith, h.typeName?]
    refine (Agree.self (c.typeName? e)).lift.bind ?_
    rintro typeName _ rfl
    cases typeName with
    | none => exact .ok rfl
    | some name =>
      simp only [h.resolveType]
      refine (Agree.self (c.index.resolveType name)).lift.bind ?_
      rintro full _ rfl
      obtain ⟨hk, hk'⟩ | ⟨k, _, hk, hk', hmem, rfl⟩ :=
        rel_cases (h.rel_classNamed? (.inl (rfl : full = full)))
      · simp only [hk, hk', Option.bind_none]
        exact .ok rfl
      · have hclass : N.OfClass g k.inner (g.nest k).inner := N.ofClass_declared hmem
        simp only [hk, hk', Option.bind_some]
        obtain ⟨hv, hv'⟩ | ⟨v, v', hv, hv', hvv⟩ := rel_cases (hclass.field? n)
        · simp only [hv, hv']
          exact .ok rfl
        · simp only [hv, hv']
          exact hvar v v' hvv
  | .this _, _ | .super _, _ | .call .., _ | .index .., _ | .newObject _ _ _ none, _
  | .newObject _ _ _ (some _), _ | .newArray .., _ | .arrayInit .., _ | .classLiteral .., _
  | .methodRef .., _ | .typeMethodRef .., _ | .instanceOf .., _ | .preStep .., _ | .postStep .., _
  | .assign .., _ | .lambda .., _ | .lambdaBlock .., _ => by
    simp only [Relocation.expr, Constant.isConstantWith]
    exact .ok rfl

omit h in
/-- The names under which alike variables are remembered tell them apart alike. -/
theorem key_iff {w w' : Variable} (hv : N.OfVariable g v v') (hw : N.OfVariable g w w') :
    Constant.key v = Constant.key w ↔ Constant.key v' = Constant.key w' := by
  have howner : ∀ {v v' : Variable}, N.OfVariable g v v' →
      N.Same (v.owner.getD "") (v'.owner.getD "") := by
    intro v v' hv
    obtain ⟨ho, ho'⟩ | ⟨o, o', ho, ho', hoo⟩ := rel_cases hv.owner
    · rw [ho, ho']
      exact N.plain (by decide)
    · rw [ho, ho']
      exact hoo
  simp only [Constant.key, hv.name, hw.name]
  exact N.key_iff (howner hv) (howner hw) _ _

/-- Names under which alike variables are remembered. -/
def Keys (g : Relocation) (N : Naming x Written) (key key' : String) : Prop :=
  ∃ v v', N.OfVariable g v v' ∧ key = Constant.key v ∧ key' = Constant.key v'

theorem isConstantVar (fuel : Nat) {seen seen' : List String}
    (hseen : List.Forall₂ (Keys g N) seen seen') (hv : N.OfVariable g v v') :
    Answer Eq (Constant.isConstantVar c fuel seen v) (Constant.isConstantVar c' fuel seen' v') := by
  induction fuel generalizing seen seen' v v' with
  | zero => exact .ok rfl
  | succ fuel ih =>
    have hcontains : seen'.contains (Constant.key v') = seen.contains (Constant.key v) := by
      induction hseen with
      | nil => rfl
      | cons hk _ ih =>
        obtain ⟨w, w', hw, rfl, rfl⟩ := hk
        rw [List.contains_cons, List.contains_cons, ih]
        congr 1
        exact Bool.eq_iff_iff.mpr (by simpa using (key_iff hv hw).symm)
    unfold Constant.isConstantVar
    rw [hv.kind, hv.annotations, hv.init, hv.isFinal, hcontains]
    split
    · exact .ok rfl
    · cases hi : v.init with
      | none => exact .ok rfl
      | some e =>
        simp only [Option.map_some]
        split
        · exact .ok rfl
        · have htype := h.variableType hv
          generalize c.variableType v = r, c'.variableType v' = r' at htype ⊢
          cases htype with
          | error hf =>
            cases hf with
            | unresolved => exact .ok rfl
            | fault f => exact .error (.fault f)
          | ok ht =>
            simp only [isConstantType ht]
            split
            · exact h.isConstantWith (fun w w' ↦ ih (.cons ⟨v, v', hv, rfl, rfl⟩ hseen)) e
                (hv.written e hi)
            · exact .ok rfl

theorem isConstant {e : Expr} (hw : ∀ n ∈ TypeName.ofExpr e, Written n) :
    Answer Eq (c.isConstant e) (c'.isConstant (g.expr e)) := by
  unfold Setting.isConstant
  rw [h.variableCount]
  exact h.isConstantWith (fun _ _ ↦ h.isConstantVar _ .nil) e hw

end OfSetting

end Naming

/-! ### Side effects -/

namespace Syntax.Relocation

variable (g : Relocation)

mutual

/-- Where an expression stands has no part in whether it has a side effect. -/
theorem hasSideEffect_expr : (e : Expr) → (g.expr e).hasSideEffect = e.hasSideEffect
  | .assign .. | .preStep .. | .postStep .. | .call .. | .newArray .. | .lambda ..
  | .lambdaBlock .. | .methodRef .. | .typeMethodRef .. | .literal .. | .name .. | .this _
  | .super _ | .classLiteral .. => by
    simp only [expr, Expr.hasSideEffect]
  | .newObject l t as b => by
    rw [expr_newObject, Expr.hasSideEffect, Expr.hasSideEffect]
  | .paren _ e | .field _ e _ | .instanceOf _ e _ | .unary _ _ e | .cast _ _ e => by
    rw [expr, Expr.hasSideEffect, Expr.hasSideEffect, hasSideEffect_expr e]
  | .index _ a b | .binary _ _ a b => by
    rw [expr, Expr.hasSideEffect, Expr.hasSideEffect, hasSideEffect_expr a, hasSideEffect_expr b]
  | .conditional _ c a b => by
    rw [expr, Expr.hasSideEffect, Expr.hasSideEffect, hasSideEffect_expr c, hasSideEffect_expr a,
      hasSideEffect_expr b]
  | .arrayInit _ es => by
    rw [expr, Expr.hasSideEffect, Expr.hasSideEffect, anySideEffect_exprs es]

theorem anySideEffect_exprs : (es : List Expr) →
    Expr.anySideEffect (g.exprs es) = Expr.anySideEffect es
  | [] => by rw [exprs]
  | e :: es => by
    rw [exprs, Expr.anySideEffect, Expr.anySideEffect, hasSideEffect_expr e, anySideEffect_exprs es]

end

end Syntax.Relocation

end GuardLint
