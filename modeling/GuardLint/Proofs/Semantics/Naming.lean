import Mathlib.Data.List.Forall2
import Mathlib.Data.Option.Basic
import GuardLint.Proofs.Scope.Shown
import GuardLint.Proofs.Scope.TypeName
import GuardLint.Proofs.Syntax.Relocation
import GuardLint.Semantics.Constant

/-!
# Alike settings

Two settings may differ in where the code stands and in how the classes are called that have no name
of their own. `Naming` says which full names stand for the same, and what has to hold so that no
question about types can tell them apart. Variables, classes and settings are alike if they are the
same up to such names and to locations.
-/

namespace GuardLint

open Syntax

/-! ### Outcomes that agree -/

/-- Outcomes agree if both are answers, which `R` relates, or both are failures, which `F` relates. -/
inductive Agree {ε α β : Type} (F : ε → ε → Prop) (R : α → β → Prop) :
    Except ε α → Except ε β → Prop
  | ok {a b} : R a b → Agree F R (.ok a) (.ok b)
  | error {e e'} : F e e' → Agree F R (.error e) (.error e')

/-- Failures alike: the reason why something cannot be resolved does not count, and a fault does. -/
inductive Failure.Alike : Failure → Failure → Prop
  | unresolved (e e' : Unresolved) : Alike (.unresolved e) (.unresolved e')
  | fault (f : Fault) : Alike (.fault f) (.fault f)

/-- Names are resolved alike if both are resolved, to what `R` relates, or neither is. -/
abbrev Resolve {α β : Type} (R : α → β → Prop) : Except Unresolved α → Except Unresolved β → Prop :=
  Agree (fun _ _ ↦ True) R

/-- Questions are answered alike if both have an answer, and `R` relates them, or both fail alike. -/
abbrev Answer {α β : Type} (R : α → β → Prop) : Except Failure α → Except Failure β → Prop :=
  Agree Failure.Alike R

namespace Agree

variable {ε α β γ δ : Type} {F : ε → ε → Prop} {R : α → β → Prop} {S : γ → δ → Prop}
  {x : Except ε α} {y : Except ε β}

theorem imp {R' : α → β → Prop} (h : Agree F R x y) (hR : ∀ a b, R a b → R' a b) :
    Agree F R' x y := by
  cases h with
  | ok h => exact .ok (hR _ _ h)
  | error h => exact .error h

/-- Questions one after the other. -/
theorem bind {k : α → Except ε γ} {m : β → Except ε δ} (h : Agree F R x y)
    (hk : ∀ a b, R a b → Agree F S (k a) (m b)) : Agree F S (x >>= k) (y >>= m) := by
  cases h with
  | ok h => exact hk _ _ h
  | error h => exact .error h

theorem self (x : Except Unresolved α) : Resolve Eq x x := by
  cases x with
  | ok a => exact .ok rfl
  | error e => exact .error trivial

theorem lift {x : Except Unresolved α} {y : Except Unresolved β} (h : Resolve R x y) :
    Answer R (Failure.lift x) (Failure.lift y) := by
  cases h with
  | ok h => exact .ok h
  | error _ => exact .error (.unresolved _ _)

theorem unresolved (e e' : Unresolved) :
    Answer R (.error (.unresolved e)) (.error (.unresolved e')) := .error (.unresolved e e')

end Agree

/-! ### Relocation of what is known about names -/

namespace Syntax.Relocation

variable (g : Relocation)

/-- A class body, relocated. -/
def classInfo (k : ClassInfo) : ClassInfo := ⟨g.typeDecl k.decl, k.fullName⟩

/-- A class body and those around it, relocated. -/
def nest (n : Nest) : Nest := ⟨g.classInfo n.inner, n.outer.map g.classInfo⟩

/-- What a source file says about names, relocated. -/
def index (x : UnitIndex) : UnitIndex :=
  ⟨x.package, x.imports.map g.importDecl, x.classes.map g.nest⟩

/-- A call, relocated. -/
def call (c : Call) : Call := ⟨g c.location, c.target.map g.expr, c.name, c.args.map g.expr⟩

@[simp] theorem index_package (x : UnitIndex) : (g.index x).package = x.package := rfl

@[simp] theorem index_classes (x : UnitIndex) : (g.index x).classes = x.classes.map g.nest := rfl

/-! ### Names are resolved as before -/

section

variable {g} {x : UnitIndex} {name : String}

@[simp] theorem index_singleImports : (g.index x).singleImports = x.singleImports := by
  simp [UnitIndex.singleImports, index, List.filter_map, List.foldl_map, Function.comp_def,
    importDecl]

@[simp] theorem index_onDemandImports : (g.index x).onDemandImports = x.onDemandImports := by
  simp [UnitIndex.onDemandImports, index, List.filter_map, Function.comp_def, importDecl]

@[simp] theorem index_staticImports : (g.index x).staticImports = x.staticImports := by
  simp [UnitIndex.staticImports, index, List.filter_map, Function.comp_def, importDecl]

@[simp] theorem index_staticOnDemandImports :
    (g.index x).staticOnDemandImports = x.staticOnDemandImports := by
  simp [UnitIndex.staticOnDemandImports, index, List.filter_map, Function.comp_def, importDecl]

@[simp] theorem index_classNamed? :
    (g.index x).classNamed? name = (x.classNamed? name).map g.nest := by
  simp [UnitIndex.classNamed?, index, List.find?_map, Function.comp_def, nest, classInfo]

@[simp] theorem index_classSimplyNamed? :
    (g.index x).classSimplyNamed? name = (x.classSimplyNamed? name).map g.nest := by
  simp [UnitIndex.classSimplyNamed?, index, List.find?_map, Function.comp_def, nest, classInfo]

theorem index_resolveSimple? : (g.index x).resolveSimple? name = x.resolveSimple? name := by
  unfold UnitIndex.resolveSimple?
  rw [index_classSimplyNamed?]
  cases x.classSimplyNamed? name with
  | some k => rfl
  | none => simp only [Option.map_none, index_singleImports, index_onDemandImports, index_package]

@[simp] theorem index_resolveType : (g.index x).resolveType name = x.resolveType name := by
  simp only [UnitIndex.resolveType, index_resolveSimple?, index_package]

@[simp] theorem index_staticOwners : (g.index x).staticOwners name = x.staticOwners name := by
  simp only [UnitIndex.staticOwners, index_staticImports, index_staticOnDemandImports]

end

end Syntax.Relocation

/-! ### Names that stand for the same -/

/-- Characters without the one that sets off the number of a class, and the one that sets off a
variable from its class. -/
def Unmarked (cs : List Char) : Prop := '$' ∉ cs ∧ '#' ∉ cs

/-- A name without such characters. -/
def Plain (n : String) : Prop := Unmarked n.toList

instance (cs : List Char) : Decidable (Unmarked cs) := inferInstanceAs (Decidable (_ ∧ _))

instance (n : String) : Decidable (Plain n) := inferInstanceAs (Decidable (Unmarked _))

/-- Two ways to call the classes of a source file and what is made of their names: full names that
stand for the `Same`. Names that are `Written` in the text stand for themselves. Neither by equality
nor by looking it up can a name be told from one that stands for the same, and a name that is not
equal to it is one that no text gives. -/
structure Naming (x : UnitIndex) (Written : String → Prop) where
  Same : String → String → Prop
  plain : ∀ {a}, Plain a → Same a a
  same_iff : ∀ {a a' b b'}, Same a a' → Same b b' → (a = b ↔ a' = b')
  strange : ∀ {a a'}, Same a a' → a = a' ∨ '$' ∈ a.toList ∧ '$' ∈ a'.toList
  key_iff : ∀ {a a' b b'}, Same a a' → Same b b' → ∀ m n,
    (a ++ "#" ++ m = b ++ "#" ++ n ↔ a' ++ "#" ++ m = b' ++ "#" ++ n)
  element : ∀ {a a'}, Same a a' → Option.Rel Same (Typing.elementType? a) (Typing.elementType? a')
  classNamed : ∀ {a a'}, Same a a' → x.classNamed? a' = x.classNamed? a
  resolve : ∀ {a a'}, Same a a' → Resolve Same (x.resolveType a) (x.resolveType a')
  written : ∀ {n r}, Written n → x.resolveType n = .ok r → ∀ dims,
    Same (r ++ String.join (List.replicate dims "[]")) (r ++ String.join (List.replicate dims "[]"))
  declared : ∀ k ∈ x.classes, Same k.inner.fullName k.inner.fullName ∧
    ∀ n ∈ TypeName.ofType k.inner.decl, Written n

namespace Naming

variable {x : UnitIndex} {Written : String → Prop} (N : Naming x Written) (g : Relocation)

/-- Types as they are written: the same name, or names that stand for the same. -/
inductive Ref (t t' : TypeRef) : Prop
  | written : Written t.name → t'.name = t.name → t'.dims = t.dims → Ref t t'
  | same : N.Same t.name t'.name → t.dims = 0 → t'.dims = 0 → Ref t t'

/-- Variables alike. -/
structure OfVariable (v v' : Variable) : Prop where
  name : v'.name = v.name
  kind : v'.kind = v.kind
  isFinal : v'.isFinal = v.isFinal
  isStatic : v'.isStatic = v.isStatic
  annotations : v'.annotations = v.annotations
  type : Option.Rel N.Ref v.type v'.type
  init : v'.init = v.init.map g.expr
  written : ∀ e ∈ v.init, ∀ n ∈ TypeName.ofExpr e, Written n
  owner : Option.Rel N.Same v.owner v'.owner

/-- Class bodies alike. -/
structure OfClass (k k' : ClassInfo) : Prop where
  decl : k'.decl = g.typeDecl k.decl
  fullName : N.Same k.fullName k'.fullName
  written : ∀ n ∈ TypeName.ofType k.decl, Written n

/-- Settings alike. -/
structure OfSetting (c c' : Setting) : Prop where
  index : c.index = x
  index' : c'.index = g.index x
  scope : List.Forall₂ (N.OfVariable g) c.scope c'.scope
  inner : N.OfClass g c.enclosing.inner c'.enclosing.inner
  outer : List.Forall₂ (N.OfClass g) c.enclosing.outer c'.enclosing.outer

/-! ### Variables of declarations -/

section

variable {N g} {Written : String → Prop} {N : Naming x Written} {k k' : ClassInfo}
  {vs vs' : List Variable} {v v' : Variable}

theorem ref_type {t : TypeRef} (h : Written t.name) : N.Ref t (g.type t) :=
  .written h (g.type_name t) (g.type_dims t)

theorem ofVariable_ofParam {p : Param} (h : ∀ n ∈ TypeName.ofParam p, Written n) :
    N.OfVariable g (.ofParam p) (.ofParam (g.param p)) := by
  obtain ⟨_, _, t, _, _, _⟩ := p
  constructor
  case type =>
    cases t with
    | none => exact .none
    | some t => exact .some (ref_type (h t.name (List.mem_singleton_self _)))
  case owner => exact .none
  case written => exact fun e he ↦ by cases he
  all_goals
    simp [Variable.ofParam, Relocation.param, Relocation.annotations_eq, Function.comp_def]

theorem ofVariable_ofParams {ps : List Param}
    (h : ∀ n ∈ ps.flatMap TypeName.ofParam, Written n) :
    List.Forall₂ (N.OfVariable g) (ps.map .ofParam) ((g.params ps).map .ofParam) := by
  rw [Relocation.params_eq, List.map_map, List.forall₂_map_left_iff, List.forall₂_map_right_iff,
    List.forall₂_same]
  exact fun p hp ↦ ofVariable_ofParam fun n hn ↦ h n (List.mem_flatMap.mpr ⟨p, hp, hn⟩)

theorem ofVariable_ofCatch {c : CatchClause} (h : ∀ n ∈ c.types.map TypeRef.name, Written n) :
    N.OfVariable g (.ofCatch c) (.ofCatch (g.catchClause c)) := by
  obtain ⟨_, ts, _, _⟩ := c
  constructor
  case type =>
    simp only [Variable.ofCatch, Relocation.catchClause, Relocation.types_eq]
    rcases ts with _ | ⟨t, _ | ⟨_, _⟩⟩
    · exact .none
    · exact .some (ref_type (h t.name (List.mem_singleton_self _)))
    · exact .none
  case owner => exact .none
  case written => exact fun e he ↦ by cases he
  all_goals simp [Variable.ofCatch, Relocation.catchClause]

theorem ofVariable_ofLocals {d : VarDecl} (h : ∀ n ∈ TypeName.ofVars d, Written n) :
    List.Forall₂ (N.OfVariable g) (Variable.ofLocals d) (Variable.ofLocals (g.varDecl d)) := by
  have htype := h _ (TypeName.type_mem_ofVars d)
  have hinit := fun v hv e he n hn ↦ h n (TypeName.mem_ofVars (d := d) (v := v) hv (e := e) he hn)
  obtain ⟨_, t, ds, _, _⟩ := d
  rw [Variable.ofLocals, Variable.ofLocals, Relocation.varDecl, Relocation.declarators_eq,
    List.map_map, List.forall₂_map_left_iff, List.forall₂_map_right_iff, List.forall₂_same]
  intro v hv
  constructor
  case type => exact .some (.written htype (g.type_name t) (by simp [TypeRef.addDims]))
  case owner => exact .none
  case written => exact hinit v hv
  all_goals
    simp [Relocation.annotations_eq, Function.comp_def]

theorem ofVariable_ofFields {owner owner' : String} (ho : N.Same owner owner') (kind : TypeKind)
    {d : VarDecl} (h : ∀ n ∈ TypeName.ofVars d, Written n) :
    List.Forall₂ (N.OfVariable g) (Variable.ofFields owner kind d)
      (Variable.ofFields owner' kind (g.varDecl d)) := by
  have htype := h _ (TypeName.type_mem_ofVars d)
  have hinit := fun v hv e he n hn ↦ h n (TypeName.mem_ofVars (d := d) (v := v) hv (e := e) he hn)
  obtain ⟨_, t, ds, _, _⟩ := d
  rw [Variable.ofFields, Variable.ofFields, Relocation.varDecl, Relocation.declarators_eq,
    List.map_map, List.forall₂_map_left_iff, List.forall₂_map_right_iff, List.forall₂_same]
  intro v hv
  constructor
  case type => exact .some (.written htype (g.type_name t) (by simp [TypeRef.addDims]))
  case owner => exact .some ho
  case written => exact hinit v hv
  all_goals
    simp [Relocation.annotations_eq, Function.comp_def]

theorem ofVariable_ofConstant {owner owner' : String} (ho : N.Same owner owner')
    (c : EnumConstant) :
    N.OfVariable g (.ofConstant owner c) (.ofConstant owner' (g.constant c)) := by
  obtain ⟨_, _, _, b⟩ := c
  rw [Relocation.constant_mk]
  exact ⟨rfl, rfl, rfl, rfl, rfl, .some (.same ho rfl rfl), rfl, fun e he ↦ (by cases he),
    .some ho⟩

/-! ### Classes -/

private theorem forall₂_put (h : List.Forall₂ (N.OfVariable g) vs vs')
    (hv : N.OfVariable g v v') :
    List.Forall₂ (N.OfVariable g) (Variable.put vs v) (Variable.put vs' v') := by
  induction h with
  | nil => exact .cons hv .nil
  | cons hw hrest ih =>
    unfold Variable.put
    rw [hw.name, hv.name]
    split
    · exact .cons hv hrest
    · exact .cons hw ih

private theorem forall₂_foldl_put {ws ws' : List Variable} (h : List.Forall₂ (N.OfVariable g) vs vs')
    (hw : List.Forall₂ (N.OfVariable g) ws ws') :
    List.Forall₂ (N.OfVariable g) (ws.foldl Variable.put vs) (ws'.foldl Variable.put vs') := by
  induction hw generalizing vs vs' with
  | nil => exact h
  | cons hv _ ih => exact ih (forall₂_put h hv)

theorem OfClass.memberFields (h : N.OfClass g k k') {m : Member} (hm : m ∈ k.decl.members) :
    List.Forall₂ (N.OfVariable g) (k.memberFields m) (k'.memberFields (g.member m)) := by
  have hwritten := fun n hn ↦ h.written n (TypeName.mem_ofType hm hn)
  cases m with
  | field d =>
    rw [TypeName.ofMember] at hwritten
    rw [Relocation.member]
    simp only [ClassInfo.memberFields, h.decl, Relocation.typeDecl_kind]
    exact ofVariable_ofFields h.fullName k.decl.kind hwritten
  | method | initializer | type => simp [Relocation.member, ClassInfo.memberFields]

theorem OfClass.fields (h : N.OfClass g k k') :
    List.Forall₂ (N.OfVariable g) k.fields k'.fields := by
  refine forall₂_foldl_put .nil (List.rel_append ?_ ?_)
  · rw [h.decl, Relocation.typeDecl_constants, List.map_map, List.forall₂_map_left_iff,
      List.forall₂_map_right_iff, List.forall₂_same]
    exact fun c _ ↦ ofVariable_ofConstant h.fullName c
  · rw [h.decl, Relocation.typeDecl_members]
    have hmembers : ∀ m ∈ k.decl.members,
        List.Forall₂ (N.OfVariable g) (k.memberFields m) (k'.memberFields (g.member m)) :=
      fun m hm ↦ h.memberFields hm
    generalize k.decl.members = ms at hmembers
    induction ms with
    | nil => exact .nil
    | cons m ms ih =>
      obtain ⟨hm, hms⟩ := List.forall_mem_cons.mp hmembers
      rw [List.map_cons, List.flatMap_cons, List.flatMap_cons]
      exact List.rel_append hm (ih hms)

theorem OfClass.field? (h : N.OfClass g k k') (n : String) :
    Option.Rel (N.OfVariable g) (k.field? n) (k'.field? n) :=
  rel_find? h.fields fun v v' hv ↦ by rw [hv.name]

theorem OfClass.methods (h : N.OfClass g k k') : k'.methods = k.methods.map g.method := by
  rw [ClassInfo.methods, ClassInfo.methods, h.decl, Relocation.typeDecl_members, List.filterMap_map,
    List.map_filterMap]
  congr 1
  funext m
  cases m with
  | method m =>
    simp only [Function.comp_apply, Relocation.member, ClassInfo.method?,
      Relocation.method_isConstructor]
    split <;> rfl
  | field | initializer | type => simp [Relocation.member, ClassInfo.method?]

theorem OfClass.methodsNamed (h : N.OfClass g k k') (n : String) :
    k'.methodsNamed n = (k.methodsNamed n).map g.method := by
  simp [ClassInfo.methodsNamed, h.methods, List.filter_map, Function.comp_def]

theorem OfClass.declares (h : N.OfClass g k k') (n : String) : k'.declares n = k.declares n := by
  simp [ClassInfo.declares, h.methods, List.any_map, Function.comp_def]

theorem OfClass.annotatedWith (h : N.OfClass g k k') (names : List String) :
    k'.annotatedWith names = k.annotatedWith names := by
  simp [ClassInfo.annotatedWith, h.decl, List.any_map, Function.comp_def]

theorem ofClass_declared {n : Nest} (hn : n ∈ x.classes) :
    N.OfClass g n.inner (g.nest n).inner :=
  ⟨rfl, (N.declared n hn).1, (N.declared n hn).2⟩

end

/-! ### More names that stand for the same -/

/-- More names stand for the same. -/
def Extends (N' N : Naming x Written) : Prop := ∀ {a a'}, N.Same a a' → N'.Same a a'

section

variable {g} {Written : String → Prop} {N N' : Naming x Written} {k k' : ClassInfo}
  {v v' : Variable}

theorem OfVariable.mono (h : N.OfVariable g v v') (hle : N'.Extends N) : N'.OfVariable g v v' where
  name := h.name
  kind := h.kind
  isFinal := h.isFinal
  isStatic := h.isStatic
  annotations := h.annotations
  init := h.init
  written := h.written
  type := by
    obtain ⟨ht, ht'⟩ | ⟨t, t', ht, ht', htt⟩ := rel_cases h.type
    · rw [ht, ht']
      exact .none
    · rw [ht, ht']
      cases htt with
      | written hw hn hd => exact .some (.written hw hn hd)
      | same hs hd hd' => exact .some (.same (hle hs) hd hd')
  owner := by
    obtain ⟨ho, ho'⟩ | ⟨o, o', ho, ho', hoo⟩ := rel_cases h.owner
    · rw [ho, ho']
      exact .none
    · rw [ho, ho']
      exact .some (hle hoo)

theorem OfClass.mono (h : N.OfClass g k k') (hle : N'.Extends N) : N'.OfClass g k k' :=
  ⟨h.decl, hle h.fullName, h.written⟩

theorem OfSetting.mono {c c' : Setting} (h : N.OfSetting g c c') (hle : N'.Extends N) :
    N'.OfSetting g c c' where
  index := h.index
  index' := h.index'
  scope := h.scope.imp fun _ _ hv ↦ hv.mono hle
  inner := h.inner.mono hle
  outer := h.outer.imp fun _ _ hk ↦ hk.mono hle

end

end Naming

end GuardLint
