import GuardLint.Proofs.Scope.Passage
import GuardLint.Proofs.Semantics.Inheritance
import GuardLint.Proofs.Syntax.Numbers
import GuardLint.Semantics.Typing

/-!
# What a name denotes among the fields of the classes around

The scope at a call is made of layers: the variables declared in methods, one by one, and in between
the bodies of the classes around, each with the fields that it declares itself. A name denotes what
the innermost layer declares that declares it. The fields that a class inherits are in no layer. So
the type of a name is that of the variable that the rules of the language select unless this is an
inherited field; then it is that of a variable further out, which the inherited field hides.
-/

namespace GuardLint

open Syntax

/-! ### Layers of a scope -/

/-- What a piece of code is in, as far as names of variables go: the region of a variable of a
method, or the body of a class. -/
inductive Layer where
  | bound (v : Variable)
  | body (k : ClassInfo)

namespace Layer

/-- The variables that a layer puts in scope, the last of them innermost. -/
def vars : Layer → List Variable
  | .bound v => [v]
  | .body k => k.fields.reverse

/-- The class whose body a layer is. -/
def class? : Layer → Option ClassInfo
  | .bound _ => none
  | .body k => some k

/-- The variable of some name that a layer declares itself. -/
def declared? (n : String) : Layer → Option Variable
  | .bound v => if v.name = n then some v else none
  | .body k => k.field? n

theorem find?_vars (x : Layer) (n : String) :
    x.vars.find? (·.name == n) = x.declared? n := by
  cases x with
  | bound v => simp [vars, declared?, List.find?_singleton]
  | body k => exact k.find?_reverse_fields n

end Layer

/-- The layers that a scope consists of, the innermost first, if some classes are around. -/
structure Layers (s : Scope) (ks : List ClassInfo) (ls : List Layer) : Prop where
  scope : s = ls.flatMap Layer.vars
  classes : ks = ls.filterMap Layer.class?
  bound : ∀ v, .bound v ∈ ls → v.kind ≠ .field

namespace Layers

variable {s : Scope} {ks : List ClassInfo} {ls : List Layer} {n : String} {vars : List Variable}

/-- A name denotes what the innermost layer that declares it declares. -/
theorem lookup (h : Layers s ks ls) (n : String) : s.lookup n = ls.findSome? (·.declared? n) := by
  rw [h.scope, Scope.lookup, List.find?_flatMap]
  congr 1
  funext x
  exact x.find?_vars n

theorem nil : Layers [] [] [] := ⟨rfl, rfl, fun _ h ↦ absurd h List.not_mem_nil⟩

theorem append (h : Layers s ks ls) (hvars : ∀ v ∈ vars, v.kind ≠ .field) :
    Layers (vars ++ s) ks (vars.map .bound ++ ls) where
  scope := by
    rw [List.flatMap_append, List.flatMap_map, ← h.scope]
    simp [Layer.vars]
  classes := by
    rw [List.filterMap_append, ← h.classes]
    simp [Layer.class?, List.filterMap_map, Function.comp_def]
  bound v hv := by
    rcases List.mem_append.mp hv with hv | hv
    · obtain ⟨w, hw, heq⟩ := List.mem_map.mp hv
      cases heq
      exact hvars v hw
    · exact h.bound v hv

theorem cons_body (h : Layers s ks ls) (k : ClassInfo) :
    Layers (s.bind k.fields) (k :: ks) (.body k :: ls) where
  scope := congrArg (k.fields.reverse ++ ·) h.scope
  classes := congrArg (k :: ·) h.classes
  bound v hv := h.bound v ((List.mem_cons.mp hv).resolve_left nofun)

end Layers

theorem Nest.exists_layers (n : Nest) : ∃ ls, Layers n.fieldScope n.chain ls := by
  have hchain : ∀ ks : List ClassInfo, ∃ ls,
      Layers (ks.foldr (fun k s ↦ Scope.bind s k.fields) []) ks ls := by
    intro ks
    induction ks with
    | nil => exact ⟨[], .nil⟩
    | cons k ks ih =>
      obtain ⟨ls, h⟩ := ih
      exact ⟨_, h.cons_body k⟩
  exact hchain n.chain

private theorem kind_of_mem_ofLocals {d : VarDecl} {v : Variable}
    (h : v ∈ (Variable.ofLocals d).reverse) : v.kind ≠ .field := by
  obtain ⟨_, -, rfl⟩ := List.mem_map.mp (List.mem_reverse.mp h)
  simp

theorem Place.exists_vars_after (p : Place) (s : Stmt) :
    ∃ vars, (p.after s).scope = vars ++ p.scope ∧ ∀ v ∈ vars, v.kind ≠ .field := by
  cases s with
  | vars d => exact ⟨_, rfl, fun v ↦ kind_of_mem_ofLocals⟩
  | _ => exact ⟨[], rfl, List.forall_mem_nil _⟩

theorem Place.exists_vars_afterSetups (p : Place) (ss : List Setup) :
    ∃ vars, (p.afterSetups ss).scope = vars ++ p.scope ∧ ∀ v ∈ vars, v.kind ≠ .field := by
  induction ss generalizing p with
  | nil => exact ⟨[], rfl, List.forall_mem_nil _⟩
  | cons s ss ih =>
    cases s with
    | expr e => exact ih p
    | vars d =>
      obtain ⟨vars, hscope, hvars⟩ := ih (p.bind (Variable.ofLocals d))
      refine ⟨vars ++ (Variable.ofLocals d).reverse, ?_, fun v hv ↦ ?_⟩
      · rw [List.append_assoc]
        exact hscope
      · exact (List.mem_append.mp hv).elim (hvars v) kind_of_mem_ofLocals

namespace Part

variable {unit : CompilationUnit} {skip : List String} {p q : Place} {x : Part} {a : Place × Part}

/-- As long as a walk stays in a class, it puts only variables of methods in front. -/
theorem Moves.exists_vars (h : Moves p x q) :
    ∃ vars, q.scope = vars ++ p.scope ∧ ∀ v ∈ vars, v.kind ≠ .field := by
  have hparams : ∀ ps : List Param, ∀ v ∈ (ps.map Variable.ofParam).reverse, v.kind ≠ .field := by
    simp [Variable.ofParam]
  cases h with
  | same | noMethod => exact ⟨[], rfl, List.forall_mem_nil _⟩
  | inMethod m => exact ⟨_, rfl, hparams m.params⟩
  | params ps => exact ⟨_, rfl, hparams ps⟩
  | param v => exact ⟨_, rfl, hparams [v]⟩
  | caught c => exact ⟨_, rfl, by simp [Variable.ofCatch]⟩
  | locals d => exact ⟨_, rfl, fun v ↦ kind_of_mem_ofLocals⟩
  | after s => exact p.exists_vars_after s
  | afterSetups ss => exact p.exists_vars_afterSetups ss

/-- Wherever a walk has a place, its scope consists of layers. -/
theorem Reached.exists_layers (h : Reached unit skip a) :
    ∃ ls, Layers a.1.scope a.1.enclosing.chain ls := by
  induction h using Reached.induction with
  | start d hd => exact Nest.exists_layers _
  | step k p x b _ hb ih =>
    obtain ⟨ls, hls⟩ := ih
    rcases inside_cases hb with ⟨hmoves, -⟩ | ⟨l, ms, t, rfl⟩ | ⟨d, ms, rfl, rfl⟩
    · obtain ⟨vars, hscope, hvars⟩ := hmoves.exists_vars
      rw [hmoves.enclosing, hscope]
      exact ⟨_, hls.append hvars⟩
    · exact ⟨_, hls.cons_body _⟩
    · exact Nest.exists_layers _

end Part

theorem CallSite.exists_layers {unit : CompilationUnit} {skip : List String} {site : CallSite}
    (hs : site ∈ CallSite.ofUnit unit skip) :
    ∃ ls, Layers site.scope site.enclosing.chain ls := by
  obtain ⟨q, hq, hsite⟩ := CallSite.reached hs
  rw [hsite]
  exact hq.exists_layers

/-! ### What the rules of the language select -/

/-- The field of some name that a class has: its own, or else one that it inherits. -/
def Setting.HasField (c : Setting) (n : String) (k : ClassInfo) (v : Variable) : Prop :=
  k.field? n = some v ∨ k.field? n = none ∧ ∃ k', c.Inherits k k' ∧ k'.field? n = some v

/-- The variable of some name that a layer has, inherited or not. -/
def Layer.Has (c : Setting) (n : String) : Layer → Variable → Prop
  | .bound w, v => w.name = n ∧ w = v
  | .body k, v => c.HasField n k v

variable {unit : CompilationUnit} {skip : List String} {site : CallSite} {c : Setting} {n : String}
  {x : Layer} {v : Variable} {ls inner outer : List Layer}

theorem Layer.Has.of_declared? (h : x.declared? n = some v) : x.Has c n v := by
  cases x with
  | bound w =>
    obtain ⟨hname, heq⟩ := Option.ite_none_right_eq_some.mp h
    exact ⟨hname, Option.some.inj heq⟩
  | body k => exact .inl h

theorem Layer.declared?_eq_none (h : ∀ w, ¬ x.Has c n w) : x.declared? n = none := by
  by_contra hsome
  obtain ⟨w, hw⟩ := Option.ne_none_iff_exists'.mp hsome
  exact h w (.of_declared? hw)

/-- The scope at a call consists of layers. If the innermost layer that has a variable of some name
declares it itself, the type of the name is that of this variable. If the layer is the body of a
class that inherits the variable, this plays no part: the type is that of the innermost variable of
the name that is declared further out, and there is none without such a variable. -/
theorem CallSite.staticType_name (hs : site ∈ CallSite.ofUnit unit skip) (index : UnitIndex) :
    ∃ layers, Layers site.scope site.enclosing.chain layers ∧ ∀ l n inner x outer v,
      layers = inner ++ x :: outer → (∀ y ∈ inner, ∀ w, ¬ y.Has (site.setting index) n w) →
      x.Has (site.setting index) n v →
        (x.declared? n = some v →
          (site.setting index).staticType (.name l n) = (site.setting index).variableType v) ∧
        (x.declared? n = none → (site.setting index).staticType (.name l n) =
          match outer.findSome? (·.declared? n) with
          | some w => (site.setting index).variableType w
          | none => .error (.unresolved (.unknownVariable n))) := by
  obtain ⟨layers, hlayers⟩ := CallSite.exists_layers hs
  refine ⟨layers, hlayers, ?_⟩
  rintro l n inner x outer v rfl hinner -
  have hnone : inner.findSome? (·.declared? n) = none :=
    List.findSome?_eq_none_iff.mpr fun y hy ↦ Layer.declared?_eq_none (hinner y hy)
  have hlookup := hlayers.lookup n
  rw [List.findSome?_append, hnone, Option.none_or, List.findSome?_cons] at hlookup
  have htype : (site.setting index).staticType (.name l n) =
      match site.scope.lookup n with
      | some w => (site.setting index).variableType w
      | none => .error (.unresolved (.unknownVariable n)) := by
    rw [Setting.staticType, Typing.typeOf]
    rfl
  constructor
  · intro hdeclared
    rw [htype, hlookup, hdeclared]
  · intro hdeclared
    rw [htype, hlookup, hdeclared]

/-- A text with a class that inherits a field of the same name as one of the class around it, and
with another class there that inherits nothing. -/
private def hidingText : List Char :=
  ("class P\x7bint n;\x7dclass A\x7bString n;class B extends P\x7b\x7bg(n);\x7d\x7d" ++
    "class C\x7b\x7bh(n);\x7d\x7d\x7d").toList

private theorem hidingText_reads :
    (match CompilationUnit.parse hidingText with
      | .ok unit =>
        match CallSite.ofUnit unit [] with
        | [g, h] =>
          let c := g.setting (UnitIndex.ofUnit unit)
          (g.enclosing.inner.field? "n").isNone &&
            (g.enclosing.inner.decl.supertypes.any fun t ↦ (c.superclass? t).any fun k ↦
              (k.field? "n").any fun w ↦ (c.variableType w).toOption == some "int") &&
            ((c.scope.lookup "n").any fun v ↦
              v.owner == some "A" && (c.variableType v).toOption == some "java.lang.String") &&
            (h.enclosing.chain.all (·.decl.supertypes.isEmpty) && (h.scope.lookup "n").isSome)
        | _ => false
      | .error _ => false) = true := by
  have htext : hidingText = _ := Text.toList_ofList_append _ _
  rw [htext, CompilationUnit.parse_eq_parseNumbered]
  decide +kernel

private theorem exists_hiding : ∃ unit, ∃ g ∈ CallSite.ofUnit unit [],
    ∃ h ∈ CallSite.ofUnit unit [], CompilationUnit.parse hidingText = .ok unit ∧
      (let c := g.setting (UnitIndex.ofUnit unit)
      g.enclosing.inner.field? "n" = none ∧
        (∃ k w, c.Extends g.enclosing.inner k ∧ k.field? "n" = some w ∧
          c.variableType w = .ok "int") ∧
        ∃ v, c.scope.lookup "n" = some v ∧ v.owner = some "A" ∧
          c.variableType v = .ok "java.lang.String") ∧
      (∀ k ∈ h.enclosing.chain, k.decl.supertypes = []) ∧ ∃ v, h.scope.lookup "n" = some v := by
  have hok : ∀ {x : Except Failure String} {t : String}, x.toOption = some t → x = .ok t := by
    intro x t hx
    cases x with
    | error e => cases hx
    | ok a => exact congrArg Except.ok (Option.some.inj hx)
  have hreads := hidingText_reads
  split at hreads
  · next unit hp =>
    split at hreads
    · next g h hsites =>
      simp only [Bool.and_eq_true, List.any_eq_true, Option.any_eq_true, beq_iff_eq,
        Option.isNone_iff_eq_none, List.all_eq_true, List.isEmpty_iff,
        Option.isSome_iff_exists] at hreads
      obtain ⟨⟨⟨hown, t, ht, k, hk, w, hw, hint⟩, v, hv, howner, hstring⟩, hsupers, hfound⟩ :=
        hreads
      exact ⟨unit, g, by simp [hsites], h, by simp [hsites], hp,
        ⟨hown, ⟨k, w, ⟨t, ht, hk⟩, hw, hok hint⟩, v, hv, howner, hok hstring⟩, hsupers, hfound⟩
    · cases hreads
  · cases hreads

/-- A name has the type of a field of a class further out, though the class around inherits a field
of this name that has another type. -/
theorem CallSite.staticType_hidingText : ∃ unit, ∃ site ∈ CallSite.ofUnit unit [],
    CompilationUnit.parse hidingText = .ok unit ∧
      let c := site.setting (UnitIndex.ofUnit unit)
      site.enclosing.inner.field? "n" = none ∧
        (∃ k w, c.Extends site.enclosing.inner k ∧ k.field? "n" = some w ∧
          c.variableType w = .ok "int") ∧
        ∃ v, site.scope.lookup "n" = some v ∧ v.owner = some "A" ∧
          ∀ l, c.staticType (.name l "n") = .ok "java.lang.String" := by
  obtain ⟨unit, g, hg, -, -, hp, ⟨hown, hinherits, v, hv, howner, htype⟩, -⟩ := exists_hiding
  refine ⟨unit, g, hg, hp, hown, hinherits, v, hv, howner, fun l ↦ ?_⟩
  rw [Setting.staticType, Typing.typeOf, hv]
  exact htype

/-- In a class that inherits nothing a name has the type of the field of the class around it. -/
theorem CallSite.staticType_name_unhidden : ∃ unit, ∃ site ∈ CallSite.ofUnit unit [],
    CompilationUnit.parse hidingText = .ok unit ∧
      let c := site.setting (UnitIndex.ofUnit unit)
      ∃ layers inner x outer v, Layers site.scope site.enclosing.chain layers ∧
        layers = inner ++ x :: outer ∧ (∀ y ∈ inner, ∀ w, ¬ y.Has c "n" w) ∧ x.Has c "n" v ∧
        ∀ l, c.staticType (.name l "n") = c.variableType v := by
  obtain ⟨unit, -, -, h, hh, hp, -, hsupers, v, hv⟩ := exists_hiding
  obtain ⟨layers, hlayers, htype⟩ := CallSite.staticType_name hh (UnitIndex.ofUnit unit)
  rw [hlayers.lookup] at hv
  obtain ⟨inner, x, outer, hsplit, hx, hinner⟩ := List.findSome?_eq_some_iff.mp hv
  have hnone : ∀ y ∈ inner, ∀ w, ¬ y.Has (h.setting (UnitIndex.ofUnit unit)) "n" w := by
    intro y hy w hw
    have hdeclared := hinner y hy
    cases y with
    | bound u =>
      rw [Layer.declared?, if_pos hw.1] at hdeclared
      cases hdeclared
    | body k =>
      have hk : k ∈ h.enclosing.chain := by
        rw [hlayers.classes, hsplit]
        exact List.mem_filterMap.mpr ⟨.body k, List.mem_append_left _ hy, rfl⟩
      rw [Layer.declared?] at hdeclared
      rcases hw with hown | ⟨-, k', hinherits, hfield⟩
      · rw [hdeclared] at hown
        cases hown
      · rcases Relation.ReflTransGen.cases_head hinherits with rfl | ⟨_, ⟨t, ht, -⟩, -⟩
        · rw [hdeclared] at hfield
          cases hfield
        · rw [hsupers k hk] at ht
          cases ht
  have hhas := Layer.Has.of_declared? (c := h.setting (UnitIndex.ofUnit unit)) hx
  exact ⟨unit, h, hh, hp, layers, inner, x, outer, v, hlayers, hsplit, hnone, hhas, fun l ↦
    (htype l "n" inner x outer v hsplit hnone hhas).1 hx⟩

end GuardLint
