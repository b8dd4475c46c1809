import GuardLint.Proofs.Semantics.Dependence
import Mathlib.Data.List.FinRange
import Mathlib.Data.Nat.Init

/-!
# What the type of an expression is read from

A type depends on a setting by what the names in the expression denote there and, where it has
`this` or a call without a target, by the classes around. Two settings of one source file that agree
on these give an expression the same type, if they give the variables that it names the same types.

The initializers of variables are followed as deep as there are variables. Following them deeper
changes nothing, so the type of a variable declared with `var` is the type of its initializer.
-/

namespace GuardLint

open Syntax Failure

/-- Questions one after the other, where the later ones are the same for the answer to the first. -/
theorem Failure.bind_congr {α β : Type} {x : Except Failure α} {k m : α → Except Failure β}
    (h : ∀ a, x = .ok a → k a = m a) : x >>= k = x >>= m := by
  cases x with
  | error e => rfl
  | ok a => exact h a rfl

namespace Syntax.Expr

/-- The names by themselves on which the type of an expression may depend. -/
def typeNames : Expr → List String
  | .paren _ e | .preStep _ _ e | .postStep _ _ e | .assign _ _ e _ | .index _ e _ | .field _ e _
  | .call _ (some e) _ _ => e.typeNames
  | .unary _ op e => if op = .negate then [] else e.typeNames
  | .name _ n => [n]
  | .binary _ op a b => if Typing.isTest op then [] else a.typeNames ++ b.typeNames
  | .conditional _ _ a b => a.typeNames ++ b.typeNames
  | _ => []

/-- Whether the type of an expression may depend on the classes around it. -/
def typeInClass : Expr → Bool
  | .paren _ e | .preStep _ _ e | .postStep _ _ e | .assign _ _ e _ | .index _ e _ | .field _ e _
  | .call _ (some e) _ _ => e.typeInClass
  | .unary _ op e => op != .negate && e.typeInClass
  | .this _ | .call _ none _ _ => true
  | .binary _ op a b => !Typing.isTest op && (a.typeInClass || b.typeInClass)
  | .conditional _ _ a b => a.typeInClass || b.typeInClass
  | _ => false

end Syntax.Expr

/-- What the type of an expression may depend on is the same in two settings. -/
structure Setting.AgreeOn (c c' : Setting) (e : Expr) : Prop where
  names : ∀ n ∈ e.typeNames, c.scope.lookup n = c'.scope.lookup n
  classes : e.typeInClass = true → c.enclosing = c'.enclosing

theorem Setting.AgreeOn.refl (c : Setting) (e : Expr) : c.AgreeOn c e := ⟨fun _ _ ↦ rfl, fun _ ↦ rfl⟩

/-- The initializer of a variable that is declared with `var`. -/
def Variable.inferredInit? (v : Variable) : Option Expr :=
  match v.type with
  | some t => if t.name = "var" && t.dims = 0 then v.init else none
  | none => none

namespace Setting

variable {c c' : Setting}

/-! ### Questions that need no scope -/

theorem typeOfRef_congr (hx : c.index = c'.index) (t : TypeRef) :
    c.typeOfRef t = c'.typeOfRef t := by
  rw [typeOfRef, typeOfRef, hx]

private theorem searchTypes_congr (hx : c.index = c'.index) (className : String)
    (search : ClassInfo → List String → Except Unresolved (Option String × List String))
    (ts : List TypeRef) (seen : List String) :
    c.searchTypes className search ts seen = c'.searchTypes className search ts seen := by
  induction ts generalizing seen with
  | nil => rfl
  | cons t ts ih => simp only [searchTypes, hx, ih]

private theorem inheritedFrom_congr (hx : c.index = c'.index) (method : String) (fuel : Nat) :
    c.inheritedFrom method fuel = c'.inheritedFrom method fuel := by
  induction fuel with
  | zero => rfl
  | succ fuel ih =>
    funext k seen
    rw [inheritedFrom, inheritedFrom, ih, searchTypes_congr hx]

private theorem memberOwner_congr (hx : c.index = c'.index) (method : String)
    (ks : List ClassInfo) : c.memberOwner method ks = c'.memberOwner method ks := by
  induction ks with
  | nil => rfl
  | cons k ks ih => rw [memberOwner, memberOwner, ih, hx, inheritedFrom_congr hx]

theorem bareOwner_congr (hx : c.index = c'.index) (hn : c.enclosing = c'.enclosing)
    (method : String) : c.bareOwner method = c'.bareOwner method := by
  rw [bareOwner, bareOwner, hx, hn, memberOwner_congr hx]

theorem returnType_congr (hx : c.index = c'.index) (call : ResolvedCall Expr) :
    Typing.returnType c call = Typing.returnType c' call := by
  obtain ⟨x, s, n⟩ := c
  obtain ⟨x', s', n'⟩ := c'
  obtain rfl : x = x' := hx
  rfl

theorem typeName?_congr (hx : c.index = c'.index) : (e : Expr) →
    (∀ n ∈ e.typeNames, c.scope.lookup n = c'.scope.lookup n) → c.typeName? e = c'.typeName? e
  | .name _ n, h => by
    unfold typeName?
    rw [h n List.mem_cons_self]
  | .field _ e n, h => by
    unfold typeName?
    rw [typeName?_congr hx e h, hx]
  | .literal .., _ | .paren .., _ | .this _, _ | .super _, _ | .call .., _ | .index .., _
  | .newObject .., _ | .newArray .., _ | .arrayInit .., _ | .classLiteral .., _
  | .methodRef .., _ | .typeMethodRef .., _ | .binary .., _ | .instanceOf .., _ | .unary .., _
  | .preStep .., _ | .postStep .., _ | .assign .., _ | .conditional .., _ | .cast .., _
  | .lambda .., _ | .lambdaBlock .., _ => rfl

end Setting

namespace Typing

variable {c c' : Setting} {ofVar ofVar' : Variable → Except Failure String}

/-! ### Types in two settings -/

private theorem bindCall_congr (hx : c.index = c'.index) {target : Option Expr}
    {r r' : Unit → Except Failure String} (hnone : target = none → c.enclosing = c'.enclosing)
    (hn : ∀ e ∈ target, c.typeName? e = c'.typeName? e) (hr : target.isSome = true → r () = r' ())
    (method : String) (args : List Expr) :
    bindCall c target r method args = bindCall c' target r' method args := by
  unfold bindCall
  cases target with
  | none => rw [Setting.bareOwner_congr hx (hnone rfl)]
  | some e =>
    dsimp only
    rw [hn e rfl, hr rfl, hx]

private theorem callType_congr (hx : c.index = c'.index) {target : Option Expr}
    {r r' : Unit → Except Failure String} (hnone : target = none → c.enclosing = c'.enclosing)
    (hn : ∀ e ∈ target, c.typeName? e = c'.typeName? e) (hr : target.isSome = true → r () = r' ())
    (method : String) (args : List Expr) :
    callType c target r method args = callType c' target r' method args := by
  unfold callType
  rw [bindCall_congr hx hnone hn hr]
  simp only [Setting.returnType_congr hx]

private theorem fieldType_congr (hx : c.index = c'.index) {target : Expr}
    {t t' : Unit → Except Failure String} {n : String}
    (hthis : ∀ l, target = .this l → c.enclosing = c'.enclosing)
    (hn : c.typeName? target = c'.typeName? target) (ht : t () = t' ())
    (htype : ∀ a, t () = .ok a → c.staticType target = .ok a)
    (hvar : ∀ v, c.fieldOf? target n = some v → ofVar v = ofVar' v) :
    fieldType c ofVar target t n = fieldType c' ofVar' target t' n := by
  unfold fieldType
  rw [← hn, ← ht, ← hx]
  refine Failure.bind_congr fun typeName hr ↦ ?_
  rw [lift_eq_ok] at hr
  dsimp only
  split
  case' isTrue => refine Failure.bind_congr fun _ _ ↦ Failure.bind_congr fun isLength _ ↦ ?_
  case' isFalse => refine Failure.bind_congr fun isLength _ ↦ ?_
  all_goals
    split
    · rfl
    · split
      case' h_1 =>
        refine Failure.bind_congr fun name hname ↦ Failure.bind_congr fun owner ho ↦ ?_
        have howner : c.ownerOf? target = owner := by
          cases ho
          simp only [Setting.ownerOf?, hr, lift_eq_ok.mp hname]
      case' h_2 l _ =>
        rw [← hthis l rfl]
        refine Failure.bind_congr fun owner ho ↦ ?_
        have howner : c.ownerOf? (.this l) = owner := by
          cases ho
          simp only [Setting.ownerOf?, hr]
      case' h_3 =>
        refine Failure.bind_congr fun a ha ↦ Failure.bind_congr fun owner ho ↦ ?_
        have howner : c.ownerOf? target = owner := by
          cases ho
          simp only [Setting.ownerOf?, hr, htype a ha]
      all_goals
        split
        · next v hv => exact hvar v (by rw [Setting.fieldOf?, howner, hv])
        · rfl

/-- Settings that agree on an expression give it the same type, if they give the same types to the
variables that it names. -/
theorem typeOf_congr (hx : c.index = c'.index)
    (hb : ∀ e, Below (typeOf c ofVar e) (c.staticType e)) : (e : Expr) → c.AgreeOn c' e →
    (∀ v ∈ c.named e, ofVar v = ofVar' v) → typeOf c ofVar e = typeOf c' ofVar' e
  | .literal .., _, _ | .instanceOf .., _, _ | .classLiteral .., _, _ | .lambda .., _, _
  | .lambdaBlock .., _, _ | .methodRef .., _, _ | .typeMethodRef .., _, _ | .super _, _, _
  | .arrayInit .., _, _ => by
    simp only [typeOf]
  | .cast .., _, _ | .newObject .., _, _ | .newArray .., _, _ => by
    simp only [typeOf, Setting.typeOfRef_congr hx]
  | .this _, ha, _ => by
    simp only [typeOf, ha.classes rfl]
  | .paren _ e, ha, hv | .preStep _ _ e, ha, hv | .postStep _ _ e, ha, hv
  | .assign _ _ e _, ha, hv => by
    have he := typeOf_congr hx hb e ⟨ha.names, ha.classes⟩ hv
    simpa only [typeOf] using he
  | .name _ n, ha, hv => by
    unfold typeOf
    rw [← ha.names n List.mem_cons_self]
    split
    · next v hl => exact hv v (Option.mem_toList.mpr hl)
    · rfl
  | .field _ e n, ha, hv => by
    have he := typeOf_congr hx hb e ⟨ha.names, ha.classes⟩ fun v hm ↦
      hv v (List.mem_append_left _ hm)
    unfold typeOf
    refine fieldType_congr hx ?_ (Setting.typeName?_congr hx e ha.names) he (fun _ ↦ (hb e).ok)
      fun v hm ↦ hv v (List.mem_append_right _ (Option.mem_toList.mpr hm))
    rintro l rfl
    exact ha.classes rfl
  | .call _ none n as, ha, _ => by
    unfold typeOf
    exact callType_congr hx (fun _ ↦ ha.classes rfl) (fun _ h ↦ by cases h) (fun h ↦ by cases h) n as
  | .call _ (some e) n as, ha, hv => by
    have he := typeOf_congr hx hb e ⟨ha.names, ha.classes⟩ hv
    unfold typeOf
    refine callType_congr hx (fun h ↦ by cases h) ?_ (fun _ ↦ he) n as
    rintro _ ⟨⟩
    exact Setting.typeName?_congr hx e ha.names
  | .binary _ op a b, ha, hv => by
    unfold typeOf
    split
    · rfl
    · next hop =>
      obtain ⟨hnames, hclasses⟩ := ha
      simp only [Expr.typeNames, hop, Expr.typeInClass, Setting.named] at hnames hclasses hv
      rw [typeOf_congr hx hb a ⟨fun n hn ↦ hnames n (List.mem_append_left _ hn),
          fun h ↦ hclasses (by simp [h])⟩ fun v hm ↦ hv v (List.mem_append_left _ hm),
        typeOf_congr hx hb b ⟨fun n hn ↦ hnames n (List.mem_append_right _ hn),
          fun h ↦ hclasses (by simp [h])⟩ fun v hm ↦ hv v (List.mem_append_right _ hm)]
  | .unary _ op e, ha, hv => by
    unfold typeOf
    split
    · rfl
    · next hop =>
      obtain ⟨hnames, hclasses⟩ := ha
      simp only [Expr.typeNames, hop, if_false, Expr.typeInClass, Setting.named] at hnames hclasses hv
      rw [typeOf_congr hx hb e ⟨hnames, fun h ↦ hclasses (by simp [hop, h])⟩ hv]
  | .conditional _ _ a b, ha, hv => by
    unfold typeOf
    rw [typeOf_congr hx hb a ⟨fun n hn ↦ ha.names n (List.mem_append_left _ hn),
        fun h ↦ ha.classes (Bool.or_eq_true_iff.mpr (.inl h))⟩ fun v hm ↦
          hv v (List.mem_append_left _ hm),
      typeOf_congr hx hb b ⟨fun n hn ↦ ha.names n (List.mem_append_right _ hn),
        fun h ↦ ha.classes (Bool.or_eq_true_iff.mpr (.inr h))⟩ fun v hm ↦
          hv v (List.mem_append_right _ hm)]
  | .index _ a _, ha, hv => by
    have he := typeOf_congr hx hb a ⟨ha.names, ha.classes⟩ hv
    unfold typeOf
    rw [he]

/-- A variable has the same type in two settings that agree on its initializer, if it is declared
with `var`, and give the same types to the variables that the initializer names. -/
theorem declaredType_congr (hx : c.index = c'.index)
    (hb : ∀ e, Below (typeOf c ofVar e) (c.staticType e)) {v : Variable}
    (ha : ∀ e ∈ v.inferredInit?, c.AgreeOn c' e)
    (hv : ∀ w ∈ c.inferredFrom v, ofVar w = ofVar' w) :
    declaredType c (typeOf c ofVar) v = declaredType c' (typeOf c' ofVar') v := by
  unfold declaredType
  unfold Variable.inferredInit? at ha
  unfold Setting.inferredFrom at hv
  split
  · rfl
  · next t ht =>
    split
    · next hvar =>
      split
      · next e he =>
        rw [ht, he] at ha hv
        simp only [hvar, if_true] at ha hv
        exact typeOf_congr hx hb e (ha e rfl) hv
      · rfl
    · rw [Setting.typeOfRef_congr hx]

/-! ### How deep initializers are followed -/

private theorem typeOfVariable_succ (fuel : Nat) (v : Variable) :
    typeOfVariable c (fuel + 1) v = declaredType c (typeOf c (typeOfVariable c fuel)) v := rfl

private theorem below_staticType_of_le {fuel : Nat} (h : fuel ≤ c.variableCount) (e : Expr) :
    Below (typeOf c (typeOfVariable c fuel) e) (c.staticType e) :=
  below_typeOf (below_typeOfVariable h) e

/-- If following initializers one deeper changes the type of some variable, then it changes the type
of a variable that code can name one deeper already. -/
private theorem exists_changed {fuel : Nat} (h : fuel ≤ c.variableCount) {v : Variable}
    (hv : typeOfVariable c (fuel + 1) v ≠ typeOfVariable c (fuel + 2) v) :
    ∃ w ∈ c.nameable, typeOfVariable c fuel w ≠ typeOfVariable c (fuel + 1) w := by
  by_contra hno
  push Not at hno
  exact hv (declaredType_congr rfl (below_staticType_of_le h) (fun e _ ↦ .refl c e) fun w hw ↦
    hno w (Setting.inferredFrom_subset v hw))

/-- Only one depth changes the type of a variable: there is a loop before, and none after. -/
private theorem changed_once {m n : Nat} {v : Variable}
    (hm : typeOfVariable c m v ≠ typeOfVariable c (m + 1) v)
    (hn : typeOfVariable c n v ≠ typeOfVariable c (n + 1) v) : m = n := by
  have key : ∀ {a b : Nat}, typeOfVariable c a v ≠ typeOfVariable c (a + 1) v →
      typeOfVariable c b v ≠ typeOfVariable c (b + 1) v → ¬ a < b := by
    intro a b ha hb hab
    have hloop := (below_typeOfVariable (Nat.le_succ b) v).resolve_right hb
    rcases below_typeOfVariable (c := c) (Nat.succ_le_of_lt hab) v with h | h
    · exact ha (((below_typeOfVariable (Nat.le_succ a) v).resolve_right ha).trans h.symm)
    · exact ha (((below_typeOfVariable (Nat.le_succ a) v).resolve_right ha).trans (h.trans hloop).symm)
  exact Nat.le_antisymm (Nat.not_lt.mp (key hn hm)) (Nat.not_lt.mp (key hm hn))

/-- Following initializers one deeper than there are variables changes no type: else there were a
depth too many, each with a variable of its own. -/
private theorem typeOfVariable_variableCount {v : Variable} (hv : v ∈ c.nameable) :
    typeOfVariable c c.variableCount v = typeOfVariable c (c.variableCount + 1) v := by
  by_contra hne
  have hchain : ∀ k ≤ c.variableCount, ∃ w ∈ c.nameable,
      typeOfVariable c k w ≠ typeOfVariable c (k + 1) w := by
    intro k hk
    induction hk using Nat.decreasingInduction with
    | self => exact ⟨v, hv, hne⟩
    | of_succ k hk ih =>
      obtain ⟨w, -, hw⟩ := ih
      exact exists_changed hk.le hw
  choose w hmem hw using hchain
  let ws := List.ofFn fun k : Fin (c.variableCount + 1) ↦ w k (Nat.le_of_lt_succ k.isLt)
  have hnodup : ws.Nodup := by
    refine List.nodup_ofFn.mpr fun i j (hij : w i _ = w j _) ↦ Fin.ext ?_
    exact changed_once (hij ▸ hw i (Nat.le_of_lt_succ i.isLt)) (hw j (Nat.le_of_lt_succ j.isLt))
  have hsub : ws ⊆ c.nameable := by
    intro x hx
    obtain ⟨k, rfl⟩ := List.mem_ofFn.mp hx
    exact hmem _ _
  have hle := (hnodup.subperm hsub).length_le
  rw [List.length_ofFn, Setting.length_nameable] at hle
  omega

/-- Following initializers deeper than there are variables changes no type. -/
theorem typeOfVariable_eq_variableType {fuel : Nat} (h : c.variableCount ≤ fuel) {v : Variable}
    (hv : v ∈ c.nameable) : typeOfVariable c fuel v = c.variableType v := by
  induction fuel, h using Nat.le_induction generalizing v with
  | base => rfl
  | succ fuel _ ih =>
    refine Eq.trans ?_ (typeOfVariable_variableCount hv).symm
    exact (declaredType_congr rfl (fun _ ↦ below_refl _) (fun e _ ↦ .refl c e) fun w hw ↦
      (ih (Setting.inferredFrom_subset v hw)).symm).symm

theorem below_staticType (fuel : Nat) (e : Expr) :
    Below (typeOf c (typeOfVariable c fuel) e) (c.staticType e) := by
  rcases Nat.le_total fuel c.variableCount with h | h
  · exact below_staticType_of_le h e
  · refine .inr (typeOf_congr rfl (fun _ ↦ below_refl _) e (.refl c e) fun w hw ↦ ?_).symm
    exact (typeOfVariable_eq_variableType h (Setting.named_subset e hw)).symm

end Typing

namespace Setting

open Typing

variable {c c' : Setting} {v : Variable}

/-- A variable has the type that its declaration gives it, and if it is declared with `var` the type
of its initializer. -/
theorem variableType_eq (hv : v ∈ c.nameable) :
    c.variableType v = declaredType c c.staticType v := by
  rw [← typeOfVariable_eq_variableType (Nat.le_succ _) hv]
  rfl

theorem variableType_of_inferred (hv : v ∈ c.nameable) {e : Expr} (he : v.inferredInit? = some e) :
    c.variableType v = c.staticType e := by
  rw [variableType_eq hv, declaredType]
  unfold Variable.inferredInit? at he
  split at he
  · next t ht =>
    split at he
    · next hvar => rw [ht, he]; exact if_pos hvar
    · cases he
  · cases he

/-- A variable has the same type in two settings that agree on its initializer, if it is declared
with `var`, and on the initializers of all variables that its type depends on. -/
theorem variableType_congr (hx : c.index = c'.index) (hv : v ∈ c.nameable) (hv' : v ∈ c'.nameable)
    (ha : ∀ w, w = v ∨ c.DependsOn v w → ∀ e ∈ w.inferredInit?, c.AgreeOn c' e) :
    c.variableType v = c'.variableType v := by
  have key : ∀ fuel, ∀ w, w = v ∨ c.DependsOn v w →
      typeOfVariable c fuel w = typeOfVariable c' fuel w := by
    intro fuel
    induction fuel with
    | zero =>
      intro w _
      simp only [typeOfVariable, declaredType, typeOfRef_congr hx]
    | succ fuel ih =>
      intro w hw
      refine declaredType_congr hx (below_staticType fuel) (ha w hw) fun u hu ↦ ih u (.inr ?_)
      rcases hw with rfl | hw
      · exact .single hu
      · exact hw.tail hu
  have h := key (max c.variableCount c'.variableCount) v (.inl rfl)
  rwa [typeOfVariable_eq_variableType (Nat.le_max_left _ _) hv,
    typeOfVariable_eq_variableType (Nat.le_max_right _ _) hv'] at h

end Setting

end GuardLint
