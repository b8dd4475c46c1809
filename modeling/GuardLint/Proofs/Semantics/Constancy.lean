import GuardLint.Proofs.Semantics.Inference

/-!
# What makes a variable constant

Whether an expression is a constant depends on a setting by what its names denote there, and on the
variables denoted. Two settings of one source file that agree on the initializer of a variable, and
on those of all variables that it leads to, agree on whether the variable is a constant.

No variable is looked at inside itself, so looking deeper than there are variables changes nothing.
-/

namespace GuardLint

open Syntax Failure

/-- The names by themselves on which it may depend whether an expression is constant. -/
def Syntax.Expr.constantNames : Expr → List String
  | .paren _ e | .unary _ _ e | .cast _ _ e => e.constantNames
  | .binary _ _ a b => a.constantNames ++ b.constantNames
  | .conditional _ q a b => q.constantNames ++ a.constantNames ++ b.constantNames
  | .name _ n => [n]
  | .field _ e _ => e.typeNames
  | _ => []

namespace Setting

/-- The field that a name after a dot denotes, if what stands before the dot names a type. -/
def typeField? (c : Setting) (target : Expr) (name : String) : Option Variable :=
  match c.typeName? target with
  | .ok (some type) =>
    match c.index.resolveType type with
    | .ok fullName => (c.index.classNamed? fullName).bind (·.inner.field? name)
    | .error _ => none
  | _ => none

/-- The variables that an expression names where it may depend on them whether it is constant. -/
def constantNamed (c : Setting) : Expr → List Variable
  | .paren _ e | .unary _ _ e | .cast _ _ e => c.constantNamed e
  | .binary _ _ a b => c.constantNamed a ++ c.constantNamed b
  | .conditional _ q a b => c.constantNamed q ++ c.constantNamed a ++ c.constantNamed b
  | .name _ n => (c.scope.lookup n).toList
  | .field _ e n => (c.typeField? e n).toList
  | _ => []

/-- Whether one variable is constant may depend on another: the initializer of the first leads to
the second. -/
def LeadsTo (c : Setting) : Variable → Variable → Prop :=
  Relation.ReflTransGen fun v w ↦ ∃ e ∈ v.init, w ∈ c.constantNamed e

/-- What it may depend on directly whether a variable is constant is the same in two settings. -/
structure AgreeOnConstant (c c' : Setting) (v : Variable) : Prop where
  names : ∀ e ∈ v.init, ∀ n ∈ e.constantNames, c.scope.lookup n = c'.scope.lookup n
  types : ∀ w, w = v ∨ c.DependsOn v w → ∀ e ∈ w.inferredInit?, c.AgreeOn c' e

variable {c c' : Setting}

theorem typeField?_congr (hx : c.index = c'.index) {e : Expr}
    (h : ∀ n ∈ e.typeNames, c.scope.lookup n = c'.scope.lookup n) (name : String) :
    c.typeField? e name = c'.typeField? e name := by
  rw [typeField?, typeField?, typeName?_congr hx e h, hx]

theorem exists_class_of_typeField? {e : Expr} {name : String} {v : Variable}
    (h : c.typeField? e name = some v) : ∃ k ∈ c.index.classes, v ∈ k.inner.fields := by
  unfold typeField? at h
  split at h
  · split at h
    · obtain ⟨k, hk, hv⟩ := Option.bind_eq_some_iff.mp h
      exact ⟨k, List.mem_of_find?_eq_some hk, List.mem_of_find?_eq_some hv⟩
    · cases h
  · cases h

/-- A variable that an expression names where it may depend on it whether it is constant is denoted
by a name, or is a field of a class. -/
theorem constantNamed_cases {v : Variable} : (e : Expr) → v ∈ c.constantNamed e →
    (∃ n, c.scope.lookup n = some v) ∨ ∃ k ∈ c.index.classes, v ∈ k.inner.fields
  | .paren _ e, hv | .unary _ _ e, hv | .cast _ _ e, hv => by
    unfold constantNamed at hv
    exact constantNamed_cases e hv
  | .binary _ _ a b, hv => by
    unfold constantNamed at hv
    exact (List.mem_append.mp hv).elim (constantNamed_cases a) (constantNamed_cases b)
  | .conditional _ q a b, hv => by
    unfold constantNamed at hv
    rcases List.mem_append.mp hv with hv | hv
    · exact (List.mem_append.mp hv).elim (constantNamed_cases q) (constantNamed_cases a)
    · exact constantNamed_cases b hv
  | .name _ n, hv => .inl ⟨n, Option.mem_toList.mp hv⟩
  | .field _ e n, hv => .inr (exists_class_of_typeField? (Option.mem_toList.mp hv))
  | .literal .., hv | .this _, hv | .super _, hv | .call .., hv | .index .., hv | .newObject .., hv
  | .newArray .., hv | .arrayInit .., hv | .classLiteral .., hv | .methodRef .., hv
  | .typeMethodRef .., hv | .instanceOf .., hv | .preStep .., hv | .postStep .., hv
  | .assign .., hv | .lambda .., hv | .lambdaBlock .., hv => by
    unfold constantNamed at hv
    cases hv

theorem constantNamed_subset (e : Expr) : c.constantNamed e ⊆ c.nameable := fun v hv ↦ by
  rcases constantNamed_cases e hv with ⟨n, hn⟩ | ⟨k, hk, hv⟩
  · exact mem_nameable_of_lookup hn
  · exact List.mem_append_left _ (List.mem_append_right _ (List.mem_flatMap.mpr ⟨k, hk, hv⟩))

/-- In settings that agree on its names an expression names the same variables. -/
theorem constantNamed_congr (hx : c.index = c'.index) : (e : Expr) →
    (∀ n ∈ e.constantNames, c.scope.lookup n = c'.scope.lookup n) →
      c.constantNamed e = c'.constantNamed e
  | .paren _ e, h | .unary _ _ e, h | .cast _ _ e, h => by
    unfold constantNamed
    exact constantNamed_congr hx e h
  | .binary _ _ a b, h => by
    unfold constantNamed
    rw [constantNamed_congr hx a fun n hn ↦ h n (List.mem_append_left _ hn),
      constantNamed_congr hx b fun n hn ↦ h n (List.mem_append_right _ hn)]
  | .conditional _ q a b, h => by
    unfold constantNamed
    rw [constantNamed_congr hx q fun n hn ↦ h n (List.mem_append_left _ (List.mem_append_left _ hn)),
      constantNamed_congr hx a fun n hn ↦ h n (List.mem_append_left _ (List.mem_append_right _ hn)),
      constantNamed_congr hx b fun n hn ↦ h n (List.mem_append_right _ hn)]
  | .name _ n, h => by
    unfold constantNamed
    rw [h n List.mem_cons_self]
  | .field _ e n, h => by
    unfold constantNamed
    rw [typeField?_congr hx h]
  | .literal .., _ | .this _, _ | .super _, _ | .call .., _ | .index .., _ | .newObject .., _
  | .newArray .., _ | .arrayInit .., _ | .classLiteral .., _ | .methodRef .., _
  | .typeMethodRef .., _ | .instanceOf .., _ | .preStep .., _ | .postStep .., _ | .assign .., _
  | .lambda .., _ | .lambdaBlock .., _ => rfl

end Setting

open Setting

namespace Constant

variable {c c' : Setting} {ofVar ofVar' : Variable → Except Failure Bool}

/-- Settings that agree on the names of an expression agree on whether it is constant, if they agree
on which of the variables that it names are. -/
theorem isConstantWith_congr (hx : c.index = c'.index) : (e : Expr) →
    (∀ n ∈ e.constantNames, c.scope.lookup n = c'.scope.lookup n) →
    (∀ v ∈ c.constantNamed e, ofVar v = ofVar' v) →
      isConstantWith c ofVar e = isConstantWith c' ofVar' e
  | .paren _ e, h, hv | .unary _ _ e, h, hv => by
    unfold isConstantWith
    exact isConstantWith_congr hx e h hv
  | .cast _ t e, h, hv => by
    unfold isConstantWith
    rw [typeOfRef_congr hx, isConstantWith_congr hx e h hv]
  | .binary _ _ a b, h, hv => by
    unfold isConstantWith
    rw [isConstantWith_congr hx a (fun n hn ↦ h n (List.mem_append_left _ hn)) fun v hm ↦
        hv v (List.mem_append_left _ hm),
      isConstantWith_congr hx b (fun n hn ↦ h n (List.mem_append_right _ hn)) fun v hm ↦
        hv v (List.mem_append_right _ hm)]
  | .conditional _ q a b, h, hv => by
    unfold isConstantWith
    rw [isConstantWith_congr hx q
        (fun n hn ↦ h n (List.mem_append_left _ (List.mem_append_left _ hn))) fun v hm ↦
          hv v (List.mem_append_left _ (List.mem_append_left _ hm)),
      isConstantWith_congr hx a
        (fun n hn ↦ h n (List.mem_append_left _ (List.mem_append_right _ hn))) fun v hm ↦
          hv v (List.mem_append_left _ (List.mem_append_right _ hm)),
      isConstantWith_congr hx b (fun n hn ↦ h n (List.mem_append_right _ hn)) fun v hm ↦
        hv v (List.mem_append_right _ hm)]
  | .name _ n, h, hv => by
    unfold isConstantWith
    rw [← h n List.mem_cons_self]
    split
    · next v hl => exact hv v (Option.mem_toList.mpr hl)
    · rfl
  | .field _ e n, h, hv => by
    unfold isConstantWith
    rw [← typeName?_congr hx e h, ← hx]
    refine Failure.bind_congr fun typeName hn ↦ ?_
    split
    · rfl
    · refine Failure.bind_congr fun fullName hr ↦ ?_
      have hfield : c.typeField? e n =
          (c.index.classNamed? fullName).bind (·.inner.field? n) := by
        simp only [typeField?, lift_eq_ok.mp hn, lift_eq_ok.mp hr]
      dsimp only
      split
      · next v hm => exact hv v (Option.mem_toList.mpr (hfield.trans hm))
      · rfl
  | .literal .., _, _ | .this _, _, _ | .super _, _, _ | .call .., _, _ | .index .., _, _
  | .newObject .., _, _ | .newArray .., _, _ | .arrayInit .., _, _ | .classLiteral .., _, _
  | .methodRef .., _, _ | .typeMethodRef .., _, _ | .instanceOf .., _, _ | .preStep .., _, _
  | .postStep .., _, _ | .assign .., _, _ | .lambda .., _, _ | .lambdaBlock .., _, _ => rfl

theorem isConstantWith_field (l : Location) {e : Expr} {n : String} {v : Variable}
    (h : c.typeField? e n = some v) : isConstantWith c ofVar (.field l e n) = ofVar v := by
  unfold typeField? at h
  split at h
  · next type hn =>
    split at h
    · next fullName hr =>
      simp only [isConstantWith, hn, Failure.lift, bind, Except.bind, hr, h]
    · cases h
  · cases h

/-- Whether a variable is constant is the same in two settings that give it the same type and agree
on its initializer, and on which of the variables that this names are constant. -/
private theorem isConstantVar_congr (hx : c.index = c'.index) {v : Variable} {seen : List String}
    {fuel fuel' : Nat} (htype : c.variableType v = c'.variableType v)
    (hnames : ∀ e ∈ v.init, ∀ n ∈ e.constantNames, c.scope.lookup n = c'.scope.lookup n)
    (hvars : key v ∉ seen → ∀ e ∈ v.init, ∀ w ∈ c.constantNamed e,
      isConstantVar c fuel (key v :: seen) w = isConstantVar c' fuel' (key v :: seen) w) :
    isConstantVar c (fuel + 1) seen v = isConstantVar c' (fuel' + 1) seen v := by
  unfold isConstantVar
  rw [htype]
  split
  · rfl
  · split
    · rfl
    · next e he =>
      split
      · rfl
      · next hseen =>
        have hunseen : key v ∉ seen := by
          simp only [Bool.or_eq_true, List.contains_iff_mem, not_or] at hseen
          exact hseen.2
        rw [isConstantWith_congr hx e (hnames e he) (hvars hunseen e he)]

/-! ### How deep variables are looked at -/

/-- The variables that code in a setting can name and that are not being looked at. -/
def unseen (c : Setting) (seen : List String) : List Variable :=
  c.nameable.filter fun v ↦ !seen.contains (key v)

theorem length_unseen_cons_lt {v : Variable} {seen : List String} (hv : v ∈ c.nameable)
    (h : key v ∉ seen) : (unseen c (key v :: seen)).length < (unseen c seen).length := by
  have heq : unseen c (key v :: seen) = (unseen c seen).filter fun w ↦ !(key w == key v) := by
    rw [unseen, unseen, List.filter_filter]
    refine List.filter_congr fun w _ ↦ ?_
    rw [List.contains_cons, Bool.not_or]
  rw [heq, List.length_filter_lt_length_iff_exists]
  exact ⟨v, List.mem_filter.mpr ⟨hv, by simpa using h⟩, by simp⟩

private theorem isConstantVar_succ {fuel : Nat} {seen : List String} {v : Variable}
    (hv : v ∈ c.nameable) (h : (unseen c seen).length < fuel) :
    isConstantVar c fuel seen v = isConstantVar c (fuel + 1) seen v := by
  induction fuel generalizing seen v with
  | zero => exact absurd h (Nat.not_lt_zero _)
  | succ fuel ih =>
    refine isConstantVar_congr rfl rfl (fun _ _ _ _ ↦ rfl) fun hseen e he w hw ↦ ?_
    have hlt := length_unseen_cons_lt hv hseen
    exact ih (constantNamed_subset e hw) (by omega)

/-- Looking deeper than there are variables changes nothing. -/
private theorem isConstantVar_of_le {fuel : Nat} (h : c.variableCount + 1 ≤ fuel) {v : Variable}
    (hv : v ∈ c.nameable) :
    isConstantVar c fuel [] v = isConstantVar c (c.variableCount + 1) [] v := by
  induction fuel, h using Nat.le_induction with
  | base => rfl
  | succ fuel hle ih =>
    have hlen : (unseen c []).length ≤ c.variableCount :=
      (List.length_filter_le ..).trans_eq (length_nameable c)
    rw [← isConstantVar_succ hv (by omega), ih]

end Constant

namespace Setting

open Constant

variable {c c' : Setting} {v : Variable}

/-- Whether a variable is constant. -/
def isConstantVariable (c : Setting) (v : Variable) : Except Failure Bool :=
  isConstantVar c (c.variableCount + 1) [] v

/-- It is the same in two settings whether a variable is constant, if they agree on its initializer
and on those of all variables that it leads to. -/
theorem isConstantVariable_congr (hx : c.index = c'.index) (hv : v ∈ c.nameable)
    (hv' : v ∈ c'.nameable) (ha : ∀ w, c.LeadsTo v w → c.AgreeOnConstant c' w) :
    c.isConstantVariable v = c'.isConstantVariable v := by
  have key : ∀ fuel seen, ∀ w, c.LeadsTo v w → w ∈ c.nameable → w ∈ c'.nameable →
      isConstantVar c fuel seen w = isConstantVar c' fuel seen w := by
    intro fuel
    induction fuel with
    | zero => exact fun _ _ _ _ _ ↦ rfl
    | succ fuel ih =>
      intro seen w hvw hw hw'
      have hagree := ha w hvw
      refine isConstantVar_congr hx (variableType_congr hx hw hw' hagree.types) hagree.names
        fun _ e he u hu ↦ ih _ u (hvw.tail ⟨e, he, hu⟩) (constantNamed_subset e hu) ?_
      rw [constantNamed_congr hx e (hagree.names e he)] at hu
      exact constantNamed_subset e hu
  have h := key (max (c.variableCount + 1) (c'.variableCount + 1)) [] v .refl hv hv'
  rwa [isConstantVar_of_le (Nat.le_max_left _ _) hv,
    isConstantVar_of_le (Nat.le_max_right _ _) hv'] at h

/-- A name is constant if the variable that it denotes is. -/
theorem isConstant_name (l : Location) {n : String} (h : c.scope.lookup n = some v) :
    c.isConstant (.name l n) = c.isConstantVariable v := by
  simp only [isConstant, isConstantWith, h, isConstantVariable]

/-- A field of a type that is named is constant if the variable that it denotes is. -/
theorem isConstant_field (l : Location) {e : Expr} {n : String} (h : c.typeField? e n = some v) :
    c.isConstant (.field l e n) = c.isConstantVariable v :=
  isConstantWith_field l h

end Setting

end GuardLint
