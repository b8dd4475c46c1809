import GuardLint.Semantics.Constant
import Mathlib.Data.List.Perm.Subperm
import Mathlib.Logic.Relation

/-!
# Variables whose type depends on themselves

The type of a variable declared with `var` is that of its initializer, so it depends on the
variables that the initializer names. If no variable depends on itself, every question about types
and constants has an answer or is left unresolved. The only fault there can be is a variable that
does depend on itself: more initializers inside each other than there are variables name one of
them twice.
-/

namespace GuardLint

open Syntax

namespace Failure

/-- A question has an answer, is left unresolved, or ends in a fault of some sort. -/
def Within {α : Type} (P : Fault → Prop) (x : Except Failure α) : Prop :=
  ∀ f, x = .error (.fault f) → P f

variable {α β : Type} {P Q : Fault → Prop}

theorem within_ok (a : α) : Within P (.ok a) := fun _ h ↦ by cases h

theorem within_unresolved (e : Unresolved) : Within P (.error (.unresolved e) : Except Failure α) :=
  fun _ h ↦ by cases h

theorem within_fault {f : Fault} (h : P f) : Within P (.error (.fault f) : Except Failure α) := by
  rintro _ ⟨⟩
  exact h

theorem lift_eq_ok {x : Except Unresolved α} {a : α} : lift x = .ok a ↔ x = .ok a := by
  cases x <;> simp [lift]

theorem within_lift (x : Except Unresolved α) : Within P (lift x) := by
  cases x with
  | ok a => exact within_ok a
  | error e => exact within_unresolved e

/-- Questions one after the other, the later ones asked only if those before are answered. -/
theorem within_bind {x : Except Failure α} {k : α → Except Failure β} (hx : Within P x)
    (hk : ∀ a, x = .ok a → Within P (k a)) : Within P (x >>= k) := by
  cases x with
  | ok a => exact hk a rfl
  | error e =>
    intro f h
    cases h
    exact hx f rfl

/-- Another way to answer a question gives the same answer, or lack of one, unless the first ends in
a loop. -/
def Below (x y : Except Failure α) : Prop := x = .error (.fault .loop) ∨ x = y

theorem below_refl (x : Except Failure α) : Below x x := .inr rfl

theorem below_loop {y : Except Failure α} : Below (.error (.fault .loop)) y := .inl rfl

theorem Below.ok {x y : Except Failure α} (h : Below x y) {a : α} (hx : x = .ok a) : y = .ok a := by
  rcases h with hloop | rfl
  · rw [hloop] at hx
    cases hx
  · exact hx

theorem below_bind {x y : Except Failure α} {k m : α → Except Failure β} (h : Below x y)
    (hk : ∀ a, Below (k a) (m a)) : Below (x >>= k) (y >>= m) := by
  rcases h with rfl | rfl
  · exact below_loop
  · cases x with
    | error e => exact below_refl _
    | ok a => exact hk a

theorem Within.imp {x : Except Failure α} (hx : Within P x) (h : ∀ f, P f → Q f) : Within Q x :=
  fun f hf ↦ h f (hx f hf)

end Failure

open Failure

namespace Setting

/-- The variables that code in a setting can name. -/
def nameable (c : Setting) : List Variable :=
  c.scope ++ c.index.classes.flatMap (·.inner.fields) ++ c.enclosing.chain.flatMap (·.fields)

theorem length_nameable (c : Setting) : c.nameable.length = c.variableCount := by
  simp [nameable, variableCount, Nat.add_assoc]

/-- The class that what stands before a dot denotes: the type that it names, the class around, or
the class of its type. -/
def ownerOf? (c : Setting) (target : Expr) : Option ClassInfo :=
  match c.typeName? target, target with
  | .ok (some t), _ =>
    match c.index.resolveType t with
    | .ok name => (c.index.classNamed? name).map Nest.inner
    | .error _ => none
  | .ok none, .this _ => some c.enclosing.inner
  | .ok none, _ =>
    match c.staticType target with
    | .ok type => (c.index.classNamed? type).map Nest.inner
    | .error _ => none
  | .error _, _ => none

/-- The field that a name after a dot denotes. -/
def fieldOf? (c : Setting) (target : Expr) (name : String) : Option Variable :=
  (c.ownerOf? target).bind (·.field? name)

/-- The variables that an expression names where its type may depend on them. Arguments, conditions
and the operands of tests do not count, since no type depends on theirs. -/
def named (c : Setting) : Expr → List Variable
  | .paren _ e | .preStep _ _ e | .postStep _ _ e | .assign _ _ e _ | .index _ e _
  | .call _ (some e) _ _ => c.named e
  | .unary _ op e => if op = .negate then [] else c.named e
  | .name _ n => (c.scope.lookup n).toList
  | .field _ e n => c.named e ++ (c.fieldOf? e n).toList
  | .binary _ op a b => if Typing.isTest op then [] else c.named a ++ c.named b
  | .conditional _ _ a b => c.named a ++ c.named b
  | _ => []

/-- The variables that the type of a variable is inferred from. -/
def inferredFrom (c : Setting) (v : Variable) : List Variable :=
  match v.type, v.init with
  | some t, some e => if t.name = "var" && t.dims = 0 then c.named e else []
  | _, _ => []

/-- The type of one variable depends on that of another. -/
def DependsOn (c : Setting) : Variable → Variable → Prop :=
  Relation.TransGen fun v w ↦ w ∈ c.inferredFrom v

variable {c : Setting}

theorem mem_nameable_of_lookup {n : String} {v : Variable} (h : c.scope.lookup n = some v) :
    v ∈ c.nameable :=
  List.mem_append_left _ (List.mem_append_left _ (List.mem_of_find?_eq_some h))

theorem mem_nameable_of_class {name : String} {k : Nest} {v : Variable}
    (hk : c.index.classNamed? name = some k) {n : String} (hv : k.inner.field? n = some v) :
    v ∈ c.nameable :=
  List.mem_append_left _ (List.mem_append_right _ (List.mem_flatMap.mpr
    ⟨k, List.mem_of_find?_eq_some hk, List.mem_of_find?_eq_some hv⟩))

theorem mem_nameable_of_enclosing {n : String} {v : Variable}
    (hv : c.enclosing.inner.field? n = some v) : v ∈ c.nameable :=
  List.mem_append_right _ (List.mem_flatMap.mpr
    ⟨_, List.mem_cons_self, List.mem_of_find?_eq_some hv⟩)

theorem mem_nameable_of_fieldOf? {e : Expr} {n : String} {v : Variable}
    (h : c.fieldOf? e n = some v) : v ∈ c.nameable := by
  obtain ⟨k, hk, hv⟩ := Option.bind_eq_some_iff.mp h
  have hclass : ∀ name, (c.index.classNamed? name).map Nest.inner = some k → v ∈ c.nameable := by
    intro name hname
    obtain ⟨m, hm, rfl⟩ := Option.map_eq_some_iff.mp hname
    exact mem_nameable_of_class hm hv
  unfold ownerOf? at hk
  split at hk
  · split at hk
    · exact hclass _ hk
    · cases hk
  · cases hk
    exact mem_nameable_of_enclosing hv
  · split at hk
    · exact hclass _ hk
    · cases hk
  · cases hk

theorem named_subset : (e : Expr) → c.named e ⊆ c.nameable
  | .paren _ e | .preStep _ _ e | .postStep _ _ e | .assign _ _ e _ | .index _ e _
  | .call _ (some e) _ _ => by
    unfold named
    exact named_subset e
  | .unary _ op e => by
    unfold named
    split
    · exact List.nil_subset _
    · exact named_subset e
  | .name _ n => by
    intro v hv
    unfold named at hv
    exact mem_nameable_of_lookup (Option.mem_toList.mp hv)
  | .field _ e n => by
    unfold named
    refine List.append_subset.mpr ⟨named_subset e, fun v hv ↦ ?_⟩
    exact mem_nameable_of_fieldOf? (Option.mem_toList.mp hv)
  | .binary _ op a b => by
    unfold named
    split
    · exact List.nil_subset _
    · exact List.append_subset.mpr ⟨named_subset a, named_subset b⟩
  | .conditional _ _ a b => by
    unfold named
    exact List.append_subset.mpr ⟨named_subset a, named_subset b⟩
  | .literal .. | .this _ | .super _ | .call _ none _ _ | .newObject .. | .newArray ..
  | .arrayInit .. | .classLiteral .. | .methodRef .. | .typeMethodRef .. | .instanceOf ..
  | .cast .. | .lambda .. | .lambdaBlock .. => by
    unfold named
    exact List.nil_subset _

theorem inferredFrom_subset (v : Variable) : c.inferredFrom v ⊆ c.nameable := by
  unfold inferredFrom
  split
  · split
    · exact named_subset _
    · exact List.nil_subset _
  · exact List.nil_subset _

/-- No variable depends on itself if none is inferred from one that is itself inferred. -/
theorem not_dependsOn_self
    (h : ∀ v ∈ c.nameable, ∀ w ∈ c.inferredFrom v, c.inferredFrom w = []) (v : Variable) :
    ¬ c.DependsOn v v := by
  intro hv
  have hsource : c.inferredFrom v ≠ [] := by
    obtain ⟨w, hw, -⟩ := Relation.TransGen.head'_iff.mp hv
    exact List.ne_nil_of_mem hw
  obtain ⟨u, huv, hu⟩ := Relation.TransGen.tail'_iff.mp hv
  have hmem : u ∈ c.nameable := by
    rcases Relation.reflTransGen_iff_eq_or_transGen.mp huv with rfl | huv
    · exact inferredFrom_subset _ hu
    · obtain ⟨w, -, hw⟩ := Relation.TransGen.tail'_iff.mp huv
      exact inferredFrom_subset _ hw
  exact hsource (h u hmem v hu)

end Setting

open Setting

namespace Typing

variable {c : Setting} {P : Fault → Prop}

theorem within_bindCall {target : Option Expr} {receiver : Unit → Except Failure String}
    (h : target.isSome = true → Within P (receiver ())) (method : String) (args : List Expr) :
    Within P (bindCall c target receiver method args) := by
  unfold bindCall
  cases target with
  | none => exact within_bind (within_lift _) fun _ _ ↦ within_ok _
  | some t =>
    refine within_bind (within_lift _) fun name _ ↦ ?_
    cases name with
    | none => exact within_bind (h rfl) fun _ _ ↦ within_ok _
    | some n => exact within_bind (within_lift _) fun _ _ ↦ within_ok _

theorem within_callType {target : Option Expr} {receiver : Unit → Except Failure String}
    (h : target.isSome = true → Within P (receiver ())) (method : String) (args : List Expr) :
    Within P (callType c target receiver method args) := by
  unfold callType
  split
  · exact within_ok _
  · exact within_bind (within_bindCall h method args) fun _ _ ↦ within_lift _

/-! ### More initializers followed -/

theorem below_callType {target : Option Expr} {r r' : Unit → Except Failure String}
    (h : Below (r ()) (r' ())) (method : String) (args : List Expr) :
    Below (callType c target r method args) (callType c target r' method args) := by
  unfold callType
  split
  · exact below_refl _
  · refine below_bind ?_ fun _ ↦ below_refl _
    unfold bindCall
    cases target with
    | none => exact below_refl _
    | some t =>
      refine below_bind (below_refl _) fun name ↦ ?_
      cases name with
      | none => exact below_bind h fun _ ↦ below_refl _
      | some n => exact below_refl _

theorem below_fieldType {ofVar ofVar' : Variable → Except Failure String} {target : Expr}
    {t t' : Unit → Except Failure String} {n : String} (hvar : ∀ v, Below (ofVar v) (ofVar' v))
    (h : Below (t ()) (t' ())) :
    Below (fieldType c ofVar target t n) (fieldType c ofVar' target t' n) := by
  unfold fieldType
  refine below_bind (below_refl _) fun typeName ↦ ?_
  dsimp only
  split
  case' isTrue => refine below_bind h fun _ ↦ below_bind (below_refl _) fun isLength ↦ ?_
  case' isFalse => refine below_bind (below_refl _) fun isLength ↦ ?_
  all_goals
    split
    · exact below_refl _
    · split
      case' h_1 => refine below_bind (below_refl _) fun _ ↦ below_bind (below_refl _) fun owner ↦ ?_
      case' h_2 => refine below_bind (below_refl _) fun owner ↦ ?_
      case' h_3 => refine below_bind h fun _ ↦ below_bind (below_refl _) fun owner ↦ ?_
      -- Whatever the class is, only the type of its field may differ.
      all_goals
        split
        · exact hvar _
        · exact below_refl _

/-- An expression keeps its type, or the lack of one, when fewer variables loop. -/
theorem below_typeOf {ofVar ofVar' : Variable → Except Failure String}
    (h : ∀ v, Below (ofVar v) (ofVar' v)) :
    (e : Expr) → Below (typeOf c ofVar e) (typeOf c ofVar' e)
  | .literal .. | .instanceOf .. | .classLiteral .. | .lambda .. | .lambdaBlock .. | .methodRef ..
  | .typeMethodRef .. | .this _ | .super _ | .arrayInit .. | .cast .. | .newObject ..
  | .newArray .. => by
    unfold typeOf
    exact below_refl _
  | .paren _ e | .preStep _ _ e | .postStep _ _ e | .assign _ _ e _ => by
    unfold typeOf
    exact below_typeOf h e
  | .name _ n => by
    unfold typeOf
    split
    · exact h _
    · exact below_refl _
  | .field _ e n => by
    unfold typeOf
    exact below_fieldType h (below_typeOf h e)
  | .call _ none n as => by
    unfold typeOf
    exact below_refl _
  | .call _ (some e) n as => by
    unfold typeOf
    exact below_callType (below_typeOf h e) n as
  | .binary _ op a b => by
    unfold typeOf
    split
    · exact below_refl _
    · exact below_bind (below_typeOf h a) fun _ ↦ below_bind (below_typeOf h b) fun _ ↦
        below_refl _
  | .unary _ op e => by
    unfold typeOf
    split
    · exact below_refl _
    · exact below_bind (below_typeOf h e) fun _ ↦ below_refl _
  | .conditional _ _ a b => by
    unfold typeOf
    exact below_bind (below_typeOf h a) fun _ ↦ below_bind (below_typeOf h b) fun _ ↦ below_refl _
  | .index _ a _ => by
    unfold typeOf
    exact below_bind (below_typeOf h a) fun _ ↦ below_refl _

theorem below_declaredType {infer infer' : Expr → Except Failure String}
    (h : ∀ e, Below (infer e) (infer' e)) (v : Variable) :
    Below (declaredType c infer v) (declaredType c infer' v) := by
  unfold declaredType
  split
  · exact below_refl _
  · split
    · split
      · exact h _
      · exact below_refl _
    · exact below_refl _

/-- A variable keeps its type when more initializers inside each other are followed. -/
theorem below_typeOfVariable {m n : Nat} (h : m ≤ n) (v : Variable) :
    Below (typeOfVariable c m v) (typeOfVariable c n v) := by
  induction m generalizing n v with
  | zero =>
    cases n with
    | zero => exact below_refl _
    | succ n => exact below_declaredType (fun _ ↦ below_loop) v
  | succ m ih =>
    cases n with
    | zero => exact absurd h (Nat.not_succ_le_zero m)
    | succ n =>
      exact below_declaredType (below_typeOf fun w ↦ ih (Nat.le_of_succ_le_succ h) w) v

/-! ### Faults -/

/-- The type of a field has no faults but those of the type of what it is a field of and of the
field itself. -/
theorem within_fieldType {ofVar : Variable → Except Failure String} {target : Expr}
    {targetType : Unit → Except Failure String} {n : String}
    (hvar : ∀ v, c.fieldOf? target n = some v → Within P (ofVar v))
    (htarget : Within P (targetType ()))
    (htype : ∀ t, targetType () = .ok t → c.staticType target = .ok t) :
    Within P (fieldType c ofVar target targetType n) := by
  unfold fieldType
  refine within_bind (within_lift _) fun typeName hn ↦ ?_
  rw [lift_eq_ok] at hn
  dsimp only
  split
  case' isTrue => refine within_bind htarget fun _ _ ↦ within_bind (within_ok _) fun isLength _ ↦ ?_
  case' isFalse => refine within_bind (within_ok _) fun isLength _ ↦ ?_
  all_goals
    split
    · exact within_ok _
    · split
      case' h_1 =>
        refine within_bind (within_lift _) fun name hr ↦ within_bind (within_ok _) fun owner ho ↦ ?_
        have howner : c.ownerOf? target = owner := by
          cases ho
          simp only [ownerOf?, hn, lift_eq_ok.mp hr]
      case' h_2 l _ =>
        refine within_bind (within_ok _) fun owner ho ↦ ?_
        have howner : c.ownerOf? (.this l) = owner := by
          cases ho
          simp only [ownerOf?, hn]
      case' h_3 =>
        refine within_bind htarget fun t ht ↦ within_bind (within_ok _) fun owner ho ↦ ?_
        have howner : c.ownerOf? target = owner := by
          cases ho
          simp only [ownerOf?, hn, htype t ht]
      all_goals
        split
        · next v hv => exact hvar v (by rw [fieldOf?, howner, hv])
        · exact within_unresolved _

/-- The type of an expression has no faults but those of the types of the variables it names. -/
theorem within_typeOf {ofVar : Variable → Except Failure String}
    (hb : ∀ e, Below (typeOf c ofVar e) (c.staticType e)) :
    (e : Expr) → (∀ v ∈ c.named e, Within P (ofVar v)) → Within P (typeOf c ofVar e)
  | .literal .. | .instanceOf .. | .classLiteral .. | .lambda .. | .lambdaBlock .. | .methodRef ..
  | .typeMethodRef .. | .this _ => fun _ ↦ by
    unfold typeOf
    exact within_ok _
  | .super _ | .arrayInit .. => fun _ ↦ by
    unfold typeOf
    exact within_unresolved _
  | .cast .. | .newObject .. | .newArray .. => fun _ ↦ by
    unfold typeOf
    exact within_lift _
  | .paren _ e | .preStep _ _ e | .postStep _ _ e | .assign _ _ e _ => fun h ↦ by
    unfold typeOf
    unfold named at h
    exact within_typeOf hb e h
  | .name _ n => fun h ↦ by
    unfold typeOf
    unfold named at h
    split
    · next v hv => exact h v (Option.mem_toList.mpr hv)
    · exact within_unresolved _
  | .field _ e n => fun h ↦ by
    unfold typeOf
    unfold named at h
    exact within_fieldType
      (fun v hv ↦ h v (List.mem_append_right _ (Option.mem_toList.mpr hv)))
      (within_typeOf hb e fun v hv ↦ h v (List.mem_append_left _ hv)) (fun _ ↦ (hb e).ok)
  | .call _ none n as => fun _ ↦ by
    unfold typeOf
    exact within_callType (fun h ↦ by cases h) n as
  | .call _ (some e) n as => fun h ↦ by
    unfold typeOf
    unfold named at h
    exact within_callType (fun _ ↦ within_typeOf hb e h) n as
  | .binary _ op a b => fun h ↦ by
    unfold typeOf
    unfold named at h
    split
    · exact within_ok _
    · next hop =>
      rw [if_neg hop] at h
      exact within_bind (within_typeOf hb a fun v hv ↦ h v (List.mem_append_left _ hv)) fun _ _ ↦
        within_bind (within_typeOf hb b fun v hv ↦ h v (List.mem_append_right _ hv)) fun _ _ ↦
          within_lift _
  | .unary _ op e => fun h ↦ by
    unfold typeOf
    unfold named at h
    split
    · exact within_ok _
    · next hop =>
      rw [if_neg hop] at h
      exact within_bind (within_typeOf hb e h) fun _ _ ↦ within_lift _
  | .conditional _ _ a b => fun h ↦ by
    unfold typeOf
    unfold named at h
    exact within_bind (within_typeOf hb a fun v hv ↦ h v (List.mem_append_left _ hv)) fun _ _ ↦
      within_bind (within_typeOf hb b fun v hv ↦ h v (List.mem_append_right _ hv)) fun _ _ ↦
        within_lift _
  | .index _ a _ => fun h ↦ by
    unfold typeOf
    unfold named at h
    refine within_bind (within_typeOf hb a h) fun t _ ↦ ?_
    split
    · exact within_ok _
    · exact within_unresolved _

/-- The type of a variable has no faults but those of the types it is inferred from, and none
unless it is declared with `var`. -/
theorem within_declaredType {ofVar : Variable → Except Failure String} {v : Variable}
    (hb : ∀ e, Below (typeOf c ofVar e) (c.staticType e))
    (h : ∀ w ∈ c.inferredFrom v, Within P (ofVar w)) :
    Within P (declaredType c (typeOf c ofVar) v) := by
  unfold declaredType
  unfold inferredFrom at h
  split
  · exact within_unresolved _
  · next t ht =>
    split
    · next hvar =>
      split
      · next e he =>
        rw [ht, he] at h
        simp only [hvar, if_true] at h
        exact within_typeOf hb e h
      · exact within_unresolved _
    · exact within_lift _

/-- A fault in the type of a variable is a loop, and as many initializers inside each other as are
followed lead to it. -/
theorem within_typeOfVariable : ∀ (fuel : Nat), fuel ≤ c.variableCount → ∀ v : Variable,
    Within (fun f ↦ f = .loop ∧ ∃ vs : List Variable, vs.length = fuel ∧ vs ⊆ c.nameable ∧
      (v :: vs).Pairwise c.DependsOn) (typeOfVariable c fuel v)
  | 0, _, v => by
    unfold typeOfVariable declaredType
    have hloop : Within (fun f ↦ f = .loop ∧ ∃ vs : List Variable, vs.length = 0 ∧
        vs ⊆ c.nameable ∧ (v :: vs).Pairwise c.DependsOn)
        (.error (.fault .loop) : Except Failure String) :=
      within_fault ⟨rfl, [], rfl, List.nil_subset _, List.pairwise_singleton _ v⟩
    split
    · exact within_unresolved _
    · split
      · split
        · exact hloop
        · exact within_unresolved _
      · exact within_lift _
  | fuel + 1, hle, v => by
    have hfuel : fuel ≤ c.variableCount := Nat.le_of_succ_le hle
    unfold typeOfVariable
    refine within_declaredType (fun _ ↦ below_typeOf (below_typeOfVariable hfuel) _)
      fun w hw ↦ (within_typeOfVariable fuel hfuel w).imp ?_
    rintro f ⟨hf, vs, hlen, hsub, hpair⟩
    have hvw : c.DependsOn v w := Relation.TransGen.single hw
    refine ⟨hf, w :: vs, by rw [List.length_cons, hlen],
      List.cons_subset.mpr ⟨inferredFrom_subset v hw, hsub⟩,
      List.pairwise_cons.mpr ⟨fun x hx ↦ ?_, hpair⟩⟩
    rcases List.mem_cons.mp hx with rfl | hx
    · exact hvw
    · exact hvw.trans ((List.pairwise_cons.mp hpair).1 x hx)

end Typing

/-- A fault is a loop, and some variable depends on itself. -/
def Setting.Looping (c : Setting) (f : Fault) : Prop := f = .loop ∧ ∃ v, c.DependsOn v v

namespace Setting

variable {c : Setting}

/-- Typing a variable faults only if some variable depends on itself. -/
theorem within_variableType {v : Variable} (hv : v ∈ c.nameable) :
    Within c.Looping (c.variableType v) := by
  refine (Typing.within_typeOfVariable c.variableCount (Nat.le_refl _) v).imp ?_
  rintro f ⟨hf, vs, hlen, hsub, hpair⟩
  refine ⟨hf, ?_⟩
  by_contra hno
  -- No variable comes twice, so there are too many of them.
  have hnodup : (v :: vs).Nodup := by
    refine hpair.imp ?_
    rintro x _ hx rfl
    exact hno ⟨x, hx⟩
  have hle := (hnodup.subperm (List.cons_subset.mpr ⟨hv, hsub⟩)).length_le
  rw [List.length_cons, hlen, length_nameable] at hle
  omega

theorem within_staticType (e : Expr) : Within c.Looping (c.staticType e) :=
  Typing.within_typeOf (fun _ ↦ below_refl _) e fun _ hv ↦ within_variableType (named_subset e hv)

theorem within_resolveCall (call : Call) : Within c.Looping (c.resolveCall call) := by
  refine Typing.within_bindCall (fun h ↦ ?_) _ _
  split
  · exact within_staticType _
  · exact within_unresolved _

end Setting

namespace Constant

variable {c : Setting} {P : Fault → Prop}

/-- Whether an expression is constant has no faults but those of the question about variables. -/
theorem within_isConstantWith {ofVar : Variable → Except Failure Bool}
    (h : ∀ v ∈ c.nameable, Within P (ofVar v)) :
    (e : Expr) → Within P (isConstantWith c ofVar e)
  | .literal .. => by
    unfold isConstantWith
    exact within_ok _
  | .paren _ e | .unary _ _ e => by
    unfold isConstantWith
    exact within_isConstantWith h e
  | .cast _ t e => by
    unfold isConstantWith
    refine within_bind (within_lift _) fun _ _ ↦ ?_
    split
    · exact within_isConstantWith h e
    · exact within_ok _
  | .binary _ _ a b => by
    unfold isConstantWith
    refine within_bind (within_isConstantWith h a) fun _ _ ↦ ?_
    split
    · exact within_isConstantWith h b
    · exact within_ok _
  | .conditional _ q a b => by
    unfold isConstantWith
    refine within_bind (within_isConstantWith h q) fun _ _ ↦ ?_
    split
    · refine within_bind (within_isConstantWith h a) fun _ _ ↦ ?_
      split
      · exact within_isConstantWith h b
      · exact within_ok _
    · exact within_ok _
  | .name _ n => by
    unfold isConstantWith
    split
    · next v hv => exact h v (mem_nameable_of_lookup hv)
    · exact within_ok _
  | .field _ e n => by
    unfold isConstantWith
    refine within_bind (within_lift _) fun typeName _ ↦ ?_
    split
    · exact within_ok _
    · refine within_bind (within_lift _) fun name _ ↦ ?_
      dsimp only
      split
      · next v hv =>
        obtain ⟨k, hk, hf⟩ := Option.bind_eq_some_iff.mp hv
        exact h v (mem_nameable_of_class hk hf)
      · exact within_ok _
  | .this _ | .super _ | .call .. | .index .. | .newObject .. | .newArray .. | .arrayInit ..
  | .classLiteral .. | .methodRef .. | .typeMethodRef .. | .instanceOf .. | .preStep ..
  | .postStep .. | .assign .. | .lambda .. | .lambdaBlock .. => by
    unfold isConstantWith
    exact within_ok _

theorem within_isConstantVar : ∀ (fuel : Nat) (seen : List String) {v : Variable},
    v ∈ c.nameable → Within c.Looping (isConstantVar c fuel seen v)
  | 0, _, _, _ => within_ok _
  | fuel + 1, seen, v, hv => by
    unfold isConstantVar
    split
    · exact within_ok _
    · split
      · exact within_ok _
      · split
        · exact within_ok _
        · split
          · exact within_ok _
          · next hf => exact within_fault (within_variableType hv _ hf)
          · split
            · exact within_isConstantWith (fun w hw ↦ within_isConstantVar fuel _ hw) _
            · exact within_ok _

end Constant

theorem Setting.within_isConstant {c : Setting} (e : Expr) :
    Within c.Looping (c.isConstant e) :=
  Constant.within_isConstantWith (fun _ hv ↦ Constant.within_isConstantVar _ _ hv) e

end GuardLint
