import GuardLint.Proofs.Semantics.Inference
import GuardLint.Proofs.Semantics.Inheritance
import GuardLint.Proofs.Syntax.Node
import GuardLint.Proofs.Syntax.Numbers
import GuardLint.Syntax.Parse

/-!
# Variables declared in a circle

A variable declared with `var` leads to those that names and field accesses in its initializer
denote. The type of an expression is known or left unresolved, unless such variables lead to each
other in a circle: what the type of a variable depends on is among what it leads to.
-/

namespace GuardLint

open Syntax

/-- An expression is another one or somewhere inside it. -/
def Syntax.Expr.In (x e : Expr) : Prop :=
  Relation.ReflTransGen (fun m n ↦ m ∈ Node.parts n) (.expr x) (.expr e)

theorem Syntax.Expr.In.inside {x a e : Expr} (h : x.In a) (ha : .expr a ∈ Node.ofExpr e) : x.In e :=
  Relation.ReflTransGen.tail h ha

namespace Setting

/-- A name or a field access denotes a variable. -/
def Denotes (c : Setting) : Expr → Variable → Prop
  | .name _ n, v => c.scope.lookup n = some v
  | .field _ e n, v => c.fieldOf? e n = some v
  | _, _ => False

/-- The initializer of a variable declared with `var` has a name or a field access in it that denotes
another. -/
def Mentions (c : Setting) (v w : Variable) : Prop :=
  ∃ e ∈ v.inferredInit?, ∃ x, x.In e ∧ c.Denotes x w

/-- No variables declared with `var` mention each other in a circle. -/
def Acyclic (c : Setting) : Prop := ∀ v, ¬ Relation.TransGen c.Mentions v v

variable {c : Setting} {v w : Variable}

/-- What a type may depend on is denoted somewhere in the expression. -/
theorem exists_denotes_of_named : (e : Expr) → w ∈ c.named e → ∃ x, x.In e ∧ c.Denotes x w
  | .name l n, h => by
    unfold named at h
    exact ⟨.name l n, .refl, Option.mem_toList.mp h⟩
  | .field l e n, h => by
    unfold named at h
    rcases List.mem_append.mp h with h | h
    · obtain ⟨x, hx, hw⟩ := exists_denotes_of_named e h
      exact ⟨x, hx.inside (List.mem_singleton_self _), hw⟩
    · exact ⟨.field l e n, .refl, Option.mem_toList.mp h⟩
  | .paren _ e, h | .preStep _ _ e, h | .postStep _ _ e, h => by
    unfold named at h
    obtain ⟨x, hx, hw⟩ := exists_denotes_of_named e h
    exact ⟨x, hx.inside (List.mem_singleton_self _), hw⟩
  | .assign _ _ e _, h | .index _ e _, h | .call _ (some e) _ _, h => by
    unfold named at h
    obtain ⟨x, hx, hw⟩ := exists_denotes_of_named e h
    exact ⟨x, hx.inside List.mem_cons_self, hw⟩
  | .unary _ op e, h => by
    unfold named at h
    split at h
    · cases h
    · obtain ⟨x, hx, hw⟩ := exists_denotes_of_named e h
      exact ⟨x, hx.inside (List.mem_singleton_self _), hw⟩
  | .binary _ op a b, h => by
    unfold named at h
    split at h
    · cases h
    · rcases List.mem_append.mp h with h | h
      · obtain ⟨x, hx, hw⟩ := exists_denotes_of_named a h
        exact ⟨x, hx.inside List.mem_cons_self, hw⟩
      · obtain ⟨x, hx, hw⟩ := exists_denotes_of_named b h
        exact ⟨x, hx.inside (by simp [Node.ofExpr]), hw⟩
  | .conditional _ q a b, h => by
    unfold named at h
    rcases List.mem_append.mp h with h | h
    · obtain ⟨x, hx, hw⟩ := exists_denotes_of_named a h
      exact ⟨x, hx.inside (by simp [Node.ofExpr]), hw⟩
    · obtain ⟨x, hx, hw⟩ := exists_denotes_of_named b h
      exact ⟨x, hx.inside (by simp [Node.ofExpr]), hw⟩
  | .literal .., h | .this _, h | .super _, h | .call _ none _ _, h | .newObject .., h
  | .newArray .., h | .arrayInit .., h | .classLiteral .., h | .methodRef .., h
  | .typeMethodRef .., h | .instanceOf .., h | .cast .., h | .lambda .., h
  | .lambdaBlock .., h => by
    unfold named at h
    cases h

/-- A variable mentions those that its type is inferred from. -/
theorem mentions_of_inferredFrom (h : w ∈ c.inferredFrom v) : c.Mentions v w := by
  unfold inferredFrom at h
  unfold Mentions Variable.inferredInit?
  split at h
  · next t e ht he =>
    split at h
    · next hvar =>
      obtain ⟨x, hx, hw⟩ := exists_denotes_of_named e h
      exact ⟨e, by simp [ht, he, hvar], x, hx, hw⟩
    · cases h
  · cases h

theorem Acyclic.not_dependsOn (h : c.Acyclic) (v : Variable) : ¬ c.DependsOn v v :=
  fun hv ↦ h v (Relation.TransGen.mono (fun _ _ ↦ mentions_of_inferredFrom) _ _ hv)

/-- Without variables declared in a circle the type of an expression is known or left unresolved. No
initializers and no classes are followed deeper than there are variables and classes: looking
deeper gives the same. -/
theorem staticType_settled (h : c.Acyclic) (e : Expr) :
    (∃ answer, c.staticType e = Failure.lift answer) ∧
    (∀ fuel, c.variableCount ≤ fuel → Typing.typeOf c (Typing.typeOfVariable c fuel) e =
      c.staticType e) ∧
    ∀ method k fuel, c.index.classes.length + 2 ≤ fuel →
      c.inheritedFrom method fuel k [] =
        c.inheritedFrom method (c.index.classes.length + 2) k [] := by
  refine ⟨?_, fun fuel hfuel ↦ ?_, fun method k fuel ↦ inheritedFrom_eq_of_le method k⟩
  · rcases hx : c.staticType e with (r | f) | t
    · exact ⟨.error r, rfl⟩
    · obtain ⟨-, v, hv⟩ := within_staticType e f hx
      exact absurd hv (h.not_dependsOn v)
    · exact ⟨.ok t, rfl⟩
  · refine (Typing.typeOf_congr rfl (fun _ ↦ Failure.below_refl _) e (.refl c e) fun w hw ↦ ?_).symm
    exact (Typing.typeOfVariable_eq_variableType hfuel (named_subset e hw)).symm

theorem Mentions.mem_nameable (h : c.Mentions v w) : w ∈ c.nameable := by
  obtain ⟨-, -, x, -, hw⟩ := h
  cases x with
  | name l n => exact mem_nameable_of_lookup hw
  | field l e n => exact mem_nameable_of_fieldOf? hw
  | _ => cases hw

/-- Whether a variable is initialized with a literal at most, if it is declared with `var`. -/
def mentionsNone (v : Variable) : Bool :=
  match v.inferredInit? with
  | none | some (.literal ..) => true
  | _ => false

theorem not_mentions_of_mentionsNone (h : mentionsNone v = true) : ¬ c.Mentions v w := by
  rintro ⟨e, he, x, hx, hw⟩
  unfold mentionsNone at h
  split at h
  · next hnone =>
    rw [hnone] at he
    cases he
  · next hsome =>
    rw [hsome] at he
    cases he
    -- There is nothing inside a literal, and a literal denotes nothing.
    rcases Relation.ReflTransGen.cases_tail hx with heq | ⟨n, -, hn⟩
    · cases heq
      cases hw
    · cases hn
  · cases h

/-- Literals lead to no circle. -/
theorem acyclic_of_mentionsNone (h : ∀ v ∈ c.nameable, mentionsNone v = true) : c.Acyclic := by
  intro v hv
  obtain ⟨u, -, hu⟩ := Relation.TransGen.tail'_iff.mp hv
  obtain ⟨w, hw, -⟩ := Relation.TransGen.head'_iff.mp hv
  exact not_mentions_of_mentionsNone (h v hu.mem_nameable) hw

end Setting

/-- A text with a variable whose type is inferred. -/
private def inferringText : List Char :=
  "class A\x7b\x7bvar a=1;g(a);\x7d\x7d".toList

private theorem inferringText_reads :
    (match CompilationUnit.parse inferringText with
      | .ok unit => (CallSite.ofUnit unit []).map fun s ↦
          let c := s.setting (.ofUnit unit)
          (c.nameable.all Setting.mentionsNone, s.call.args.map fun e ↦ (c.staticType e).toOption)
      | .error _ => []) = [(true, [some "int"])] := by
  have htext : inferringText = _ := String.toList_ofList
  rw [htext, CompilationUnit.parse_eq_parseNumbered]
  decide +kernel

/-- The type of a variable that is inferred from a literal is known. -/
theorem Setting.staticType_inferringText : ∃ unit, ∃ site ∈ CallSite.ofUnit unit [],
    CompilationUnit.parse inferringText = .ok unit ∧
      let c := site.setting (.ofUnit unit)
      c.Acyclic ∧ ∃ e, site.call.args = [e] ∧ c.staticType e = Failure.lift (.ok "int") := by
  have hreads := inferringText_reads
  split at hreads
  · next unit hp =>
    obtain ⟨site, _, hall, hsite, -⟩ := List.map_eq_cons_iff.mp hreads
    obtain ⟨hnone, hargs⟩ := Prod.mk.inj hsite
    obtain ⟨e, _, he, htype, hnil⟩ := List.map_eq_cons_iff.mp hargs
    obtain rfl := List.map_eq_nil_iff.mp hnil
    have hacyclic : (site.setting (.ofUnit unit)).Acyclic :=
      Setting.acyclic_of_mentionsNone (List.all_eq_true.mp hnone)
    obtain ⟨⟨answer, hanswer⟩, -⟩ := Setting.staticType_settled hacyclic e
    refine ⟨unit, site, hall ▸ List.mem_cons_self, hp, hacyclic, e, he, ?_⟩
    rw [hanswer] at htype ⊢
    cases answer with
    | error r => cases htype
    | ok t => rw [show t = "int" from Option.some.inj htype]
  · cases hreads

end GuardLint
