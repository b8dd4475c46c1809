import GuardLint.Proofs.Syntax.Node
import GuardLint.Semantics.Effect

/-!
# The side effects of an expression

To evaluate an expression is to evaluate what stands in it, but for what stands in a lambda. An
expression counts as one with side effects if something evaluated with it acts by itself, except
that the expression before the `::` of a method reference is not looked at: it is evaluated at once,
with the reference, so what it does is missed.
-/

namespace GuardLint.Syntax

namespace Node

/-- Whether an expression does something by itself when it is evaluated, apart from its parts. -/
def isEffect : Node → Bool
  | .expr (.assign ..) | .expr (.preStep ..) | .expr (.postStep ..) | .expr (.call ..)
  | .expr (.newObject ..) | .expr (.newArray ..) => true
  | _ => false

/-- Whether an expression is a lambda, in which nothing is evaluated before it is called. -/
def isLambda : Node → Bool
  | .expr (.lambda ..) | .expr (.lambdaBlock ..) => true
  | _ => false

/-- Whether an expression is a lambda or refers to a method of the value of an expression. -/
def isFunction : Node → Bool
  | .expr (.methodRef ..) => true
  | n => n.isLambda

/-- One node is another or stands inside it, and in between is none that is closed. -/
def Exposed (closed : Node → Bool) : Node → Node → Prop :=
  Relation.ReflTransGen fun m n ↦ m ∈ n.parts ∧ closed n = false

/-- Something inside a node that nothing closed stands around acts by itself. -/
def Acts (closed : Node → Bool) (n : Node) : Prop :=
  ∃ m : Node, m.Exposed closed n ∧ m.isEffect = true

variable {closed : Node → Bool} {m n : Node}

theorem exposed_iff :
    m.Exposed closed n ↔ m = n ∨ closed n = false ∧ ∃ k ∈ n.parts, m.Exposed closed k := by
  constructor
  · intro h
    rcases h.cases_tail with rfl | ⟨k, hk, hkn, hn⟩
    · exact .inl rfl
    · exact .inr ⟨hn, k, hkn, hk⟩
  · rintro (rfl | ⟨hn, k, hkn, hk⟩)
    · exact .refl
    · exact .tail hk ⟨hkn, hn⟩

theorem acts_iff :
    n.Acts closed ↔ n.isEffect = true ∨ closed n = false ∧ ∃ k ∈ n.parts, k.Acts closed := by
  simp only [Acts, exposed_iff (n := n)]
  constructor
  · rintro ⟨m, rfl | ⟨hn, k, hkn, hk⟩, hm⟩
    · exact .inl hm
    · exact .inr ⟨hn, k, hkn, m, hk, hm⟩
  · rintro (hn | ⟨hn, k, hkn, m, hk, hm⟩)
    · exact ⟨n, .inl rfl, hn⟩
    · exact ⟨m, .inr ⟨hn, k, hkn, hk⟩, hm⟩

theorem acts_of_isEffect (h : n.isEffect = true) : n.Acts closed := ⟨n, .refl, h⟩

theorem not_acts_of_closed (hn : n.isEffect = false) (hc : closed n = true) : ¬ n.Acts closed := by
  rw [acts_iff, hn, hc]
  exact fun h ↦ h.elim Bool.noConfusion fun h ↦ Bool.noConfusion h.1

/-- What does not act by itself acts through a part, unless it is closed. -/
theorem acts_iff_parts (hn : n.isEffect = false) (hc : closed n = false) :
    n.Acts closed ↔ ∃ k ∈ n.parts, k.Acts closed := by
  rw [acts_iff, hn, hc]
  exact ⟨fun h ↦ (h.resolve_left Bool.noConfusion).2, fun h ↦ .inr ⟨rfl, h⟩⟩

theorem eq_methodRef (hf : n.isFunction = true) (hl : n.isLambda = false) :
    ∃ l e name, n = .expr (.methodRef l e name) := by
  cases n with
  | stmt => cases hf
  | expr e =>
    cases e with
    | methodRef l e name => exact ⟨l, e, name, rfl⟩
    | lambda | lambdaBlock => cases hl
    | _ => cases hf

/-- What is evaluated with a node is also looked at for side effects, or it stands before the `::`
of a method reference that is. -/
theorem Exposed.isFunction_or (h : m.Exposed isLambda n) :
    m.Exposed isFunction n ∨
      ∃ l e name, (Node.expr (.methodRef l e name)).Exposed isFunction n ∧
        m.Exposed isLambda (.expr e) := by
  induction h with
  | refl => exact .inl .refl
  | tail hm hstep ih =>
    rename_i k n
    obtain ⟨hk, hlambda⟩ := hstep
    cases hfunction : n.isFunction with
    | true =>
      obtain ⟨l, e, name, rfl⟩ := eq_methodRef hfunction hlambda
      obtain rfl : k = .expr e := List.mem_singleton.mp hk
      exact .inr ⟨l, e, name, .refl, hm⟩
    | false =>
      obtain hm | ⟨l, e, name, href, hm⟩ := ih
      · exact .inl (.tail hm ⟨hk, hfunction⟩)
      · exact .inr ⟨l, e, name, .tail href ⟨hk, hfunction⟩, hm⟩

end Node

mutual

/-- An expression counts as one with side effects if something in it acts, outside the lambdas and
method references. -/
theorem Expr.hasSideEffect_iff : ∀ e : Expr,
    e.hasSideEffect = true ↔ (Node.expr e).Acts Node.isFunction
  | .assign .. | .preStep .. | .postStep .. | .call .. | .newObject .. | .newArray .. =>
    iff_of_true rfl (Node.acts_of_isEffect rfl)
  | .lambda .. | .lambdaBlock .. | .methodRef .. =>
    iff_of_false Bool.false_ne_true (Node.not_acts_of_closed rfl rfl)
  | .typeMethodRef .. | .literal .. | .name .. | .this _ | .super _ | .classLiteral .. => by
    rw [Node.acts_iff_parts rfl rfl]
    simp [Expr.hasSideEffect, Node.parts, Node.ofExpr]
  | .paren _ e | .field _ e _ | .instanceOf _ e _ | .unary _ _ e | .cast _ _ e => by
    rw [Node.acts_iff_parts rfl rfl]
    simp [Expr.hasSideEffect, Node.parts, Node.ofExpr, Expr.hasSideEffect_iff e]
  | .index _ a b | .binary _ _ a b => by
    rw [Node.acts_iff_parts rfl rfl]
    simp [Expr.hasSideEffect, Node.parts, Node.ofExpr, Expr.hasSideEffect_iff a,
      Expr.hasSideEffect_iff b]
  | .conditional _ c a b => by
    rw [Node.acts_iff_parts rfl rfl]
    simp [Expr.hasSideEffect, Node.parts, Node.ofExpr, Expr.hasSideEffect_iff c,
      Expr.hasSideEffect_iff a, Expr.hasSideEffect_iff b, or_assoc]
  | .arrayInit _ es => by
    rw [Node.acts_iff_parts rfl rfl]
    simp [Expr.hasSideEffect, Node.parts, Node.ofExpr, Expr.anySideEffect_iff es]

theorem Expr.anySideEffect_iff : ∀ es : List Expr,
    Expr.anySideEffect es = true ↔ ∃ e ∈ es, (Node.expr e).Acts Node.isFunction
  | [] => by simp [Expr.anySideEffect]
  | e :: es => by
    simp [Expr.anySideEffect, Expr.hasSideEffect_iff e, Expr.anySideEffect_iff es]

end

/-- An expression counts as one with side effects exactly if something in it acts outside its
lambdas and method references. So what acts when the expression is evaluated makes it count, unless
it is evaluated for the value whose method a reference names. -/
theorem Expr.hasSideEffect_evaluated (e : Expr) :
    (e.hasSideEffect = true ↔ (Node.expr e).Acts Node.isFunction) ∧
      ∀ n : Node, n.Exposed Node.isLambda (.expr e) → n.isEffect = true →
        e.hasSideEffect = true ∨
          ∃ l receiver name,
            (Node.expr (.methodRef l receiver name)).Exposed Node.isFunction (.expr e) ∧
              n.Exposed Node.isLambda (.expr receiver) := by
  refine ⟨e.hasSideEffect_iff, fun n hn heffect ↦ ?_⟩
  obtain hn | hreceiver := hn.isFunction_or
  · exact .inl (e.hasSideEffect_iff.mpr ⟨n, hn, heffect⟩)
  · exact .inr hreceiver

/-- Not everything that acts when it is evaluated counts: the reference `f()::g` calls `f` then, and
does not. -/
theorem Expr.not_hasSideEffect_evaluated :
    ¬ ∀ e : Expr, (Node.expr e).Acts Node.isLambda → e.hasSideEffect = true := by
  intro h
  let l : Location := ⟨.origin, .origin⟩
  have hcall : (Node.expr (.methodRef l (.call l none "f" []) "g")).Acts Node.isLambda :=
    ⟨.expr (.call l none "f" []), .single ⟨List.mem_singleton.mpr rfl, rfl⟩, rfl⟩
  exact Bool.false_ne_true (h _ hcall)

end GuardLint.Syntax
