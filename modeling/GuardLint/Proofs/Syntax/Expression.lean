import GuardLint.Proofs.Syntax.Language
import GuardLint.Proofs.Syntax.Order

/-!
# Expressions and their tokens

The location of an expression is that of its tokens, and a dotted name begins with a name.
-/

namespace GuardLint.Syntax

open Grammar

/-- Whether an expression is a dotted name. -/
def Expr.dotted : Expr → Bool
  | .name .. => true
  | .field _ e _ => dotted e
  | _ => false

namespace Category

/-- The value of a category whose texts are expressions. -/
def expr? : (c : Category) → c.Value → Option Expr
  | .statementExpr | .expr | .assignment | .assign | .assignTarget | .lambda | .conditional
  | .logicOr | .logicAnd | .bitOr | .bitXor | .bitAnd | .equality | .relational | .shift | .additive
  | .multiplicative | .unary | .unsignedUnary | .preStep | .cast | .postfixExpr | .postStep
  | .primary | .paren | .thisRef | .superRef | .name | .fieldAccess | .methodCall | .arrayAccess
  | .newObject | .newArray | .classLiteral | .methodRef | .literal => some
  | _ => fun _ ↦ none

/-- Whether the texts of a category are expressions. -/
def isExpression : Category → Bool
  | .statementExpr | .expr | .assignment | .assign | .assignTarget | .lambda | .conditional
  | .logicOr | .logicAnd | .bitOr | .bitXor | .bitAnd | .equality | .relational | .shift | .additive
  | .multiplicative | .unary | .unsignedUnary | .preStep | .cast | .postfixExpr | .postStep
  | .primary | .paren | .thisRef | .superRef | .name | .fieldAccess | .methodCall | .arrayAccess
  | .newObject | .newArray | .classLiteral | .methodRef | .literal => true
  | _ => false

theorem exists_expr {c : Category} (hc : c.isExpression = true) (v : c.Value) :
    ∃ e, expr? c v = some e := by
  cases c
  all_goals first | exact ⟨v, rfl⟩ | cases hc

theorem isExpression_of_expr {c : Category} {v : c.Value} {e : Expr} (he : expr? c v = some e) :
    c.isExpression = true := by
  cases c
  all_goals first | rfl | cases he

/-- The expression that some elements consist of, if they are one expression alone. -/
def passed : (es : List (Element Category)) → Values Category.Value es → Option Expr
  | [.need (.node (.one d))], (x, _) => expr? d x
  | _, _ => none

/-- Whether some elements are a part of some category alone. -/
def isPass : List (Element Category) → Bool
  | [.need (.node (.one _))] => true
  | _ => false

/-- Some elements begin with a name or with an expression that is a dotted name. -/
def Leads : (es : List (Element Category)) → Values Category.Value es → Prop
  | .need (.tok k) :: _, _ => k = .name
  | .need (.node (.one d)) :: _, (x, _) => ∃ e, expr? d x = some e ∧ e.dotted = true
  | _, _ => False

/-- An expression is one of its parts, or stands where its production does. -/
private theorem value_cases (c : Category) : ∀ p ∈ c.rules, ∀ (l : Location)
    (vs : Values Category.Value p.elements) (e : Expr), expr? c (p.value l vs) = some e →
      (isPass p.elements = false ∧ e.location = l ∧ (e.dotted = true → Leads p.elements vs)) ∨
        passed p.elements vs = some e := by
  cases c
  all_goals try exact fun _ _ _ _ e h ↦ absurd h (Option.some_ne_none e).symm
  all_goals repeat' refine List.forall_mem_cons.mpr ⟨fun l vs e h ↦ ?_, ?_⟩
  all_goals first
    | exact List.forall_mem_nil _
    | exact .inr h
    | cases h
      -- Dotted is nothing but a name and a field of what is dotted.
      first
      | exact .inl ⟨rfl, rfl, fun hd ↦ absurd hd Bool.false_ne_true⟩
      | exact .inl ⟨rfl, rfl, fun _ ↦ rfl⟩
      | exact .inl ⟨rfl, rfl, fun hd ↦ ⟨_, rfl, hd⟩⟩

variable {ts : List Token}

/-- What is said of an expression that some tokens belong to. -/
private def Stands : (s : Symbol Category) → List Token → s.Value Category.Value → Prop
  | .node (.one c), ts, v => ∀ e, expr? c v = some e →
    e.location = Token.cover ts ∧ (e.dotted = true → ∃ t, ts.head? = some t ∧ t.kind = .name)
  | _, _, _ => True

private theorem stands_of_passed {es : List (Element Category)} {vs : Values Category.Value es}
    (hp : Parts (fun s us x ↦ Reads language s us x ∧ Stands s us x) es ts vs) {e : Expr}
    (he : passed es vs = some e) :
    e.location = Token.cover ts ∧ (e.dotted = true → ∃ t, ts.head? = some t ∧ t.kind = .name) := by
  unfold passed at he
  split at he
  · next d x =>
    obtain ⟨us, ws, rfl, ⟨-, hx⟩, rfl⟩ := parts_need.mp hp
    rw [List.append_nil]
    exact hx e he
  · cases he

private theorem head_of_leads {es : List (Element Category)} {vs : Values Category.Value es}
    (hp : Parts (fun s us x ↦ Reads language s us x ∧ Stands s us x) es ts vs)
    (hl : Leads es vs) : ∃ t, ts.head? = some t ∧ t.kind = .name := by
  unfold Leads at hl
  split at hl
  · obtain ⟨us, ws, rfl, ⟨hr, -⟩, -⟩ := parts_need.mp hp
    exact ⟨_, by rw [hr.tok_eq]; rfl, hr.tok_kind.trans hl⟩
  · obtain ⟨us, ws, rfl, ⟨-, hx⟩, -⟩ := parts_need.mp hp
    obtain ⟨e, he, hd⟩ := hl
    obtain ⟨t, ht, hk⟩ := (hx e he).2 hd
    exact ⟨t, by rw [List.head?_append, ht]; rfl, hk⟩
  · exact hl.elim

private theorem stands_of_reads {s : Symbol Category} {v : s.Value Category.Value}
    (hr : Reads language s ts v) : Stands s ts v := by
  refine Reads.induction (M := Stands) (fun t ↦ trivial) (fun h p ts vs hp _ hparts ↦ ?_) hr
  cases h with
  | run c => trivial
  | one c =>
    intro e he
    rcases value_cases c p hp _ vs e he with ⟨-, hl, hd⟩ | he
    · exact ⟨hl, fun h ↦ head_of_leads hparts (hd h)⟩
    · exact stands_of_passed hparts he

/-- What a production builds of a part alone that is an expression is this expression. -/
theorem exists_passed_part {c d : Category} {p : Production Value c.Value} (hp : p ∈ c.rules)
    (hd : p.elements = [.need (.node (.one d))]) {l : Location} {vs : Values Value p.elements}
    (hparts : Parts (Reads language) p.elements ts vs) {e : Expr}
    (he : expr? c (p.value l vs) = some e) :
    ∃ w, Reads language (.node (.one d)) ts w ∧ expr? d w = some e := by
  have hcases := value_cases c p hp l vs e he
  clear he
  generalize p.elements = es at hd vs hparts hcases
  subst hd
  obtain ⟨x, _⟩ := vs
  obtain ⟨us, ws, rfl, hx, rfl⟩ := parts_need.mp hparts
  rw [List.append_nil]
  rcases hcases with ⟨hpass, -⟩ | hpassed
  · cases hpass
  · exact ⟨x, hx, hpassed⟩

/-- An expression is read by a production that its tokens fit; if this is another category alone, it
is the expression of that category. -/
theorem exists_passed {c : Category} {v : c.Value} {e : Expr}
    (hr : Reads language (.node (.one c)) ts v) (he : expr? c v = some e) :
    ∃ p ∈ c.rules, (∃ vs, v = p.value (Token.cover ts) vs) ∧ Spans language p.elements ts ∧
      ∀ d, p.elements = [.need (.node (.one d))] →
        ∃ w, Reads language (.node (.one d)) ts w ∧ expr? d w = some e := by
  obtain ⟨p, hp, vs, rfl, hparts⟩ := hr.node_inv
  refine ⟨p, hp, ⟨vs, rfl⟩, ⟨vs, derivesAll_iff_parts.mpr (hparts.mono fun _ _ _ _ h ↦ h.derives)⟩, ?_⟩
  exact fun d hd ↦ exists_passed_part hp hd hparts he

end Category

variable {ts : List Token} {e : Expr}

/-- An expression stands where its tokens do. -/
theorem Expr.location_eq (hr : Reads language (.node (.one .expr)) ts e) :
    e.location = Token.cover ts :=
  (Category.stands_of_reads hr e rfl).1

/-- A dotted name begins with a name. -/
theorem Expr.head_of_dotted (hr : Reads language (.node (.one .primary)) ts e)
    (hd : e.dotted = true) : ∃ t, ts.head? = some t ∧ t.kind = .name :=
  (Category.stands_of_reads hr e rfl).2 hd

end GuardLint.Syntax
