import GuardLint.Proofs.Syntax.Guard

/-!
# Calls as statements

Where the callee of a call and its arguments stand among the tokens that are read as the statement
which the call is.
-/

namespace GuardLint.Syntax

open Grammar

variable {ts us : List Token} {l : Location} {target : Option Expr} {name : String}
  {args : List Expr}

/-- Of the expressions that can be statements only calls are calls. -/
private theorem reads_methodCall
    (hr : Reads language (.node (.one .statementExpr)) ts (.call l target name args)) :
    Reads language (.node (.one .methodCall)) ts (.call l target name args) := by
  obtain ⟨p, hp, vs, hv, hparts⟩ := hr.node_inv
  simp only [productions, language, Category.rules, List.mem_cons, List.not_mem_nil, or_false] at hp
  rcases hp with rfl | rfl | rfl | rfl | rfl
  all_goals
    obtain ⟨x, _⟩ := vs
    cases hv
    obtain ⟨us, ws, rfl, hx, hnil⟩ := parts_need.mp hparts
    cases hnil
    try
      obtain ⟨q, hq, ys, hy, -⟩ := hx.node_inv
      obtain rfl := List.mem_singleton.mp hq
      exact Expr.noConfusion hy
  rwa [List.append_nil]

/-- A statement that is a call consists of the tokens of the call and a semicolon. -/
theorem reads_callStmt {k : Location}
    (hr : Reads language (.node (.one .statement)) ts (.expr k (.call l target name args))) :
    ∃ us semicolon, ts = us ++ [semicolon] ∧ semicolon.kind = .mark .semicolon ∧
      Matches language (.node (.one .statementExpr)) us ∧
      Reads language (.node (.one .methodCall)) us (.call l target name args) := by
  obtain ⟨p, hp, vs, hv, hparts⟩ := hr.node_inv
  simp only [productions, language, Category.rules, List.mem_cons, List.not_mem_nil, or_false] at hp
  rcases hp with rfl | rfl | rfl | rfl | rfl | rfl | rfl | rfl | rfl | rfl | rfl | rfl | rfl |
    rfl | rfl | rfl | rfl
  all_goals try exact Stmt.noConfusion hv
  obtain ⟨e, s, _⟩ := vs
  cases hv
  obtain ⟨us, ws, rfl, he, hparts⟩ := parts_need.mp hparts
  obtain ⟨zs, rfl, hs, hnil⟩ := parts_tok.mp hparts
  cases hnil
  exact ⟨us, s, rfl, hs, he.matches, reads_methodCall he⟩

/-- A call begins with its callee, which is a name or begins with its target, and ends with its
arguments. -/
theorem reads_callee
    (hr : Reads language (.node (.one .methodCall)) ts (.call l target name args)) :
    l = Token.cover ts ∧
    ∃ front us, ts = front ++ us ∧ Reads language (.node (.one .arguments)) us args ∧
      ((∀ e, target = some e → e.dotted = true) → ∃ t, ts.head? = some t ∧ t.kind = .name) := by
  obtain ⟨p, hp, vs, hv, hparts⟩ := hr.node_inv
  simp only [productions, language, Category.rules, List.mem_cons, List.not_mem_nil, or_false] at hp
  rcases hp with rfl | rfl
  · obtain ⟨e, dot, types, n, as, _⟩ := vs
    cases hv
    obtain ⟨us, ws, rfl, he, hparts⟩ := parts_need.mp hparts
    obtain ⟨ws, rfl, -, hparts⟩ := parts_tok.mp hparts
    refine ⟨rfl, ?_⟩
    have hhead : (∀ x, some e = some x → x.dotted = true) →
        ∃ t, (us ++ dot :: ws).head? = some t ∧ t.kind = .name := fun h ↦ by
      obtain ⟨t, ht, hk⟩ := Expr.head_of_dotted he (h e rfl)
      exact ⟨t, by rw [List.head?_append, ht]; rfl, hk⟩
    rcases parts_maybe.mp hparts with ⟨xs, zs, x, rfl, -, -, hparts⟩ | ⟨-, hparts⟩
    all_goals
      obtain ⟨zs, rfl, -, hparts⟩ := parts_tok.mp hparts
      obtain ⟨zs, ws, rfl, has, hnil⟩ := parts_need.mp hparts
      cases hnil
      rw [List.append_nil] at *
    · exact ⟨us ++ dot :: (xs ++ [n]), zs, by simp, has, hhead⟩
    · exact ⟨us ++ [dot, n], zs, by simp, has, hhead⟩
  · obtain ⟨n, as, _⟩ := vs
    cases hv
    obtain ⟨ws, rfl, hn, hparts⟩ := parts_tok.mp hparts
    obtain ⟨us, ws, rfl, has, hnil⟩ := parts_need.mp hparts
    cases hnil
    rw [List.append_nil] at *
    exact ⟨rfl, [n], us, rfl, has, fun _ ↦ ⟨n, rfl, hn⟩⟩

private theorem reads_single {e : Expr}
    (hr : Reads language (.node (.run .commaExpr)) ts [e]) :
    ∃ comma us, ts = comma :: us ∧ comma.kind = .mark .comma ∧
      Reads language (.node (.one .expr)) us e := by
  obtain ⟨p, hp, vs, hv, hparts⟩ := hr.node_inv
  simp only [productions, List.mem_cons, List.not_mem_nil, or_false] at hp
  rcases hp with rfl | rfl
  · obtain ⟨x, _⟩ := vs
    cases hv
    obtain ⟨us, ws, rfl, he, hnil⟩ := parts_need.mp hparts
    cases hnil
    rw [List.append_nil]
    obtain ⟨q, hq, ys, hy, hpart⟩ := he.node_inv
    obtain rfl := List.mem_singleton.mp hq
    obtain ⟨comma, x, _⟩ := ys
    cases hy
    obtain ⟨ws, rfl, hk, hpart⟩ := parts_tok.mp hpart
    obtain ⟨us, ws, rfl, hx, hnil⟩ := parts_need.mp hpart
    cases hnil
    exact ⟨comma, us, by rw [List.append_nil], hk, hx⟩
  · obtain ⟨xs, x, _⟩ := vs
    obtain ⟨us, ws, rfl, hxs, -⟩ := parts_need.mp hparts
    have hnil : xs = [] := by simpa [Production.value, Action.apply] using congrArg List.length hv
    exact absurd hnil (ne_nil_of_reads_run hxs)

/-- Two arguments stand on both sides of a comma. -/
theorem reads_twoArguments {a b : Expr}
    (hr : Reads language (.node (.one .arguments)) ts [a, b]) :
    ∃ opening us comma ws closing, ts = opening :: (us ++ comma :: (ws ++ [closing])) ∧
      Reads language (.node (.one .expr)) us a ∧ Reads language (.node (.one .expr)) ws b := by
  obtain ⟨opening, xs, closing, rfl, -, -, hxs | ⟨-, hnil⟩⟩ := reads_arguments hr
  · obtain ⟨p, hp, vs, hv, hparts⟩ := hxs.node_inv
    obtain rfl := List.mem_singleton.mp hp
    obtain ⟨x, ys, _⟩ := vs
    cases hv
    obtain ⟨us, ws, rfl, ha, hparts⟩ := parts_need.mp hparts
    rcases parts_many.mp hparts with ⟨us', ws', rfl, hb, hnil⟩ | ⟨hnil, -⟩
    · cases hnil
      obtain ⟨comma, ws, rfl, -, hb⟩ := reads_single hb
      exact ⟨opening, us, comma, ws, closing, by simp, ha, hb⟩
    · cases hnil
  · cases hnil

/-- The tokens of a statement that is a call with two arguments: those of the arguments stand one
after the other, and if the target is a dotted name, or there is none, the first is a name. -/
theorem reads_guard {k : Location} {a b : Expr}
    (hr : Reads language (.node (.one .statement)) ts (.expr k (.call l target name [a, b])))
    (ht : ∀ e, target = some e → e.dotted = true) :
    ∃ front us mid ws back, ts = front ++ us ++ mid ++ ws ++ back ∧
      Reads language (.node (.one .expr)) us a ∧ Reads language (.node (.one .expr)) ws b ∧
      (∃ t, ts.head? = some t ∧ t.kind = .name) ∧
      ∃ call semicolon, ts = call ++ [semicolon] ∧
        Matches language (.node (.one .statementExpr)) call ∧ semicolon.kind = .mark .semicolon := by
  obtain ⟨call, semicolon, rfl, hs, hm, hcall⟩ := reads_callStmt hr
  obtain ⟨-, front, xs, rfl, hargs, hhead⟩ := reads_callee hcall
  obtain ⟨opening, us, comma, ws, closing, rfl, ha, hb⟩ := reads_twoArguments hargs
  obtain ⟨t, ht, hk⟩ := hhead ht
  exact ⟨front ++ [opening], us, [comma], ws, [closing, semicolon], by simp, ha, hb,
    ⟨t, by rw [List.head?_append, ht]; rfl, hk⟩, _, semicolon, rfl, hm, hs⟩

end GuardLint.Syntax
