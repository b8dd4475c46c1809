import GuardLint.Proofs.Syntax.Denotation
import GuardLint.Proofs.Syntax.Trailing

/-!
# Comparisons with `null`

An operator takes as operands the expressions that bind tighter than it does. So an expression before
`== null` is compared as a whole if it binds at least as tight as the sign of equality and no lambda
in it is open to the right, and it is never compared as a whole if it binds less tight.
-/

namespace GuardLint.Syntax

open Grammar

variable {ts : List Token} {e : Expr}

/-! ### Precedence -/

/-- How tight a binary operator binds. -/
def BinaryOp.precedence : BinaryOp → Nat
  | .orElse => 2
  | .andAlso => 3
  | .bitOr => 4
  | .bitXor => 5
  | .bitAnd => 6
  | .equal | .notEqual => 7
  | .less | .greater | .lessEqual | .greaterEqual => 8
  | .shiftLeft | .shiftRight | .shiftRightUnsigned => 9
  | .add | .subtract => 10
  | .multiply | .divide | .remainder => 11

/-- How tight an expression binds. -/
def Expr.precedence : Expr → Nat
  | .assign .. | .lambda .. | .lambdaBlock .. => 0
  | .conditional .. => 1
  | .binary _ op _ _ => op.precedence
  | .instanceOf .. => 8
  | _ => 12

/-- Whether an expression binds at least as tight as the sign of equality. -/
def Expr.comparable (e : Expr) : Bool := BinaryOp.equal.precedence ≤ e.precedence

namespace Category

/-- How tight the expressions of a category bind that are not those of another one. -/
def precedence : Category → Nat
  | .expr | .assignment | .assign | .lambda => 0
  | .conditional => 1
  | .logicOr => 2
  | .logicAnd => 3
  | .bitOr => 4
  | .bitXor => 5
  | .bitAnd => 6
  | .equality => 7
  | .relational => 8
  | .shift => 9
  | .additive => 10
  | .multiplicative => 11
  | _ => 12

/-- The categories of expressions, each before those that may stand for it alone. -/
def tightening : List Category :=
  [.expr, .assignment, .assign, .lambda, .conditional, .logicOr, .logicAnd, .bitOr, .bitXor, .bitAnd,
   .equality, .relational, .shift, .additive, .multiplicative, .unary, .preStep, .unsignedUnary,
   .cast, .postfixExpr, .postStep, .primary, .literal, .paren, .thisRef, .superRef, .name,
   .fieldAccess, .methodCall, .arrayAccess, .newObject, .newArray, .classLiteral, .methodRef]

/-- The place of a category among those of expressions. -/
def tightness (c : Category) : Nat := tightening.idxOf c

/-- Whether a category that stands for another one alone comes later, binds as tight, and does not
come behind the operands of the sign of equality unless the other one does. -/
private def climbs (c : Category) : List (Element Category) → Bool
  | [.need (.node (.one d))] => tightening.contains d && c.tightness < d.tightness &&
    c.precedence ≤ d.precedence &&
    (equality.tightness ≤ c.tightness || d.tightness ≤ equality.tightness)
  | _ => true

private theorem climbs_rules : ∀ c ∈ tightening, ∀ p ∈ c.rules, climbs c p.elements = true := by
  decide

private theorem precedence_value (c : Category) (hrel : c ≠ .relational) (hshift : c ≠ .shift) :
    ∀ p ∈ c.rules, isPass p.elements = false → ∀ (l : Location) (vs : Values Value p.elements)
      (e : Expr), expr? c (p.value l vs) = some e → e.precedence = c.precedence := by
  cases c
  all_goals try exact fun _ _ _ _ _ e h ↦ absurd h (Option.some_ne_none e).symm
  all_goals try exact absurd rfl hrel
  all_goals try exact absurd rfl hshift
  all_goals repeat' refine List.forall_mem_cons.mpr ⟨fun hpass l vs e h ↦ ?_, ?_⟩
  all_goals first
    | exact List.forall_mem_nil _
    | exact absurd hpass.symm Bool.false_ne_true
    | cases h
      rfl

private theorem precedence_relationalOp {op : BinaryOp}
    (hr : Reads language (.node (.one .relationalOp)) ts op) : op.precedence = 8 := by
  obtain ⟨p, hp, vs, rfl, -⟩ := hr.node_inv
  simp only [productions, language, rules, marks, List.map_cons, List.map_nil, List.mem_cons,
    List.not_mem_nil, or_false] at hp
  rcases hp with rfl | rfl | rfl | rfl <;> rfl

private theorem precedence_shiftOp {op : BinaryOp}
    (hr : Reads language (.node (.one .shiftOp)) ts op) : op.precedence = 9 := by
  obtain ⟨p, hp, vs, rfl, -⟩ := hr.node_inv
  simp only [productions, language, rules, List.mem_cons, List.not_mem_nil, or_false] at hp
  rcases hp with rfl | rfl | rfl <;> rfl

/-- The expressions that a category makes itself bind as tight as it says, whatever their operators
are. -/
private theorem precedence_of_parts {c : Category} {p : Production Value c.Value} (hp : p ∈ c.rules)
    (hpass : isPass p.elements = false) {vs : Values Value p.elements}
    (hparts : Parts (Reads language) p.elements ts vs)
    (he : expr? c (p.value (Token.cover ts) vs) = some e) : e.precedence = c.precedence := by
  by_cases hrel : c = .relational
  · subst hrel
    simp only [rules, List.mem_cons, List.not_mem_nil, or_false] at hp
    rcases hp with rfl | rfl | rfl
    · cases hpass
    · obtain ⟨a, op, b, _⟩ := vs
      obtain ⟨us, ws, -, -, hparts⟩ := parts_need.mp hparts
      obtain ⟨us, ws, -, hop, -⟩ := parts_need.mp hparts
      cases he
      exact precedence_relationalOp hop
    · cases he
      rfl
  by_cases hshift : c = .shift
  · subst hshift
    simp only [rules, List.mem_cons, List.not_mem_nil, or_false] at hp
    rcases hp with rfl | rfl
    · cases hpass
    · obtain ⟨a, op, b, _⟩ := vs
      obtain ⟨us, ws, -, -, hparts⟩ := parts_need.mp hparts
      obtain ⟨us, ws, -, hop, -⟩ := parts_need.mp hparts
      cases he
      exact precedence_shiftOp hop
  exact precedence_value c hrel hshift p hp hpass _ vs e he

/-- An expression of a category binds as tight as the category says, or it is one of another category
that comes later. -/
private theorem precedence_cases {c : Category} (hc : c ∈ tightening) {v : c.Value}
    (hr : Reads language (.node (.one c)) ts v) (he : expr? c v = some e) :
    e.precedence = c.precedence ∨ ∃ d ∈ tightening, c.tightness < d.tightness ∧
      c.precedence ≤ d.precedence ∧
      (equality.tightness ≤ c.tightness ∨ d.tightness ≤ equality.tightness) ∧
      ∃ w, Reads language (.node (.one d)) ts w ∧ expr? d w = some e := by
  obtain ⟨p, hp, vs, rfl, hparts⟩ := hr.node_inv
  cases hpass : isPass p.elements with
  | false => exact .inl (precedence_of_parts hp hpass hparts he)
  | true =>
    have hclimbs := climbs_rules c hc p hp
    unfold isPass at hpass
    split at hpass
    · next d hes =>
      rw [hes, climbs] at hclimbs
      simp only [Bool.and_eq_true, Bool.or_eq_true, decide_eq_true_eq, List.contains_iff_mem]
        at hclimbs
      obtain ⟨⟨⟨hd, hlater⟩, htight⟩, hequal⟩ := hclimbs
      exact .inr ⟨d, hd, hlater, htight, hequal, exists_passed_part hp hes hparts he⟩
    · cases hpass

/-- An expression of a category binds at least as tight as the category says. -/
theorem precedence_le {c : Category} (hc : c ∈ tightening) {v : c.Value}
    (hr : Reads language (.node (.one c)) ts v) (he : expr? c v = some e) :
    c.precedence ≤ e.precedence := by
  induction h : tightening.length - c.tightness using Nat.strong_induction_on generalizing c with
  | _ n ih =>
    rcases precedence_cases hc hr he with heq | ⟨d, hd, hlater, htight, -, w, hw, hwe⟩
    · exact heq.ge
    · have hlt : c.tightness < tightening.length := List.idxOf_lt_length_of_mem hc
      exact htight.trans (ih _ (by omega) hd hw hwe rfl)

/-- An expression that binds at least as tight as the sign of equality is an operand of this sign. -/
private theorem reads_equality {c : Category} (hc : c ∈ tightening)
    (hbefore : c.tightness ≤ equality.tightness) {v : c.Value}
    (hr : Reads language (.node (.one c)) ts v) (he : expr? c v = some e)
    (htight : e.comparable = true) : Reads language (.node (.one .equality)) ts e := by
  induction h : equality.tightness - c.tightness using Nat.strong_induction_on generalizing c with
  | _ n ih =>
    by_cases hequal : c = .equality
    · subst hequal
      obtain rfl := Option.some.inj he
      exact hr
    have hne : c.tightness ≠ equality.tightness := fun h ↦ hequal ((List.idxOf_inj hc).mp h)
    rcases precedence_cases hc hr he with heq | ⟨d, hd, hlater, -, hd', w, hw, hwe⟩
    · -- The category binds less tight, as do all before that of the sign of equality.
      have hless : ∀ c ∈ tightening, c.tightness < equality.tightness → c.precedence < 7 := by
        decide
      have := hless c hc (by omega)
      simp only [Expr.comparable, decide_eq_true_eq, heq, BinaryOp.precedence] at htight
      omega
    · exact ih _ (by omega) hd (by omega) hw hwe rfl

end Category

/-! ### Comparing -/

private theorem matches_null {n : Token} (hn : n.kind = .word .null) :
    Matches language (.node (.one .relational)) [n] := by
  refine matches_of_lifts (n := 20) (c := .literal) (by decide) ?_
  exact matches_node.mpr ⟨_, List.mem_of_getElem? (i := 5) rfl,
    spans_need_tok.mpr ⟨n, [], rfl, hn, spans_nil.mpr rfl⟩⟩

/-- The word `null` is read as such. -/
private theorem reads_null {n : Token} (hn : n.kind = .word .null)
    (hr : Reads language (.node (.one .relational)) [n] e) :
    ∃ l, e = .literal l .null n.text := by
  have hs : Token.Surfaces (.word .null) [] [n] :=
    ⟨n, [], rfl, hn, fun us u hu ↦ by simpa using hu.length_le⟩
  obtain ⟨w, hw, he⟩ := reads_of_funnels (n := 20) (d := .literal) (by decide) hs hr rfl
  obtain rfl := Option.some.inj he
  obtain ⟨p, hp, vs, rfl, hparts, hstart⟩ := exists_starting hw
  rw [hn] at hstart
  simp only [Category.rules, Category.token, List.mem_cons, List.not_mem_nil, or_false] at hp
  rcases hp with rfl | rfl | rfl | rfl | rfl | rfl
  all_goals try exact absurd hstart (by decide)
  obtain ⟨t, _⟩ := vs
  obtain ⟨ws, heq, -, -⟩ := parts_tok.mp hparts
  obtain ⟨rfl, -⟩ := List.cons.inj heq
  exact ⟨_, rfl⟩

variable {x n : Token}

private theorem spans_comparison (hx : x.kind = .mark .equals) {us : List Token}
    (hm : Matches language (.node (.one .equality)) ts)
    (hr : Matches language (.node (.one .relational)) us) :
    Spans language [Category.a .equality, Category.mark .equals, Category.a .relational]
      (ts ++ x :: us) :=
  spans_need.mpr ⟨ts, _, rfl, hm, spans_need_tok.mpr ⟨x, _, rfl, hx,
    spans_need.mpr ⟨us, [], (List.append_nil us).symm, hr, spans_nil.mpr rfl⟩⟩⟩

theorem matches_comparison (hx : x.kind = .mark .equals) (hn : n.kind = .word .null)
    (hr : Reads language (.node (.one .expr)) ts e) (hc : e.comparable = true) :
    Matches language (.node (.one .equality)) (ts ++ [x, n]) :=
  matches_node.mpr ⟨_, List.mem_of_getElem? (i := 1) rfl,
    spans_comparison hx (Category.reads_equality (by decide) (by decide) hr rfl hc).matches
      (matches_null hn)⟩

/-- An expression before `== null` is compared as a whole if it binds at least as tight as the sign of
equality and has no arrow outside brackets. -/
theorem reads_comparison (hx : x.kind = .mark .equals) (hn : n.kind = .word .null)
    (hr : Reads language (.node (.one .expr)) ts e) (hc : e.comparable = true)
    (ha : ¬ Token.HasArrow ts) {v : Expr}
    (hv : Reads language (.node (.one .expr)) (ts ++ [x, n]) v) :
    ∃ l l', v = .binary l .equal e (.literal l' .null n.text) := by
  have heq := Category.reads_equality (by decide) (by decide) hr rfl hc
  have hwhole := matches_comparison hx hn hr hc
  obtain ⟨w, hw, hwv⟩ := reads_of_prefers (n := 20) (c := .expr) (d := .equality)
    (by decide) hwhole hv rfl
  obtain rfl : w = v := Option.some.inj hwv
  have second : (language.productions (.one .equality))[1]? = some _ := rfl
  obtain ⟨⟨a, x', b, _⟩, rfl, hall⟩ := hw.first_inv second (fun q hq hs ↦ by
    obtain rfl := List.mem_singleton.mp hq
    obtain ⟨us, ws, hcut, hm, hnil⟩ := spans_need.mp hs
    rw [spans_nil.mp hnil, List.append_nil] at hcut
    subst hcut
    exact ha (hasArrow_of_matches hx hn hm)) (spans_comparison hx heq.matches (matches_null hn))
  rcases hall.cons_inv with ⟨us, ws, a', hcut, ha', -, hra, -, hall⟩ | ⟨hnone, -⟩
  · obtain rfl : a = a' := ha'
    rcases hall.cons_inv with ⟨xs, ys, y, rfl, hxy, -, hrx, -, hall⟩ | ⟨hnone, -⟩
    · obtain rfl : x' = y := hxy
      obtain rfl := hrx.tok_eq
      rcases hall.cons_inv with ⟨zs, ys, b', rfl, hbb, -, hrb, hlast, hnil⟩ | ⟨hnone, -⟩
      · obtain rfl : b = b' := hbb
        cases hnil
        -- The right operand begins as late as it can, so it is the word alone.
        obtain ⟨zs, z, rfl⟩ := (List.eq_nil_or_concat zs).resolve_left <|
          hrb.matches.ne_nil language_lawful fun _ hs ↦ by cases hs; exact inner_of_ne (by decide)
        have hends : ts ++ [x] = us ++ [x'] ++ zs ∧ n = z := by
          have h : (ts ++ [x]) ++ [n] = (us ++ [x'] ++ zs) ++ [z] := by simpa using hcut
          have h' := List.append_inj' h rfl
          exact ⟨h'.1, (List.cons.inj h'.2).1⟩
        obtain ⟨hends, rfl⟩ := hends
        have hfront : Spans language [Category.a .equality, Category.mark .equals]
            (us ++ [x'] ++ zs) := by
          rw [← hends]
          exact spans_need.mpr ⟨ts, [x], rfl, heq.matches,
            spans_need_tok.mpr ⟨x, [], rfl, hx, spans_nil.mpr rfl⟩⟩
        obtain rfl : zs = [] := hlast zs [n] (by simp) hfront (matches_null hn)
        rw [List.append_nil] at hends
        obtain ⟨rfl, -⟩ := List.append_inj' hends rfl
        obtain rfl : a = e := hra.unique heq
        obtain ⟨l', rfl⟩ := reads_null hn hrb
        exact ⟨_, l', rfl⟩
      · cases hnone
    · cases hnone
  · cases hnone

variable {ps : List Piece} {at_ : Position}

private theorem kinds_laid (ps : List Piece) (at_ at_' : Position) :
    (Token.laid at_ ps).map Token.kind = (Token.laid at_' ps).map Token.kind := by
  have hfaces := congrArg (List.map Prod.fst) (Token.faces_laid ps at_ at_')
  rw [List.map_map, List.map_map] at hfaces
  exact hfaces

/-- Whether an arrow stands outside brackets does not depend on the place. -/
theorem hasArrow_laid (h : Token.HasArrow (Token.laid at_ ps)) (at_' : Position) :
    Token.HasArrow (Token.laid at_' ps) := by
  obtain ⟨us, a, ⟨ws, heq⟩, ha, hd⟩ := h
  obtain ⟨qs, rs, rfl, hqs, -, -⟩ := Token.exists_cut heq.symm
  have hkinds := kinds_laid qs at_ at_'
  rw [hqs, List.map_append] at hkinds
  obtain ⟨us', bs, hlaid, hus, hbs⟩ := List.map_eq_append_iff.mp hkinds.symm
  obtain ⟨b, rfl, hb⟩ := List.map_eq_singleton_iff.mp hbs
  refine ⟨us', b, ?_, hb.trans ha, ?_⟩
  · rw [Token.laid_append, hlaid]
    exact List.prefix_append _ _
  · have hrise := congrArg (fun ks ↦ (ks.map Kind.rise).sum) hus
    simp only [List.map_map] at hrise
    exact hrise.trans hd

private theorem precedence_expr (f : Rewrite) (e : Expr) :
    (f.expr e).precedence = e.precedence := by
  cases e with
  | newObject _ _ _ body => cases body <;> simp only [Rewrite.expr, Expr.precedence]
  | _ => simp only [Rewrite.expr, Expr.precedence]

theorem comparable_expr (f : Rewrite) (e : Expr) :
    (f.expr e).comparable = e.comparable := by
  unfold Expr.comparable
  rw [precedence_expr]

private theorem exists_of_expr_eq_binary {f : Rewrite} {l : Location} {op : BinaryOp} {a b c : Expr}
    (h : f.expr c = .binary l op a b) : ∃ l' a' b', c = .binary l' op a' b' ∧ f.expr a' = a := by
  cases c with
  | binary =>
    simp only [Rewrite.expr, Expr.binary.injEq] at h
    obtain ⟨-, rfl, rfl, -⟩ := h
    exact ⟨_, _, _, rfl, rfl⟩
  | newObject _ _ _ body => cases body <;> simp only [Rewrite.expr, reduceCtorEq] at h
  | _ => simp only [Rewrite.expr, reduceCtorEq] at h

/-- What the sign of equality compares binds at least as tight as the sign. -/
theorem comparable_of_reads {l : Location} {a b : Expr}
    (hr : Reads language (.node (.one .expr)) ts (.binary l .equal a b)) : a.comparable = true := by
  have heq := Category.reads_equality (by decide) (by decide) hr rfl rfl
  obtain ⟨p, hp, vs, hv, hparts⟩ := heq.node_inv
  simp only [productions, language, Category.rules, List.mem_cons, List.not_mem_nil, or_false] at hp
  rcases hp with rfl | rfl | rfl
  · obtain ⟨e, _⟩ := vs
    obtain ⟨us, ws, -, he, -⟩ := parts_need.mp hparts
    obtain rfl : e = .binary l .equal a b := hv.symm
    exact absurd (Category.precedence_le (by decide) he rfl) (by decide : ¬ 8 ≤ 7)
  · obtain ⟨x, _, y, _⟩ := vs
    obtain ⟨us, ws, -, hx, -⟩ := parts_need.mp hparts
    cases hv
    exact decide_eq_true (Category.precedence_le (by decide) hx rfl)
  · obtain ⟨x, _, y, _⟩ := vs
    cases hv

namespace Template

theorem laid_compared (at_ : Position) (ps : List Piece) : ∃ x n,
    Token.laid at_ (compared ps) = Token.laid at_ ps ++ [x, n] ∧ x.kind = .mark .equals ∧
      n.kind = .word .null ∧ n.text = "null" := by
  unfold compared mark word gap
  rw [Token.laid_append, Token.laid_blank, Token.laid_token, Token.laid_blank, Token.laid_token]
  exact ⟨_, _, rfl, rfl, rfl, String.ofList_toList⟩

/-- A comparison with `null` stands for that of what the condition stands for. -/
theorem denotes_compared (hd : Denotes ps e) (hc : e.comparable = true)
    (ha : ¬ Token.HasArrow (Token.laid at_ ps)) :
    Denotes (compared ps) (.binary .empty .equal e (.literal .empty .null "null")) := by
  intro at_'
  obtain ⟨y, hy, rfl⟩ := hd at_'
  obtain ⟨x, n, hlaid, hx, hn, htext⟩ := laid_compared at_' ps
  have hyc : y.comparable = true := by rw [← comparable_expr Rewrite.none, hc]
  have hm : Matches language (.node (.one .expr)) (Token.laid at_' ps ++ [x, n]) :=
    matches_of_prefers (n := 20) (by decide) (matches_comparison hx hn hy hyc)
  obtain ⟨v, hv⟩ := hm.exists_reads language_lawful
    fun _ hs ↦ .inr (by cases hs; exact inner_of_ne (by decide))
  obtain ⟨l, l', rfl⟩ := reads_comparison hx hn hy hyc (fun h ↦ ha (hasArrow_laid h _)) hv
  rw [hlaid]
  exact ⟨_, hv, by simp only [Rewrite.expr, htext]⟩

/-- The text of a conditional throw does not stand for one with a comparison of an expression that
binds less tight than the sign of equality. -/
theorem not_reads_compared {condition message : List Piece} {exception : String} {arg : Expr}
    {v : Stmt} (hd : Denotes condition e) (hc : e.comparable = false)
    (hr : Reads language (.node (.one .statement))
      (Token.laid at_ (pieces (compared condition) exception message)) v) :
    Rewrite.none.stmt v ≠
      throwing (.binary .empty .equal e (.literal .empty .null "null")) exception arg := by
  obtain ⟨word, opening, at₁, closing, throw, new, name, left, at₂, right, semicolon, hlaid, hword,
    -, hclosing, -⟩ := laid_pieces at_ (compared condition) exception message
  obtain ⟨x, n, hcompared, hx, hn, -⟩ := laid_compared at₁ condition
  have hbalanced : Token.Balanced (Token.laid at₁ condition ++ [x, n]) :=
    (balanced_of_matches (hd.matches at₁)).append_flat (by simp [hx, hn, Kind.rise])
  rw [hlaid, hcompared] at hr
  obtain ⟨-, -, c, s, o, -, rfl, hrc, -⟩ := reads_if hword hbalanced hclosing hr
  intro heq
  have htest : Rewrite.none.expr c = .binary .empty .equal e (.literal .empty .null "null") := by
    cases o <;> simp only [Rewrite.stmt, throwing, Stmt.ifElse.injEq] at heq <;> exact heq.2.1
  obtain ⟨l, a, b, rfl, rfl⟩ := exists_of_expr_eq_binary htest
  rw [comparable_expr, comparable_of_reads hrc] at hc
  cases hc

end Template

end GuardLint.Syntax
