import GuardLint.Proofs.Syntax.Node
import GuardLint.Proofs.Syntax.Outside

/-!
# Operands alone

An expression that was read as an operand, as the target of an assignment, as a statement or as the
body of a lambda is read as the same expression if its tokens stand alone. For each category that may
stand for another one alone, no production that comes before it fits its tokens: their first token
or their last one does not allow it, or what stands outside their brackets.
-/

namespace GuardLint.Syntax

open Grammar

variable {ts : List Token} {c d : Category} {e : Expr}

/-! ### The last token -/

/-- Whether a text of a category may end with a token of a kind, as far as productions inside each
other up to some number tell. -/
def ends : Nat → Kind → Category → Bool
  | 0, _, _ => true
  | n + 1, k, c => (Category.rules c).any fun p ↦ (lastSymbols p.elements).any fun
    | .tok l => l == k
    | .node h => ends n k h.category

/-- Whether a symbol may end with a token of a kind. -/
private def symbolEnds (n : Nat) (k : Kind) : Symbol Category → Bool
  | .tok l => l == k
  | .node h => ends n k h.category

private theorem ends_of_symbol {n : Nat} {k : Kind} {h : Head Category}
    {p : Production Category.Value (h.Value Category.Value)} (hp : p ∈ language.productions h)
    {s : Symbol Category} (hs : s ∈ lastSymbols p.elements) (hk : symbolEnds n k s = true) :
    ends (n + 1) k h.category = true ∨ ∃ c, h = .run c ∧ s = .node (.one c) := by
  cases h with
  | one c =>
    refine .inl (List.any_eq_true.mpr ⟨p, hp, List.any_eq_true.mpr ⟨s, hs, ?_⟩⟩)
    cases s <;> exact hk
  | run c =>
    refine .inr ⟨c, rfl, ?_⟩
    simp only [productions, List.mem_cons, List.not_mem_nil, or_false] at hp
    rcases hp with rfl | rfl <;> simpa [lastSymbols, Element.symbol, Element.optional] using hs

/-- The last token of a symbol may end it. -/
private theorem symbolEnds_of_matches {s : Symbol Category}
    (hin : ∀ h, s = .node h → Inner language h) (hm : Matches language s ts) {t : Token}
    (ht : ts.getLast? = some t) (n : Nat) : symbolEnds n t.kind s = true := by
  refine Matches.induction (g := language)
    (P := fun s ts ↦ (∀ h, s = .node h → Inner language h) → ∀ t, ts.getLast? = some t →
      ∀ n, symbolEnds n t.kind s = true)
    (fun u _ t ht n ↦ ?_) (fun h p ts hp hc hin t ht n ↦ ?_) hm hin t ht n
  · cases ht
    exact beq_self_eq_true _
  · have hinner : ∀ e ∈ p.elements, ∀ h', e.symbol = .node h' → Inner language h' :=
      fun e he h' hs ↦ language_lawful.inner (.inr (hin h rfl)) hp he hs
    have hts : ts ≠ [] := by
      rintro rfl
      cases ht
    obtain ⟨front, e, back, us, ws, hes, hback, rfl, -, hm, hlast⟩ :=
      exists_last (fun e he us hu ↦ hu.1.ne_nil language_lawful (hinner e he)) hc hts
    have hmem : e ∈ p.elements := by rw [hes]; simp
    rw [List.getLast?_append_of_ne_nil _ (hm.ne_nil language_lawful (hinner e hmem))] at ht
    have hends := hlast (hinner e hmem) t ht
    have hsymbol : e.symbol ∈ lastSymbols p.elements := by
      rw [hes]
      exact mem_lastSymbols hback
    cases n with
    | zero => rfl
    | succ n =>
      rcases ends_of_symbol hp hsymbol (hends n) with h | ⟨c, rfl, hs⟩
      · exact h
      · have := hends (n + 1)
        rwa [hs] at this

/-! ### One production before another -/

/-- Whether no text of a category fits some elements, as its first token or its last one tells. -/
def apart (d : Category) (es : List (Element Category)) : Bool :=
  (Kind.all.all fun k ↦ !(language.elementsMayStart k es && language.mayStart d k)) ||
    Kind.all.all fun k ↦ !((lastSymbols es).any (symbolEnds 3 k) && ends 3 k d)

private theorem not_spans_of_apart {es : List (Element Category)} (ha : apart d es = true)
    (hes : ∀ e ∈ es, ∀ h, e.symbol = .node h → Inner language h) (hd : d ≠ .compilationUnit)
    (hm : Matches language (.node (.one d)) ts) : ¬ Spans language es ts := by
  intro hs
  have hin : ∀ h, (.node (.one d) : Symbol Category) = .node h → Inner language h := by
    rintro _ ⟨⟩
    exact inner_of_ne hd
  have hne : ts ≠ [] := hm.ne_nil language_lawful hin
  rcases Bool.or_eq_true_iff.mp ha with ha | ha
  · obtain ⟨t, ts, rfl⟩ := List.exists_cons_of_ne_nil hne
    have h := List.all_eq_true.mp ha t.kind t.kind.mem_all
    have hstart : language.mayStart d t.kind = true :=
      hm.symbolMayStart language_lawful fun h hh ↦ .inr (hin h hh)
    rw [hs.elementsMayStart language_lawful hes, hstart] at h
    cases h
  · obtain ⟨t, ht⟩ : ∃ t, ts.getLast? = some t := ⟨_, List.getLast?_eq_some_getLast hne⟩
    have h := List.all_eq_true.mp ha t.kind t.kind.mem_all
    obtain ⟨front, e, back, us, ws, rfl, hback, rfl, -, he⟩ :=
      exists_last (fun e he us hu ↦ hu.ne_nil language_lawful (hes e he)) (spans_iff_covers.mp hs) hne
    have hmem : e ∈ front ++ e :: back := by simp
    have hlast := ht
    rw [List.getLast?_append_of_ne_nil _ (he.ne_nil language_lawful (hes e hmem))] at hlast
    have hany : (lastSymbols (front ++ e :: back)).any (symbolEnds 3 t.kind) = true :=
      List.any_eq_true.mpr ⟨e.symbol, mem_lastSymbols hback,
        symbolEnds_of_matches (hes e hmem) he hlast 3⟩
    have hend : ends 3 t.kind d = true := symbolEnds_of_matches hin hm ht 3
    rw [hany, hend] at h
    cases h

/-! ### Reading in a wider category -/

/-- Tokens are read as a text of some category that is an expression. -/
def ReadAs (c : Category) (ts : List Token) (e : Expr) : Prop :=
  ∃ v, Reads language (.node (.one c)) ts v ∧ c.expr? v = some e

theorem ReadAs.unique {e' : Expr} (h : ReadAs c ts e) (h' : ReadAs c ts e') : e = e' := by
  obtain ⟨v, hv, he⟩ := h
  obtain ⟨w, hw, he'⟩ := h'
  obtain rfl := hv.unique hw
  exact Option.some.inj (he.symm.trans he')

theorem ReadAs.matches (h : ReadAs c ts e) : Matches language (.node (.one c)) ts := by
  obtain ⟨v, hv, -⟩ := h
  exact hv.matches

theorem ReadAs.isExpression (h : ReadAs c ts e) : c.isExpression = true := by
  obtain ⟨v, -, he⟩ := h
  exact Category.isExpression_of_expr he

private theorem Category.ne_of_isExpression (hc : c.isExpression = true) : c ≠ .compilationUnit := by
  rintro rfl
  cases hc

/-- What belongs to a category is read as an expression of the category that it is read as first. -/
private theorem ReadAs.pass (h : ReadAs d ts e) (hc : c.isExpression = true) {i : Nat}
    {p : Production Category.Value c.Value} (hp : c.rules[i]? = some p)
    (hes : p.elements = [.need (.node (.one d))])
    (hno : ∀ q ∈ c.rules.take i, ¬ Spans language q.elements ts) : ReadAs c ts e := by
  have hspans : Spans language p.elements ts := by
    rw [hes]
    exact spans_alone.mpr h.matches
  have hm : Matches language (.node (.one c)) ts := matches_node.mpr ⟨p, List.mem_of_getElem? hp, hspans⟩
  obtain ⟨v, hv⟩ := hm.exists_reads language_lawful
    fun _ hs ↦ .inr (by cases hs; exact inner_of_ne (Category.ne_of_isExpression hc))
  obtain ⟨e', he'⟩ := Category.exists_expr hc v
  obtain ⟨vs, rfl, hall⟩ := hv.first_inv hp hno hspans
  have hpassed := Category.exists_passed_part (List.mem_of_getElem? hp) hes hall.parts_reads he'
  rw [h.unique hpassed]
  exact ⟨_, hv, he'⟩

/-- Whether the production of a category with a number stands for another one alone, and the productions
before it are apart from that one or stand for one of some others. -/
private def raises (i : Nat) (others : List Category) (d c : Category) : Bool :=
  match (Category.rules c)[i]? with
  | some p => c.isExpression &&
    (match p.elements with
      | [.need (.node (.one b))] => b == d
      | _ => false) &&
    ((Category.rules c).take i).all fun q ↦ apart d q.elements ||
      match q.elements with
      | [.need (.node (.one b))] => others.contains b
      | _ => false
  | none => false

private theorem ReadAs.raise (h : ReadAs d ts e) {i : Nat} (others : List Category)
    (hr : raises i others d c = true)
    (hno : ∀ b ∈ others, ¬ Matches language (.node (.one b)) ts) : ReadAs c ts e := by
  unfold raises at hr
  split at hr
  · next p hp =>
    simp only [Bool.and_eq_true, List.all_eq_true] at hr
    obtain ⟨⟨hc, hpass⟩, hbefore⟩ := hr
    split at hpass
    · next b hes =>
      obtain rfl : b = d := beq_iff_eq.mp hpass
      refine h.pass hc hp hes fun q hq hs ↦ ?_
      rcases Bool.or_eq_true_iff.mp (hbefore q hq) with ha | hb
      · have hin : Inner language (.one c) := inner_of_ne (Category.ne_of_isExpression hc)
        refine not_spans_of_apart ha (fun e he h' hs ↦ ?_)
          (Category.ne_of_isExpression h.isExpression) h.matches hs
        exact language_lawful.inner (h := .one c) (.inr hin) (List.mem_of_mem_take hq) he hs
      · split at hb
        · next b' hes' =>
          rw [hes'] at hs
          exact hno b' (List.contains_iff_mem.mp hb) (spans_alone.mp hs)
        · cases hb
    · cases hpass
  · cases hr

private theorem isExpression_of_pass : ∀ c ∈ Category.all, c.isExpression = true → ∀ p ∈ c.rules,
    (match p.elements with
      | [.need (.node (.one b))] => b.isExpression
      | _ => true) = true := by
  decide +kernel

/-- What is an expression of a category is one of each category that is read as that one first. -/
private theorem ReadAs.prefer {n : Nat} (hf : prefers n c d = true) (hc : c.isExpression = true)
    (h : ReadAs d ts e) : ReadAs c ts e := by
  induction n generalizing c with
  | zero =>
    obtain rfl : c = d := beq_iff_eq.mp hf
    exact h
  | succ n ih =>
    rcases Bool.or_eq_true_iff.mp hf with hf | hf
    · obtain rfl : c = d := beq_iff_eq.mp hf
      exact h
    · split at hf
      · next p hp =>
        split at hf
        · next b hes =>
          have hb := isExpression_of_pass c c.mem_all hc p (List.mem_of_getElem? hp)
          simp only [hes] at hb
          exact (ih hf hb).pass hc hp hes fun q hq ↦ by cases hq
        · cases hf
      · cases hf

/-! ### The categories of operands, targets and statements -/

/-- The categories that an expression may be read as where it is a part of something. -/
def Category.outermost : List Category :=
  [.expr, .conditional, .logicOr, .logicAnd, .bitOr, .bitXor, .bitAnd, .equality, .relational, .shift,
   .additive, .multiplicative, .unary, .unsignedUnary, .postfixExpr, .primary, .lambda, .assignTarget,
   .statementExpr]

private theorem ReadAs.of_unary (h : ReadAs .unary ts e) : ReadAs .expr ts e :=
  h.prefer (n := 20) (by decide) rfl

private theorem ReadAs.of_unsignedUnary (h : ReadAs .unsignedUnary ts e) : ReadAs .expr ts e :=
  (h.raise (c := .unary) (i := 3) [] (by decide) (by simp)).of_unary

private theorem ReadAs.of_primary (h : ReadAs .primary ts e) : ReadAs .expr ts e :=
  (h.prefer (c := .unsignedUnary) (n := 3) (by decide) rfl).of_unsignedUnary

private theorem ReadAs.of_lambda (h : ReadAs .lambda ts e) : ReadAs .expr ts e :=
  h.raise (i := 1) [.assignment] (by decide)
    (by simpa using not_assignment_of_lambda h.matches)

/-- The first of some other categories that the tokens of a category belong to is read. -/
private theorem ReadAs.exists_first (h : ReadAs c ts e)
    (hc : (c.rules.all fun p ↦ Category.isPass p.elements) = true) :
    ∃ i p d, c.rules[i]? = some p ∧ p.elements = [.need (.node (.one d))] ∧ ReadAs d ts e ∧
      ∀ b, (∃ q ∈ c.rules.take i, q.elements = [.need (.node (.one b))]) →
        ¬ Matches language (.node (.one b)) ts := by
  obtain ⟨v, hv, he⟩ := h
  cases hv with
  | @node _ i p _ vs hp hfirst hall =>
    have hpass := List.all_eq_true.mp hc p (List.mem_of_getElem? hp)
    unfold Category.isPass at hpass
    split at hpass
    · next d hes =>
      refine ⟨i, p, d, hp, hes,
        Category.exists_passed_part (List.mem_of_getElem? hp) hes hall.parts_reads he, ?_⟩
      rintro b ⟨q, hq, hb⟩ hm
      exact hfirst q hq (by rw [hb]; exact spans_alone.mpr hm)
    · cases hpass

private theorem ReadAs.of_assignTarget (h : ReadAs .assignTarget ts e) : ReadAs .expr ts e := by
  obtain ⟨i, p, d, hp, hes, hd, hno⟩ := h.exists_first (by decide)
  refine ReadAs.of_primary ?_
  rcases i with _ | _ | _ | _ | i <;> cases hp <;> cases hes
  · exact hd.raise (i := 4) [] (by decide) (by simp)
  · have hname := hno .name ⟨_, List.mem_of_getElem? (i := 0) rfl, rfl⟩
    exact hd.raise (i := 5) [.name] (by decide) (by simpa using hname)
  · exact hd.raise (i := 7) [] (by decide) (by simp)
  · exact hd.raise (i := 1) [] (by decide) (by simp)

/-- The call of a method does not stand in parentheses as a whole. -/
private theorem not_paren_of_methodCall (hm : Matches language (.node (.one .methodCall)) ts) :
    ¬ Matches language (.node (.one .paren)) ts := by
  intro hparen
  obtain ⟨p, hp, hs⟩ := matches_node.mp hparen
  obtain rfl := List.mem_singleton.mp hp
  obtain ⟨l, ws, rfl, hl, hs⟩ := spans_need_tok.mp hs
  obtain ⟨ms, ws, rfl, hms, hs⟩ := spans_need.mp hs
  obtain ⟨r, ws, rfl, -, hs⟩ := spans_need_tok.mp hs
  obtain rfl := spans_nil.mp hs
  obtain ⟨q, hq, hs⟩ := matches_node.mp hm
  simp only [productions, language, Category.rules, List.mem_cons, List.not_mem_nil, or_false] at hq
  rcases hq with rfl | rfl
  · -- What stands before the dot would stand outside the parentheses.
    obtain ⟨us, ws, heq, hus, hs⟩ := spans_need.mp hs
    obtain ⟨x, ws, rfl, -, -⟩ := spans_need_tok.mp hs
    have hne : us ≠ [] := hus.ne_nil language_lawful fun _ hs ↦ by cases hs; exact inner_of_ne (by decide)
    refine hne ((even_of_matches nest_levels hms).eq_nil_of_bracketed (r := r) (u := x)
      (by rw [hl]; decide) ⟨ws, ?_⟩ (even_of_matches nest_levels hus).closed)
    rw [heq]
    simp
  · obtain ⟨x, ws, heq, hx, -⟩ := spans_need_tok.mp hs
    rw [(List.cons.inj heq).1, hx] at hl
    cases hl

private theorem ReadAs.of_statementExpr (h : ReadAs .statementExpr ts e) : ReadAs .expr ts e := by
  obtain ⟨i, p, d, hp, hes, hd, hno⟩ := h.exists_first (by decide)
  rcases i with _ | _ | _ | _ | _ | i <;> cases hp <;> cases hes
  · have hcond := not_conditional_of_assign hd.matches
    have hassign : ReadAs .assignment ts e :=
      hd.raise (i := 1) [.conditional] (by decide) (by simpa using hcond)
    exact hassign.prefer (n := 1) (by decide) rfl
  · exact hd.prefer (n := 20) (by decide) rfl
  · have hraised : ReadAs .postfixExpr ts e :=
      hd.raise (i := 1) [] (by decide) (by simp)
    exact (hraised.prefer (c := .unsignedUnary) (n := 1) (by decide) rfl).of_unsignedUnary
  · have hparen := not_paren_of_methodCall hd.matches
    exact (hd.raise (c := .primary) (i := 6) [.paren] (by decide)
      (by simpa using hparen)).of_primary
  · have hcall := hno .methodCall ⟨_, List.mem_of_getElem? (i := 3) rfl, rfl⟩
    exact (hd.raise (c := .primary) (i := 8) [.methodCall] (by decide)
      (by simpa using hcall)).of_primary

/-- An expression that was read where it is a part of something is read as the same expression if it
stands alone. -/
theorem reads_expr_of_outermost {v : c.Value} (hc : c ∈ Category.outermost)
    (hr : Reads language (.node (.one c)) ts v) (he : c.expr? v = some e) :
    Reads language (.node (.one .expr)) ts e := by
  have h : ReadAs c ts e := ⟨v, hr, he⟩
  have halone : ReadAs .expr ts e := by
    simp only [Category.outermost, List.mem_cons, List.not_mem_nil, or_false] at hc
    rcases hc with rfl | rfl | rfl | rfl | rfl | rfl | rfl | rfl | rfl | rfl | rfl | rfl | rfl | rfl |
      rfl | rfl | rfl | rfl | rfl
    · exact h
    all_goals first
      | exact h.prefer (n := 20) (by decide) rfl
      | exact h.of_unsignedUnary
      | exact (h.prefer (c := .unsignedUnary) (n := 3) (by decide) rfl).of_unsignedUnary
      | exact h.of_lambda
      | exact h.of_assignTarget
      | exact h.of_statementExpr
  obtain ⟨w, hw, hwe⟩ := halone
  obtain rfl := Option.some.inj hwe
  exact hw

/-! ### The expressions of a tree -/

namespace Node

/-- An expression, unless it is an array initializer, is read as such from some of the tokens alone. -/
def Alone (ts : List Token) (n : Node) : Prop :=
  ∀ e, n = .expr e → n.isValue = true →
    ∃ us, us <:+: ts ∧ Reads language (.node (.one .expr)) us e

theorem Alone.wider {us : List Token} {n : Node} (h : Alone us n) (hpart : us <:+: ts) : Alone ts n :=
  fun e hn hv ↦ (h e hn hv).imp fun _ hvs ↦ ⟨hvs.1.trans hpart, hvs.2⟩

/-- Whether what is read for a symbol is no expression that is only a part of others. -/
private def settled : Symbol Category → Bool
  | .tok _ => true
  | .node h => !h.category.isExpression || Category.outermost.contains h.category

/-- A production has only settled parts, or it makes an expression of another one alone. -/
private theorem settled_rules : ∀ c ∈ Category.all, ∀ p ∈ c.rules,
    (∀ e ∈ p.elements, settled e.symbol = true) ∨
      Category.isPass p.elements = true ∧ c.isExpression = true := by
  decide +kernel

private theorem ofCategory_pass {c : Category} (hc : c.isExpression = true) : ∀ p ∈ c.rules,
    Category.isPass p.elements = true → ∀ (l : Location) (vs : Values Category.Value p.elements),
      ofCategory c (p.value l vs) = gather ofCategory p.elements vs := by
  cases c
  all_goals try cases hc
  all_goals
    repeat' refine List.forall_mem_cons.mpr ⟨fun hp l vs ↦ ?_, ?_⟩
    all_goals first
      | rfl
      | exact fun _ h ↦ absurd h List.not_mem_nil
      | cases hp

private theorem ofCategory_expr {v : c.Value} (he : c.expr? v = some e) :
    ofCategory c v = [.expr e] := by
  cases c
  all_goals first | (cases he; rfl) | cases he

/-- What is inside of some nodes is read alone, and so are they if they are no parts of others. -/
private def AllAlone (s : Symbol Category) (ts : List Token) (ns : List Node) : Prop :=
  (∀ n ∈ ns, ∀ m, m.Below n → Alone ts m) ∧ (settled s = true → ∀ n ∈ ns, Alone ts n)

/-- What a production makes of parts that are read alone is read alone. -/
private theorem allAlone_value {c : Category} {p : Production Category.Value c.Value} (hp : p ∈ c.rules)
    {vs : Values Category.Value p.elements}
    (hr : Reads language (.node (.one c)) ts (p.value (Token.cover ts) vs))
    (hbelow : ∀ n ∈ gather ofCategory p.elements vs, ∀ m, m.Below n → Alone ts m)
    (hparts : (∀ e ∈ p.elements, settled e.symbol = true) →
      ∀ n ∈ gather ofCategory p.elements vs, Alone ts n) :
    AllAlone (.node (.one c)) ts (ofCategory c (p.value (Token.cover ts) vs)) := by
  have hself : c.isExpression = true → settled (.node (.one c)) = true →
      ∀ n ∈ ofCategory c (p.value (Token.cover ts) vs), Alone ts n := by
    intro hc hs n hn e hne _
    obtain ⟨e', he'⟩ := Category.exists_expr hc (p.value (Token.cover ts) vs)
    rw [ofCategory_expr he', List.mem_singleton, hne] at hn
    cases hn
    have hout : c ∈ Category.outermost := by simpa [settled, Head.category, hc] using hs
    exact ⟨ts, List.infix_refl ts, reads_expr_of_outermost hout hr he'⟩
  rcases settled_rules c c.mem_all p hp with hes | ⟨hpass, hc⟩
  · have hinner := hparts hes
    have hmade := made_value c p hp (Token.cover ts) vs
    generalize ofCategory c (p.value (Token.cover ts) vs) = ns at hmade hself
    cases hmade with
    | held hs => exact ⟨fun n hn ↦ hbelow n (hs.subset hn), fun _ n hn ↦ hinner n (hs.subset hn)⟩
    | @one n _ _ hvalue _ hs =>
      refine ⟨fun m hm k hk ↦ ?_, fun hsettled m hm ↦ ?_⟩
      · rw [List.mem_singleton.mp hm] at hk
        cases hk with
        | single hk => exact hinner k (hs.subset hk)
        | tail hk hpart => exact hbelow _ (hs.subset hpart) k hk
      · by_cases hc : c.isExpression = true
        · exact hself hc hsettled m hm
        · rw [List.mem_singleton.mp hm]
          intro e _ hv
          exact absurd (hvalue.symm.trans hv) hc
  · refine ⟨fun n hn ↦ ?_, hself hc⟩
    rw [ofCategory_pass hc p hp hpass] at hn
    exact hbelow n hn

private theorem allAlone_of_reads {s : Symbol Category} {v : s.Value Category.Value}
    (hr : Reads language s ts v) : AllAlone s ts (s.gather ofCategory v) := by
  refine Reads.induction (M := fun s ts v ↦ AllAlone s ts (s.gather ofCategory v))
    (fun t ↦ ⟨fun n hn ↦ absurd hn List.not_mem_nil, fun _ n hn ↦ absurd hn List.not_mem_nil⟩)
    (fun h p ts vs hp hr hv ↦ ?_) hr
  have hbelow : ∀ n ∈ gather ofCategory p.elements vs, ∀ m, m.Below n → Alone ts m :=
    (hv.mono fun _ _ _ _ h ↦ h.2.1).gather (R := fun us ns ↦ ∀ n ∈ ns, ∀ m, m.Below n → Alone us m)
      (fun n hn ↦ absurd hn List.not_mem_nil) fun hx hy n hn m hm ↦ by
        rcases List.mem_append.mp hn with hn | hn
        · exact (hx n hn m hm).wider (List.prefix_append _ _).isInfix
        · exact (hy n hn m hm).wider (List.suffix_append _ _).isInfix
  have hparts : (∀ e ∈ p.elements, settled e.symbol = true) →
      ∀ n ∈ gather ofCategory p.elements vs, Alone ts n := fun hes ↦
    (hv.mono fun e he _ _ h ↦ h.2.2 (hes e he)).gather (R := fun us ns ↦ ∀ n ∈ ns, Alone us n)
      (fun n hn ↦ absurd hn List.not_mem_nil) fun hx hy n hn ↦ by
        rcases List.mem_append.mp hn with hn | hn
        · exact (hx n hn).wider (List.prefix_append _ _).isInfix
        · exact (hy n hn).wider (List.suffix_append _ _).isInfix
  cases h with
  | one c => exact allAlone_value hp hr hbelow hparts
  | run c =>
    rw [← gather_run hp (Token.cover ts) vs] at hbelow hparts
    refine ⟨hbelow, fun hs ↦ hparts fun e he ↦ ?_⟩
    simp only [productions, List.mem_cons, List.not_mem_nil, or_false] at hp
    rcases hp with rfl | rfl <;> simp at he
    · rw [he]
      exact hs
    · rcases he with rfl | rfl <;> exact hs

/-- Every expression of a source file that is no array initializer is read as such from its tokens
alone. -/
theorem alone_of {unit : CompilationUnit}
    (hr : Reads language (.node (.one .compilationUnit)) ts unit) {n : Node} (hn : Of unit n) :
    Alone ts n := by
  obtain ⟨hbelow, htop⟩ := allAlone_of_reads hr
  obtain ⟨m, hm, rfl | hinside⟩ := hn
  · exact htop rfl n hm
  · exact hbelow m hm n hinside

end Node

end GuardLint.Syntax
