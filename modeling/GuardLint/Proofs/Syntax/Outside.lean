import GuardLint.Proofs.Syntax.Trailing

/-!
# Marks outside brackets

What stands before an arrow, before a sign of assignment and behind a comma that no brackets of an
expression enclose. An arrow has parameters before it, and more if the expression is an assignment.
A sign of assignment in a conditional expression has an arrow or the sign of a condition before it,
neither of which stands so in what values are assigned to. A comma separates type arguments.
-/

namespace GuardLint.Syntax

open Grammar

variable {ts us vs : List Token} {t : Token}

/-- By how much a token takes the text deeper into brackets of all kinds. -/
def Kind.nest : Kind → Int
  | .mark .leftBracket => 1
  | .mark .rightBracket => -1
  | k => k.rise

theorem nest_levels : Levels Kind.nest := by
  unfold Levels
  decide +kernel

namespace Category

/-- The categories that a type argument is made of. -/
def types : List Category :=
  [.typeArgs, .typeArgList, .typeArg, .commaTypeArg, .type, .wildcard, .bareType, .dim,
   .primitiveType, .classType, .classTypePart, .dotTypePart]

/-- The categories that stand outside brackets in expressions without operators. -/
def primaries : List Category :=
  [.primary, .literal, .paren, .thisRef, .superRef, .name, .fieldAccess, .methodCall, .arrayAccess,
   .newObject, .newArray, .classLiteral, .methodRef, .arguments, .classType, .classBody, .bareType,
   .dimExpr, .dim, .arrayInit, .refName, .classTypePart, .dotTypePart, .primitiveType]

/-- The categories that stand outside brackets in conditional expressions, but for those in the
middle of one and in bodies of lambdas. -/
def operations : List Category :=
  [.conditional, .logicOr, .logicAnd, .bitOr, .bitXor, .bitAnd, .equality, .relational, .relationalOp,
   .shift, .shiftOp, .additive, .multiplicative, .unary, .unsignedUnary, .preStep, .stepOp, .cast,
   .postfixExpr, .postStep, .lambda, .lambdaParams, .block, .type] ++ primaries

/-- The categories that stand outside brackets in expressions. -/
def expressions : List Category :=
  [.expr, .assignment, .assign, .assignTarget, .assignOp] ++ operations

end Category

open Category

/-! ### Type arguments -/

/-- The kinds of the tokens that a type is made of. -/
def Kind.ofTypes : List Kind :=
  [.name, .mark .dot, .mark .comma, .mark .less, .mark .more, .mark .question, .word .extends,
   .word .super, .mark .leftBracket, .mark .rightBracket] ++ primitives.map .word

private theorem types_encloses : encloses (fun _ ↦ 0) types [] = true := by decide

private theorem types_shows : shows (fun _ ↦ 0) types Kind.ofTypes.contains = true := by
  decide

private theorem flat_levels : Levels fun _ ↦ 0 := by
  unfold Levels
  decide +kernel

private theorem height_flat (us : List Token) : Token.height (fun _ ↦ 0) us = 0 := by
  simp [Token.height]

/-- A type is made of few kinds of tokens. -/
theorem kind_of_types {h : Head Category} (hh : h.category ∈ types)
    (hm : Matches language (.node h) ts) (ht : t ∈ ts) : t.kind ∈ Kind.ofTypes := by
  obtain ⟨us, vs, rfl⟩ := List.append_of_mem ht
  by_contra hk
  obtain ⟨_, -, _, -, _, _, _, _, _, _, -, -, -, -, hstop⟩ :=
    (Token.found flat_levels types_encloses (by decide) hh hm (height_flat us)).exists_stop
      types_shows (by simpa using hk)
  cases hstop

/-! ### Arrows -/

/-- What a production that has an arrow outside brackets looks like. -/
private theorem lambda_of_arrow : ∀ c ∈ Category.all, ∀ p ∈ Category.rules c, ∀ e ∈ p.elements,
    e.symbol = .tok (.mark .arrow) → c = .lambda := by
  decide +kernel

/-- The categories of expressions that a text begins with if it begins with an assignment. -/
private def beginning : List Category :=
  [.assignment, .assign, .assignTarget] ++ operations.erase .lambda

private theorem beginning_within : beginsWithin beginning = true := by decide

/-- The parameters of a lambda are a name or stand in parentheses. -/
private theorem lambdaParams_cases (hm : Matches language (.node (.one .lambdaParams)) ts) :
    (∃ t, ts = [t]) ∨ ∃ l ms r, ts = l :: (ms ++ [r]) ∧ l.kind = .mark .leftParen ∧
      Token.Even Kind.nest ms := by
  obtain ⟨p, hp, hs⟩ := matches_node.mp hm
  simp only [productions, language, Category.rules, List.mem_cons, List.not_mem_nil, or_false] at hp
  rcases hp with rfl | rfl
  · obtain ⟨t, ws, rfl, -, hs⟩ := spans_need_tok.mp hs
    exact .inl ⟨t, by rw [spans_nil.mp hs]⟩
  · obtain ⟨l, ws, rfl, hl, hs⟩ := spans_need_tok.mp hs
    rcases spans_cons.mp hs with ⟨ms, ws, rfl, hms, hs⟩ | ⟨-, hs⟩
    · obtain ⟨r, ws, rfl, -, hs⟩ := spans_need_tok.mp hs
      exact .inr ⟨l, ms, r, by rw [spans_nil.mp hs], hl, even_of_matches nest_levels hms⟩
    · obtain ⟨r, ws, rfl, -, hs⟩ := spans_need_tok.mp hs
      refine .inr ⟨l, [], r, by rw [spans_nil.mp hs]; rfl, hl, ⟨fun us hus ↦ ?_, rfl⟩⟩
      rw [List.prefix_nil.mp hus]
      exact Int.le_refl 0

/-- The parameters of a lambda stand at the end of other tokens only if they are all of these. -/
private theorem eq_nil_of_lambdaParams (hm : Matches language (.node (.one .lambdaParams)) (us ++ vs))
    (hv : Matches language (.node (.one .lambdaParams)) vs) : us = [] := by
  have hne : vs ≠ [] := hv.ne_nil language_lawful fun _ hs ↦ by cases hs; exact inner_of_ne (by decide)
  have h0 : Token.height Kind.nest us = 0 := by
    have hwhole := (even_of_matches nest_levels hm).closed
    rwa [Token.height_append, (even_of_matches nest_levels hv).closed, Int.add_zero] at hwhole
  obtain ⟨v, vs, rfl⟩ := List.exists_cons_of_ne_nil hne
  rcases lambdaParams_cases hm with ⟨t, heq⟩ | ⟨l, ms, r, heq, hl, heven⟩
  · rcases List.append_eq_singleton_iff.mp heq with ⟨rfl, -⟩ | ⟨-, hnil⟩
    · rfl
    · cases hnil
  · exact heven.eq_nil_of_bracketed (r := r) (u := v) (by rw [hl]; decide) ⟨vs, by rw [← heq]; simp⟩ h0

/-- An arrow outside brackets has the parameters of a lambda before it. -/
private theorem exists_params {a : Token} (ha : a.kind = .mark .arrow) {h : Head Category}
    (hh : h.category ≠ .compilationUnit) (hm : Matches language (.node h) (us ++ a :: vs))
    (h0 : Token.height Kind.nest us = 0) : ∃ pre params, us = pre ++ params ∧
      Matches language (.node (.one .lambdaParams)) params ∧
      ∀ fs, beginsWithin fs = true → h.category ∈ fs → pre = [] → .lambda ∈ fs := by
  have hall : encloses Kind.nest (Category.all.erase .compilationUnit) [] = true := by decide
  have hmem : h.category ∈ Category.all.erase .compilationUnit :=
    (List.mem_erase_of_ne hh).mpr h.category.mem_all
  obtain @⟨c, p, e, pre, mid, after, post, -, hp, hlies, hsymbol, hstart⟩ :=
    Token.found nest_levels hall (by decide) hmem hm h0
  obtain hsymbol | ⟨_, -, hstop⟩ := hsymbol
  · obtain @⟨front, back, before, left, right, after, hes, -, hfront, hhere, -, -⟩ := hlies
    rw [ha] at hsymbol
    obtain rfl := lambda_of_arrow c c.mem_all p hp e (by rw [hes]; simp) hsymbol
    rw [hsymbol] at hhere
    obtain ⟨_, -, hsingle⟩ := matches_tok.mp hhere
    obtain rfl : left = [] := by
      rcases List.append_eq_singleton_iff.mp hsingle with ⟨h, -⟩ | ⟨-, h⟩
      · exact h
      · cases h
    have hfront' : front = [Category.a .lambdaParams] := by
      simp only [Category.rules, List.mem_cons, List.not_mem_nil, or_false] at hp
      rcases hp with rfl | rfl
      all_goals
        rcases front with _ | ⟨f, _ | ⟨g, _ | ⟨x, front⟩⟩⟩ <;> simp at hes
        · rw [← hes.1] at hsymbol; cases hsymbol
        · rw [hes.1]
        · rw [← hes.2.2.1] at hsymbol; cases hsymbol
    subst hfront'
    obtain ⟨params, ws, rfl, hparams, hws⟩ := spans_need.mp (spans_iff_covers.mpr hfront)
    obtain rfl := spans_nil.mp hws
    exact ⟨pre, params, by simp, hparams, hstart⟩
  · cases hstop

/-- A lambda is no assignment, nor any other expression without a lambda as a whole. -/
theorem not_assignment_of_lambda (hm : Matches language (.node (.one .lambda)) ts) :
    ¬ Matches language (.node (.one .assignment)) ts := by
  intro hassign
  obtain ⟨p, hp, hs⟩ := matches_node.mp hm
  have hcut : ∃ params a body, ts = params ++ a :: body ∧ a.kind = .mark .arrow ∧
      Matches language (.node (.one .lambdaParams)) params := by
    simp only [productions, language, Category.rules, List.mem_cons, List.not_mem_nil, or_false] at hp
    rcases hp with rfl | rfl
    all_goals
      obtain ⟨params, ws, rfl, hparams, hs⟩ := spans_need.mp hs
      obtain ⟨a, ws, rfl, ha, -⟩ := spans_need_tok.mp hs
      exact ⟨params, a, ws, rfl, ha, hparams⟩
  obtain ⟨params, a, body, rfl, ha, hparams⟩ := hcut
  obtain ⟨pre, params', rfl, hparams', hstart⟩ := exists_params ha (by decide) hassign
    (even_of_matches nest_levels hparams).closed
  have hmem := hstart beginning beginning_within (by decide) (eq_nil_of_lambdaParams hparams hparams')
  exact absurd hmem (by decide)

/-! ### Question marks -/

/-- Whether tokens of a kind stand among some elements only at the beginning of these or right behind
tokens of some other kinds. -/
private def guarded (k : Kind) (ks : List Kind) : List (Element Category) → Bool
  | [] => true
  | .need (.tok l) :: es => (ks.contains l || !language.elementsMayStart k es) && guarded k ks es
  | _ :: es => !language.elementsMayStart k es && guarded k ks es

/-- Nothing stands before a token, or a token of one of some kinds right before it. -/
private def Behind (ks : List Kind) (us : List Token) : Prop :=
  us = [] ∨ ∃ x, us.getLast? = some x ∧ x.kind ∈ ks

private theorem Behind.append {ks : List Kind} (h : Behind ks vs) (hne : vs ≠ []) :
    Behind ks (us ++ vs) := by
  obtain ⟨x, hx, hk⟩ := h.resolve_left hne
  exact .inr ⟨x, by rw [List.getLast?_append_of_ne_nil _ hne, hx], hk⟩

private theorem behind_of_covers {k : Kind} {ks : List Kind} {es : List (Element Category)}
    (hin : ∀ e ∈ es, ∀ h, e.symbol = .node h → Inner language h) (hg : guarded k ks es = true)
    (ht : t.kind = k) (hc : Covers (fun s ts ↦ Matches language s ts ∧
      ∀ us vs, ts = us ++ t :: vs → Behind ks us) es (us ++ t :: vs)) : Behind ks us := by
  induction es generalizing us with
  | nil => cases (List.append_eq_nil_iff.mp hc).2
  | cons e es ih =>
    have hin' : ∀ f ∈ es, ∀ h, f.symbol = .node h → Inner language h :=
      fun f hf ↦ hin f (List.mem_cons_of_mem e hf)
    have htail : guarded k ks es = true ∧ (language.elementsMayStart k es = true →
        ∃ l ∈ ks, e.symbol = .tok l) := by
      rcases e with (l | h) | s | c
      all_goals simp only [guarded, Bool.and_eq_true, Bool.or_eq_true, Bool.not_eq_true'] at hg
      · refine ⟨hg.2, fun hstart ↦ ⟨l, ?_, rfl⟩⟩
        exact List.contains_iff_mem.mp (hg.1.resolve_right (by rw [hstart]; exact Bool.noConfusion))
      all_goals exact ⟨hg.2, fun hstart ↦ absurd hstart (by rw [hg.1]; exact Bool.noConfusion)⟩
    rcases hc with ⟨xs, ys, heq, ⟨hm, hx⟩, hc⟩ | ⟨-, hc⟩
    · have hbehind : ∀ zs, us = xs ++ zs → ys = zs ++ t :: vs → Behind ks us := by
        rintro zs rfl rfl
        by_cases hzs : zs = []
        · -- The token begins what follows, so a token stands right before it.
          subst hzs
          have hspans : Spans language es (t :: vs) :=
            spans_iff_covers.mpr (hc.mono fun _ _ _ h ↦ h.1)
          obtain ⟨l, hl, hs⟩ := htail.2 (ht ▸ hspans.elementsMayStart language_lawful hin')
          rw [hs] at hm
          obtain ⟨x, hxl, rfl⟩ := matches_tok.mp hm
          exact .inr ⟨x, rfl, hxl ▸ hl⟩
        · exact (ih hin' htail.1 hc).append hzs
      rcases List.append_eq_append_iff.mp heq with ⟨zs, rfl, hz⟩ | ⟨zs, hus, hys⟩
      · cases zs with
        | nil => exact hbehind [] (by simp) hz.symm
        | cons z zs =>
          obtain ⟨rfl, rfl⟩ := List.cons.inj hz
          exact hx us zs rfl
      · exact hbehind zs hus hys
    · exact ih hin' htail.1 hc

/-- Whether a head is about one of some categories, and about no run of one that begins with a token of
a kind. -/
private def scarce (k : Kind) (cs : List Category) (h : Head Category) : Bool :=
  cs.contains h.category &&
    match h with
    | .one _ => true
    | .run c => !language.mayStart c k

/-- Whether tokens of a kind stand in texts of some categories only first or right behind tokens of some
other kinds. -/
private def guards (k : Kind) (ks : List Kind) (cs : List Category) : Bool :=
  cs.all fun c ↦ c != .compilationUnit && (Category.rules c).all fun p ↦ guarded k ks p.elements &&
    p.elements.all fun e ↦ match e.symbol with
      | .tok _ => true
      | .node h => scarce k cs h

private theorem guards_production {k : Kind} {ks : List Kind} {cs : List Category}
    (hg : guards k ks cs = true) {h : Head Category} (hh : scarce k cs h = true) :
    Inner language h ∧ ∀ p ∈ language.productions h, guarded k ks p.elements = true ∧
      ∀ e ∈ p.elements, ∀ h', e.symbol = .node h' → scarce k cs h' = true := by
  have hcategory : h.category ∈ cs := List.contains_iff_mem.mp (Bool.and_eq_true_iff.mp hh).1
  obtain ⟨hne, hall⟩ := Bool.and_eq_true_iff.mp (List.all_eq_true.mp hg _ hcategory)
  cases h with
  | one c =>
    refine ⟨bne_iff_ne.mp hne, fun p hp ↦ ?_⟩
    obtain ⟨hp, hes⟩ := Bool.and_eq_true_iff.mp (List.all_eq_true.mp hall p hp)
    refine ⟨hp, fun e he h' hs ↦ ?_⟩
    have := List.all_eq_true.mp hes e he
    rwa [hs] at this
  | run c =>
    have hstart : language.mayStart c k = false := by
      simpa using (Bool.and_eq_true_iff.mp hh).2
    have hone : scarce k cs (.one c) = true := by
      simpa [scarce, Head.category] using hcategory
    refine ⟨bne_iff_ne.mp hne, fun p hp ↦ ?_⟩
    simp only [productions, List.mem_cons, List.not_mem_nil, or_false] at hp
    rcases hp with rfl | rfl
    · simp [guarded, elementsMayStart, Element.symbol, hone]
    · simp [guarded, elementsMayStart, symbolMayStart, Element.symbol, Element.optional, hstart, hone,
        hh]

private theorem behind_of_guards {k : Kind} {ks : List Kind} {cs : List Category}
    (hg : guards k ks cs = true) {h : Head Category} (hh : scarce k cs h = true)
    (hm : Matches language (.node h) (us ++ t :: vs)) (ht : t.kind = k) : Behind ks us := by
  refine Matches.induction (g := language)
    (P := fun s ts ↦ (∀ h, s = .node h → scarce k cs h = true) → ∀ us vs, ts = us ++ t :: vs →
      Behind ks us)
    (fun x _ us vs heq ↦ ?_) (fun h p ts hp hc hs us vs heq ↦ ?_) hm
    (fun _ hs ↦ by cases hs; exact hh) us vs rfl
  · rcases List.append_eq_singleton_iff.mp heq.symm with ⟨rfl, -⟩ | ⟨-, hnil⟩
    · exact .inl rfl
    · cases hnil
  · subst heq
    obtain ⟨hin, hproductions⟩ := guards_production hg (hs h rfl)
    obtain ⟨hp', hparts⟩ := hproductions p hp
    exact behind_of_covers (fun e he h' hs ↦ language_lawful.inner (.inr hin) hp he hs) hp' ht
      (hc.mono fun e he us hu ↦ ⟨hu.1, hu.2 fun h' hs ↦ hparts e he h' hs⟩)

private theorem types_question :
    guards (.mark .question) [.mark .less, .mark .comma] types = true := by
  decide

private theorem types_name : guards .name
    [.mark .less, .mark .comma, .mark .dot, .word .extends, .word .super] types = true := by
  decide

/-- No type begins with two names. -/
theorem not_type_of_names {x : Token} (ht : t.kind = .name) (hx : x.kind = .name) :
    ¬ Matches language (.node (.one .type)) (t :: x :: ts) := by
  intro (hm : Matches language (.node (.one .type)) ([t] ++ x :: ts))
  have hbehind := behind_of_guards types_name (by decide) hm hx
  obtain ⟨y, hy, hk⟩ := hbehind.resolve_left (List.cons_ne_nil t [])
  obtain rfl : t = y := Option.some.inj hy
  rw [ht] at hk
  exact absurd hk (by decide)

/-! ### Signs of assignment -/

private theorem primaries_encloses : encloses Kind.nest primaries [.typeArgs] = true := by
  decide

private theorem primaries_shows : shows Kind.nest primaries
    (fun k ↦ k != .mark .arrow && k != .mark .question) = true := by
  decide

private theorem operations_encloses : encloses Kind.nest operations [.expr, .typeArgs] = true := by
  decide

private theorem operations_shows : shows Kind.nest operations
    (fun k ↦ !language.mayStart .assignOp k) = true := by
  decide

private theorem around_expr : ∀ c ∈ operations, ∀ p ∈ Category.rules c,
    .node (.one .expr) ∈ surface Kind.nest 0 p.elements ∨
      .node (.run .expr) ∈ surface Kind.nest 0 p.elements → c = .conditional ∨ c = .lambda := by
  decide

/-- What stands outside brackets before an expression in the middle of another one. -/
private theorem exists_sign {c : Category} (hc : c ∈ operations)
    {p : Production Category.Value c.Value} (hp : p ∈ c.rules) {e : Element Category}
    (hl : Token.Lies (Matches language) Kind.nest 0 p.elements e t us vs) {h : Head Category}
    (hs : e.symbol = .node h) (hh : h.category = .expr) : ∃ before sign left,
      us = before ++ sign :: left ∧ Token.height Kind.nest left = 0 ∧
        (sign.kind = .mark .arrow ∨
          sign.kind = .mark .question ∧ Matches language (.node (.one .logicOr)) before) := by
  obtain @⟨front, back, before, left, right, after, hes, hsurface, hfront, -, -, hflat⟩ := hl
  have hcases : c = .conditional ∨ c = .lambda := by
    rw [hs] at hsurface
    cases h with
    | one d =>
      obtain rfl : d = .expr := hh
      exact around_expr c hc p hp (.inl hsurface)
    | run d =>
      obtain rfl : d = .expr := hh
      exact around_expr c hc p hp (.inr hsurface)
  have hsign : front = [Category.a .logicOr, Category.mark .question] ∨
      front = [Category.a .lambdaParams, Category.mark .arrow] := by
    have hexpr : e.symbol = .node (.one .expr) ∨ e.symbol = .node (.run .expr) := by
      cases h <;> cases hh
      · exact .inl hs
      · exact .inr hs
    rcases hcases with rfl | rfl
    all_goals
      simp only [Category.rules, Category.pass, List.mem_cons, List.not_mem_nil, or_false] at hp
    · rcases hp with rfl | rfl | rfl
      all_goals
        rcases front with _ | ⟨f, _ | ⟨g, _ | ⟨x, _ | ⟨y, _ | ⟨z, front⟩⟩⟩⟩⟩ <;>
          simp at hes <;> grind [Element.symbol]
    · rcases hp with rfl | rfl
      all_goals
        rcases front with _ | ⟨f, _ | ⟨g, _ | ⟨x, front⟩⟩⟩ <;> simp at hes <;> grind [Element.symbol]
  rcases hsign with rfl | rfl
  all_goals
    obtain ⟨xs, ws, rfl, hx, hs⟩ := spans_need.mp (spans_iff_covers.mpr hfront)
    obtain ⟨sign, ws, rfl, hsign, hs⟩ := spans_need_tok.mp hs
    obtain rfl := spans_nil.mp hs
    refine ⟨xs, sign, left, by simp, hflat, ?_⟩
  · exact .inr ⟨hsign, hx⟩
  · exact .inl hsign

/-- An arrow or a question mark outside brackets of an expression without operators stands in type
arguments. -/
private theorem exists_typeArgs (hm : Matches language (.node (.one .primary)) (us ++ t :: vs))
    (h0 : Token.height Kind.nest us = 0) (ht : t.kind = .mark .arrow ∨ t.kind = .mark .question) :
    ∃ pre left right h, us = pre ++ left ∧ h.category = .typeArgs ∧
      Matches language (.node h) (left ++ t :: right) := by
  obtain ⟨_, -, _, -, e, h, pre, _, _, _, rfl, -, hlies, hs, hh⟩ :=
    (Token.found nest_levels primaries_encloses (by decide) (h := .one .primary) (by decide) hm
      h0).exists_stop primaries_shows (by rcases ht with ht | ht <;> rw [ht] <;> rfl)
  obtain ⟨-, -, -, hhere, -, -⟩ := hlies
  rw [hs] at hhere
  exact ⟨_, _, _, h, (List.append_assoc _ _ _).symm, List.mem_singleton.mp hh, hhere⟩

private theorem avoids_comma : avoids Category.all (.mark .comma) = true := by decide

private theorem avoids_less : avoids (Category.all.erase .relationalOp) (.mark .less) = true := by
  decide

/-- Neither an arrow nor the sign of a condition stands outside brackets of an expression without
operators. -/
private theorem not_sign {before : List Token} {sign : Token}
    (hm : Matches language (.node (.one .primary)) (us ++ (before ++ sign :: vs)))
    (h0 : Token.height Kind.nest (us ++ before) = 0)
    (hsign : sign.kind = .mark .arrow ∨
      sign.kind = .mark .question ∧ Matches language (.node (.one .logicOr)) before) : False := by
  rw [← List.append_assoc] at hm
  obtain ⟨pre, left, right, h, heq, hh, htype⟩ := exists_typeArgs hm h0 (hsign.imp_right And.left)
  have hin : Inner language h := by
    cases h with
    | one c | run c => exact fun hc : c = .compilationUnit ↦ absurd (hc ▸ hh) (by decide)
  rcases hsign with hsign | ⟨hsign, hcondition⟩
  · have hkind := kind_of_types (hh ▸ by decide) htype (t := sign) (by simp)
    exact absurd (hsign ▸ hkind) (by decide)
  · -- A question mark stands behind a bracket or a comma there, and no condition ends with one.
    have hscarce : scarce (.mark .question) types h = true := by cases h <;> cases hh <;> decide
    have hne : left ≠ [] := by
      rintro rfl
      have hstart := htype.symbolMayStart language_lawful fun _ hs ↦ .inr (by cases hs; exact hin)
      rw [hsign] at hstart
      exact absurd hstart (by cases h <;> cases hh <;> decide)
    obtain ⟨x, hx, hk⟩ := (behind_of_guards types_question hscarce htype hsign).resolve_left hne
    have hbefore : before ≠ [] := hcondition.ne_nil language_lawful
      fun _ hs ↦ by cases hs; exact inner_of_ne (by decide)
    have hlast : before.getLast? = some x := by
      have := congrArg List.getLast? heq
      rwa [List.getLast?_append_of_ne_nil _ hbefore, List.getLast?_append_of_ne_nil _ hne, hx] at this
    have hinner : Inner language (.one .logicOr) := inner_of_ne (by decide)
    simp only [List.mem_cons, List.not_mem_nil, or_false] at hk
    rcases hk with hk | hk
    · exact last_ne_of_avoids avoids_less hinner (by decide) hcondition hlast hk
    · exact last_ne_of_avoids avoids_comma hinner (by decide) hcondition hlast hk

/-- An assignment is no conditional expression. -/
theorem not_conditional_of_assign (hm : Matches language (.node (.one .assign)) ts) :
    ¬ Matches language (.node (.one .conditional)) ts := by
  intro hcond
  obtain ⟨p, hp, hs⟩ := matches_node.mp hm
  obtain rfl := List.mem_singleton.mp hp
  obtain ⟨target, ws, rfl, htarget, hs⟩ := spans_need.mp hs
  obtain ⟨os, value, rfl, hop, -⟩ := spans_need.mp hs
  have hprimary : Matches language (.node (.one .primary)) target := by
    obtain ⟨q, hq, hs⟩ := matches_node.mp htarget
    simp only [productions, language, Category.rules, Category.pass, List.mem_cons,
      List.not_mem_nil, or_false] at hq
    rcases hq with rfl | rfl | rfl | rfl
    all_goals
      obtain ⟨us, ws, rfl, hpart, hnil⟩ := spans_need.mp hs
      obtain rfl := spans_nil.mp hnil
      rw [List.append_nil]
      refine matches_of_lifts (n := 1) ?_ hpart
      decide
  obtain ⟨o, os, rfl⟩ := List.exists_cons_of_ne_nil <| hop.ne_nil language_lawful
    fun _ hs ↦ by cases hs; exact inner_of_ne (by decide)
  have hstart : language.mayStart .assignOp o.kind = true := hop.symbolMayStart language_lawful
    fun _ hs ↦ .inr (by cases hs; exact inner_of_ne (by decide))
  have hflat := (even_of_matches nest_levels htarget).closed
  obtain ⟨c, hc, p, hp, e, h, pre, mid, after, post, heq, -, hlies, hs, hstop⟩ :=
    (Token.found nest_levels operations_encloses (by decide) (h := .one .conditional) (by decide)
      hcond hflat).exists_stop operations_shows (by rw [hstart]; rfl)
  have hcategory : h.category = .expr ∨ h.category = .typeArgs := by simpa using hstop
  rcases hcategory with hh | hh
  · obtain ⟨before, sign, left, rfl, hleft, hsign⟩ := exists_sign hc hp hlies hs hh
    subst heq
    refine not_sign hprimary ?_ hsign
    have hzero : sign.kind.nest = 0 := by
      rcases hsign with hk | ⟨hk, -⟩ <;> rw [hk] <;> rfl
    simpa [hleft, hzero] using hflat
  · obtain ⟨-, -, -, hhere, -, -⟩ := hlies
    rw [hs] at hhere
    have hkind := kind_of_types (hh ▸ by decide) hhere (t := o) (by simp)
    have hno : ∀ k ∈ Kind.ofTypes, language.mayStart .assignOp k = false := by decide
    rw [hno _ hkind] at hstart
    cases hstart

/-! ### Commas -/

private theorem expressions_encloses : encloses Kind.nest expressions [.typeArgs] = true := by
  decide

private theorem expressions_shows : shows Kind.nest expressions (fun k ↦ k != .mark .comma) = true := by
  decide

private theorem no_run_typeArgs : ∀ c ∈ Category.all, ∀ p ∈ Category.rules c, ∀ e ∈ p.elements,
    e.symbol ≠ .node (.run .typeArgs) := by
  decide +kernel

/-- Type arguments end with the bracket that closes them, and what stands before it belongs to
types. -/
private theorem typeArgs_cut (hm : Matches language (.node (.one .typeArgs)) (us ++ t :: vs))
    (ht : t.kind = .mark .comma) : ∃ xs m, vs = xs ++ [m] ∧ m.kind = .mark .more ∧
      ∀ x ∈ xs, x.kind ∈ Kind.ofTypes := by
  have hkinds : ∀ x ∈ us ++ t :: vs, x.kind ∈ Kind.ofTypes :=
    fun x hx ↦ kind_of_types (h := .one .typeArgs) (by decide) hm hx
  obtain ⟨p, hp, hs⟩ := matches_node.mp hm
  obtain rfl := List.mem_singleton.mp hp
  have hs : Spans language ([Category.mark .less, Category.a? .typeArgList] ++ [Category.mark .more])
      (us ++ t :: vs) := hs
  obtain ⟨front, ws, heq, -, hs⟩ := spans_append.mp hs
  obtain ⟨m, ws, rfl, hmore, hnil⟩ := spans_need_tok.mp hs
  obtain rfl := spans_nil.mp hnil
  rcases List.eq_nil_or_concat vs with rfl | ⟨xs, x, rfl⟩
  · obtain ⟨-, hsame⟩ := List.append_inj' heq rfl
    rw [(List.cons.inj hsame).1, hmore] at ht
    cases ht
  · have hends : us ++ t :: xs ++ [x] = front ++ [m] := by simpa using heq
    obtain ⟨-, hsame⟩ := List.append_inj' hends rfl
    obtain rfl := (List.cons.inj hsame).1
    exact ⟨xs, x, List.concat_eq_append, hmore, fun y hy ↦ hkinds y (by simp [hy])⟩

/-- A comma outside brackets of an expression stands in type arguments: a closing angle bracket comes
behind it, with nothing between but tokens of types. -/
theorem exists_more_of_comma {h : Head Category} (hh : h.category ∈ expressions)
    (hm : Matches language (.node h) (us ++ t :: vs)) (h0 : Token.height Kind.nest us = 0)
    (ht : t.kind = .mark .comma) : ∃ xs m ys, vs = xs ++ m :: ys ∧ m.kind = .mark .more ∧
      ∀ x ∈ xs, x.kind ∈ Kind.ofTypes := by
  obtain ⟨_, -, _, hp, e, h', pre, mid, after, post, -, rfl, hlies, hs, hstop⟩ :=
    (Token.found nest_levels expressions_encloses (by decide) hh hm h0).exists_stop
      expressions_shows (by rw [ht]; rfl)
  obtain @⟨_, _, _, left, right, behind, hes, -, -, hhere, -, -⟩ := hlies
  cases h' with
  | run c =>
    obtain rfl : c = .typeArgs := List.mem_singleton.mp hstop
    exact absurd hs (no_run_typeArgs _ (Category.mem_all _) _ hp e (by rw [hes]; simp))
  | one c =>
    obtain rfl : c = .typeArgs := List.mem_singleton.mp hstop
    rw [hs] at hhere
    obtain ⟨xs, m, rfl, hmore, hxs⟩ := typeArgs_cut hhere ht
    exact ⟨xs, m, behind ++ post, by simp, hmore, hxs⟩

private theorem declarators_encloses :
    encloses (fun _ ↦ 0) [.commaDeclarator, .declarator, .dim] [.initPart] = true := by
  decide

private theorem declarators_shows :
    shows (fun _ ↦ 0) [.commaDeclarator, .declarator, .dim] (fun k ↦ k != .mark .more) = true := by
  decide

/-- In what declares further variables, a closing angle bracket has a sign of assignment before it. -/
private theorem exists_assign
    (hm : Matches language (.node (.run .commaDeclarator)) (us ++ t :: vs))
    (ht : t.kind = .mark .more) : ∃ x ∈ us, x.kind = .mark .assign := by
  obtain ⟨_, -, _, -, _, h', _, _, _, _, rfl, -, hlies, hs, hstop⟩ :=
    (Token.found flat_levels declarators_encloses (by decide) (h := .run .commaDeclarator) (by decide)
      hm (height_flat us)).exists_stop declarators_shows (by rw [ht]; rfl)
  obtain @⟨_, _, _, left, _, _, -, -, -, hhere, -, -⟩ := hlies
  rw [hs] at hhere
  have hinit : h'.category = .initPart := List.mem_singleton.mp hstop
  have hstarts : ∀ k ∈ Kind.all, language.mayStart .initPart k = true → k = .mark .assign := by decide
  have hfirst : ∀ x xs, left ++ t :: _ = x :: xs → x.kind = .mark .assign := fun x xs heq ↦ by
    rw [heq] at hhere
    have hstart := hhere.symbolMayStart language_lawful fun _ hs ↦ .inr (by
      cases hs
      cases h' <;> exact fun hc ↦ absurd (hinit.symm.trans hc) (by decide))
    cases h' <;> exact hstarts _ x.kind.mem_all (hinit ▸ hstart)
  cases left with
  | nil =>
    have := hfirst t _ rfl
    rw [ht] at this
    cases this
  | cons x left => exact ⟨x, by simp, hfirst x _ rfl⟩

/-- A variable with an initial value is not declared as several ones. -/
theorem not_declarators {x sign : Token} (hx : x.kind = .name) (hsign : sign.kind = .mark .assign)
    (hm : Matches language (.node (.one .expr)) ts) (heq : x :: sign :: ts = us ++ vs)
    (hu : Matches language (.node (.one .declarator)) us) :
    ¬ Matches language (.node (.run .commaDeclarator)) vs := by
  intro hv
  have hin : Inner language (.run .commaDeclarator) :=
    (by decide : Category.commaDeclarator ≠ .compilationUnit)
  obtain ⟨c, vs, rfl⟩ := List.exists_cons_of_ne_nil <|
    hv.ne_nil language_lawful fun _ hs ↦ by cases hs; exact hin
  have hcomma : c.kind = .mark .comma := by
    have hstarts : ∀ k ∈ Kind.all, language.mayStart .commaDeclarator k = true → k = .mark .comma := by
      decide
    exact hstarts _ c.kind.mem_all <|
      hv.symbolMayStart language_lawful fun _ hs ↦ .inr (by cases hs; exact hin)
  have hflat := (even_of_matches nest_levels hu).closed
  -- The comma is in the initial value.
  rcases us with _ | ⟨y, _ | ⟨z, us⟩⟩
  · obtain ⟨rfl, -⟩ := List.cons.inj heq
    rw [hx] at hcomma
    cases hcomma
  · obtain ⟨rfl, -⟩ := List.cons.inj (List.cons.inj heq).2
    rw [hsign] at hcomma
    cases hcomma
  · obtain ⟨rfl, htail⟩ := List.cons.inj heq
    obtain ⟨rfl, rfl⟩ := List.cons.inj htail
    obtain ⟨xs, m, ys, rfl, hmore, hxs⟩ := exists_more_of_comma (h := .one .expr) (by decide) hm
      (by simpa [hx, hsign, Kind.nest, Kind.rise] using hflat) hcomma
    have hrun : Matches language (.node (.run .commaDeclarator)) ((c :: xs) ++ m :: ys) := hv
    obtain ⟨a, ha, hassign⟩ := exists_assign hrun hmore
    rcases List.mem_cons.mp ha with rfl | ha
    · rw [hcomma] at hassign
      cases hassign
    · exact absurd (hassign ▸ hxs a ha) (by decide)

end GuardLint.Syntax
