import GuardLint.Proofs.Syntax.Surface
import GuardLint.Proofs.Syntax.Throw

/-!
# What a conditional throw is read as

The statement that a conditional throw is read as, and the expressions that stand in it: a negated
condition in parentheses, and a new exception with its arguments.
-/

namespace GuardLint.Syntax

open Grammar

variable {ts us ws : List Token}

/-! ### Parts of known productions -/

theorem parts_tok {k : Kind} {es : List (Element Category)} {t : Token}
    {vs : Values Category.Value es} :
    Parts (Reads language) (.need (.tok k) :: es) ts (t, vs) ↔
      ∃ ws, ts = t :: ws ∧ t.kind = k ∧ Parts (Reads language) es ws vs := by
  rw [parts_need]
  constructor
  · rintro ⟨us, ws, rfl, hr, hp⟩
    exact ⟨ws, by rw [hr.tok_eq]; rfl, hr.tok_kind, hp⟩
  · rintro ⟨ws, rfl, rfl, hp⟩
    exact ⟨[t], ws, rfl, .tok t, hp⟩

/-- What is read is read by a production that may begin with the first token. -/
theorem exists_starting {c : Category} {t : Token} {v : c.Value}
    (hr : Reads language (.node (.one c)) (t :: ts) v) :
    ∃ p ∈ c.rules, ∃ vs, v = p.value (Token.cover (t :: ts)) vs ∧
      Parts (Reads language) p.elements (t :: ts) vs ∧
        language.elementsMayStart t.kind p.elements = true := by
  obtain ⟨p, hp, vs, rfl, hparts⟩ := hr.node_inv
  have hh : Head.one c = .one language.start ∨ Inner language (.one c) := by
    by_cases hc : c = language.start
    · exact .inl (congrArg Head.one hc)
    · exact .inr hc
  have hs : Spans language p.elements (t :: ts) :=
    ⟨vs, derivesAll_iff_parts.mpr (hparts.mono fun _ _ _ _ h ↦ h.derives)⟩
  exact ⟨p, hp, vs, rfl, hparts, hs.elementsMayStart language_lawful
    fun e he h hs ↦ language_lawful.inner hh hp he hs⟩

private theorem ne_nil_of_reads {c : Category} (hc : c ≠ .compilationUnit) {v : c.Value}
    (hr : Reads language (.node (.one c)) ts v) : ts ≠ [] :=
  hr.matches.ne_nil language_lawful fun _ hs ↦ by cases hs; exact inner_of_ne hc

private theorem maybe_nil {c : Category} (hc : c ≠ .compilationUnit) {es : List (Element Category)}
    {v : Option c.Value} {vs : Values Category.Value es}
    (h : Parts (Reads language) (.maybe (.node (.one c)) :: es) [] (v, vs)) : v = none := by
  rcases parts_maybe.mp h with ⟨us, ws, x, hnil, hx, -, -⟩ | ⟨rfl, -⟩
  · obtain ⟨rfl, -⟩ := List.append_eq_nil_iff.mp hnil.symm
    exact absurd rfl (ne_nil_of_reads hc hx)
  · rfl

private theorem many_nil {c : Category} (hc : c ≠ .compilationUnit) {es : List (Element Category)}
    {v : List c.Value} {vs : Values Category.Value es}
    (h : Parts (Reads language) (.many c :: es) [] (v, vs)) : v = [] := by
  rcases parts_many.mp h with ⟨us, ws, hnil, hx, -⟩ | ⟨rfl, -⟩
  · obtain ⟨rfl, -⟩ := List.append_eq_nil_iff.mp hnil.symm
    exact absurd rfl (hx.matches.ne_nil language_lawful fun _ hs ↦ by cases hs; exact hc)
  · rfl

/-! ### The statement -/

private theorem reads_throwStmt {t s : Token} {v : Stmt} (ht : t.kind = .word .throw)
    (hs : s.kind = .mark .semicolon) (hm : Matches language (.node (.one .expr)) ts)
    (hr : Reads language (.node (.one .statement)) (t :: us) v) (h : us ++ ws = ts ++ [s]) :
    ws = [] ∧ ∃ l e, v = .throwStmt l e ∧ Reads language (.node (.one .expr)) ts e := by
  obtain ⟨p, hp, vs, rfl, hparts, hstart⟩ := exists_starting hr
  rw [ht] at hstart
  simp only [Category.rules, List.mem_cons, List.not_mem_nil, or_false] at hp
  rcases hp with rfl | rfl | rfl | rfl | rfl | rfl | rfl | rfl | rfl | rfl | rfl | rfl | rfl |
    rfl | rfl | rfl | rfl
  all_goals try exact absurd hstart (by decide)
  obtain ⟨t', e, s', _⟩ := vs
  obtain ⟨zs, heq, -, hparts⟩ := parts_tok.mp hparts
  obtain ⟨xs, zs, rfl, he, hparts⟩ := parts_need.mp hparts
  obtain ⟨zs, rfl, hs', hnil⟩ := parts_tok.mp hparts
  obtain rfl := parts_nil.mp hnil
  obtain rfl := (List.cons.inj heq).2
  rw [List.append_assoc, List.singleton_append] at h
  -- What is thrown ends with the first semicolon outside brackets.
  obtain ⟨rfl, -, hws⟩ := Token.Fenced.unique (balanced_of_matches he.matches)
    (balanced_of_matches hm) (fenced_of_matches (by decide) he.matches)
    (fenced_of_matches (by decide) hm) hs' hs h
  exact ⟨hws, _, e, rfl, he⟩

/-- A statement that begins with `if` has the tokens in the parentheses behind the word as its
condition. -/
theorem reads_if {i l r : Token} {v : Stmt} (hi : i.kind = .word .if) (hts : Token.Balanced ts)
    (hr : r.kind = .mark .rightParen)
    (hv : Reads language (.node (.one .statement)) (i :: l :: (ts ++ r :: us)) v) :
    ∃ branch rest c s other, us = branch ++ rest ∧
      v = .ifElse (Token.cover (i :: l :: (ts ++ r :: us))) c s other ∧
      Reads language (.node (.one .expr)) ts c ∧ Reads language (.node (.one .statement)) branch s ∧
      Parts (Reads language) [Category.a? .elsePart] rest (other, ⟨⟩) := by
  obtain ⟨p, hp, vs, rfl, hparts, hstart⟩ := exists_starting hv
  rw [hi] at hstart
  simp only [Category.rules, List.mem_cons, List.not_mem_nil, or_false] at hp
  rcases hp with rfl | rfl | rfl | rfl | rfl | rfl | rfl | rfl | rfl | rfl | rfl | rfl | rfl |
    rfl | rfl | rfl | rfl
  all_goals try exact absurd hstart (by decide)
  obtain ⟨i', l', c, r', s, other, _⟩ := vs
  obtain ⟨xs, h1, -, hparts⟩ := parts_tok.mp hparts
  obtain ⟨ys, rfl, -, hparts⟩ := parts_tok.mp hparts
  obtain ⟨cs, zs, rfl, hc, hparts⟩ := parts_need.mp hparts
  obtain ⟨zs, rfl, hclose, hparts⟩ := parts_tok.mp hparts
  obtain ⟨branch, rest, rfl, hs, helse⟩ := parts_need.mp hparts
  have h2 := (List.cons.inj (List.cons.inj h1).2).2
  -- The condition ends with the parenthesis that closes.
  obtain ⟨rfl, -, rfl⟩ := Token.Balanced.unique (balanced_of_matches hc.matches) hts
    (by rw [hclose]; decide) (by rw [hr]; decide) h2.symm
  exact ⟨branch, rest, c, s, other, rfl, rfl, hc, hs, helse⟩

/-- A conditional throw is read as an `if` without `else` part whose branch throws. -/
theorem Throw.reads (g : Throw) {v : Stmt}
    (hr : Reads language (.node (.one .statement)) g.tokens v) :
    ∃ c l e, v = .ifElse (Token.cover g.tokens) c (.throwStmt l e) none ∧
      Reads language (.node (.one .expr)) g.condition c ∧
      Reads language (.node (.one .expr)) g.thrown e := by
  obtain ⟨branch, rest, c, s, other, heq, rfl, hc, hs, helse⟩ := reads_if g.word_kind
    (balanced_of_matches g.condition_matches) g.closing_kind hr
  obtain ⟨t, branch, rfl⟩ := List.exists_cons_of_ne_nil (ne_nil_of_reads (by decide) hs)
  obtain ⟨rfl, h4⟩ := List.cons.inj heq.symm
  obtain ⟨rfl, l, e, rfl, he⟩ := reads_throwStmt g.throw_kind g.semicolon_kind g.thrown_matches hs h4
  obtain rfl := maybe_nil (by decide) helse
  exact ⟨c, l, e, rfl, hc, he⟩

/-! ### Conditions and exceptions -/

/-- The tokens between two parentheses are no tokens outside brackets. -/
private theorem eq_nil_of_bracketed {l r : Token} (hl : l.kind = .mark .leftParen)
    (hts : Token.Balanced ts) {us : List Token} {u : Token} (hu : us ++ [u] <+: l :: (ts ++ [r]))
    (hd : Token.depth us = 0) : us = [] :=
  Token.Even.eq_nil_of_bracketed (w := Kind.rise) ⟨hts.low, hts.closed⟩ (by rw [hl]; decide) hu hd

private theorem surfaces_paren {l r : Token} (hl : l.kind = .mark .leftParen)
    (hts : Token.Balanced ts) : Token.Surfaces (.mark .leftParen) [] (l :: (ts ++ [r])) := by
  refine ⟨l, ts ++ [r], rfl, hl, fun us u hu hd ↦ ?_⟩
  have hpre : l :: us ++ [u] <+: l :: (ts ++ [r]) := List.cons_prefix_cons.mpr ⟨rfl, hu⟩
  cases eq_nil_of_bracketed hl hts hpre (by rwa [Token.depth_cons])

/-- An expression in parentheses is read as such. -/
theorem reads_paren {l r : Token} (hl : l.kind = .mark .leftParen) (hts : Token.Balanced ts)
    {c : Category} (hc : funnels [] (.mark .leftParen) 20 c .paren = true) {v : c.Value} {e : Expr}
    (hr : Reads language (.node (.one c)) (l :: (ts ++ [r])) v) (he : c.expr? v = some e) :
    ∃ e', e = .paren (Token.cover (l :: (ts ++ [r]))) e' ∧
      Reads language (.node (.one .expr)) ts e' := by
  obtain ⟨w, hw, he⟩ := reads_of_funnels hc (surfaces_paren hl hts) hr he
  obtain rfl := Option.some.inj he
  obtain ⟨p, hp, vs, rfl, hparts⟩ := hw.node_inv
  obtain rfl := List.mem_singleton.mp hp
  obtain ⟨l', e', r', _⟩ := vs
  obtain ⟨xs, h1, -, hparts⟩ := parts_tok.mp hparts
  obtain ⟨us, zs, rfl, he', hparts⟩ := parts_need.mp hparts
  obtain ⟨zs, rfl, -, hnil⟩ := parts_tok.mp hparts
  obtain rfl := parts_nil.mp hnil
  obtain ⟨rfl, -⟩ := List.append_inj' (List.cons.inj h1).2 rfl
  exact ⟨e', rfl, he'⟩

/-- The negation of an expression in parentheses is read as such. -/
theorem reads_negation {b l r : Token} (hb : b.kind = .mark .bang) (hl : l.kind = .mark .leftParen)
    (hts : Token.Balanced ts) {e : Expr}
    (hr : Reads language (.node (.one .expr)) (b :: l :: (ts ++ [r])) e) :
    ∃ l₁ l₂ e', e = .unary l₁ .negate (.paren l₂ e') ∧
      Reads language (.node (.one .expr)) ts e' := by
  have hs : Token.Surfaces (.mark .bang) [.mark .leftParen] (b :: l :: (ts ++ [r])) := by
    refine ⟨b, _, rfl, hb, fun us u hu hd ↦ ?_⟩
    rw [hb] at hd
    obtain rfl := eq_nil_of_bracketed hl hts hu (by simpa [Kind.rise] using hd)
    obtain ⟨rfl, -⟩ := List.cons_prefix_cons.mp hu
    exact List.mem_singleton.mpr hl
  obtain ⟨w, hw, he⟩ := reads_of_funnels (n := 20) (c := .expr) (d := .unsignedUnary)
    (by decide) hs hr rfl
  obtain rfl := Option.some.inj he
  obtain ⟨p, hp, vs, rfl, hparts, hstart⟩ := exists_starting hw
  rw [hb] at hstart
  simp only [Category.rules, Category.pass, List.mem_cons, List.not_mem_nil, or_false] at hp
  rcases hp with rfl | rfl | rfl | rfl
  all_goals try exact absurd hstart (by decide)
  obtain ⟨b', e, _⟩ := vs
  obtain ⟨xs, h1, -, hparts⟩ := parts_tok.mp hparts
  obtain ⟨us, zs, rfl, he, hnil⟩ := parts_need.mp hparts
  obtain rfl := parts_nil.mp hnil
  rw [List.append_nil] at h1
  obtain rfl := (List.cons.inj h1).2
  obtain ⟨e', rfl, he'⟩ := reads_paren hl hts (c := .unary) (by decide) he rfl
  exact ⟨_, _, e', rfl, he'⟩

/-- Arguments stand between parentheses; they are read as the expressions there. -/
theorem reads_arguments {as : List Expr} (hr : Reads language (.node (.one .arguments)) us as) :
    ∃ l ts r, us = l :: (ts ++ [r]) ∧ l.kind = .mark .leftParen ∧ r.kind = .mark .rightParen ∧
      (Reads language (.node (.one .exprs)) ts as ∨ ts = [] ∧ as = []) := by
  obtain ⟨p, hp, vs, rfl, hparts⟩ := hr.node_inv
  obtain rfl := List.mem_singleton.mp hp
  obtain ⟨l, es, r, _⟩ := vs
  obtain ⟨xs, rfl, hl, hes⟩ := parts_tok.mp hparts
  rcases parts_maybe.mp hes with ⟨ts, ws, as, rfl, has, rfl, hclose⟩ | ⟨rfl, hclose⟩
  all_goals
    obtain ⟨zs, rfl, hk, hnil⟩ := parts_tok.mp hclose
    obtain rfl := parts_nil.mp hnil
  · exact ⟨l, ts, r, rfl, hl, hk, .inl has⟩
  · exact ⟨l, [], r, rfl, hl, hk, .inr ⟨rfl, rfl⟩⟩

private theorem eq_singleton {n : Token} (h : [n] = us ++ ws) (hne : us ≠ []) :
    us = [n] ∧ ws = [] := by
  obtain ⟨x, us, rfl⟩ := List.exists_cons_of_ne_nil hne
  have hnil : [] = us ++ ws := (List.cons.inj h).2
  obtain ⟨rfl, rfl⟩ := List.append_eq_nil_iff.mp hnil.symm
  exact ⟨h.symm, rfl⟩

/-- A name alone belongs to the names of types. -/
theorem matches_classType {n : Token} (hn : n.kind = .name) :
    Matches language (.node (.one .classType)) [n] := by
  have hpart : Matches language (.node (.one .classTypePart)) [n] :=
    matches_node.mpr ⟨_, List.mem_singleton_self _, spans_need_tok.mpr ⟨_, _, rfl, hn,
      spans_cons.mpr (.inr ⟨rfl, spans_nil.mpr rfl⟩)⟩⟩
  exact matches_node.mpr ⟨_, List.mem_singleton_self _, spans_need.mpr ⟨_, [], rfl, hpart,
    spans_cons.mpr (.inr ⟨rfl, spans_nil.mpr rfl⟩)⟩⟩

/-- A name alone names a type. -/
private theorem reads_classType {n : Token} {t : TypeRef}
    (hr : Reads language (.node (.one .classType)) [n] t) :
    t = ⟨n.text, [], 0, some (Token.cover [n])⟩ := by
  obtain ⟨p, hp, vs, rfl, hparts⟩ := hr.node_inv
  obtain rfl := List.mem_singleton.mp hp
  obtain ⟨part, parts, _⟩ := vs
  obtain ⟨us, ws, h1, hpart, hmany⟩ := parts_need.mp hparts
  obtain ⟨rfl, rfl⟩ := eq_singleton h1 (ne_nil_of_reads (by decide) hpart)
  obtain rfl := many_nil (by decide) hmany
  obtain ⟨q, hq, vs, rfl, hparts'⟩ := hpart.node_inv
  obtain rfl := List.mem_singleton.mp hq
  obtain ⟨x, args, _⟩ := vs
  obtain ⟨ws, h2, -, hargs⟩ := parts_tok.mp hparts'
  obtain ⟨rfl, rfl⟩ := List.cons.inj h2
  obtain rfl := maybe_nil (by decide) hargs
  simp [Production.value, Action.apply, Category.typeOfParts]

/-- A name alone is a type without arguments and dimensions. -/
theorem reads_type {n : Token} {t : TypeRef} (hn : n.kind = .name)
    (hr : Reads language (.node (.one .type)) [n] t) : ∃ l, t = ⟨n.text, [], 0, some l⟩ := by
  obtain ⟨p, hp, vs, rfl, hparts⟩ := hr.node_inv
  obtain rfl := List.mem_singleton.mp hp
  obtain ⟨bare, dims, _⟩ := vs
  obtain ⟨us, ws, hcut, hbare, hdims⟩ := parts_need.mp hparts
  obtain ⟨rfl, rfl⟩ := eq_singleton hcut (ne_nil_of_reads (by decide) hbare)
  obtain rfl := many_nil (by decide) hdims
  obtain ⟨q, hq, vs, rfl, hparts', hstart⟩ := exists_starting hbare
  rw [hn] at hstart
  simp only [Category.rules, Category.pass, List.mem_cons, List.not_mem_nil, or_false] at hq
  rcases hq with rfl | rfl
  · exact absurd hstart (by decide)
  · obtain ⟨t, _⟩ := vs
    obtain ⟨us, ws, hcut, ht, -⟩ := parts_need.mp hparts'
    obtain ⟨rfl, rfl⟩ := eq_singleton hcut (ne_nil_of_reads (by decide) ht)
    obtain rfl := reads_classType ht
    exact ⟨_, rfl⟩

/-- Balanced tokens that begin with those in parentheses begin with all of them or with none. -/
private theorem bracketed_cut {l r : Token} (hl : l.kind = .mark .leftParen)
    (hts : Token.Balanced ts) (h : l :: (ts ++ [r]) = us ++ ws) (hd : Token.depth us = 0) :
    us = [] ∨ ws = [] := by
  cases ws with
  | nil => exact .inr rfl
  | cons w ws =>
    have hpre : us ++ [w] <+: l :: (ts ++ [r]) := ⟨ws, by rw [h]; simp⟩
    exact .inl (eq_nil_of_bracketed hl hts hpre hd)

/-- A new object of a type with one name is read as such. -/
theorem reads_newObject {w n l r : Token} (hw : w.kind = .word .new) (hn : n.kind = .name)
    (hl : l.kind = .mark .leftParen) (hm : Matches language (.node (.one .exprs)) ts) {e : Expr}
    (hr : Reads language (.node (.one .expr)) (w :: n :: l :: (ts ++ [r])) e) :
    ∃ l₁ l₂ as, e = .newObject l₁ ⟨n.text, [], 0, some l₂⟩ as none ∧
      Reads language (.node (.one .exprs)) ts as := by
  have hts := balanced_of_matches hm
  have hs : Token.Surfaces (.word .new) [.name, .mark .leftParen] (w :: n :: l :: (ts ++ [r])) := by
    refine ⟨w, _, rfl, hw, fun us u hu hd ↦ ?_⟩
    rw [hw] at hd
    cases us with
    | nil =>
      obtain ⟨rfl, -⟩ := List.cons_prefix_cons.mp hu
      simp [hn]
    | cons x us =>
      obtain ⟨rfl, hxs⟩ := List.cons_prefix_cons.mp hu
      obtain rfl := eq_nil_of_bracketed hl hts hxs (by simpa [Kind.rise, hn] using hd)
      obtain ⟨rfl, -⟩ := List.cons_prefix_cons.mp hxs
      simp [hl]
  obtain ⟨v, hv, he⟩ := reads_of_funnels (n := 20) (c := .expr) (d := .newObject)
    (by decide) hs hr rfl
  obtain rfl := Option.some.inj he
  obtain ⟨p, hp, vs, rfl, hparts⟩ := hv.node_inv
  obtain rfl := List.mem_singleton.mp hp
  obtain ⟨w', t, as, body, _⟩ := vs
  obtain ⟨xs, h1, -, htype⟩ := parts_tok.mp hparts
  obtain ⟨us, ws, rfl, ht, hargs⟩ := parts_need.mp htype
  obtain ⟨us', zs, rfl, has, hbody⟩ := parts_need.mp hargs
  have h2 := (List.cons.inj h1).2
  obtain ⟨n', us, rfl⟩ := List.exists_cons_of_ne_nil (ne_nil_of_reads (by decide) ht)
  obtain ⟨rfl, -⟩ := List.cons.inj h2
  have h3 : l :: (ts ++ [r]) = us ++ (us' ++ zs) := (List.cons.inj h2).2
  have hne := ne_nil_of_reads (by decide) has
  have hdepth : Token.depth us = 0 := by
    have := (balanced_of_matches ht.matches).closed
    rw [Token.depth_cons, hn] at this
    simpa [Kind.rise] using this
  rcases bracketed_cut hl hts h3 hdepth with rfl | hnil
  · -- The arguments take all that is left, so there is no body.
    have hclosed := (balanced_of_matches has.matches).closed
    have hcut : us' = [] ∨ zs = [] := bracketed_cut hl hts h3 hclosed
    rcases hcut with hnil | rfl
    · exact absurd hnil hne
    · obtain rfl := maybe_nil (by decide) hbody
      obtain ⟨l', ts', r', rfl, -, -, has⟩ := reads_arguments has
      have h4 : l :: (ts ++ [r]) = l' :: (ts' ++ [r']) := by simpa using h3
      obtain ⟨rfl, -⟩ := List.append_inj' (List.cons.inj h4).2 rfl
      rcases has with has | ⟨rfl, -⟩
      · exact ⟨_, _, as, by rw [reads_classType ht]; rfl, has⟩
      · exact absurd rfl (hm.ne_nil language_lawful
          fun _ hs ↦ by cases hs; exact inner_of_ne (by decide))
  · exact absurd (List.append_eq_nil_iff.mp hnil).1 hne

/-! ### One argument or several -/

/-- Some tokens are an expression and, behind commas, one or more others. -/
def Token.Divides (ts : List Token) : Prop :=
  ∃ us ws, ts = us ++ ws ∧ Matches language (.node (.one .expr)) us ∧
    Matches language (.node (.run .commaExpr)) ws

theorem ne_nil_of_reads_run {c : Category} {vs : List c.Value}
    (hr : Reads language (.node (.run c)) ts vs) : vs ≠ [] := by
  obtain ⟨p, hp, vs, rfl, -⟩ := hr.node_inv
  simp only [productions, List.mem_cons, List.not_mem_nil, or_false] at hp
  rcases hp with rfl | rfl
  · exact List.cons_ne_nil _ _
  · exact List.append_ne_nil_of_right_ne_nil _ (List.cons_ne_nil _ _)

/-- As arguments, the tokens of an expression are read as several if they can be, and else as that
expression. -/
theorem reads_exprs {e : Expr} {as : List Expr} (he : Reads language (.node (.one .expr)) ts e)
    (hr : Reads language (.node (.one .exprs)) ts as) :
    Token.Divides ts ∧ as.length ≠ 1 ∨ ¬ Token.Divides ts ∧ as = [e] := by
  have hspans : Spans language [Category.a .expr, Category.any .commaExpr] ts :=
    spans_need.mpr ⟨ts, [], (List.append_nil ts).symm, he.matches,
      spans_cons.mpr (.inr ⟨rfl, spans_nil.mpr rfl⟩)⟩
  have first : (language.productions (.one .exprs))[0]? = some _ := rfl
  obtain ⟨⟨x, xs, _⟩, rfl, hall⟩ := hr.first_inv first (fun q hq ↦ by cases hq) hspans
  rcases hall.cons_inv with ⟨us, ws, y, rfl, hxy, -, hy, -, hrest⟩ | ⟨ha, -⟩
  · obtain rfl : x = y := hxy
    rcases hrest.cons_inv with ⟨vs, zs, ys, rfl, hxs, -, hys, -, hnil⟩ | ⟨ha, -, hlast, hnil⟩
    · obtain rfl : xs = ys := hxs
      cases hnil
      have hne := ne_nil_of_reads_run hys
      refine .inl ⟨⟨us, vs, by rw [List.append_nil], hy.matches, hys.matches⟩, ?_⟩
      have hpos := List.length_pos_iff.mpr hne
      have hlen : (x :: xs).length = xs.length + 1 := rfl
      show (x :: xs).length ≠ 1
      omega
    · cases hnil
      obtain rfl : [] = xs := Option.some.inj ha
      rw [List.append_nil] at he ⊢
      refine .inr ⟨?_, congrArg (· :: []) (hy.unique he)⟩
      rintro ⟨xs, ys, rfl, hx, hy⟩
      exact hlast xs ys rfl (spans_need.mpr ⟨xs, [], (List.append_nil xs).symm, hx,
        spans_nil.mpr rfl⟩) hy
  · cases ha

private theorem commaExpr_starts : ∀ k ∈ Kind.all,
    language.symbolMayStart k (.node (.run .commaExpr)) = true → k = .mark .comma := by
  decide

/-- Tokens without a comma are not several arguments. -/
theorem Token.not_divides (h : ∀ t ∈ ts, t.kind ≠ .mark .comma) : ¬ Token.Divides ts := by
  rintro ⟨us, ws, rfl, -, hm⟩
  have hin : Inner language (.run .commaExpr) := (by decide : Category.commaExpr ≠ .compilationUnit)
  have hne := hm.ne_nil language_lawful fun _ hs ↦ by cases hs; exact hin
  obtain ⟨t, ws, rfl⟩ := List.exists_cons_of_ne_nil hne
  have hstart := hm.symbolMayStart language_lawful fun _ hs ↦ by cases hs; exact .inr hin
  exact h t (by simp) (commaExpr_starts t.kind t.kind.mem_all hstart)

end GuardLint.Syntax
