import GuardLint.Proofs.Syntax.Balance

/-!
# Conditional throws

The tokens of a statement that throws something under a condition. Wherever such tokens stand, no
part of a text begins before them or with them and ends inside them: the `if` takes all of them.
-/

namespace GuardLint.Syntax

open Grammar

/-- The tokens of an `if` that throws if its condition holds, and does nothing else. -/
structure Throw where
  word : Token
  opening : Token
  condition : List Token
  closing : Token
  throw : Token
  thrown : List Token
  semicolon : Token
  word_kind : word.kind = .word .if
  opening_kind : opening.kind = .mark .leftParen
  condition_matches : Matches language (.node (.one .expr)) condition
  closing_kind : closing.kind = .mark .rightParen
  throw_kind : throw.kind = .word .throw
  thrown_matches : Matches language (.node (.one .expr)) thrown
  semicolon_kind : semicolon.kind = .mark .semicolon

namespace Throw

/-- All tokens of a conditional throw. -/
def tokens (g : Throw) : List Token :=
  g.word :: g.opening :: (g.condition ++ g.closing :: g.throw :: (g.thrown ++ [g.semicolon]))

theorem tokens_ne_nil (g : Throw) : g.tokens ≠ [] := List.cons_ne_nil _ _

/-- There are more tokens than one in a conditional throw. -/
theorem one_lt_length (g : Throw) : 1 < g.tokens.length := by
  simp [tokens]

end Throw

/-! ### The parts of an `if` -/

/-- The elements of an `if`. -/
def ifElements : List (Element Category) :=
  [.need (.tok (.word .if)), .need (.tok (.mark .leftParen)), .need (.node (.one .expr)),
   .need (.tok (.mark .rightParen)), .need (.node (.one .statement)),
   .maybe (.node (.one .elsePart))]

variable {ts us ws : List Token}

theorem spans_need {s : Symbol Category} {es : List (Element Category)} :
    Spans language (.need s :: es) ts ↔
      ∃ us ws, ts = us ++ ws ∧ Matches language s us ∧ Spans language es ws := by
  rw [spans_cons]
  constructor
  · rintro (h | ⟨ho, -⟩)
    · exact h
    · cases ho
  · exact .inl

theorem spans_need_tok {k : Kind} {es : List (Element Category)} :
    Spans language (.need (.tok k) :: es) ts ↔
      ∃ t ws, ts = t :: ws ∧ t.kind = k ∧ Spans language es ws := by
  rw [spans_need]
  constructor
  · rintro ⟨us, ws, rfl, hm, hs⟩
    obtain ⟨t, ht, rfl⟩ := matches_tok.mp hm
    exact ⟨t, ws, rfl, ht, hs⟩
  · rintro ⟨t, ws, rfl, ht, hs⟩
    exact ⟨[t], ws, rfl, matches_tok.mpr ⟨t, ht, rfl⟩, hs⟩

private theorem spans_elsePart (h : Spans language [.maybe (.node (.one .elsePart))] ts) :
    ts = [] ∨ Matches language (.node (.one .elsePart)) ts := by
  rcases spans_cons.mp h with ⟨us, ws, rfl, hm, hs⟩ | ⟨-, hs⟩
  · rw [spans_nil.mp hs, List.append_nil]
    exact .inr hm
  · exact .inl (spans_nil.mp hs)

private theorem throw_rules : ∀ p ∈ Category.rules .statement,
    language.elementsMayStart (.word .throw) p.elements = true →
      p.elements = [.need (.tok (.word .throw)), .need (.node (.one .expr)),
        .need (.tok (.mark .semicolon))] := by
  intro p hp hs
  simp only [Category.rules, List.mem_cons, List.not_mem_nil, or_false] at hp
  rcases hp with rfl | rfl | rfl | rfl | rfl | rfl | rfl | rfl | rfl | rfl | rfl | rfl | rfl |
    rfl | rfl | rfl | rfl
  all_goals first | rfl | exact absurd hs (by decide)

/-- A statement that begins with `throw` ends with the semicolon after what it throws. -/
private theorem matches_throw {t : Token} (ht : t.kind = .word .throw)
    (hm : Matches language (.node (.one .statement)) (t :: ts)) :
    ∃ thrown s, ts = thrown ++ [s] ∧ Matches language (.node (.one .expr)) thrown ∧
      s.kind = .mark .semicolon := by
  obtain ⟨p, hp, hs⟩ := matches_node.mp hm
  have hin : Inner language (.one .statement) := inner_of_ne (by decide)
  have hstart := hs.elementsMayStart language_lawful
    fun e he h hs ↦ language_lawful.inner (.inr hin) hp he hs
  rw [ht] at hstart
  rw [throw_rules p hp hstart] at hs
  obtain ⟨t', ws, heq, -, hs⟩ := spans_need_tok.mp hs
  obtain ⟨-, rfl⟩ := List.cons.inj heq
  obtain ⟨thrown, ws, rfl, hthrown, hs⟩ := spans_need.mp hs
  obtain ⟨s, ws, rfl, hk, hs⟩ := spans_need_tok.mp hs
  obtain rfl := spans_nil.mp hs
  exact ⟨thrown, s, rfl, hthrown, hk⟩

theorem Throw.matches (g : Throw) : Matches language (.node (.one .statement)) g.tokens := by
  have hthrow : Matches language (.node (.one .statement))
      (g.throw :: (g.thrown ++ [g.semicolon])) := by
    refine matches_node.mpr ⟨_, List.mem_of_getElem? (i := 9) rfl, ?_⟩
    exact spans_need_tok.mpr ⟨_, _, rfl, g.throw_kind, spans_need.mpr ⟨_, _, rfl,
      g.thrown_matches, spans_need_tok.mpr ⟨_, _, rfl, g.semicolon_kind, spans_nil.mpr rfl⟩⟩⟩
  refine matches_node.mpr ⟨_, List.mem_of_getElem? (i := 3) rfl, ?_⟩
  refine spans_need_tok.mpr ⟨_, _, rfl, g.word_kind, spans_need_tok.mpr ⟨_, _, rfl,
    g.opening_kind, spans_need.mpr ⟨_, _, rfl, g.condition_matches, spans_need_tok.mpr ⟨_, _, rfl,
    g.closing_kind, spans_need.mpr ⟨_, [], (List.append_nil _).symm, hthrow, ?_⟩⟩⟩⟩⟩
  exact spans_cons.mpr (.inr ⟨rfl, spans_nil.mpr rfl⟩)

/-- An `if` that begins with the tokens of a conditional throw, or with which these begin, takes all
of them, and then perhaps an `else` part. -/
theorem Throw.spans_if (g : Throw) (hs : Spans language ifElements ts)
    (h : ts ++ us = g.tokens ++ ws) :
    ∃ other, ts = g.tokens ++ other ∧
      (other = [] ∨ Matches language (.node (.one .elsePart)) other) := by
  obtain ⟨i, zs, rfl, -, hs⟩ := spans_need_tok.mp hs
  obtain ⟨l, zs, rfl, -, hs⟩ := spans_need_tok.mp hs
  obtain ⟨cond, zs, rfl, hcond, hs⟩ := spans_need.mp hs
  obtain ⟨r, zs, rfl, hr, hs⟩ := spans_need_tok.mp hs
  obtain ⟨branch, other, rfl, hbranch, hs⟩ := spans_need.mp hs
  have hother := spans_elsePart hs
  simp only [tokens, List.cons_append, List.append_assoc, List.cons.injEq] at h
  obtain ⟨rfl, rfl, h⟩ := h
  -- The condition ends with the parenthesis that closes, what is thrown with the semicolon.
  obtain ⟨rfl, rfl, hrest⟩ := Token.Balanced.unique (balanced_of_matches hcond)
    (balanced_of_matches g.condition_matches) (by rw [hr]; decide)
    (by rw [g.closing_kind]; decide) h
  have hne := hbranch.ne_nil language_lawful fun _ hs ↦ by cases hs; exact inner_of_ne (by decide)
  obtain ⟨t, branch, rfl⟩ := List.exists_cons_of_ne_nil hne
  obtain ⟨rfl, hthrow⟩ := List.cons.inj hrest
  obtain ⟨thrown, s, rfl, hthrown, hsemi⟩ := matches_throw g.throw_kind hbranch
  rw [List.append_eq, List.append_assoc, List.singleton_append] at hthrow
  obtain ⟨rfl, rfl, -⟩ := Token.Fenced.unique (balanced_of_matches hthrown)
    (balanced_of_matches g.thrown_matches) (fenced_of_matches (by decide) hthrown)
    (fenced_of_matches (by decide) g.thrown_matches) hsemi g.semicolon_kind hthrow
  exact ⟨other, by simp [tokens], hother⟩

/-! ### The word `if` -/

/-- Whether no element is the word `if`. -/
def IfFree (es : List (Element Category)) : Prop := ∀ e ∈ es, e.symbol ≠ .tok (.word .if)

private theorem ifFree_rules : ∀ c ∈ Category.all, c ≠ .statement → ∀ p ∈ c.rules,
    ∀ e ∈ p.elements, e.symbol ≠ .tok (.word .if) := by
  decide +kernel

/-- Only a statement is made of the word `if` and what follows it. -/
theorem ifFree_or {h : Head Category} {p : Production Category.Value (h.Value Category.Value)}
    (hp : p ∈ language.productions h) :
    IfFree p.elements ∨ h = .one .statement ∧ p.elements = ifElements := by
  cases h with
  | one c =>
    by_cases hc : c = .statement
    · subst hc
      simp only [productions, language, Category.rules, List.mem_cons, List.not_mem_nil,
        or_false] at hp
      rcases hp with rfl | rfl | rfl | rfl | rfl | rfl | rfl | rfl | rfl | rfl | rfl | rfl | rfl |
        rfl | rfl | rfl | rfl
      all_goals first | exact .inr ⟨rfl, rfl⟩ | exact .inl (by unfold IfFree; decide)
    · exact .inl (ifFree_rules c c.mem_all hc p hp)
  | run c =>
    simp only [productions, List.mem_cons, List.not_mem_nil, or_false] at hp
    rcases hp with rfl | rfl <;> refine .inl fun e he ↦ ?_ <;> simp at he
    · rw [he]
      simp [Element.symbol]
    · rcases he with rfl | rfl <;> simp [Element.symbol]

variable {g : Throw} {front back : List Token}

/-- What is shown of the tokens of a symbol: they do not end inside a conditional throw. -/
private def Uncut (g : Throw) : Symbol Category → List Token → Prop
  | .tok _, _ => True
  | .node _, ts => ∀ us front back, g.tokens = front ++ back → front ≠ [] → back ≠ [] →
      ts ≠ us ++ front

/-- Elements without the word `if`, none of which ends inside a conditional throw, do not. -/
private theorem not_covers_cut {es : List (Element Category)} (hfree : IfFree es)
    (hg : g.tokens = front ++ back) (hf : front ≠ []) (hb : back ≠ []) :
    ¬ Covers (fun s us ↦ Matches language s us ∧ Uncut g s us) es (us ++ front) := by
  intro hc
  induction es generalizing us with
  | nil => exact hf (List.append_eq_nil_iff.mp hc).2
  | cons e es ih =>
    have hfree' : IfFree es := fun f hf ↦ hfree f (List.mem_cons_of_mem e hf)
    rcases hc with ⟨xs, ys, heq, hx, hc⟩ | ⟨-, hc⟩
    · rcases List.append_eq_append_iff.mp heq with ⟨zs, rfl, hz⟩ | ⟨zs, rfl, rfl⟩
      · cases zs with
        | nil =>
          rw [List.nil_append] at hz
          rw [← List.nil_append ys, ← hz] at hc
          exact ih hfree' hc
        | cons z zs =>
          -- The word `if` is in this part.
          have hg' : g.tokens = (z :: zs) ++ (ys ++ back) := by
            rw [hg, hz, List.append_assoc]
          have hb' : ys ++ back ≠ [] := List.append_ne_nil_of_right_ne_nil ys hb
          cases hs : e.symbol with
          | tok k =>
            rw [hs] at hx
            obtain ⟨t, rfl, ht⟩ := matches_tok.mp hx.1
            rcases List.append_eq_singleton_iff.mp ht with ⟨-, ht⟩ | ⟨-, ht⟩
            · obtain ⟨rfl, -⟩ := List.cons.inj ht
              obtain ⟨rfl, -⟩ := List.cons.inj hg'
              rw [g.word_kind] at hs
              exact hfree e List.mem_cons_self hs
            · cases ht
          | node h =>
            rw [hs] at hx
            exact hx.2 us _ _ hg' (List.cons_ne_nil z zs) hb' rfl
      · exact ih hfree' hc
    · exact ih hfree' hc

/-- No part of a text ends inside the tokens of a conditional throw that begins with it or in it. -/
theorem Throw.not_matches_cut {h : Head Category} (hg : g.tokens = front ++ back)
    (hf : front ≠ []) (hb : back ≠ []) : ¬ Matches language (.node h) (us ++ front) := by
  intro hm
  refine Matches.induction (g := language) (P := Uncut g) (fun t ↦ trivial) ?_ hm us front back
    hg hf hb rfl
  rintro h p ts hp hc us front back hg hf hb rfl
  rcases ifFree_or hp with hfree | ⟨rfl, he⟩
  · exact not_covers_cut hfree hg hf hb hc
  · have hspan : Spans language ifElements (us ++ front) := by
      rw [← he]
      exact spans_iff_covers.mpr (hc.mono fun _ _ _ hP ↦ hP.1)
    rw [he] at hc
    rcases hc with ⟨xs, ys, heq, ⟨hm, -⟩, hc⟩ | ⟨ho, -⟩
    · obtain ⟨t, -, rfl⟩ := matches_tok.mp hm
      cases us with
      | nil =>
        -- The `if` of the conditional throw is that of this statement, which takes all of it.
        have hall : [] ++ front ++ back = g.tokens ++ [] := by
          rw [hg, List.append_nil, List.nil_append]
        obtain ⟨other, hother, -⟩ := g.spans_if hspan hall
        have hlen := congrArg List.length (hother.trans (congrArg (· ++ other) hg))
        have hpos := List.length_pos_iff.mpr hb
        simp only [List.nil_append, List.length_append] at hlen
        omega
      | cons u us =>
        obtain ⟨-, rfl⟩ := List.cons.inj heq
        exact not_covers_cut (by unfold IfFree; decide) hg hf hb hc
    · cases ho

/-- Elements without the word `if` do not end inside a conditional throw. -/
theorem Throw.not_spans_cut {es : List (Element Category)} (hfree : IfFree es)
    (hg : g.tokens = front ++ back) (hf : front ≠ []) (hb : back ≠ []) :
    ¬ Spans language es (us ++ front) := by
  intro hs
  refine not_covers_cut hfree hg hf hb ((spans_iff_covers.mp hs).mono fun e _ ts hm ↦ ⟨hm, ?_⟩)
  cases hsym : e.symbol with
  | tok k => trivial
  | node h =>
    rintro us front back hg hf hb rfl
    rw [hsym] at hm
    exact not_matches_cut hg hf hb hm

end GuardLint.Syntax
