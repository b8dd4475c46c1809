import GuardLint.Proofs.Syntax.Surface
import GuardLint.Proofs.Syntax.Throw

/-!
# What a text ends with

The tokens of a production end with those of one of the symbols that may come last. So no text of a
category ends with the sign of equality, and one that binds tighter than this sign ends with a
comparison with `null` only inside the body of a lambda.
-/

namespace GuardLint.Syntax

open Grammar

variable {ts us : List Token} {es front back : List (Element Category)} {e : Element Category}
  {k : Kind}

/-- The symbols that may come last among some elements. -/
def lastSymbols : List (Element Category) → List (Symbol Category)
  | [] => []
  | e :: es => (if es.all Element.optional then [e.symbol] else []) ++ lastSymbols es

theorem mem_lastSymbols (ho : back.all Element.optional = true) :
    e.symbol ∈ lastSymbols (front ++ e :: back) := by
  induction front with
  | nil =>
    rw [List.nil_append, lastSymbols, if_pos ho]
    exact List.mem_append_left _ (List.mem_singleton_self _)
  | cons f front ih => exact List.mem_append_right _ ih

variable {P : Symbol Category → List Token → Prop}

private theorem optional_of_covers_nil (hne : ∀ e ∈ es, ∀ us, P e.symbol us → us ≠ [])
    (hc : Covers P es []) : es.all Element.optional = true := by
  induction es with
  | nil => rfl
  | cons e es ih =>
    have hrest := ih fun f hf ↦ hne f (List.mem_cons_of_mem e hf)
    rcases hc with ⟨us, ws, hnil, hu, -⟩ | ⟨ho, hc⟩
    · exact absurd (List.append_eq_nil_iff.mp hnil.symm).1 (hne e List.mem_cons_self us hu)
    · rw [List.all_cons, ho, hrest hc]
      rfl

/-- Tokens of some elements end with those of one that may come last. -/
theorem exists_last (hne : ∀ e ∈ es, ∀ us, P e.symbol us → us ≠ []) (hc : Covers P es ts)
    (hts : ts ≠ []) : ∃ front e back us ws, es = front ++ e :: back ∧
      back.all Element.optional = true ∧ ts = us ++ ws ∧ Covers P front us ∧ P e.symbol ws := by
  induction es generalizing ts with
  | nil => exact absurd hc hts
  | cons f es ih =>
    have hne' : ∀ e ∈ es, ∀ us, P e.symbol us → us ≠ [] :=
      fun e he ↦ hne e (List.mem_cons_of_mem f he)
    rcases hc with ⟨us, ws, rfl, hu, hc⟩ | ⟨ho, hc⟩
    · cases ws with
      | nil => exact ⟨[], f, es, [], us, rfl, optional_of_covers_nil hne' hc, List.append_nil us, rfl,
          hu⟩
      | cons w ws =>
        obtain ⟨front, e, back, xs, ys, rfl, hback, heq, hfront, he⟩ :=
          ih hne' hc (List.cons_ne_nil w ws)
        exact ⟨f :: front, e, back, us ++ xs, ys, rfl, hback, by rw [heq, List.append_assoc],
          .inl ⟨us, xs, rfl, hu, hfront⟩, he⟩
    · obtain ⟨front, e, back, xs, ys, rfl, hback, heq, hfront, he⟩ := ih hne' hc hts
      exact ⟨f :: front, e, back, xs, ys, rfl, hback, heq, .inr ⟨ho, hfront⟩, he⟩

/-! ### Kinds that no text ends with -/

/-- Whether the last symbols of all productions of some categories are other tokens than those of a
kind, or among these categories. -/
def avoids (cs : List Category) (k : Kind) : Bool :=
  cs.all fun c ↦ (Category.rules c).all fun p ↦ (lastSymbols p.elements).all fun
    | .tok l => l != k
    | .node h => cs.contains h.category

private theorem avoids_productions {cs : List Category} (ha : avoids cs k = true) {h : Head Category}
    (hh : h.category ∈ cs) {p : Production Category.Value (h.Value Category.Value)}
    (hp : p ∈ language.productions h) : ∀ s ∈ lastSymbols p.elements,
      (∀ l, s = .tok l → l ≠ k) ∧ ∀ h', s = .node h' → h'.category ∈ cs := by
  cases h with
  | one c =>
    intro s hs
    have hall := List.all_eq_true.mp (List.all_eq_true.mp (List.all_eq_true.mp ha c hh) p hp) s hs
    refine ⟨fun l hl ↦ ?_, fun h' hs' ↦ ?_⟩
    · subst hl
      simpa using hall
    · subst hs'
      simpa using hall
  | run c =>
    simp only [productions, List.mem_cons, List.not_mem_nil, or_false] at hp
    rcases hp with rfl | rfl
    all_goals
      intro s hs
      simp only [lastSymbols, Element.symbol, Element.optional, List.all_cons, List.all_nil,
        Bool.and_true, Bool.false_eq_true, if_true, if_false, List.nil_append, List.append_nil,
        List.mem_singleton] at hs
      subst hs
      refine ⟨fun l hl ↦ (by cases hl), fun h' hs' ↦ ?_⟩
      cases hs'
      exact hh

/-- A text of one of some categories that avoid a kind does not end with a token of that kind. -/
theorem last_ne_of_avoids {cs : List Category} (ha : avoids cs k = true) {h : Head Category}
    (hin : Inner language h) (hh : h.category ∈ cs) (hm : Matches language (.node h) ts) {t : Token}
    (ht : ts.getLast? = some t) : t.kind ≠ k := by
  have key := Matches.induction (g := language)
    (P := fun s ts ↦ ∀ h, s = .node h → Inner language h → h.category ∈ cs →
      ∀ t, ts.getLast? = some t → t.kind ≠ k)
    (fun t h hs ↦ by cases hs) (fun h p ts hp hc h' hs hin hh t ht ↦ ?_) hm
  · exact key h rfl hin hh t ht
  · cases hs
    have hinner : ∀ e ∈ p.elements, ∀ h', e.symbol = .node h' → Inner language h' :=
      fun e he h' hs ↦ language_lawful.inner (.inr hin) hp he hs
    have hts : ts ≠ [] := by
      rintro rfl
      cases ht
    obtain ⟨front, e, back, us, ws, hes, hback, rfl, -, hm, hlast⟩ :=
      exists_last (fun e he us hu ↦ hu.1.ne_nil language_lawful (hinner e he)) hc hts
    have hmem : e ∈ p.elements := by rw [hes]; simp
    have hsymbol := avoids_productions ha hh hp e.symbol (by rw [hes]; exact mem_lastSymbols hback)
    rw [List.getLast?_append_of_ne_nil _ (hm.ne_nil language_lawful (hinner e hmem))] at ht
    cases hs : e.symbol with
    | tok l =>
      rw [hs] at hm
      obtain ⟨x, hx, rfl⟩ := matches_tok.mp hm
      obtain rfl := Option.some.inj ht
      exact fun hk ↦ hsymbol.1 l hs (hx.symm.trans hk)
    | node h' => exact hlast h' hs (hinner e hmem h' hs) (hsymbol.2 h' hs) t ht

private theorem avoids_equals : avoids Category.all (.mark .equals) = true := by decide

/-- No text of a category ends with the sign of equality. -/
theorem last_ne_equals {h : Head Category} (hin : Inner language h)
    (hm : Matches language (.node h) ts) {t : Token} (ht : ts.getLast? = some t) :
    t.kind ≠ .mark .equals :=
  last_ne_of_avoids avoids_equals hin h.category.mem_all hm ht

/-! ### Comparisons with `null` -/

/-- The expressions that bind tighter than the sign of equality and may end with any other, as far as
they do so outside brackets. -/
private def tight : List Category :=
  [.relational, .shift, .additive, .multiplicative, .unary, .unsignedUnary, .preStep, .cast,
   .postfixExpr, .primary, .literal, .lambda]

/-- The categories whose texts do not end with `null`. -/
private def ended : List Category :=
  [.type, .dim, .bareType, .primitiveType, .classType, .classTypePart, .dotTypePart, .typeArgs,
   .arguments, .classBody, .dimExpr, .arrayInit, .refName, .stepOp, .paren, .thisRef, .superRef,
   .name, .fieldAccess, .methodCall, .arrayAccess, .newObject, .newArray, .classLiteral, .methodRef,
   .postStep]

private theorem avoids_null : avoids ended (.word .null) = true := by decide

/-- Whether a symbol that comes last ends with `null` only as an expression that binds tighter than the
sign of equality does. -/
private def closing : Symbol Category → Bool
  | .tok _ => true
  | .node (.one c) => tight.contains c || ended.contains c
  | .node (.run c) => ended.contains c

private theorem closing_rules : ∀ c ∈ tight, c ≠ .lambda → ∀ p ∈ Category.rules c,
    (∀ e ∈ p.elements, e.symbol ≠ .tok (.mark .equals)) ∧
      ∀ s ∈ lastSymbols p.elements, closing s = true := by
  decide

/-- An arrow stands outside brackets among some tokens. -/
def Token.HasArrow (ts : List Token) : Prop :=
  ∃ us a, us ++ [a] <+: ts ∧ a.kind = .mark .arrow ∧ Token.depth us = 0

/-- Behind two tokens more the tokens before an arrow are still there, unless one of the two is
the arrow. -/
private theorem hasArrow_of_append {us ws ys : List Token} {a x n : Token}
    (heq : us ++ a :: ws = ys ++ [x, n]) (ha : a.kind = .mark .arrow) (hd : Token.depth us = 0)
    (hx : x.kind ≠ .mark .arrow) (hw : ws ≠ []) : Token.HasArrow ys := by
  have hlen := congrArg List.length heq
  simp only [List.length_append, List.length_cons, List.length_nil] at hlen
  have hpos := List.length_pos_iff.mpr hw
  refine ⟨us, a, ?_, ha, hd⟩
  have hpre : us ++ [a] <+: ys ++ [x, n] := ⟨ws, by rw [← heq]; simp⟩
  by_cases hlt : us.length + 1 ≤ ys.length
  · exact List.prefix_of_prefix_length_le hpre (List.prefix_append ys [x, n]) (by simpa using hlt)
  · -- The arrow would be the first of the two tokens.
    exfalso
    have hus : us.length = ys.length := by omega
    obtain ⟨rfl, hrest⟩ := List.append_inj heq hus
    exact hx ((List.cons.inj hrest).1 ▸ ha)

/-- What is shown of tokens that end with a comparison with `null`. -/
private def Arrowed (ts : List Token) : Prop :=
  ∀ us x n, ts = us ++ [x, n] → x.kind = .mark .equals → n.kind = .word .null → Token.HasArrow us

/-- The sign of equality ends no elements that do not have it. -/
private theorem last_ne_of_covers (hinner : ∀ e ∈ es, ∀ h, e.symbol = .node h → Inner language h)
    (hequals : ∀ e ∈ es, e.symbol ≠ .tok (.mark .equals))
    (hc : Covers (Matches language) es ts) {t : Token} (ht : ts.getLast? = some t) :
    t.kind ≠ .mark .equals := by
  have hts : ts ≠ [] := by
    rintro rfl
    cases ht
  obtain ⟨front, e, back, us, ws, rfl, -, rfl, -, hm⟩ :=
    exists_last (fun e he us hu ↦ hu.ne_nil language_lawful (hinner e he)) hc hts
  have hmem : e ∈ front ++ e :: back := by simp
  rw [List.getLast?_append_of_ne_nil _ (hm.ne_nil language_lawful (hinner e hmem))] at ht
  cases hs : e.symbol with
  | tok l =>
    rw [hs] at hm
    obtain ⟨y, hy, rfl⟩ := matches_tok.mp hm
    obtain rfl := Option.some.inj ht
    exact fun hk ↦ hequals e hmem (hs.trans (congrArg Symbol.tok (hy.symm.trans hk)))
  | node h =>
    rw [hs] at hm
    exact last_ne_equals (hinner e hmem h hs) hm ht

/-- A comparison with `null` that ends some tokens ends the part that comes last. -/
private theorem arrowed_of_covers
    (hinner : ∀ e ∈ es, ∀ h, e.symbol = .node h → Inner language h)
    (hequals : ∀ e ∈ es, e.symbol ≠ .tok (.mark .equals))
    (hlast : ∀ s ∈ lastSymbols es, closing s = true) (hbalanced : Token.Balanced ts)
    (hc : Covers (fun s us ↦ Matches language s us ∧
      ∀ c ∈ tight, s = .node (.one c) → Arrowed us) es ts) : Arrowed ts := by
  intro us x n heq hx hn
  obtain ⟨front, e, back, pre, ws, rfl, hback, hcut, hfront, hm, harrow⟩ := exists_last
    (fun e he us hu ↦ hu.1.ne_nil language_lawful (hinner e he)) hc (by rw [heq]; simp)
  have hmem : e ∈ front ++ e :: back := by simp
  have hws := hm.ne_nil language_lawful (hinner e hmem)
  -- The sign of equality does not end what stands before that part.
  have hsign : pre.getLast? ≠ some x := fun hpre ↦
    last_ne_of_covers (fun f hf ↦ hinner f (List.mem_append_left _ hf))
      (fun f hf ↦ hequals f (List.mem_append_left _ hf)) (hfront.mono fun _ _ _ h ↦ h.1) hpre hx
  obtain ⟨vs, hvs⟩ : ∃ vs, ws = vs ++ [x, n] ∧ us = pre ++ vs := by
    rw [heq] at hcut
    rcases List.append_eq_append_iff.mp hcut with ⟨vs, rfl, hxn⟩ | ⟨vs, rfl, rfl⟩
    · cases vs with
      | nil => exact ⟨[], by simpa using hxn.symm, (List.append_nil us).symm ▸ by simp⟩
      | cons v vs =>
        obtain ⟨rfl, hvs⟩ := List.cons.inj hxn
        cases vs with
        | nil => exact absurd (by simp) hsign
        | cons w vs =>
          obtain ⟨rfl, hnil⟩ := List.cons.inj hvs
          exact absurd (List.append_eq_nil_iff.mp hnil.symm).2 hws
    · exact ⟨vs, rfl, rfl⟩
  obtain ⟨rfl, rfl⟩ := hvs
  have hkind := hlast e.symbol (mem_lastSymbols hback)
  have hended : ∀ h, e.symbol = .node h → h.category ∈ ended → Token.HasArrow (pre ++ vs) := by
    intro h hs hh
    rw [hs] at hm
    exact absurd hn (last_ne_of_avoids avoids_null (hinner e hmem h hs) hh hm (by simp))
  cases hs : e.symbol with
  | tok l =>
    rw [hs] at hm
    obtain ⟨_, -, hsingle⟩ := matches_tok.mp hm
    simpa using congrArg List.length hsingle
  | node h =>
    rw [hs] at hkind
    cases h with
    | run c => exact hended _ hs (List.contains_iff_mem.mp hkind)
    | one c =>
      rcases Bool.or_eq_true_iff.mp hkind with hkind | hkind
      · obtain ⟨zs, a, hpre, ha, hd⟩ :=
          harrow c (List.contains_iff_mem.mp hkind) hs vs x n rfl hx hn
        refine ⟨pre ++ zs, a, ?_, ha, ?_⟩
        · rw [List.append_assoc]
          exact (List.prefix_append_right_inj pre).mpr hpre
        · -- What stands before the last part is balanced, since the whole and this part are.
          rw [hs] at hm
          have hwhole := hbalanced.closed
          rw [hcut, Token.depth_append, (balanced_of_matches hm).closed] at hwhole
          rw [Token.depth_append, hd]
          omega
      · exact hended _ hs (List.contains_iff_mem.mp hkind)

/-- A lambda has its arrow behind its parameters. -/
private theorem arrowed_lambda (hm : Matches language (.node (.one .lambda)) ts) : Arrowed ts := by
  intro us x n heq hx _
  have hinner : ∀ c, c ≠ .compilationUnit → ∀ h, (.node (.one c) : Symbol Category) = .node h →
      Inner language h := fun c hc h hs ↦ by
    cases hs
    exact inner_of_ne hc
  obtain ⟨p, hp, hs⟩ := matches_node.mp hm
  simp only [productions, language, Category.rules, List.mem_cons, List.not_mem_nil, or_false] at hp
  rcases hp with rfl | rfl
  all_goals
    obtain ⟨params, ws, rfl, hparams, hs⟩ := spans_need.mp hs
    obtain ⟨a, ws, rfl, ha, hs⟩ := spans_need_tok.mp hs
    obtain ⟨body, ws, rfl, hbody, hnil⟩ := spans_need.mp hs
    obtain rfl := spans_nil.mp hnil
    rw [List.append_nil] at heq
    exact hasArrow_of_append heq ha (balanced_of_matches hparams).closed (by rw [hx]; decide)
      (hbody.ne_nil language_lawful (hinner _ (by decide)))

/-- What binds tighter than the sign of equality ends with a comparison with `null` only behind an
arrow. -/
theorem hasArrow_of_matches {us : List Token} {x n : Token} (hx : x.kind = .mark .equals)
    (hn : n.kind = .word .null)
    (hm : Matches language (.node (.one .relational)) (us ++ [x, n])) : Token.HasArrow us := by
  have key := Matches.induction (g := language)
    (P := fun s ts ↦ ∀ c ∈ tight, s = .node (.one c) → Arrowed ts)
    (fun t c _ hs ↦ by cases hs) (fun h p ts hp hc c hc' hs ↦ ?_) hm
  · exact key _ (by decide) rfl us x n rfl hx hn
  · cases hs
    have hm : Matches language (.node (.one c)) ts :=
      matches_node.mpr ⟨p, hp, spans_iff_covers.mpr (hc.mono fun _ _ _ h ↦ h.1)⟩
    by_cases hlambda : c = .lambda
    · subst hlambda
      exact arrowed_lambda hm
    · have hin : Inner language (.one c) := by
        refine inner_of_ne ?_
        rintro rfl
        exact absurd hc' (by decide)
      obtain ⟨hequals, hlast⟩ := closing_rules c hc' hlambda p hp
      exact arrowed_of_covers (fun e he h' hs ↦ language_lawful.inner (.inr hin) hp he hs) hequals
        hlast (balanced_of_matches hm) hc

end GuardLint.Syntax
