import GuardLint.Proofs.Scope.Placement
import GuardLint.Proofs.Syntax.Exchange

/-!
# Reading after the exchange

When some of the statements of a text that are calls have been exchanged for conditional throws, the
text is read as before, with what the throws are read as in place of these statements.
-/

namespace GuardLint

open Syntax Grammar

namespace Occurrence

/-! ### Where statements stand -/

/-- Where those of some calls stand that are statements by themselves. -/
def places (xs : List Occurrence) : List Location := xs.filterMap statement

@[simp] theorem places_nil : places [] = [] := rfl

@[simp] theorem places_append (xs ys : List Occurrence) :
    places (xs ++ ys) = places xs ++ places ys := List.filterMap_append

@[simp] theorem places_cons_none (c : Call) (b : Bool) (xs : List Occurrence) :
    places (⟨c, none, b⟩ :: xs) = places xs := rfl

@[simp] theorem places_cons_some (c : Call) (l : Location) (b : Bool) (xs : List Occurrence) :
    places (⟨c, some l, b⟩ :: xs) = l :: places xs := rfl

/-- Where statements stand does not depend on what follows. -/
theorem places_ofStmt (b : Bool) : (s : Stmt) → places (ofStmt b s) = places (ofStmt false s)
  | .ifElse _ c s none => by
    simp only [ofStmt, places_append, places_ofStmt b s]
  | .ifElse _ c s (some e) => by
    simp only [ofStmt, places_append, places_ofStmt b e]
  | .whileLoop _ c s => by
    simp only [ofStmt, places_append, places_ofStmt b s]
  | .forLoop _ i c u s => by
    simp only [ofStmt, places_append, places_ofStmt b s]
  | .forEach _ _ e s => by
    simp only [ofStmt, places_append, places_ofStmt b s]
  | .labeled _ _ s => by
    simp only [ofStmt, places_ofStmt b s]
  | .expr _ e => by cases e <;> simp [ofStmt]
  | .block _ | .vars _ | .doLoop .. | .returnStmt .. | .throwStmt .. | .breakStmt ..
  | .continueStmt .. | .empty _ | .tryStmt .. | .synchronizedStmt .. | .assertStmt ..
  | .switchStmt .. => by
    simp only [ofStmt]

private theorem places_ifElse (l : Location) (c : Expr) (s : Stmt) (e : Option Stmt) :
    places (ofStmt false (.ifElse l c s e)) =
      places (ofExpr c) ++ places (ofStmt false s) ++
        places (e.toList.flatMap (ofStmt false)) := by
  cases e with
  | none => simp [ofStmt]
  | some e => simp [ofStmt, places_ofStmt true s]

/-- Where the statements of what a production builds stand, unless it builds an expression
statement. -/
private theorem places_statement {p : Production Category.Value Stmt}
    (hp : p ∈ Category.rules .statement) (he : Rewrite.isExprStmt p.elements = false)
    (l : Location) (vs : Values Category.Value p.elements) :
    places (ofCategory false .statement (p.value l vs)) =
      places (ofElements false p.elements vs) := by
  cases hb : isBranching p.elements with
  | false => rw [ofCategory_statement false p hp hb]
  | true =>
    simp only [Category.rules, List.mem_cons, List.not_mem_nil, or_false] at hp
    rcases hp with rfl | rfl | rfl | rfl | rfl | rfl | rfl | rfl | rfl | rfl | rfl | rfl | rfl |
      rfl | rfl | rfl | rfl
    all_goals try exact absurd hb (by decide)
    · exact absurd he (by decide)
    · obtain ⟨_, _, c, _, s, e, _⟩ := vs
      simp [ofCategory.eq_def, Production.value, Action.apply, ofElements, ofElement, ofSymbol,
        places_ifElse]
    · obtain ⟨_, s, _, _, c, _⟩ := vs
      simp [ofCategory.eq_def, Production.value, Action.apply, ofElements, ofElement, ofSymbol, ofStmt]

/-- Where the statements of what a production builds stand is where those of its parts do, unless it
builds an expression statement. -/
theorem places_value {h : Head Category}
    {p : Production Category.Value (h.Value Category.Value)} (hp : p ∈ language.productions h)
    (he : h = .one .statement → Rewrite.isExprStmt p.elements = false) (l : Location)
    (vs : Values Category.Value p.elements) :
    (places (ofSymbol false (.node h) (p.value l vs))).Sublist
      (places (ofElements false p.elements vs)) := by
  cases h with
  | one c =>
    by_cases hcall : c = .methodCall
    · subst hcall
      obtain ⟨t, n, as, -, hcalls⟩ := ofCategory_methodCall false p hp l vs
      rw [ofSymbol, hcalls]
      exact List.Sublist.refl _
    by_cases hstmt : c = .statement
    · subst hstmt
      rw [ofSymbol, places_statement hp (he rfl)]
    by_cases hval : c = .elementValue
    · subst hval
      exact List.nil_sublist _
    rw [ofSymbol, ofCategory_value hcall hstmt hval (fun _ ↦ rfl) p hp]
  | run c =>
    simp only [productions, List.mem_cons, List.not_mem_nil, or_false] at hp
    rcases hp with rfl | rfl
    · obtain ⟨x, _⟩ := vs
      simp [ofElements, ofElement, ofSymbol, Production.value, Action.apply]
    · obtain ⟨xs, x, _⟩ := vs
      simp [ofElements, ofElement, ofSymbol, Production.value, Action.apply]

/-- An expression statement is built of an expression and a semicolon, and its calls are those of the
expression. -/
theorem parts_exprStmt {p : Production Category.Value Stmt} (hp : p ∈ Category.rules .statement)
    (he : Rewrite.isExprStmt p.elements = true)
    {M : (s : Symbol Category) → List Token → s.Value Category.Value → Prop} {ts : List Token}
    {vs : Values Category.Value p.elements} (hv : Parts M p.elements ts vs) :
    ∃ us ws e semicolon, ts = us ++ ws ∧ M (.node (.one .statementExpr)) us e ∧
      M (.tok (.mark .semicolon)) ws semicolon ∧ (∀ l, p.value l vs = .expr l e) ∧
      ofElements false p.elements vs = ofExpr e := by
  simp only [Category.rules, List.mem_cons, List.not_mem_nil, or_false] at hp
  rcases hp with rfl | rfl | rfl | rfl | rfl | rfl | rfl | rfl | rfl | rfl | rfl | rfl | rfl |
    rfl | rfl | rfl | rfl
  all_goals try exact absurd he (by decide)
  obtain ⟨e, semicolon, _⟩ := vs
  obtain ⟨us, ws, rfl, hcall, hv⟩ := parts_need.mp hv
  obtain ⟨ws, zs, rfl, hsemi, hv⟩ := parts_need.mp hv
  obtain rfl := parts_nil.mp hv
  exact ⟨us, ws, e, semicolon, by rw [List.append_nil], hcall, hsemi, fun _ ↦ rfl,
    by simp [ofElements, ofElement, ofSymbol, ofCategory.eq_def]⟩

/-- An expression statement stands where it is built, and the others in it where its parts have
them. -/
theorem places_exprStmt {l k : Location} {e : Expr}
    (hk : k ∈ places (ofStmt false (.expr l e))) : k = l ∨ k ∈ places (ofExpr e) := by
  cases e with
  | call cl t n as =>
    rw [ofStmt, places_cons_some, List.mem_cons] at hk
    exact hk.imp_right fun h ↦ by rwa [ofExpr, places_cons_none]
  | _ => exact .inr (by rwa [ofStmt] at hk; simp)

variable {ts us ws front back : List Token} {k : Location}

/-- Where a statement stands there are tokens. -/
theorem located {s : Symbol Category} {v : s.Value Category.Value}
    (hr : Reads language s ts v) (hb : bare s = false) (ho : Token.Ordered ts)
    (hk : k ∈ places (ofSymbol false s v)) :
    ∃ us, us <:+: ts ∧ us ≠ [] ∧ Token.cover us = k := by
  obtain ⟨o, hom, hol⟩ := List.mem_filterMap.mp hk
  obtain ⟨front, us, rest, rfl, hcover, hread, -⟩ := (fits_of_reads hr hb ho).stands o hom k hol
  refine ⟨us, ⟨front, rest, rfl⟩, ?_, hcover⟩
  exact hread.matches.ne_nil language_lawful fun _ hs ↦ by cases hs; exact inner_of_ne (by decide)

/-- Where a statement of some elements stands there are tokens. -/
theorem located_all {es : List (Element Category)} {vs : Values Category.Value es}
    (hp : Parts (Reads language) es ts vs) (hb : ∀ e ∈ es, bare e.symbol = false)
    (ho : Token.Ordered ts) (hk : k ∈ places (ofElements false es vs)) :
    ∃ us, us <:+: ts ∧ us ≠ [] ∧ Token.cover us = k := by
  induction es generalizing ts with
  | nil => cases hk
  | cons e es ih =>
    obtain ⟨v, vs⟩ := vs
    have hb' : ∀ e ∈ es, bare e.symbol = false := fun f hf ↦ hb f (List.mem_cons_of_mem e hf)
    rw [ofElements, places_append, List.mem_append] at hk
    rcases hp with ⟨us, ws, x, rfl, hx, rfl, hp⟩ | ⟨ha, hp⟩
    · rw [ofElement_present] at hk
      rcases hk with hk | hk
      · obtain ⟨zs, hz, hne, hc⟩ := located hx (hb e List.mem_cons_self) ho.append.1 hk
        exact ⟨zs, hz.trans (List.prefix_append us ws).isInfix, hne, hc⟩
      · obtain ⟨zs, hz, hne, hc⟩ := ih hp hb' ho.append.2 hk
        exact ⟨zs, hz.trans (List.suffix_append us ws).isInfix, hne, hc⟩
    · rw [ofElement_absent ha] at hk
      exact ih hp hb' ho (hk.resolve_left List.not_mem_nil)

/-- Tokens that begin on both sides of a cut are not at the same place. -/
private theorem cover_ne_of_head (ho : Token.Ordered (us ++ ws)) {xs ys : List Token} {x y : Token}
    (hx : xs.head? = some x) (hxu : x ∈ us) (hy : ys.head? = some y) (hyw : y ∈ ws) :
    Token.cover xs ≠ Token.cover ys := by
  intro h
  obtain ⟨xs, rfl⟩ := List.head?_eq_some_iff.mp hx
  obtain ⟨ys, rfl⟩ := List.head?_eq_some_iff.mp hy
  have hfirst := congrArg Location.first h
  rw [Token.first_cover, Token.first_cover] at hfirst
  exact ho.first_ne hxu hyw hfirst

/-- Tokens that end on both sides of a cut are not at the same place. -/
private theorem cover_ne_of_last (ho : Token.Ordered (us ++ ws)) {xs ys : List Token} {x y : Token}
    (hx : xs.getLast? = some x) (hxu : x ∈ us) (hy : ys.getLast? = some y) (hyw : y ∈ ws) :
    Token.cover xs ≠ Token.cover ys := by
  intro h
  have hlast := congrArg Location.last h
  rw [Token.last_cover hx, Token.last_cover hy] at hlast
  exact ho.last_ne hxu hyw hlast

/-! ### Parts side by side -/

variable {f : Rewrite} {post ts' pre pre' us' ws' : List Token} {g : Throw}

/-- Statements are exchanged on one side of a cut between the first of some elements and the
others. -/
private theorem swapped_cut {e : Element Category} {es : List (Element Category)}
    {v : e.symbol.Value Category.Value} {vs : Values Category.Value es}
    (hr : Reads language e.symbol us v) (hp : Parts (Reads language) es ws vs)
    (hb : ∀ f ∈ e :: es, bare f.symbol = false) (ho : Token.Ordered (us ++ ws))
    (h : Swapped f (· ∈ places (ofElements false (e :: es) (e.present v, vs))) post (us ++ ws) ts') :
    ∃ us' ws', ts' = us' ++ ws' ∧
      Swapped f (· ∈ places (ofSymbol false e.symbol v)) (ws ++ post) us us' ∧
      Swapped f (· ∈ places (ofElements false es vs)) post ws ws' := by
  obtain ⟨hou, how⟩ := ho.append
  have hb' : ∀ f ∈ es, bare f.symbol = false := fun f hf ↦ hb f (List.mem_cons_of_mem e hf)
  have hmem : ∀ k, k ∈ places (ofElements false (e :: es) (e.present v, vs)) →
      k ∈ places (ofSymbol false e.symbol v) ∨ k ∈ places (ofElements false es vs) := by
    intro k hk
    rwa [ofElements, ofElement_present, places_append, List.mem_append] at hk
  rcases h.cut_before with ⟨us', ws', rfl, hu, hw⟩ |
    ⟨pre, front, back, rest, rfl, rfl, hf, hbk, hl⟩
  · refine ⟨us', ws', rfl, hu.imp fun xs hx hne hk ↦ ?_, hw.imp fun xs hx hne hk ↦ ?_⟩
    · refine (hmem _ hk).resolve_right fun hk ↦ ?_
      obtain ⟨ys, hy, hne', hc⟩ := located_all hp hb' how hk
      exact cover_ne_of_head ho (List.head?_eq_some_head hne) (hx.subset (List.head_mem hne))
        (List.head?_eq_some_head hne') (hy.subset (List.head_mem hne')) hc.symm
    · refine (hmem _ hk).resolve_left fun hk ↦ ?_
      obtain ⟨ys, hy, hne', hc⟩ := located hr (hb e List.mem_cons_self) hou hk
      exact cover_ne_of_head ho (List.head?_eq_some_head hne') (hy.subset (List.head_mem hne'))
        (List.head?_eq_some_head hne) (hx.subset (List.head_mem hne)) hc
  · -- No statement stands across the cut.
    exfalso
    rcases hmem _ hl with hk | hk
    · obtain ⟨ys, hy, hne', hc⟩ := located hr (hb e List.mem_cons_self) hou hk
      refine cover_ne_of_last ho (List.getLast?_eq_some_getLast hne')
        (hy.subset (List.getLast_mem hne')) ?_
        (List.mem_append_left rest (List.getLast_mem hbk)) hc
      rw [List.getLast?_append_of_ne_nil _ hbk, List.getLast?_eq_some_getLast hbk]
    · obtain ⟨ys, hy, hne', hc⟩ := located_all hp hb' how hk
      refine cover_ne_of_head ho ?_ (List.mem_append_right pre (List.head_mem hf))
        (List.head?_eq_some_head hne') (hy.subset (List.head_mem hne')) hc.symm
      rw [List.head?_append_of_ne_nil _ hf, List.head?_eq_some_head hf]

/-! ### What is read before -/

/-- What stands before the parts that are left of a production, before and after the exchange. The
word `if` is kept by itself, since it also begins a conditional throw. -/
private inductive Led (f : Rewrite) (post : List Token) :
    List (Element Category) → List Token → List Token → Prop where
  | free {front : List (Element Category)} {pre pre' : List Token} :
      IfFree front → Swapped f (fun _ ↦ True) post pre pre' → Led f post front pre pre'
  | word {front : List (Element Category)} {t t' : Token} {pre pre' : List Token} :
      IfFree front → t'.kind = t.kind → Swapped f (fun _ ↦ True) post pre pre' →
      Led f post (.need (.tok (.word .if)) :: front) (t :: pre) (t' :: pre')

variable {front : List (Element Category)}

private theorem Led.append (h : Led f (us ++ post) front pre pre')
    (hu : Swapped f (fun _ ↦ True) post us us') : Led f post front (pre ++ us) (pre' ++ us') := by
  cases h with
  | free hfree h => exact .free hfree (h.append hu)
  | word hfree hk h => exact .word hfree hk (h.append hu)

private theorem ifFree_concat {es : List (Element Category)} {e : Element Category}
    (hes : IfFree es) (he : e.symbol ≠ .tok (.word .if)) : IfFree (es ++ [e]) := by
  intro x hx
  rcases List.mem_append.mp hx with hx | hx
  · exact hes x hx
  · rwa [List.mem_singleton.mp hx]

private theorem Led.concat {e : Element Category} (h : Led f post front pre pre')
    (he : e.symbol ≠ .tok (.word .if)) : Led f post (front ++ [e]) pre pre' := by
  cases h with
  | free hfree h => exact .free (ifFree_concat hfree he) h
  | word hfree hk h => exact .word (ifFree_concat hfree he) hk h

/-- What belongs to the first elements after the exchange did so before. -/
private theorem Led.spans (h : Led f post front pre pre') (hs : Spans language front pre') :
    Spans language front pre := by
  cases h with
  | free hfree h => exact h.spans_of_ifFree hfree hs
  | word hfree hk h =>
    obtain ⟨t, ws, heq, ht, hs⟩ := spans_need_tok.mp hs
    obtain ⟨rfl, rfl⟩ := List.cons.inj heq
    exact spans_need_tok.mpr ⟨_, _, rfl, hk.symm.trans ht, h.spans_of_ifFree hfree hs⟩

/-- The first elements do not end inside a conditional throw. -/
private theorem Led.not_cut {back : List Token} {zs xs : List Token}
    (h : Led f post front pre pre') (hg : g.tokens = xs ++ back) (hx : xs ≠ [])
    (hb : back ≠ []) : ¬ Spans language front (pre' ++ (zs ++ xs)) := by
  intro hs
  cases h with
  | free hfree h =>
    rw [← List.append_assoc] at hs
    exact Throw.not_spans_cut hfree hg hx hb hs
  | word hfree hk h =>
    obtain ⟨t, ws, heq, -, hs⟩ := spans_need_tok.mp hs
    obtain ⟨-, rfl⟩ := List.cons.inj heq
    rw [List.append_eq, ← List.append_assoc] at hs
    exact Throw.not_spans_cut hfree hg hx hb hs

/-- Where the first elements end after the exchange, they ended before. -/
private theorem Led.cut {xs' ys' : List Token} (h : Led f post front pre (xs' ++ ys'))
    (hs : Spans language front xs') :
    ∃ xs ys, pre = xs ++ ys ∧ Spans language front xs ∧
      Swapped f (fun _ ↦ True) post ys ys' := by
  generalize hpre : xs' ++ ys' = pre' at h
  cases h with
  | free hfree h =>
    subst hpre
    rcases h.cut with ⟨xs, ys, rfl, hx, hy⟩ | ⟨g, zs, us, back, rfl, hg, hu, hb⟩
    · exact ⟨xs, ys, rfl, hx.spans_of_ifFree hfree hs, hy⟩
    · exact absurd hs (Throw.not_spans_cut hfree hg hu hb)
  | word hfree hk h =>
    obtain ⟨t, ws, rfl, ht, hs⟩ := spans_need_tok.mp hs
    obtain ⟨rfl, rfl⟩ := List.cons.inj hpre
    rcases h.cut with ⟨xs, ys, rfl, hx, hy⟩ | ⟨g, zs, us, back, rfl, hg, hu, hb⟩
    · exact ⟨_ :: xs, ys, rfl, spans_need_tok.mpr
        ⟨_, _, rfl, hk.symm.trans ht, hx.spans_of_ifFree hfree hs⟩, hy⟩
    · exact absurd hs (Throw.not_spans_cut hfree hg hu hb)

/-- No part that is there begins later after the exchange than before. -/
private theorem Led.latest {e : Element Category}
    (h : Led f (us ++ ws) front pre pre') (hu : Swapped f (fun _ ↦ True) ws us us')
    (hlast : ∀ xs ys, us = xs ++ ys → Spans language front (pre ++ xs) →
      Matches language e.symbol ys → xs = []) :
    ∀ xs ys, us' = xs ++ ys → Spans language front (pre' ++ xs) →
      Matches language e.symbol ys → xs = [] := by
  rintro xs' ys' rfl hs hm
  rcases hu.cut with ⟨xs, ys, rfl, hx, hy⟩ | ⟨g, zs, vs, back, rfl, hg, hv, hb⟩
  · rw [List.append_assoc] at h
    obtain rfl := hlast xs ys rfl ((h.append hx).spans hs) (hy.matches hm)
    exact hx.nil_eq
  · exact absurd hs (h.not_cut hg hv hb)

/-! ### Reading -/

/-- In a statement that is not exchanged as a whole, statements are exchanged in its parts. -/
private theorem swapped_parts {h : Head Category}
    {p : Production Category.Value (h.Value Category.Value)} (hp : p ∈ language.productions h)
    {ts : List Token} {vs : Values Category.Value p.elements}
    (hr : Parts (Reads language) p.elements ts vs) (ho : Token.Ordered ts)
    (hwhole : h = .one .statement → ∀ g, Exchanged f ts g → ts' ≠ g.tokens)
    (hsw : Swapped f (· ∈ places (ofSymbol false (.node h) (p.value (Token.cover ts) vs))) post
      ts ts') :
    (h = .one .statement → Rewrite.isExprStmt p.elements = true → f (Token.cover ts) = none) ∧
      Swapped f (· ∈ places (ofElements false p.elements vs)) post ts ts' := by
  by_cases hexpr : h = .one .statement ∧ Rewrite.isExprStmt p.elements = true
  · obtain ⟨rfl, he⟩ := hexpr
    obtain ⟨us, ws, e, semicolon, rfl, hcall, hsemi, hvalue, hcalls⟩ := parts_exprStmt hp he hr
    have hk : semicolon.kind = .mark .semicolon := hsemi.tok_kind
    rw [hvalue] at hsw
    rw [hcalls]
    rw [hsemi.tok_eq] at ho hsw hwhole ⊢
    rcases hsw.exprStmt_cases hcall.matches hk ho with ⟨g, hg, rfl⟩ | ⟨hf, hsw⟩
    · exact absurd rfl (hwhole rfl g hg)
    · exact ⟨fun _ _ ↦ hf, hsw.imp fun us _ _ hl ↦ (places_exprStmt hl.1).resolve_left hl.2⟩
  · refine ⟨fun hh he ↦ absurd ⟨hh, he⟩ hexpr, hsw.imp fun us _ _ hl ↦ ?_⟩
    refine (places_value hp (fun hh ↦ ?_) _ _).subset hl
    cases he : Rewrite.isExprStmt p.elements with
    | false => rfl
    | true => exact absurd ⟨hh, he⟩ hexpr

/-- The word `if` comes first among the elements that are left, or not at all. -/
private def IfFirst (front es : List (Element Category)) (pre : List Token) : Prop :=
  IfFree es ∨ front = [] ∧ pre = [] ∧
    ∃ rest, es = .need (.tok (.word .if)) :: rest ∧ IfFree rest

private theorem ifFirst_productions {h : Head Category}
    {p : Production Category.Value (h.Value Category.Value)} (hp : p ∈ language.productions h) :
    IfFirst [] p.elements [] := by
  rcases ifFree_or hp with hfree | ⟨-, he⟩
  · exact .inl hfree
  · exact .inr ⟨rfl, rfl, _, he, by unfold IfFree; decide⟩

/-- The word `if` is not exchanged. -/
private theorem swapped_word {L : Location → Prop} {t : Token} (ht : t.kind = .word .if)
    (h : Swapped f L post (t :: ws) ts') : ∃ t' ws', ts' = t' :: ws' ∧ t'.kind = t.kind ∧
      t'.text = t.text ∧ Swapped f L post ws ws' := by
  generalize hts : t :: ws = ts at h
  cases h with
  | nil => cases hts
  | keep hk htext _ h =>
    obtain ⟨rfl, rfl⟩ := List.cons.inj hts
    exact ⟨_, _, rfl, hk, htext, h⟩
  | swap he => exact absurd ht (he.head_ne (congrArg List.head? hts.symm))

private theorem reads_tok {k : Kind} {t t' : Token} (hr : Reads language (.tok k) us t)
    (hk : t'.kind = t.kind) (ht : t'.text = t.text) : Reads language (.tok k) [t'] t' ∧
      Rewrite.none.symbol (.tok k) t' = f.symbol (.tok k) t := by
  obtain rfl := hr.tok_kind
  constructor
  · rw [← hk]
    exact .tok t'
  · obtain ⟨kind, text, l⟩ := t
    obtain ⟨kind', text', l'⟩ := t'
    subst hk ht
    rfl

/-- The word `if` is read as before, and so are the elements after it if they are so after any
token that is the word. -/
private theorem readsAll_word {rest : List (Element Category)} {t : Token}
    {vs : Values Category.Value rest} (hr : Reads language (.tok (.word .if)) [t] t)
    (hsw : Swapped f
      (· ∈ places (ofElements false (.need (.tok (.word .if)) :: rest) (t, vs))) post
      (t :: ws) ts')
    (hnext : ∀ {t' : Token} {ws' : List Token},
      Led f (ws ++ post) [.need (.tok (.word .if))] [t] [t'] →
      Spans language [.need (.tok (.word .if))] [t'] →
      Swapped f (· ∈ places (ofElements false rest vs)) post ws ws' →
      ∃ vs', ReadsAll language [.need (.tok (.word .if))] rest [t'] ws' vs' ∧
        Rewrite.none.elements rest vs' = f.elements rest vs) :
    ∃ vs', ReadsAll language [] (.need (.tok (.word .if)) :: rest) [] ts' vs' ∧
      Rewrite.none.elements (.need (.tok (.word .if)) :: rest) vs' =
        f.elements (.need (.tok (.word .if)) :: rest) (t, vs) := by
  obtain ⟨t', ws', rfl, hk, ht, hw⟩ := swapped_word hr.tok_kind hsw
  obtain ⟨hr', hval⟩ := reads_tok (f := f) hr hk ht
  have hfree : IfFree [] := fun e he ↦ absurd he List.not_mem_nil
  have hspan : Spans language [.need (.tok (.word .if))] [t'] :=
    spans_need_tok.mpr ⟨t', [], rfl, hk.trans hr.tok_kind, spans_nil.mpr rfl⟩
  obtain ⟨vs', hvs', hvs⟩ := hnext (.word hfree hk .nil) hspan hw
  refine ⟨(t', vs'), ?_, ?_⟩
  · refine .present (e := .need (.tok (.word .if))) (spans_nil.mpr rfl) hr' (fun xs ys _ hs _ ↦ ?_)
      hvs'
    exact spans_nil.mp hs
  · rw [Rewrite.elements, Rewrite.elements, hvs]
    exact congrArg (·, f.elements rest vs) hval

mutual

/-- What is read from tokens in which statements have been exchanged is what was read from them,
with what the conditional throws are read as in place of these statements. -/
theorem reads_exchange {f : Rewrite} : {s : Symbol Category} → {ts : List Token} →
    {v : s.Value Category.Value} → Reads language s ts v → bare s = false → Token.Ordered ts →
    {post ts' : List Token} → Swapped f (· ∈ places (ofSymbol false s v)) post ts ts' →
    ∃ v', Reads language s ts' v' ∧ Rewrite.none.symbol s v' = f.symbol s v
  | _, _, _, .tok t, _, _, _, _, hsw => by
    generalize hts : [t] = ts at hsw
    cases hsw with
    | nil => cases hts
    | keep hk ht _ h =>
      obtain ⟨rfl, rfl⟩ := List.cons.inj hts
      obtain rfl := h.nil_eq
      exact ⟨_, reads_tok (.tok t) hk ht⟩
    | swap he =>
      have hlen := congrArg List.length hts
      have := he.one_lt_length
      rw [List.length_append, List.length_singleton] at hlen
      omega
  | _, ts, _, .node (h := h) (p := p) hp hfirst hr, hb, ho, post, ts', hsw => by
    have hmem := List.mem_of_getElem? hp
    by_cases hwhole : h = .one .statement ∧ ∃ g, Exchanged f ts g ∧ ts' = g.tokens
    · obtain ⟨rfl, g, he, rfl⟩ := hwhole
      obtain ⟨call, semicolon, rfl, hm, hk⟩ := he.exprStmt
      obtain ⟨v', hv', hf⟩ := he.value
      obtain ⟨e, heq, -⟩ := reads_exprStmt hm hk (.node hp hfirst hr)
      refine ⟨v', hv', ?_⟩
      rw [heq]
      show Rewrite.none.stmt v' = f.stmt (.expr _ e)
      rw [Rewrite.stmt, hf, Option.getD_some]
    · obtain ⟨hf, hparts⟩ := swapped_parts hmem hr.parts_reads ho
        (fun hh g hg heq ↦ hwhole ⟨hh, g, hg, heq⟩) hsw
      have hfree : IfFree [] := fun e he ↦ absurd he List.not_mem_nil
      obtain ⟨vs', hr', hvs⟩ := readsAll_exchange hr (bare_of_mem hb hmem) ho
        (ifFirst_productions hmem) (.free hfree .nil) (spans_nil.mpr rfl) hparts
      refine ⟨_, .node hp (fun q hq hs ↦ ?_) hr', ?_⟩
      · rcases hsw.spans (List.mem_of_mem_take hq) hs with hs | hall
        · exact hfirst q hq hs
        · exact hwhole hall
      · rw [Rewrite.symbol_value _ hmem (fun _ _ ↦ rfl), hvs, Rewrite.symbol_value f hmem hf]

/-- What is read for some elements of a production, after some tokens that are read before. -/
private theorem readsAll_exchange {f : Rewrite} : {front es : List (Element Category)} →
    {pre ts : List Token} → {vs : Values Category.Value es} →
    ReadsAll language front es pre ts vs → (∀ e ∈ es, bare e.symbol = false) →
    Token.Ordered ts → IfFirst front es pre → {post pre' ts' : List Token} →
    Led f (ts ++ post) front pre pre' → Spans language front pre' →
    Swapped f (· ∈ places (ofElements false es vs)) post ts ts' →
    ∃ vs', ReadsAll language front es pre' ts' vs' ∧
      Rewrite.none.elements es vs' = f.elements es vs
  | _, _, _, _, _, .nil, _, _, _, _, _, _, _, _, hsw => by
    obtain rfl := hsw.nil_eq
    exact ⟨⟨⟩, .nil, rfl⟩
  | _, _, _, _, _, .present (e := e) hf hv hlast hr, hb, ho, hif, post, pre', ts', hled, hspan,
      hsw => by
    have hb' := fun f hf ↦ hb f (List.mem_cons_of_mem e hf)
    have hrest := readsAll_exchange (f := f) hr hb' ho.append.2
    rcases hif with hfree | ⟨rfl, rfl, rest, heq, hfree⟩
    · have hne := hfree e List.mem_cons_self
      have hfree' := fun f hf ↦ hfree f (List.mem_cons_of_mem e hf)
      obtain ⟨us', ws', rfl, hu, hw⟩ := swapped_cut hv hr.parts_reads hb ho hsw
      have hu' : Swapped f (fun _ ↦ True) _ _ _ := hu.imp fun _ _ _ _ ↦ trivial
      rw [List.append_assoc] at hled
      obtain ⟨v', hv', hval⟩ := reads_exchange hv (hb e List.mem_cons_self) ho.append.1 hu
      have hspan' : Spans language (_ ++ [e]) (pre' ++ us') := spans_append.mpr
        ⟨_, _, rfl, hspan, spans_cons.mpr (.inl ⟨us', [], (List.append_nil us').symm, hv'.matches,
          spans_nil.mpr rfl⟩)⟩
      obtain ⟨vs', hr', hvs⟩ := hrest (.inl hfree')
        ((hled.append hu').concat hne) hspan' hw
      refine ⟨_, .present hspan hv' (hled.latest hu' hlast) hr', ?_⟩
      rw [Rewrite.elements, Rewrite.elements, Rewrite.element_present, Rewrite.element_present,
        hval, hvs]
    · -- The word `if` is kept, and with it begins what is read before the other elements.
      obtain ⟨rfl, rfl⟩ := List.cons.inj heq
      obtain rfl := spans_nil.mp hspan
      have htok := hv.tok_eq
      subst htok
      exact readsAll_word hv hsw fun hled hspan hw ↦ hrest (.inl hfree) hled hspan hw
  | _, _, _, _, _, .absent (e := e) hf ha hnone hr, hb, ho, hif, post, pre', ts', hled, hspan,
      hsw => by
    have hb' := fun f hf ↦ hb f (List.mem_cons_of_mem e hf)
    rcases hif with hfree | ⟨rfl, rfl, rest, heq, -⟩
    · have hne := hfree e List.mem_cons_self
      have hfree' := fun f hf ↦ hfree f (List.mem_cons_of_mem e hf)
      rw [ofElements, ofElement_absent ha, List.nil_append] at hsw
      have hspan' : Spans language (_ ++ [e]) (pre' ++ []) := spans_append.mpr
        ⟨_, _, rfl, hspan, spans_cons.mpr (.inr ⟨(optional_iff_absent? e).mpr ⟨_, ha⟩,
          spans_nil.mpr rfl⟩)⟩
      rw [List.append_nil] at hspan'
      obtain ⟨vs', hr', hvs⟩ := readsAll_exchange hr hb' ho (.inl hfree') (hled.concat hne)
        hspan' hsw
      refine ⟨_, .absent hspan ha (fun xs ys hxy hs hm ↦ ?_) hr', ?_⟩
      · subst hxy
        obtain ⟨zs, ws, rfl, hz, hw⟩ := hled.cut hs
        exact hnone zs ws rfl hz (hw.matches hm)
      · rw [Rewrite.elements, Rewrite.elements, Rewrite.element_absent _ ha,
          Rewrite.element_absent _ ha, hvs]
    · obtain ⟨rfl, rfl⟩ := List.cons.inj heq
      cases ha

end

end Occurrence

end GuardLint
