import GuardLint.Proofs.Syntax.Order
import GuardLint.Proofs.Syntax.Rewrite
import GuardLint.Proofs.Syntax.Throw

/-!
# Exchanging statements for conditional throws

Tokens in which some expression statements have been exchanged for conditional throws, and the
others kept, perhaps at other places. Nothing new comes of it: what belongs to a category after the
exchange did so before. An `else` after a throw would belong to it, so none may follow.
-/

namespace GuardLint.Syntax

open Grammar

/-- The tokens of an expression statement, for which a rewrite puts what the tokens of a conditional
throw are read as. -/
structure Exchanged (f : Rewrite) (ts : List Token) (g : Throw) : Prop where
  exprStmt : ∃ call semicolon, ts = call ++ [semicolon] ∧
    Matches language (.node (.one .statementExpr)) call ∧ semicolon.kind = .mark .semicolon
  value : ∃ v, Reads language (.node (.one .statement)) g.tokens v ∧
    f (Token.cover ts) = some (Rewrite.none.stmt v)

/-- Some tokens, which others follow, after expression statements at places that satisfy `L` have been
exchanged. A token that is kept begins no statement that the rewrite replaces. -/
inductive Swapped (f : Rewrite) (L : Location → Prop) (post : List Token) :
    List Token → List Token → Prop where
  | nil : Swapped f L post [] []
  | keep {t t' : Token} {ts ts' : List Token} :
      t'.kind = t.kind → t'.text = t.text → (∀ l, l.first = t.location.first → f l = none) →
      Swapped f L post ts ts' → Swapped f L post (t :: ts) (t' :: ts')
  | swap {us ts ts' : List Token} {g : Throw} :
      Exchanged f us g → L (Token.cover us) →
      (∀ t, (ts ++ post).head? = some t → t.kind ≠ .word .else) →
      Swapped f L post ts ts' → Swapped f L post (us ++ ts) (g.tokens ++ ts')

variable {f : Rewrite} {L L' : Location → Prop} {post ts us ws ts' us' ws' : List Token}
  {g : Throw}

theorem Exchanged.matches (h : Exchanged f ts g) :
    Matches language (.node (.one .statement)) ts := by
  obtain ⟨call, semicolon, rfl, hm, hs⟩ := h.exprStmt
  refine matches_node.mpr ⟨_, List.mem_of_getElem? (i := 2) rfl, ?_⟩
  exact spans_need.mpr ⟨_, _, rfl, hm, spans_need_tok.mpr ⟨_, _, rfl, hs, spans_nil.mpr rfl⟩⟩

private theorem statementExpr_ne_nil
    (hm : Matches language (.node (.one .statementExpr)) ts) : ts ≠ [] :=
  hm.ne_nil language_lawful fun _ hs ↦ by cases hs; exact inner_of_ne (by decide)

theorem Exchanged.one_lt_length (h : Exchanged f ts g) : 1 < ts.length := by
  obtain ⟨call, semicolon, rfl, hm, -⟩ := h.exprStmt
  have := List.length_pos_iff.mpr (statementExpr_ne_nil hm)
  rw [List.length_append, List.length_singleton]
  omega

theorem Exchanged.ne_nil (h : Exchanged f ts g) : ts ≠ [] :=
  List.length_pos_iff.mp (Nat.lt_trans Nat.zero_lt_one h.one_lt_length)

/-- An expression statement does not begin with `if`. -/
theorem Exchanged.head_ne (h : Exchanged f us g) {t : Token} (ht : (us ++ ts).head? = some t) :
    t.kind ≠ .word .if := by
  obtain ⟨call, semicolon, rfl, hm, -⟩ := h.exprStmt
  obtain ⟨u, call, rfl⟩ := List.exists_cons_of_ne_nil (statementExpr_ne_nil hm)
  obtain rfl : u = t := Option.some.inj ht
  intro hk
  have hstart := hm.symbolMayStart language_lawful
    fun _ hs ↦ by cases hs; exact .inr (inner_of_ne (by decide))
  rw [hk] at hstart
  cases hstart

/-! ### Places -/

/-- Where statements are exchanged matters only for the statements that there are. -/
theorem Swapped.imp (h : Swapped f L post ts ts')
    (hL : ∀ us, us <:+: ts → us ≠ [] → L (Token.cover us) → L' (Token.cover us)) :
    Swapped f L' post ts ts' := by
  induction h with
  | nil => exact .nil
  | keep hk ht hf _ ih => exact .keep hk ht hf (ih fun us hu ↦ hL us (List.infix_cons hu))
  | swap he hl hn _ ih =>
    exact .swap he (hL _ (List.prefix_append _ _).isInfix he.ne_nil hl) hn
      (ih fun us hu ↦ hL us (hu.trans (List.suffix_append _ _).isInfix))

/-- Tokens side by side. -/
theorem Swapped.append (hu : Swapped f L (ws ++ post) us us') (hw : Swapped f L post ws ws') :
    Swapped f L post (us ++ ws) (us' ++ ws') := by
  induction hu with
  | nil => exact hw
  | keep hk ht hf _ ih => exact .keep hk ht hf ih
  | swap he hl hn _ ih =>
    rw [List.append_assoc, List.append_assoc]
    exact .swap he hl (by rwa [List.append_assoc]) ih

/-- What follows after the exchange begins with `else` only if it did before. -/
theorem Swapped.head_else (h : Swapped f L post ts ts') {t' : Token} (ht' : ts'.head? = some t')
    (hk : t'.kind = .word .else) : ∃ t, ts.head? = some t ∧ t.kind = .word .else := by
  cases h with
  | nil => cases ht'
  | keep hk' =>
    obtain rfl := Option.some.inj ht'
    exact ⟨_, rfl, hk'.symm.trans hk⟩
  | swap =>
    obtain rfl := Option.some.inj ht'
    rw [Throw.word_kind] at hk
    cases hk

/-! ### Cutting -/

private theorem append_cut {α : Type} {us ws xs ys : List α} (h : us ++ ws = xs ++ ys) :
    (∃ zs, xs = us ++ zs ∧ ws = zs ++ ys) ∨
      ∃ zs, zs ≠ [] ∧ us = xs ++ zs ∧ ys = zs ++ ws := by
  rcases List.append_eq_append_iff.mp h with ⟨zs, rfl, rfl⟩ | ⟨zs, rfl, rfl⟩
  · exact .inl ⟨zs, rfl, rfl⟩
  · cases zs with
    | nil => exact .inl ⟨[], by simp, rfl⟩
    | cons z zs => exact .inr ⟨z :: zs, List.cons_ne_nil z zs, rfl, rfl⟩

/-- Tokens after the exchange are cut at a place of the tokens before it, or inside a conditional
throw. -/
theorem Swapped.cut (h : Swapped f L post ts (us' ++ ws')) :
    (∃ us ws, ts = us ++ ws ∧ Swapped f L (ws ++ post) us us' ∧ Swapped f L post ws ws') ∨
      ∃ (g : Throw) (pre front back : List Token), us' = pre ++ front ∧
        g.tokens = front ++ back ∧ front ≠ [] ∧ back ≠ [] := by
  generalize heq : us' ++ ws' = ts' at h
  induction h generalizing us' with
  | nil =>
    obtain ⟨rfl, rfl⟩ := List.append_eq_nil_iff.mp heq
    exact .inl ⟨[], [], rfl, .nil, .nil⟩
  | @keep t t' ts ts' hk ht hf h ih =>
    cases us' with
    | nil =>
      rw [List.nil_append] at heq
      exact .inl ⟨[], t :: ts, rfl, .nil, by rw [heq]; exact .keep hk ht hf h⟩
    | cons u us' =>
      obtain ⟨rfl, hcons⟩ := List.cons.inj heq
      rcases ih hcons with ⟨us, ws, rfl, hu, hw⟩ | ⟨g, pre, front, back, rfl, hg⟩
      · exact .inl ⟨t :: us, ws, rfl, .keep hk ht hf hu, hw⟩
      · exact .inr ⟨g, u :: pre, front, back, rfl, hg⟩
  | @swap vs ts ts' g he hl hn h ih =>
    rcases append_cut heq.symm with ⟨zs, rfl, rfl⟩ | ⟨zs, hz, hg, rfl⟩
    · rcases ih rfl with ⟨us, ws, rfl, hu, hw⟩ | ⟨g', pre, front, back, rfl, hg⟩
      · exact .inl ⟨vs ++ us, ws, by rw [List.append_assoc],
          .swap he hl (by rwa [List.append_assoc] at hn) hu, hw⟩
      · exact .inr ⟨g', g.tokens ++ pre, front, back, by rw [List.append_assoc], hg⟩
    · cases us' with
      | nil => exact .inl ⟨[], vs ++ ts, rfl, .nil, by
          rw [List.nil_append] at hg
          rw [← hg]
          exact .swap he hl hn h⟩
      | cons u us' =>
        exact .inr ⟨g, [], u :: us', zs, rfl, hg, List.cons_ne_nil u us', hz⟩

/-- Tokens before the exchange are cut at a place of the tokens after it, or inside a statement that
is exchanged. -/
theorem Swapped.cut_before (h : Swapped f L post (us ++ ws) ts') :
    (∃ us' ws', ts' = us' ++ ws' ∧ Swapped f L (ws ++ post) us us' ∧ Swapped f L post ws ws') ∨
      ∃ pre front back rest, us = pre ++ front ∧ ws = back ++ rest ∧ front ≠ [] ∧ back ≠ [] ∧
        L (Token.cover (front ++ back)) := by
  generalize heq : us ++ ws = ts at h
  induction h generalizing us with
  | nil =>
    obtain ⟨rfl, rfl⟩ := List.append_eq_nil_iff.mp heq
    exact .inl ⟨[], [], rfl, .nil, .nil⟩
  | @keep t t' ts ts' hk ht hf h ih =>
    cases us with
    | nil =>
      rw [List.nil_append] at heq
      exact .inl ⟨[], t' :: ts', rfl, .nil, by rw [heq]; exact .keep hk ht hf h⟩
    | cons u us =>
      obtain ⟨rfl, hcons⟩ := List.cons.inj heq
      rcases ih hcons with ⟨us', ws', rfl, hu, hw⟩ | ⟨pre, front, back, rest, rfl, hcut⟩
      · exact .inl ⟨t' :: us', ws', rfl, .keep hk ht hf hu, hw⟩
      · exact .inr ⟨u :: pre, front, back, rest, rfl, hcut⟩
  | @swap vs ts ts' g he hl hn h ih =>
    rcases append_cut heq.symm with ⟨zs, rfl, rfl⟩ | ⟨zs, hz, rfl, rfl⟩
    · rcases ih rfl with ⟨us', ws', rfl, hu, hw⟩ | ⟨pre, front, back, rest, rfl, hcut⟩
      · exact .inl ⟨g.tokens ++ us', ws', by rw [List.append_assoc],
          .swap he hl (by rwa [List.append_assoc] at hn) hu, hw⟩
      · exact .inr ⟨vs ++ pre, front, back, rest, by rw [List.append_assoc], hcut⟩
    · cases us with
      | nil => exact .inl ⟨[], g.tokens ++ ts', rfl, .nil, .swap he hl hn h⟩
      | cons u us =>
        exact .inr ⟨[], u :: us, zs, ts, rfl, rfl, List.cons_ne_nil u us, hz, hl⟩

/-! ### Nothing new -/

theorem Swapped.nil_eq (h : Swapped f L post [] ts') : ts' = [] := by
  generalize hn : ([] : List Token) = ts at h
  cases h with
  | nil => rfl
  | keep => cases hn
  | swap he => exact absurd (List.append_eq_nil_iff.mp hn.symm).1 he.ne_nil

theorem Swapped.eq_nil (h : Swapped f L post ts []) : ts = [] := by
  generalize hn : ([] : List Token) = ts' at h
  cases h with
  | nil => rfl
  | keep => cases hn
  | swap => cases (List.append_eq_nil_iff.mp hn.symm).1

/-- A token after the exchange is one that was kept. -/
private theorem Swapped.singleton {t' : Token} (h : Swapped f L post ts [t']) :
    ∃ t, ts = [t] ∧ t'.kind = t.kind := by
  generalize hs : [t'] = ts' at h
  cases h with
  | nil => cases hs
  | keep hk _ _ h =>
    obtain ⟨rfl, rfl⟩ := List.cons.inj hs
    obtain rfl := h.eq_nil
    exact ⟨_, rfl, hk⟩
  | @swap _ _ _ g =>
    have hlen := congrArg List.length hs
    have := g.one_lt_length
    rw [List.length_append, List.length_singleton] at hlen
    omega

/-- What is shown of tokens after the exchange. -/
private def Old (f : Rewrite) (L : Location → Prop) (s : Symbol Category) (ts' : List Token) :
    Prop := ∀ post ts, Swapped f L post ts ts' → Matches language s ts

private theorem covers_old {es : List (Element Category)} (hfree : IfFree es)
    (hc : Covers (fun s us ↦ Matches language s us ∧ Old f L s us) es ts')
    (h : Swapped f L post ts ts') : Covers (Matches language) es ts := by
  induction es generalizing post ts ts' with
  | nil =>
    cases (hc : ts' = [])
    exact h.eq_nil
  | cons e es ih =>
    have hfree' : IfFree es := fun f hf ↦ hfree f (List.mem_cons_of_mem e hf)
    rcases hc with ⟨us', ws', rfl, ⟨hm, hold⟩, hc⟩ | ⟨ho, hc⟩
    · rcases h.cut with ⟨us, ws, rfl, hu, hw⟩ | ⟨g, pre, front, back, rfl, hg, hf, hb⟩
      · exact .inl ⟨us, ws, rfl, hold _ us hu, ih hfree' hc hw⟩
      · have hspan : Spans language [.need e.symbol] (pre ++ front) :=
          spans_need.mpr ⟨_, [], (List.append_nil _).symm, hm, spans_nil.mpr rfl⟩
        have hfree'' : IfFree [.need e.symbol] := by
          intro f hf
          rw [List.mem_singleton.mp hf]
          exact hfree e List.mem_cons_self
        exact absurd hspan (Throw.not_spans_cut hfree'' hg hf hb)
    · exact .inr ⟨ho, ih hfree' hc h⟩

/-- The parts of an `if` after the exchange were those of an `if`, unless all tokens are those of a
conditional throw. -/
private theorem spans_if_old
    (hc : Covers (fun s us ↦ Matches language s us ∧ Old f L s us) ifElements ts')
    (h : Swapped f L post ts ts') :
    Spans language ifElements ts ∨ ∃ g, Exchanged f ts g ∧ ts' = g.tokens := by
  have hspan : Spans language ifElements ts' :=
    spans_iff_covers.mpr (hc.mono fun _ _ _ hP ↦ hP.1)
  cases h with
  | nil => exact .inl hspan
  | @keep t t' ts ts' hk _ _ h =>
    rcases hc with ⟨xs, ys, heq, ⟨hm, -⟩, hc⟩ | ⟨ho, -⟩
    · obtain ⟨u, hu, rfl⟩ := matches_tok.mp hm
      obtain ⟨rfl, rfl⟩ := List.cons.inj heq
      have hrest := covers_old (by unfold IfFree; decide) hc h
      exact .inl (spans_need_tok.mpr ⟨t, ts, rfl, hk.symm.trans hu, spans_iff_covers.mpr hrest⟩)
    · cases ho
  | @swap us ts ts' g he hl hn h =>
    obtain ⟨other, hother, hor⟩ := g.spans_if hspan (List.append_nil (g.tokens ++ ts'))
    obtain rfl := List.append_cancel_left hother
    rcases hor with rfl | hm
    · obtain rfl := h.eq_nil
      exact .inr ⟨g, by rwa [List.append_nil], List.append_nil _⟩
    · -- An `else` would follow the throw, and so the statement before the exchange.
      cases ts' with
      | nil =>
        exact absurd rfl (hm.ne_nil language_lawful fun _ hs ↦ by
          cases hs
          exact inner_of_ne (by decide))
      | cons t' ts' =>
        have hstart := hm.symbolMayStart language_lawful fun _ hs ↦ by
          cases hs
          exact .inr (inner_of_ne (by decide))
        obtain ⟨t, ht, hk⟩ := h.head_else rfl (eq_of_beq hstart)
        exact absurd hk (hn t (by rw [List.head?_append, ht, Option.some_or]))

private theorem spans_old {h : Head Category}
    {p : Production Category.Value (h.Value Category.Value)} (hp : p ∈ language.productions h)
    (hc : Covers (fun s us ↦ Matches language s us ∧ Old f L s us) p.elements ts')
    (hs : Swapped f L post ts ts') :
    Spans language p.elements ts ∨
      h = .one .statement ∧ ∃ g, Exchanged f ts g ∧ ts' = g.tokens := by
  rcases ifFree_or hp with hfree | ⟨rfl, he⟩
  · exact .inl (spans_iff_covers.mpr (covers_old hfree hc hs))
  · rw [he] at hc ⊢
    exact (spans_if_old hc hs).imp_right fun h ↦ ⟨rfl, h⟩

/-- What belongs to a symbol after the exchange did so before. -/
theorem Swapped.matches {s : Symbol Category} (hm : Matches language s ts')
    (h : Swapped f L post ts ts') : Matches language s ts := by
  refine Matches.induction (g := language) (P := Old f L) (fun t' post ts h ↦ ?_)
    (fun h p ts' hp hc post ts hs ↦ ?_) hm post ts h
  · obtain ⟨t, rfl, hk⟩ := h.singleton
    exact matches_tok.mpr ⟨t, hk.symm, rfl⟩
  · rcases spans_old hp hc hs with hspan | ⟨rfl, g, he, -⟩
    · exact matches_node.mpr ⟨p, hp, hspan⟩
    · exact he.matches

private theorem covers_matches_old {es : List (Element Category)} (hs : Spans language es ts') :
    Covers (fun s us ↦ Matches language s us ∧ Old f L s us) es ts' :=
  (spans_iff_covers.mp hs).mono fun _ _ _ hm ↦ ⟨hm, fun _ _ h ↦ h.matches hm⟩

/-- What belongs to the elements of a production after the exchange did so before, unless it is an
exchanged statement as a whole. -/
theorem Swapped.spans {h : Head Category}
    {p : Production Category.Value (h.Value Category.Value)} (hp : p ∈ language.productions h)
    (hs : Spans language p.elements ts') (hsw : Swapped f L post ts ts') :
    Spans language p.elements ts ∨
      h = .one .statement ∧ ∃ g, Exchanged f ts g ∧ ts' = g.tokens :=
  spans_old hp (covers_matches_old hs) hsw

/-- The same of some elements without the word `if`. -/
theorem Swapped.spans_of_ifFree {es : List (Element Category)} (hfree : IfFree es)
    (hs : Spans language es ts') (h : Swapped f L post ts ts') : Spans language es ts :=
  spans_iff_covers.mpr (covers_old hfree (covers_matches_old hs) h)

/-! ### Expression statements -/

private theorem statementExpr_starts : ∀ k ∈ Kind.all,
    language.symbolMayStart k (.node (.one .statementExpr)) = true →
      k ≠ .mark .leftBrace ∧ k ≠ .mark .semicolon := by
  decide

/-- An expression and a semicolon are read as a statement that consists of the expression. -/
theorem reads_exprStmt {call : List Token} {semicolon : Token} {s : Stmt}
    (hm : Matches language (.node (.one .statementExpr)) call)
    (hk : semicolon.kind = .mark .semicolon)
    (hr : Reads language (.node (.one .statement)) (call ++ [semicolon]) s) :
    ∃ e, s = .expr (Token.cover (call ++ [semicolon])) e ∧
      Reads language (.node (.one .statementExpr)) call e := by
  have hin : Inner language (.one .statement) := inner_of_ne (by decide)
  obtain ⟨t, us, rfl⟩ := List.exists_cons_of_ne_nil (statementExpr_ne_nil hm)
  obtain ⟨hbrace, hsemi⟩ := statementExpr_starts t.kind t.kind.mem_all
    (hm.symbolMayStart language_lawful fun _ hs ↦ by cases hs; exact .inr (inner_of_ne (by decide)))
  have hfirst : ∀ q ∈ (language.productions (.one .statement)).take 2,
      ¬ Spans language q.elements (t :: us ++ [semicolon]) := by
    intro q hq hs
    have hstart := hs.elementsMayStart language_lawful fun e he h hs ↦
      language_lawful.inner (.inr hin) (List.mem_of_mem_take hq) he hs
    have hq : q = ⟨[.need (.node (.one .block))], fun _ b ↦ .block b⟩ ∨
        q = ⟨[.need (.tok (.mark .semicolon))], fun l _ ↦ .empty l⟩ := by
      simpa [productions, language, Category.rules] using hq
    rcases hq with rfl | rfl
    · exact hbrace (by simpa [elementsMayStart, symbolMayStart, Element.symbol,
        Element.optional, language, Category.mayStart] using hstart)
    · exact hsemi (by simpa [elementsMayStart, symbolMayStart, Element.symbol,
        Element.optional] using hstart)
  obtain ⟨vs, rfl, hv⟩ := hr.first_inv (List.getElem?_cons_succ.trans rfl) hfirst
    (spans_need.mpr ⟨_, _, rfl, hm, spans_need_tok.mpr ⟨_, _, rfl, hk, spans_nil.mpr rfl⟩⟩)
  obtain ⟨e, _, _⟩ := vs
  obtain ⟨ws, zs, heq, hcall, hv⟩ := parts_need.mp hv.parts_reads
  obtain ⟨xs, ys, rfl, hsemi', hv⟩ := parts_need.mp hv
  obtain rfl := parts_nil.mp hv
  rw [hsemi'.tok_eq, List.append_nil] at heq
  obtain ⟨rfl, -⟩ := List.append_inj' heq rfl
  exact ⟨e, rfl, hcall⟩

theorem Token.first_cover (t : Token) (ts : List Token) :
    (Token.cover (t :: ts)).first = t.location.first := by
  obtain ⟨a, -, b, -, ha, -, hcover⟩ := Token.cover_eq (List.cons_ne_nil t ts)
  rw [hcover]
  exact congrArg (fun t ↦ t.location.first) (Option.some.inj ha.symm)

theorem Token.last_cover {ts : List Token} {t : Token} (ht : ts.getLast? = some t) :
    (Token.cover ts).last = t.location.last := by
  have hne : ts ≠ [] := by
    rintro rfl
    cases ht
  obtain ⟨a, -, b, -, -, hb, hcover⟩ := Token.cover_eq hne
  obtain rfl := Option.some.inj (ht.symm.trans hb)
  rw [hcover]

/-- An expression statement is exchanged as a whole, or only statements inside it are, and then the
rewrite does not replace it. -/
theorem Swapped.exprStmt_cases {call : List Token} {semicolon : Token}
    (hm : Matches language (.node (.one .statementExpr)) call)
    (hk : semicolon.kind = .mark .semicolon) (ho : Token.Ordered (call ++ [semicolon]))
    (h : Swapped f L post (call ++ [semicolon]) ts') :
    (∃ g, Exchanged f (call ++ [semicolon]) g ∧ ts' = g.tokens) ∨
      f (Token.cover (call ++ [semicolon])) = none ∧
        Swapped f (fun l ↦ L l ∧ l ≠ Token.cover (call ++ [semicolon])) post
          (call ++ [semicolon]) ts' := by
  generalize hts : call ++ [semicolon] = ts at h ho
  cases h with
  | nil => cases (List.append_eq_nil_iff.mp hts).2
  | @keep t t' ts ts' hk' ht hf h =>
    refine .inr ⟨hf _ (Token.first_cover t ts), .keep hk' ht hf (h.imp fun us hu hne hl ↦ ?_)⟩
    refine ⟨hl, fun heq ↦ ?_⟩
    obtain ⟨u, us, rfl⟩ := List.exists_cons_of_ne_nil hne
    have hfirst := congrArg Location.first heq
    rw [Token.first_cover, Token.first_cover] at hfirst
    have ho' : Token.Ordered ([t] ++ ts) := ho
    exact ho'.first_ne (List.mem_singleton.mpr rfl) (hu.subset List.mem_cons_self) hfirst.symm
  | @swap us ts ts' g he hl hn h =>
    obtain ⟨call', semicolon', rfl, hm', hk''⟩ := he.exprStmt
    rw [List.append_assoc, List.singleton_append] at hts
    obtain ⟨rfl, rfl, rfl⟩ := Token.Fenced.unique (balanced_of_matches hm)
      (balanced_of_matches hm') (fenced_of_matches (by decide) hm)
      (fenced_of_matches (by decide) hm') hk hk'' hts
    generalize hnil : ([] : List Token) = ts at h
    cases h with
    | nil => exact .inl ⟨g, by rwa [List.append_nil], List.append_nil _⟩
    | keep => cases hnil
    | swap he' =>
      exact absurd (List.append_eq_nil_iff.mp hnil.symm).1 he'.ne_nil

end GuardLint.Syntax
