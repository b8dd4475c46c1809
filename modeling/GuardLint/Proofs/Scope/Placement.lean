import GuardLint.Proofs.Scope.Production
import GuardLint.Proofs.Syntax.Language
import GuardLint.Proofs.Syntax.Order

/-!
# Where calls stand

The calls in what is read from some tokens stand on these tokens, in their order, and a call comes
before the calls in it. A call that is a statement by itself stands on the tokens of that statement,
and what is said of an `else` after it is so.

What follows a statement is not part of it, so this is shown for any tokens that may follow. Only a
statement and an `else` part ask what these are. The statements of a block and the items of a
`switch` are told that no `else` follows them, which is so because none can: what comes next is
another of them or a brace.
-/

namespace GuardLint

open Syntax Grammar

/-- A call as an expression. -/
def Call.expr (c : Call) : Expr := .call c.location c.target c.name c.args

namespace Occurrence

/-- Whether the next token is `else`. -/
def elseNext (post : List Token) : Bool :=
  match post.head? with
  | some t => t.kind == .word .else
  | none => false

/-- A call is the statement at a location: some of the tokens are read as that statement, and
`beforeElse` says whether the token after them is `else`. -/
def Stands (ts post : List Token) (o : Occurrence) (l : Location) : Prop :=
  ∃ front us rest, ts = front ++ us ++ rest ∧ Token.cover us = l ∧
    Reads language (.node (.one .statement)) us (.expr l o.call.expr) ∧
    o.beforeElse = elseNext (rest ++ post)

/-- Calls stand where they should on some tokens that others follow. -/
structure Fits (ts post : List Token) (xs : List Occurrence) : Prop where
  within : ∀ o ∈ xs, ∃ a ∈ ts, ∃ b ∈ ts, o.call.location = ⟨a.location.first, b.location.last⟩
  ascending : (xs.map fun o ↦ o.call.location).Pairwise Location.Before
  stands : ∀ o ∈ xs, ∀ l, o.statement = some l → Stands ts post o l

/-- No two calls stand at the same place. -/
theorem Fits.distinct {ts post : List Token} {xs : List Occurrence} (h : Fits ts post xs) :
    (xs.map fun o ↦ o.call.location).Nodup :=
  h.ascending.imp Location.Before.ne

/-! ### Tokens side by side -/

variable {ts us ws post : List Token} {xs ys : List Occurrence}

theorem fits_nil : Fits ts post [] where
  within _ ho := absurd ho List.not_mem_nil
  ascending := .nil
  stands _ ho := absurd ho List.not_mem_nil

private theorem Fits.wider_left (h : Fits us (ws ++ post) xs) : Fits (us ++ ws) post xs where
  within o ho := by
    obtain ⟨a, ha, b, hb, h⟩ := h.within o ho
    exact ⟨a, List.mem_append_left ws ha, b, List.mem_append_left ws hb, h⟩
  ascending := h.ascending
  stands o ho l hl := by
    obtain ⟨front, vs, rest, rfl, hc, hr, he⟩ := h.stands o ho l hl
    exact ⟨front, vs, rest ++ ws, by simp only [List.append_assoc], hc, hr,
      by rw [he, List.append_assoc]⟩

private theorem Fits.wider_right (h : Fits ws post xs) : Fits (us ++ ws) post xs where
  within o ho := by
    obtain ⟨a, ha, b, hb, h⟩ := h.within o ho
    exact ⟨a, List.mem_append_right us ha, b, List.mem_append_right us hb, h⟩
  ascending := h.ascending
  stands o ho l hl := by
    obtain ⟨front, vs, rest, rfl, hc, hr, he⟩ := h.stands o ho l hl
    exact ⟨us ++ front, vs, rest, by simp only [List.append_assoc], hc, hr, he⟩

/-- Calls of tokens side by side. -/
theorem Fits.append (ho : Token.Ordered (us ++ ws)) (hx : Fits us (ws ++ post) xs)
    (hy : Fits ws post ys) : Fits (us ++ ws) post (xs ++ ys) where
  within o h := by
    rcases List.mem_append.mp h with h | h
    · exact hx.wider_left.within o h
    · exact hy.wider_right.within o h
  ascending := by
    rw [List.map_append, List.pairwise_append]
    refine ⟨hx.ascending, hy.ascending, fun l hl m hm ↦ .inl ?_⟩
    obtain ⟨x, hxm, rfl⟩ := List.mem_map.mp hl
    obtain ⟨y, hym, rfl⟩ := List.mem_map.mp hm
    obtain ⟨a, ha, _, _, hax⟩ := hx.within x hxm
    obtain ⟨b, hb, _, _, hby⟩ := hy.within y hym
    rw [hax, hby]
    exact ho.first_lt ha hb
  stands o h := by
    rcases List.mem_append.mp h with h | h
    · exact hx.wider_left.stands o h
    · exact hy.wider_right.stands o h

/-- A call whose parts stand side by side begins before the calls in them or ends after them. -/
private theorem Fits.call (ho : Token.Ordered (us ++ ws)) (hu : us ≠ []) (hw : ws ≠ [])
    (hx : Fits us (ws ++ post) xs) (hy : Fits ws post ys) (t : Option Expr) (n : String)
    (as : List Expr) :
    Fits (us ++ ws) post
      (⟨⟨Token.cover (us ++ ws), t, n, as⟩, none, false⟩ :: (xs ++ ys)) := by
  have hall := Fits.append ho hx hy
  obtain ⟨a, ha, b, hb, hhead, hlast, hcover⟩ :=
    Token.cover_eq (List.append_ne_nil_of_left_ne_nil hu ws)
  have hau : a ∈ us := by
    rw [List.head?_append_of_ne_nil _ hu] at hhead
    exact List.mem_of_head? hhead
  have hbw : b ∈ ws := by
    rw [List.getLast?_append_of_ne_nil _ hw] at hlast
    exact List.mem_of_getLast? hlast
  constructor
  · intro o h
    rcases List.mem_cons.mp h with rfl | h
    · exact ⟨a, ha, b, hb, hcover⟩
    · exact hall.within o h
  · rw [List.map_cons, List.pairwise_cons]
    refine ⟨fun l hl ↦ ?_, hall.ascending⟩
    obtain ⟨o, hom, rfl⟩ := List.mem_map.mp hl
    simp only [hcover]
    rcases List.mem_append.mp hom with h | h
    · obtain ⟨c, hc, d, hd, hod⟩ := hx.within o h
      rw [hod]
      have hfirst := ho.first_le hhead (List.mem_append_left ws hc)
      have hend := ho.last_lt hd hbw
      rcases Nat.lt_or_eq_of_le hfirst with h | h
      · exact .inl h
      · exact .inr ⟨h, hend⟩
    · obtain ⟨c, hc, _, _, hoc⟩ := hy.within o h
      rw [hoc]
      exact .inl (ho.first_lt hau hc)
  · intro o h l hl
    rcases List.mem_cons.mp h with rfl | h
    · cases hl
    · exact hall.stands o h l hl

/-! ### What may follow -/

/-- Whether a symbol asks if an `else` follows. -/
def sensitive : Symbol Category → Bool
  | .node (.one .statement) | .node (.one .elsePart) => true
  | _ => false

/-- Whether no `else` may follow a symbol. -/
def loose : Symbol Category → Bool
  | .node (.one .blockStmt) | .node (.one .switchItem) | .node (.run .blockStmt)
  | .node (.run .switchItem) => true
  | _ => false

/-- Whether a symbol is a run that is no part of anything. -/
def bare : Symbol Category → Bool
  | .node (.run .statement) | .node (.run .elsePart) | .node (.run .compilationUnit) => true
  | _ => false

/-- Whether some elements are in order: one that asks what follows is the last, and after one that
no `else` may follow comes something that does not begin with it, or nothing if the elements as a
whole are such. -/
def orderly (whole : Bool) : List (Element Category) → Bool
  | [] => true
  | e :: es =>
    !bare e.symbol && (!sensitive e.symbol || es.isEmpty) &&
      (!loose e.symbol ||
        match es with
        | [] => whole
        | f :: _ => !f.optional && !language.symbolMayStart (.word .else) f.symbol) &&
      orderly whole es

private theorem orderly_rules : ∀ c ∈ Category.all, c ≠ .statement → ∀ p ∈ c.rules,
    orderly (loose (.node (.one c))) p.elements = true := by
  decide +kernel

private theorem orderly_runs : ∀ c ∈ Category.all, bare (.node (.run c)) = false →
    ∀ p ∈ language.productions (.run c), orderly (loose (.node (.run c))) p.elements = true := by
  decide +kernel

/-- Only a symbol that asks what follows depends on it. -/
private theorem ofSymbol_insensitive {s : Symbol Category} (hs : sensitive s = false)
    (hb : bare s = false) (b b' : Bool) : ofSymbol b s = ofSymbol b' s := by
  cases s with
  | tok k => rfl
  | node h =>
    cases h with
    | one c => cases c <;> first | rfl | cases hs
    | run c => rfl

theorem ofElement_present (b : Bool) (e : Element Category)
    (v : e.symbol.Value Category.Value) : ofElement b e (e.present v) = ofSymbol b e.symbol v := by
  cases e with
  | need s => rfl
  | maybe s => exact List.append_nil _
  | many c => rfl

theorem ofElement_absent {b : Bool} {e : Element Category} {v : e.Value Category.Value}
    (h : e.absent? = some v) : ofElement b e v = [] := by
  cases e with
  | need s => cases h
  | maybe s =>
    cases h
    rfl
  | many c =>
    cases h
    rfl

/-- What is shown of everything that is read. -/
private def Placed (s : Symbol Category) (ts : List Token) (v : s.Value Category.Value) : Prop :=
  bare s = false → ∀ post, Token.Ordered ts → (loose s = true → elseNext post = false) →
    Fits ts post (ofSymbol (elseNext post) s v)

private abbrev PlacedParts :=
  Parts fun s us (x : s.Value Category.Value) ↦ Reads language s us x ∧ Placed s us x

/-- The first token of elements of which the first is there does not begin with `else`. -/
private theorem elseNext_of_parts {f : Element Category} {es : List (Element Category)}
    (hi : ∀ h, f.symbol = .node h → Inner language h) (hf : f.optional = false)
    (hs : language.symbolMayStart (.word .else) f.symbol = false)
    {vs : Values Category.Value (f :: es)} (hp : PlacedParts (f :: es) ws vs) :
    elseNext (ws ++ post) = false := by
  obtain ⟨v, vs⟩ := vs
  rcases hp with ⟨us, ws, x, rfl, ⟨hr, -⟩, -, -⟩ | ⟨ha, -⟩
  · cases us with
    | nil => exact absurd rfl (hr.matches.ne_nil language_lawful hi)
    | cons t us =>
      have hstart := hr.matches.symbolMayStart language_lawful fun h hs ↦ .inr (hi h hs)
      cases hk : elseNext (t :: us ++ ws ++ post) with
      | false => rfl
      | true =>
        rw [eq_of_beq hk, hs] at hstart
        cases hstart
  · rw [(optional_iff_absent? f).mpr ⟨v, ha⟩] at hf
    cases hf

/-- The calls of an element that is in order stand where they should. -/
private theorem fits_element {e : Element Category} {es : List (Element Category)}
    {vs : Values Category.Value es} (hi : ∀ f ∈ es, ∀ h, f.symbol = .node h → Inner language h)
    {whole : Bool} (hes : orderly whole (e :: es) = true) {x : e.symbol.Value Category.Value}
    (hx : Placed e.symbol us x) (hp : PlacedParts es ws vs) (ho : Token.Ordered us)
    (hw : whole = true → elseNext post = false) :
    Fits us (ws ++ post) (ofSymbol (elseNext post) e.symbol x) := by
  simp only [orderly, Bool.and_eq_true, Bool.or_eq_true, Bool.not_eq_true'] at hes
  obtain ⟨⟨⟨hbare, hsens⟩, hloose⟩, -⟩ := hes
  have hfit := hx hbare (ws ++ post) ho fun hl ↦ by
    rcases hloose with hloose | hloose
    · rw [hl] at hloose
      cases hloose
    · cases es with
      | nil =>
        cases (hp : ws = [])
        exact hw hloose
      | cons f es =>
        simp only [Bool.and_eq_true, Bool.not_eq_true'] at hloose
        exact elseNext_of_parts (hi f List.mem_cons_self) hloose.1 hloose.2 hp
  rcases hsens with hsens | hsens
  · rwa [ofSymbol_insensitive hsens hbare _ (elseNext post)] at hfit
  · rw [List.isEmpty_iff] at hsens
    subst hsens
    cases (hp : ws = [])
    exact hfit

/-- The calls of elements that are in order stand where they should if those of the parts do. -/
private theorem fits_elements {es : List (Element Category)} {vs : Values Category.Value es}
    (hi : ∀ e ∈ es, ∀ h, e.symbol = .node h → Inner language h) {whole : Bool}
    (hes : orderly whole es = true) (hp : PlacedParts es ts vs) (ho : Token.Ordered ts)
    (hw : whole = true → elseNext post = false) :
    Fits ts post (ofElements (elseNext post) es vs) := by
  induction es generalizing ts with
  | nil => exact fits_nil
  | cons e es ih =>
    obtain ⟨v, vs⟩ := vs
    have hi' : ∀ f ∈ es, ∀ h, f.symbol = .node h → Inner language h :=
      fun f hf ↦ hi f (List.mem_cons_of_mem e hf)
    have hes' : orderly whole es = true := (Bool.and_eq_true_iff.mp hes).2
    rw [ofElements]
    rcases hp with ⟨us, ws, x, rfl, ⟨hr, hx⟩, rfl, hp⟩ | ⟨ha, hp⟩
    · obtain ⟨hou, how⟩ := ho.append
      rw [ofElement_present]
      exact Fits.append ho (fits_element hi' hes hx hp hou hw) (ih hi' hes' hp how)
    · rw [ofElement_absent ha, List.nil_append]
      exact ih hi' hes' hp ho

/-! ### Productions -/

private theorem fits_run {c : Category} (hb : bare (.node (.run c)) = false)
    {p : Production Category.Value (List c.Value)} (hp : p ∈ language.productions (.run c))
    {vs : Values Category.Value p.elements} (hv : PlacedParts p.elements ts vs) (ho : Token.Ordered ts)
    (hl : loose (.node (.run c)) = true → elseNext post = false) (l : Location) :
    Fits ts post (ofSymbol (elseNext post) (.node (.run c)) (p.value l vs)) := by
  have hin : Inner language (.run c) := by
    rintro rfl
    cases hb
  have hfit := fits_elements (fun e he h hs ↦ language_lawful.inner (.inr hin) hp he hs)
    (orderly_runs c c.mem_all hb p hp) hv ho hl
  have hins : ofCategory (elseNext post) c = ofCategory false c :=
    ofSymbol_insensitive (s := .node (.one c)) (by cases c <;> first | rfl | cases hb) rfl _ _
  simp only [productions, List.mem_cons, List.not_mem_nil, or_false] at hp
  rcases hp with rfl | rfl
  · obtain ⟨x, _⟩ := vs
    simpa [ofElements, ofElement, ofSymbol, Production.value, Action.apply, hins] using hfit
  · obtain ⟨xs, x, _⟩ := vs
    simpa [ofElements, ofElement, ofSymbol, Production.value, Action.apply, hins] using hfit

private theorem fits_methodCall {p : Production Category.Value Expr}
    (hp : p ∈ language.productions (.one .methodCall)) {vs : Values Category.Value p.elements}
    (hv : PlacedParts p.elements ts vs) (ho : Token.Ordered ts) :
    Fits ts post (ofCategory (elseNext post) .methodCall (p.value (Token.cover ts) vs)) := by
  have hin : Inner language (.one .methodCall) := inner_of_ne (by decide)
  have hi : ∀ e ∈ p.elements, ∀ h, e.symbol = .node h → Inner language h :=
    fun e he h hs ↦ language_lawful.inner (.inr hin) hp he hs
  have hord := orderly_rules _ Category.methodCall.mem_all (by decide) p hp
  obtain ⟨t, n, as, -, hcalls⟩ := ofCategory_methodCall (elseNext post) p hp (Token.cover ts) vs
  rw [hcalls]
  clear hcalls
  -- The first part is there, and so is something after it.
  have hshape : ∃ s f es, p.elements = .need s :: f :: es ∧
      ∃ e ∈ f :: es, e.optional = false := by
    simp only [productions, language, Category.rules, List.mem_cons, List.not_mem_nil,
      or_false] at hp
    rcases hp with rfl | rfl <;> exact ⟨_, _, _, rfl, _, List.mem_cons_self, rfl⟩
  obtain ⟨s, f, es, hes, hneed⟩ := hshape
  generalize p.elements = elements at vs hv hi hord hes ⊢
  subst hes
  obtain ⟨v, vs⟩ := vs
  obtain ⟨us, ws, rfl, ⟨hr, hx⟩, hparts⟩ := parts_need.mp hv
  obtain ⟨hou, how⟩ := ho.append
  have hi' : ∀ g ∈ f :: es, ∀ h, g.symbol = .node h → Inner language h :=
    fun g hg ↦ hi g (List.mem_cons_of_mem _ hg)
  have hus : us ≠ [] := hr.matches.ne_nil language_lawful (hi _ List.mem_cons_self)
  have hws : ws ≠ [] := by
    rintro rfl
    obtain ⟨e, he, hne⟩ := hneed
    have hspan : Spans language (f :: es) [] :=
      ⟨vs, derivesAll_iff_parts.mpr (hparts.mono fun _ _ _ _ h ↦ h.1.derives)⟩
    rw [hspan.optional language_lawful hi' e he] at hne
    cases hne
  exact Fits.call ho hus hws (fits_element hi' hord hx hparts hou fun h ↦ by cases h)
    (fits_elements hi' (Bool.and_eq_true_iff.mp hord).2 hparts how fun h ↦ by cases h) t n as

/-- A statement that consists of an expression stands on the tokens that end with it. -/
private theorem fits_exprStmt {e : Expr} {l : Location} {semicolon : Token}
    (hl : Token.cover (us ++ [semicolon]) = l)
    (hr : Reads language (.node (.one .statement)) (us ++ [semicolon]) (.expr l e))
    (hx : Fits us ([semicolon] ++ post) (ofExpr e)) :
    Fits (us ++ [semicolon]) post (ofStmt (elseNext post) (.expr l e)) := by
  have hall : Fits (us ++ [semicolon]) post (ofExpr e) := hx.wider_left
  cases e with
  | call cl t n as =>
    rw [ofExpr] at hall
    rw [ofStmt]
    obtain ⟨hwithin, hascending, hstands⟩ := hall
    refine ⟨fun o h ↦ ?_, hascending, fun o h l' hl' ↦ ?_⟩
    · rcases List.mem_cons.mp h with rfl | h
      · exact hwithin ⟨⟨cl, t, n, as⟩, none, false⟩ List.mem_cons_self
      · exact hwithin o (List.mem_cons_of_mem _ h)
    · rcases List.mem_cons.mp h with rfl | h
      · cases hl'
        exact ⟨[], us ++ [semicolon], [], (List.append_nil _).symm, hl, hr, rfl⟩
      · exact hstands o (List.mem_cons_of_mem _ h) l' hl'
  | _ => rwa [ofStmt]; simp

/-- Tokens that are an `else` part begin with the word. -/
private theorem elseNext_elsePart (hm : Matches language (.node (.one .elsePart)) us) :
    elseNext (us ++ post) = true := by
  have hin : Inner language (.one .elsePart) := inner_of_ne (by decide)
  cases us with
  | nil => exact absurd rfl (hm.ne_nil language_lawful fun h hs ↦ by cases hs; exact hin)
  | cons t us => exact hm.symbolMayStart language_lawful fun h hs ↦ by cases hs; exact .inr hin

private theorem elseNext_tok {k : Kind} {t : Token} (hr : Reads language (.tok k) us t)
    (hk : k ≠ .word .else) : elseNext (us ++ post) = false := by
  cases hr
  exact beq_eq_false_iff_ne.mpr hk

private theorem orderly_statement : ∀ p ∈ Category.rules .statement,
    isBranching p.elements = false → orderly false p.elements = true := by
  decide

private theorem fits_statement {p : Production Category.Value Stmt}
    (hp : p ∈ Category.rules .statement) {vs : Values Category.Value p.elements}
    (hr : Reads language (.node (.one .statement)) ts (p.value (Token.cover ts) vs))
    (hv : PlacedParts p.elements ts vs) (ho : Token.Ordered ts) :
    Fits ts post (ofCategory (elseNext post) .statement (p.value (Token.cover ts) vs)) := by
  have hin : Inner language (.one .statement) := inner_of_ne (by decide)
  cases hb : isBranching p.elements with
  | false =>
    rw [ofCategory_statement (elseNext post) p hp hb]
    exact fits_elements (fun e he h hs ↦ language_lawful.inner (.inr hin) hp he hs)
      (orderly_statement p hp hb) hv ho fun h ↦ by cases h
  | true =>
    simp only [Category.rules, List.mem_cons, List.not_mem_nil, or_false] at hp
    rcases hp with rfl | rfl | rfl | rfl | rfl | rfl | rfl | rfl | rfl | rfl | rfl | rfl | rfl |
      rfl | rfl | rfl | rfl
    all_goals try exact absurd hb (by decide)
    · -- An expression statement: the call in it, if it is one, is a statement by itself.
      obtain ⟨e, semicolon, _⟩ := vs
      obtain ⟨us, ws, rfl, ⟨-, hx⟩, hv⟩ := parts_need.mp hv
      obtain ⟨vs, zs, rfl, ⟨hsemi, -⟩, hv⟩ := parts_need.mp hv
      cases parts_nil.mp hv
      rw [hsemi.tok_eq, List.append_nil] at ho hr ⊢
      exact fits_exprStmt rfl hr (hx rfl _ ho.append.1 fun h ↦ by cases h)
    · -- An `if`: the first branch stands before an `else` if there is a second.
      obtain ⟨_, _, c, _, s, e, _⟩ := vs
      obtain ⟨us₁, ws, rfl, -, hv⟩ := parts_need.mp hv
      obtain ⟨us₂, ws, rfl, -, hv⟩ := parts_need.mp hv
      obtain ⟨us₃, ws, rfl, ⟨-, hc⟩, hv⟩ := parts_need.mp hv
      obtain ⟨us₄, ws, rfl, -, hv⟩ := parts_need.mp hv
      obtain ⟨us₅, ws, rfl, ⟨-, hs⟩, hv⟩ := parts_need.mp hv
      have ho₃ := ho.append.2.append.2
      have ho₅ := ho₃.append.2.append.2
      have hcond := hc rfl (us₄ ++ (us₅ ++ ws) ++ post) ho₃.append.1 fun h ↦ by cases h
      have hbranch := hs rfl (ws ++ post) ho₅.append.1 fun h ↦ by cases h
      refine Fits.wider_right (Fits.wider_right ?_)
      rcases parts_maybe.mp hv with ⟨us₆, ws, x, rfl, ⟨he, hx⟩, rfl, hend⟩ | ⟨rfl, hend⟩
      · cases parts_nil.mp hend
        rw [List.append_nil] at *
        have hother := hx rfl post ho₅.append.2 fun h ↦ by cases h
        rw [elseNext_elsePart he.matches] at hbranch
        have hall := Fits.append ho₃ hcond (Fits.append ho₅ hbranch hother).wider_right
        simpa only [ofCategory.eq_def, ofSymbol, Production.value, Action.apply, ofStmt,
          List.append_assoc] using hall
      · cases parts_nil.mp hend
        rw [List.nil_append] at hbranch
        have hall := Fits.append ho₃ hcond (Fits.wider_left hbranch).wider_right
        simpa only [ofCategory.eq_def, ofSymbol, Production.value, Action.apply, ofStmt] using hall
    · -- A `do`: the word `while` follows its body.
      obtain ⟨_, s, _, _, c, _⟩ := vs
      obtain ⟨us₁, ws, rfl, -, hv⟩ := parts_need.mp hv
      obtain ⟨us₂, ws, rfl, ⟨-, hs⟩, hv⟩ := parts_need.mp hv
      obtain ⟨us₃, ws, rfl, ⟨hw, -⟩, hv⟩ := parts_need.mp hv
      obtain ⟨us₄, ws, rfl, -, hv⟩ := parts_need.mp hv
      obtain ⟨us₅, ws, rfl, ⟨-, hc⟩, hv⟩ := parts_need.mp hv
      have ho₂ := ho.append.2
      have ho₅ := ho₂.append.2.append.2.append.2
      have hbody := hs rfl (us₃ ++ (us₄ ++ (us₅ ++ ws)) ++ post) ho₂.append.1
        fun h ↦ by cases h
      have hcond := hc rfl (ws ++ post) ho₅.append.1 fun h ↦ by cases h
      rw [List.append_assoc us₃, elseNext_tok hw (by decide)] at hbody
      have hall := Fits.append ho₂ (by rwa [List.append_assoc us₃])
        (Fits.wider_right (Fits.wider_right hcond.wider_left))
      simpa only [ofCategory.eq_def, ofSymbol, Production.value, Action.apply, ofStmt] using
        hall.wider_right

/-- The calls in what is read from some tokens stand where they should on these tokens. -/
private theorem placed_of_reads {s : Symbol Category} {v : s.Value Category.Value}
    (hr : Reads language s ts v) : Placed s ts v := by
  refine Reads.induction (M := Placed) (fun t _ post _ _ ↦ fits_nil) ?_ hr
  intro h p ts vs hp hr hv hb post ho hl
  cases h with
  | run c => exact fits_run hb hp hv ho hl _
  | one c =>
    by_cases hcall : c = .methodCall
    · subst hcall
      exact fits_methodCall hp hv ho
    by_cases hstmt : c = .statement
    · subst hstmt
      exact fits_statement hp hr hv ho
    by_cases hval : c = .elementValue
    · subst hval
      exact fits_nil
    have hin : Head.one c = .one language.start ∨ Inner language (.one c) := by
      by_cases hc : c = .compilationUnit
      · exact .inl (by rw [hc]; rfl)
      · exact .inr hc
    have hfit := fits_elements (fun e he h hs ↦ language_lawful.inner hin hp he hs)
      (orderly_rules c c.mem_all hstmt p hp) hv ho hl
    rwa [← ofCategory_value hcall hstmt hval (fun hc ↦ hl (by rw [hc]; rfl)) p hp] at hfit

/-- The calls in what is read from some tokens stand where they should on these tokens, if nothing
follows. -/
theorem fits_of_reads {s : Symbol Category} {v : s.Value Category.Value}
    (hr : Reads language s ts v) (hb : bare s = false) (ho : Token.Ordered ts) :
    Fits ts [] (ofSymbol false s v) :=
  placed_of_reads hr hb [] ho fun _ ↦ rfl

private theorem bare_rules : ∀ c ∈ Category.all, ∀ p ∈ c.rules, ∀ e ∈ p.elements,
    bare e.symbol = false := by
  decide +kernel

/-- The parts of a production are none of the runs that are no part of anything. -/
theorem bare_of_mem {h : Head Category} (hb : bare (.node h) = false)
    {p : Production Category.Value (h.Value Category.Value)} (hp : p ∈ language.productions h) :
    ∀ e ∈ p.elements, bare e.symbol = false := by
  cases h with
  | one c => exact bare_rules c c.mem_all p hp
  | run c =>
    simp only [productions, List.mem_cons, List.not_mem_nil, or_false] at hp
    rcases hp with rfl | rfl <;> intro e he <;> simp at he
    · rw [he]
      rfl
    · rcases he with rfl | rfl
      · exact hb
      · rfl

end Occurrence

/-- The calls of a source file stand on its tokens, no two at the same place, and each that is a
statement by itself is a statement of the tokens. -/
theorem Occurrence.fits_ofUnit {source : List Char} {unit : CompilationUnit} {tokens : List Token}
    (hs : Token.ofSource source = (tokens, none))
    (hr : Reads language (.node (.one .compilationUnit)) tokens unit) :
    Occurrence.Fits tokens [] (Occurrence.ofUnit unit) :=
  fits_of_reads hr rfl (Token.ordered_ofSource hs)

end GuardLint
