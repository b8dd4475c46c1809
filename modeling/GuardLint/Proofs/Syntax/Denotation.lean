import GuardLint.Proofs.Scope.Exchange
import GuardLint.Proofs.Syntax.Template

/-!
# What pieces of a text stand for

Wherever some pieces of a text are laid, their tokens are read as the same expression, up to
locations. So the text of a conditional throw, made of the texts of a condition and of a message,
stands for a conditional throw of what these stand for.
-/

namespace GuardLint.Syntax

open Grammar

variable {ps condition message : List Piece} {at_ : Position} {e test arg : Expr}
  {exception : String} {f : Rewrite} {us : List Token}

/-! ### Pieces in other places -/

/-- What belongs to a symbol does so wherever its pieces are laid. -/
theorem matches_laid {s : Symbol Category} (h : Matches language s (Token.laid at_ ps))
    (at_' : Position) : Matches language s (Token.laid at_' ps) := by
  have hsw : Swapped Rewrite.none (fun _ ↦ False) [] (Token.laid at_' ps) (Token.laid at_ ps) :=
    swapped_laid at_ fun _ _ _ _ ↦ rfl
  exact hsw.matches h

/-- Wherever some pieces are laid their tokens are read as an expression, which is without locations
the given one. -/
def Denotes (ps : List Piece) (e : Expr) : Prop :=
  ∀ at_, ∃ x, Reads language (.node (.one .expr)) (Token.laid at_ ps) x ∧ Rewrite.none.expr x = e

/-- What the tokens of some pieces are read as in one place they are read as in every place. -/
theorem denotes_of_reads (hr : Reads language (.node (.one .expr)) (Token.laid at_ ps) e)
    (ho : Token.Ordered (Token.laid at_ ps)) : Denotes ps (Rewrite.none.expr e) := by
  intro at_'
  have hsw : Swapped Rewrite.none (· ∈ Occurrence.places (Occurrence.ofExpr e)) []
      (Token.laid at_ ps) (Token.laid at_' ps) := swapped_laid at_' fun _ _ _ _ ↦ rfl
  exact Occurrence.reads_exchange hr rfl ho hsw

theorem Denotes.matches (h : Denotes ps e) (at_ : Position) :
    Matches language (.node (.one .expr)) (Token.laid at_ ps) := by
  obtain ⟨x, hx, -⟩ := h at_
  exact hx.matches

theorem Denotes.eq (h : Denotes ps e) {x : Expr}
    (hr : Reads language (.node (.one .expr)) (Token.laid at_ ps) x) : Rewrite.none.expr x = e := by
  obtain ⟨y, hy, rfl⟩ := h at_
  rw [hr.unique hy]

/-- Some pieces are the text of an expression of a source text, and are spelled alone and before a
blank, a parenthesis or a semicolon. They begin with a token. -/
structure Written (text : List Char) (e : Expr) (ps : List Piece) : Prop where
  slice : e.location.slice text = spelling ps
  denotes : Denotes ps (Rewrite.none.expr e)
  spelled : ∀ c ∈ followers, SpelledBefore c ps
  source : Token.ofSource (spelling ps) = (Token.laid .origin ps, none)
  unblank : ∀ w, Lexer.run Text.isBlank (spelling ps ++ w) = 0

/-- The tokens of an expression of a source text are laid from the pieces of its text. -/
theorem exists_written {text : List Char} {tokens front rest : List Token}
    (hs : Token.ofSource text = (tokens, none)) (hun : Token.Unopened tokens)
    (heq : tokens = front ++ us ++ rest) (hr : Reads language (.node (.one .expr)) us e) :
    ∃ ps, Written text e ps ∧ ∃ at_, Token.laid at_ ps = us := by
  have hne : us ≠ [] := hr.matches.ne_nil language_lawful
    fun _ hs ↦ by cases hs; exact inner_of_ne (by decide)
  have ho := Token.ordered_ofSource hs
  obtain ⟨ps, hspelled, rfl⟩ := Token.laid_ofSource hs
  have hopen : Unopened ps := unopened_of_tokens hun
  rw [heq] at ho
  obtain ⟨before, old, after, rfl, -, hold, -, hcover, ⟨a, first, -, hfirst⟩, t, last, -, hlast⟩ :=
    Token.exists_segment heq hne
  have hold_open : Unopened old := hopen.left_of_append.right_of_append
  have hsuffix : Spelled (old ++ after) (spelling (old ++ after)) := by
    rw [List.append_assoc] at hspelled
    exact hspelled.suffix
  refine ⟨old, ⟨?_, ?_, fun c hc ↦ hsuffix.before hc hold_open ⟨_, _, hlast⟩, ?_, ?_⟩, _, hold⟩
  · rw [Expr.location_eq hr]
    exact Token.slice_of_spelling hspelled.text_eq hcover
  · rw [← hold] at hr ho
    exact denotes_of_reads hr ho.append.1.append.2
  · have hall : Spelled (old ++ []) (spelling old ++ []) := by
      refine hsuffix.seam .nil (fun c hc ↦ by cases hc) (fun kind piece hk ↦ ?_) hold_open
      cases (Option.some.inj (hlast.symm.trans hk))
      cases t.kind with
      | name | word => rfl
      | _ => trivial
    rw [List.append_nil, List.append_nil] at hall
    exact Token.ofSource_of_spelled hall
  · obtain ⟨others, rfl⟩ := List.head?_eq_some_iff.mp hfirst
    intro w
    rw [spelling_cons, List.append_assoc]
    exact hsuffix.unblank _

/-! ### The condition and what is thrown -/

namespace Template

theorem laid_negated (at_ : Position) (ps : List Piece) : ∃ bang opening at_' closing,
    Token.laid at_ (negated ps) = bang :: opening :: (Token.laid at_' ps ++ [closing]) ∧
      bang.kind = .mark .bang ∧ opening.kind = .mark .leftParen ∧
      closing.kind = .mark .rightParen := by
  unfold negated mark
  rw [Token.laid_token, Token.laid_token, Token.laid_append, Token.laid_token]
  exact ⟨_, _, _, _, rfl, rfl, rfl, rfl⟩

private theorem matches_negated {ts : List Token} {b l r : Token} (hb : b.kind = .mark .bang)
    (hl : l.kind = .mark .leftParen) (hr : r.kind = .mark .rightParen)
    (hm : Matches language (.node (.one .expr)) ts) :
    Matches language (.node (.one .expr)) (b :: l :: (ts ++ [r])) := by
  have hparen : Matches language (.node (.one .paren)) (l :: (ts ++ [r])) :=
    matches_node.mpr ⟨_, List.mem_singleton_self _, spans_need_tok.mpr ⟨_, _, rfl, hl,
      spans_need.mpr ⟨_, _, rfl, hm, spans_need_tok.mpr ⟨_, _, rfl, hr, spans_nil.mpr rfl⟩⟩⟩⟩
  have hunary := matches_of_lifts (n := 20) (d := .unary) (by decide) hparen
  refine matches_of_lifts (n := 20) (c := .unsignedUnary) (by decide) ?_
  exact matches_node.mpr ⟨_, List.mem_of_getElem? (i := 2) rfl, spans_need_tok.mpr
    ⟨_, _, rfl, hb, spans_need.mpr ⟨_, [], (List.append_nil _).symm, hunary, spans_nil.mpr rfl⟩⟩⟩

/-- A negated condition stands for the negation of what the condition stands for, in
parentheses. -/
theorem denotes_negated (h : Denotes ps e) :
    Denotes (negated ps) (.unary .empty .negate (.paren .empty e)) := by
  intro at_
  obtain ⟨b, l, at_', r, hlaid, hb, hl, hr⟩ := laid_negated at_ ps
  rw [hlaid]
  obtain ⟨x, hx⟩ := (matches_negated hb hl hr (h.matches at_')).exists_reads language_lawful
    fun _ hs ↦ .inr (by cases hs; exact inner_of_ne (by decide))
  obtain ⟨l₁, l₂, e', rfl, he⟩ := reads_negation hb hl (balanced_of_matches (h.matches at_')) hx
  refine ⟨_, hx, ?_⟩
  simp only [Rewrite.expr, h.eq he]

/-- The tokens of a conditional throw. -/
theorem laid_pieces (at_ : Position) (condition : List Piece) (exception : String)
    (message : List Piece) : ∃ word opening at₁ closing throw new name left at₂ right semicolon,
      Token.laid at_ (pieces condition exception message) =
        word :: opening :: (Token.laid at₁ condition ++ closing :: throw :: (new :: name :: left ::
          (Token.laid at₂ message ++ [right]) ++ [semicolon])) ∧
      word.kind = .word .if ∧ opening.kind = .mark .leftParen ∧ closing.kind = .mark .rightParen ∧
      throw.kind = .word .throw ∧ new.kind = .word .new ∧ name.kind = .name ∧
      name.text = exception ∧ left.kind = .mark .leftParen ∧ right.kind = .mark .rightParen ∧
      semicolon.kind = .mark .semicolon := by
  unfold pieces middle word mark gap
  simp only [Token.laid_token, Token.laid_blank, Token.laid_append, List.cons_append,
    List.nil_append, List.append_assoc, Token.laid_nil]
  exact ⟨_, _, _, _, _, _, _, _, _, _, _, rfl, rfl, rfl, rfl, rfl, rfl, rfl, String.ofList_toList,
    rfl, rfl, rfl⟩

private theorem matches_new {ts : List Token} {w n l r : Token} (hw : w.kind = .word .new)
    (hn : n.kind = .name) (hl : l.kind = .mark .leftParen) (hr : r.kind = .mark .rightParen)
    (hm : Matches language (.node (.one .exprs)) ts) :
    Matches language (.node (.one .expr)) (w :: n :: l :: (ts ++ [r])) := by
  have hargs : Matches language (.node (.one .arguments)) (l :: (ts ++ [r])) :=
    matches_node.mpr ⟨_, List.mem_singleton_self _, spans_need_tok.mpr ⟨_, _, rfl, hl,
      spans_cons.mpr (.inl ⟨_, _, rfl, hm,
        spans_need_tok.mpr ⟨_, _, rfl, hr, spans_nil.mpr rfl⟩⟩)⟩⟩
  refine matches_of_lifts (n := 20) (c := .newObject) (by decide) ?_
  exact matches_node.mpr ⟨_, List.mem_singleton_self _, spans_need_tok.mpr ⟨_, _, rfl, hw,
    spans_need.mpr ⟨[n], _, rfl, matches_classType hn, spans_need.mpr ⟨_, [], (List.append_nil _).symm, hargs,
      spans_cons.mpr (.inr ⟨rfl, spans_nil.mpr rfl⟩)⟩⟩⟩⟩

/-- The statement that throws an exception with a message under a condition. -/
def throwing (test : Expr) (exception : String) (arg : Expr) : Stmt :=
  .ifElse .empty test
    (.throwStmt .empty (.newObject .empty ⟨exception, [], 0, some .empty⟩ [arg] none)) none

/-- Whether the tokens of some pieces are several arguments does not depend on their place. -/
theorem divides_laid (h : Token.Divides (Token.laid at_ ps)) (at_' : Position) :
    Token.Divides (Token.laid at_' ps) := by
  obtain ⟨us, ws, heq, hu, hw⟩ := h
  obtain ⟨qs, rs, rfl, rfl, rfl, -⟩ := Token.exists_cut heq
  exact ⟨_, _, Token.laid_append at_' qs rs, matches_laid hu _, matches_laid hw _⟩

/-- The text of a conditional throw stands for one, unless the message is read as several
arguments. -/
theorem exists_throw (hc : Denotes condition test) (hm : Denotes message arg)
    (hone : ∀ at_, ¬ Token.Divides (Token.laid at_ message)) (at_ : Position) :
    ∃ g : Throw, g.tokens = Token.laid at_ (pieces condition exception message) ∧
      ∃ v, Reads language (.node (.one .statement)) g.tokens v ∧
        Rewrite.none.stmt v = throwing test exception arg := by
  obtain ⟨word, opening, at₁, closing, throw, new, name, left, at₂, right, semicolon, hlaid, hword,
    hopening, hclosing, hthrow, hnew, hname, htext, hleft, hright, hsemicolon⟩ :=
    laid_pieces at_ condition exception message
  have hexprs : Matches language (.node (.one .exprs)) (Token.laid at₂ message) :=
    matches_node.mpr ⟨_, List.mem_singleton_self _, spans_need.mpr ⟨_, [],
      (List.append_nil _).symm, hm.matches at₂, spans_cons.mpr (.inr ⟨rfl, spans_nil.mpr rfl⟩)⟩⟩
  let g : Throw := ⟨word, opening, Token.laid at₁ condition, closing, throw,
    new :: name :: left :: (Token.laid at₂ message ++ [right]), semicolon, hword, hopening,
    hc.matches at₁, hclosing, hthrow, matches_new hnew hname hleft hright hexprs, hsemicolon⟩
  obtain ⟨v, hv⟩ := g.matches.exists_reads language_lawful
    fun _ hs ↦ .inr (by cases hs; exact inner_of_ne (by decide))
  refine ⟨g, hlaid.symm, v, hv, ?_⟩
  obtain ⟨c, l, e, rfl, hrc, hre⟩ := g.reads hv
  obtain ⟨l₁, l₂, as, rfl, has⟩ := reads_newObject hnew hname hleft hexprs hre
  obtain ⟨m, hrm, rfl⟩ := hm at₂
  rcases reads_exprs hrm has with ⟨hdivides, -⟩ | ⟨-, rfl⟩
  · exact absurd hdivides (hone at₂)
  · simp only [Rewrite.stmt, Rewrite.expr, Rewrite.exprs, Rewrite.type, Rewrite.types, hc.eq hrc,
      htext, Option.map_some, throwing]

/-- The text of a conditional throw may take the place of an expression statement if a rewrite puts
the throw there. -/
theorem patch (hc : Denotes condition test) (hm : Denotes message arg)
    (hone : ∀ at_, ¬ Token.Divides (Token.laid at_ message))
    (hcs : SpelledBefore ')' condition) (hms : SpelledBefore ')' message)
    (he : spells (middle exception) = true)
    (hstmt : ∃ call semicolon, us = call ++ [semicolon] ∧
      Matches language (.node (.one .statementExpr)) call ∧ semicolon.kind = .mark .semicolon)
    (hf : f (Token.cover us) = some (throwing test exception arg)) :
    Patch f us (pieces condition exception message) where
  word := ⟨_, rfl⟩
  closed hr := pieces_spelled hcs hms he hr
  exchanged at_ := by
    obtain ⟨g, hg, v, hv, heq⟩ := exists_throw hc hm hone at_
    exact ⟨g, hg, hstmt, v, hv, by rw [hf, heq]⟩

end Template

end GuardLint.Syntax
