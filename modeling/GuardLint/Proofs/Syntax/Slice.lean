import GuardLint.Proofs.Syntax.Holder
import GuardLint.Proofs.Syntax.Nesting
import GuardLint.Proofs.Syntax.Numbers

/-!
# The text of an expression

The text that an expression stands on is the text of this expression wherever an expression may
stand: if a field of a class is initialized with it, the class parses, and what the field is
initialized with is the expression, up to locations. Comments and line feeds in the text stay what
they are.
-/

namespace GuardLint.Syntax

open Grammar

variable {ps qs : List Piece} {text w : List Char} {at_ : Position} {e : Expr}

/-! ### The text around the expression -/

/-- The text of a class that has one field, initialized with some text. -/
def initializing (text : List Char) : List Char :=
  "class C \x7b Object x = ".toList ++ text ++ "; \x7d".toList

/-- The source file without locations in which a class has one field, initialized with an
expression. -/
def CompilationUnit.initialized (e : Expr) : CompilationUnit :=
  ⟨.empty, none, [], [⟨.empty, .classType, "C", [.field ⟨.empty, ⟨"Object", [], 0, some .empty⟩,
    [⟨.empty, "x", 0, some e⟩], [], []⟩], [], [], [], []⟩]⟩

namespace Initialization

open Template

/-- The pieces before the expression. -/
def front : List Piece :=
  [word .class, gap, (.token .name, "C".toList), gap, mark .leftBrace, gap,
    (.token .name, "Object".toList), gap, (.token .name, "x".toList), gap, mark .assign]

/-- The pieces behind the expression. -/
def back : List Piece := [mark .semicolon, gap, mark .rightBrace]

/-- The pieces of the class, from those of the expression. -/
def pieces (ps : List Piece) : List Piece := front ++ gap :: (ps ++ back)

theorem spelling_pieces : spelling (pieces ps) = initializing (spelling ps) := by
  have hfront : spelling front ++ [' '] = "class C \x7b Object x = ".toList := by decide
  have hback : spelling back = "; \x7d".toList := by decide
  unfold initializing
  rw [← hfront, ← hback, pieces, spelling_append, gap, spelling_cons, spelling_append ps]
  simp only [List.append_assoc]

/-- A blank is spelled before what begins with a token. -/
private theorem gap_spelled (hw : Lexer.run Text.isBlank w = 0) (h : Spelled ps w) :
    Spelled (gap :: ps) (' ' :: w) := by
  have hblank : Lexer.blank (' ' :: w) = some 1 := by
    have hrun : Lexer.run Text.isBlank (' ' :: w) = Lexer.run Text.isBlank w + 1 := rfl
    rw [Lexer.blank, hrun, hw]
    rfl
  have hfirst : Lexer.first? (' ' :: w) = some (.blank, 1) := by
    refine Lexer.first?_eq_some.mpr (.inr (.inr (.inr (.inr (.inr (.inl ?_))))))
    exact ⟨rfl, rfl, rfl, rfl, rfl, hblank, rfl⟩
  exact .cons hfirst h

/-- The text of the class is spelled by its pieces. -/
theorem spelled_pieces (hw : Written text e ps) : Spelled (pieces ps) (spelling (pieces ps)) := by
  have hback : Spelled back (';' :: " \x7d".toList) := spelled_of_spells (by decide)
  have hvalue : Spelled (ps ++ back) (spelling ps ++ ';' :: " \x7d".toList) :=
    hw.spelled ';' (by decide) hback
  have hfront : Spelled (front ++ []) (spelling front) := spelled_of_spells (by decide)
  have hspelled := hfront.before (c := ' ') (by decide) (unopened_of_no_slash (by decide)) ⟨_, _, rfl⟩
    (gap_spelled (hw.unblank _) hvalue)
  have htail := spelling_append ps back
  rw [pieces, spelling_append, spelling_cons, htail]
  exact hspelled

/-- The tokens of the class. -/
theorem laid_pieces (at_ : Position) (ps : List Piece) :
    ∃ word name opening type var sign at_' semicolon closing,
      Token.laid at_ (pieces ps) = word :: name :: opening :: type :: var :: sign ::
        (Token.laid at_' ps ++ [semicolon, closing]) ∧
      word.kind = .word .class ∧ name.kind = .name ∧ name.text = "C" ∧
      opening.kind = .mark .leftBrace ∧ type.kind = .name ∧ type.text = "Object" ∧
      var.kind = .name ∧ var.text = "x" ∧ sign.kind = .mark .assign ∧
      semicolon.kind = .mark .semicolon ∧ closing.kind = .mark .rightBrace := by
  unfold pieces front back word mark gap
  simp only [Token.laid_token, Token.laid_blank, Token.laid_append, List.cons_append,
    List.nil_append, Token.laid_nil]
  exact ⟨_, _, _, _, _, _, _, _, _, rfl, rfl, rfl, String.ofList_toList, rfl, rfl,
    String.ofList_toList, rfl, String.ofList_toList, rfl, rfl, rfl⟩

/-- The tokens of the class are those of a class around the expression. -/
theorem exists_holder (hd : Denotes ps e) (at_ : Position) : ∃ h : Holder, ∃ at_',
    h.tokens = Token.laid at_ (pieces ps) ∧ h.value = Token.laid at_' ps ∧
      h.name.text = "C" ∧ h.type.text = "Object" ∧ h.var.text = "x" := by
  obtain ⟨word, name, opening, type, var, sign, at_', semicolon, closing, hlaid, hword, hname, hc,
    hopening, htype, hobject, hvar, hx, hsign, hsemicolon, hclosing⟩ := laid_pieces at_ ps
  let h : Holder := ⟨word, name, opening, type, var, sign, Token.laid at_' ps, semicolon, closing,
    hword, hname, hopening, htype, hvar, hsign, hd.matches at_', hsemicolon, hclosing⟩
  refine ⟨h, at_', ?_, rfl, hc, hobject, hx⟩
  rw [hlaid]
  simp [h, Holder.tokens, Holder.body, Holder.field, Holder.declarator]

/-- What is read of the class is, without locations, the class whose field is initialized with the
expression. -/
theorem reads_initialized (hd : Denotes ps e) {unit : CompilationUnit}
    (hr : Reads language (.node (.one .compilationUnit)) (Token.laid at_ (pieces ps)) unit) :
    Rewrite.none.unit unit = .initialized e := by
  obtain ⟨h, at_', htokens, hvalue, hname, htype, hvar⟩ := exists_holder hd at_
  rw [← htokens] at hr
  obtain ⟨l, lc, lf, lt, lv, x, rfl, hx⟩ := Holder.reads_unit hr
  rw [hvalue] at hx
  simp only [Rewrite.unit, List.map_nil, List.map_cons, Holder.classOf, Rewrite.typeDecl,
    Rewrite.members, Rewrite.member, Rewrite.varDecl, Rewrite.type, Rewrite.types,
    Rewrite.declarators, Rewrite.declarator, Rewrite.expr?, Rewrite.annotations, Rewrite.constants,
    Option.map_some, hd.eq hx, hname, htype, hvar, CompilationUnit.initialized]

end Initialization

open Initialization

/-- A text in which a field is initialized with a sum that a comment divides. -/
private def sumText : List Char := "class A\x7bint x=a// b\n+1;\x7d".toList

private theorem sumText_nodes :
    (match CompilationUnit.parse sumText with
      | .ok unit =>
        match Node.ofUnit unit with
        | [.expr (.binary l .add (.name _ _) (.literal _ _ _))] => l.slice sumText == "a// b\n+1".toList
        | _ => false
      | .error _ => false) = true := by
  have htext : sumText = _ := String.toList_ofList
  rw [htext, CompilationUnit.parse_eq_parseNumbered]
  decide +kernel

end GuardLint.Syntax
