import GuardLint.Proofs.Syntax.Guard
import GuardLint.Proofs.Syntax.Splice

/-!
# The text of a conditional throw

A conditional throw is written around the texts of a condition and of a message. The text is spelled
by the pieces of its parts wherever these come from, and its tokens are those of a conditional
throw.
-/

namespace GuardLint.Syntax

open Grammar

variable {ps qs rs : List Piece} {text w : List Char} {c : Char}

/-! ### Pieces before a seam -/

/-- Whether each of some pieces is the first lexeme of what follows. -/
def spells : List Piece → Bool
  | [] => true
  | (kind, piece) :: ps => Lexer.first? (piece ++ spelling ps) == some (kind, piece.length) && spells ps

theorem spelled_of_spells (h : spells ps = true) : Spelled ps (spelling ps) := by
  induction ps with
  | nil => exact .nil
  | cons p ps ih =>
    obtain ⟨kind, piece⟩ := p
    obtain ⟨hfirst, hps⟩ := Bool.and_eq_true_iff.mp h
    exact .cons (beq_iff_eq.mp hfirst) (ih hps)

/-- Some pieces are spelled before every text that begins with some character. -/
def SpelledBefore (c : Char) (ps : List Piece) : Prop :=
  ∀ {rs w}, Spelled rs (c :: w) → Spelled (ps ++ rs) (spelling ps ++ c :: w)

theorem unopened_of_no_slash (h : ∀ p ∈ ps, p.1 ≠ .token (.mark .slash)) : Unopened ps := by
  induction ps with
  | nil => exact .nil
  | cons p ps ih =>
    have htail := ih fun q hq ↦ h q (List.mem_cons_of_mem p hq)
    refine List.isChain_cons.mpr ⟨fun q _ k l hk _ hkl ↦ ?_, htail⟩
    exact h p List.mem_cons_self (by rw [hk, hkl.1])

/-- The characters that the pieces of an expression may be put before. -/
def followers : List Char := [' ', '(', ')', ';']

/-- Pieces of a text that end with a token are spelled before a blank, a parenthesis or a semicolon. -/
theorem Spelled.before (h : Spelled (ps ++ qs) text) (hc : c ∈ followers) (hopen : Unopened ps)
    (hend : ∃ kind piece, ps.getLast? = some (.token kind, piece)) : SpelledBefore c ps := by
  intro rs w hr
  have hpart : Lexer.run Lexer.isNamePart (c :: w) = 0 := by
    simp only [followers, List.mem_cons, List.not_mem_nil, or_false] at hc
    rcases hc with rfl | rfl | rfl | rfl <;> rfl
  refine h.seam hr ?_ (fun kind piece hlast ↦ ?_) hopen
  · intro x hx
    obtain rfl := Option.some.inj hx
    simp only [followers, List.mem_cons, List.not_mem_nil, or_false] at hc
    rcases hc with rfl | rfl | rfl | rfl <;> decide
  · obtain ⟨k, last, hk⟩ := hend
    obtain ⟨rfl, rfl⟩ := Prod.mk.inj (Option.some.inj (hlast.symm.trans hk))
    cases k with
    | name | word => exact hpart
    | _ => trivial

/-- Pieces that begin with a token do not begin with a blank. -/
theorem Spelled.unblank {kind : Kind} {piece : List Char}
    (h : Spelled ((.token kind, piece) :: qs) text) (w : List Char) :
    Lexer.run Text.isBlank (piece ++ w) = 0 := by
  have hfirst := h.cons_inv.1
  obtain ⟨c, piece, rfl⟩ := List.exists_cons_of_length_pos (Lexer.first?_bounds hfirst).1
  simp [Lexer.run, Lexer.isBlank_of_token hfirst]

/-! ### The template -/

namespace Template

/-- A blank. -/
def gap : Piece := (.blank, [' '])

/-- A punctuation mark. -/
def mark (m : Mark) : Piece := (.token (.mark m), m.text.toList)

/-- A reserved word. -/
def word (k : Keyword) : Piece := (.token (.word k), k.text.toList)

/-- What stands between the condition and the arguments of the exception. -/
def middle (exception : String) : List Piece :=
  [mark .rightParen, gap, word .throw, gap, word .new, gap, (.token .name, exception.toList)]

/-- The pieces of a conditional throw, from those of the condition and those of the message. -/
def pieces (condition : List Piece) (exception : String) (message : List Piece) : List Piece :=
  word .if :: gap :: mark .leftParen :: (condition ++ (middle exception ++
    mark .leftParen :: (message ++ [mark .rightParen, mark .semicolon])))

/-- The pieces of a condition that is negated in parentheses. -/
def negated (condition : List Piece) : List Piece :=
  mark .bang :: mark .leftParen :: (condition ++ [mark .rightParen])

/-- The pieces of a condition that is compared with `null`. -/
def compared (condition : List Piece) : List Piece :=
  condition ++ [gap, mark .equals, gap, word .null]

variable {condition message : List Piece} {exception : String}

private theorem cons_leftParen (hr : Spelled rs w) :
    Spelled (mark .leftParen :: rs) ('(' :: w) :=
  Spelled.cons rfl hr

private theorem cons_rightParen (hr : Spelled rs w) :
    Spelled (mark .rightParen :: rs) (')' :: w) :=
  Spelled.cons rfl hr

private theorem cons_semicolon (hr : Spelled rs w) : Spelled (mark .semicolon :: rs) (';' :: w) :=
  Spelled.cons rfl hr

theorem spelling_negated :
    spelling (negated condition) = '!' :: '(' :: (spelling condition ++ [')']) :=
  congrArg (fun s ↦ '!' :: '(' :: s) (spelling_append condition _)

theorem spelling_compared :
    spelling (compared condition) = spelling condition ++ " == null".toList :=
  spelling_append condition _

theorem spelling_middle : spelling (middle exception) = ") throw new ".toList ++ exception.toList := by
  have h := spelling_append [mark .rightParen, gap, word .throw, gap, word .new, gap]
    [(.token .name, exception.toList)]
  exact h.trans (congrArg (_ ++ ·) (List.append_nil _))

theorem spelling_pieces : spelling (pieces condition exception message) =
    "if (".toList ++ (spelling condition ++ (") throw new ".toList ++ exception.toList ++
      '(' :: (spelling message ++ [')', ';']))) := by
  have hmiddle : spelling (middle exception) = _ := spelling_middle
  have htail : spelling (condition ++ (middle exception ++
      mark .leftParen :: (message ++ [mark .rightParen, mark .semicolon]))) =
      spelling condition ++ (") throw new ".toList ++ exception.toList ++
        '(' :: (spelling message ++ [')', ';'])) := by
    rw [spelling_append, spelling_append, hmiddle]
    refine congrArg (fun s ↦ _ ++ (_ ++ '(' :: s)) (spelling_append message _)
  exact congrArg ("if (".toList ++ ·) htail

/-- A negated condition is spelled if the condition is. -/
theorem negated_spelled (hc : SpelledBefore ')' condition) :
    SpelledBefore ')' (negated condition) := by
  intro rs w hr
  have hinner := cons_leftParen (hc (cons_rightParen hr))
  have hbang : Spelled (mark .bang :: _) (['!'] ++ _) := Spelled.cons (by rfl) hinner
  have hlist : negated condition ++ rs =
      mark .bang :: mark .leftParen :: (condition ++ mark .rightParen :: rs) := by simp [negated]
  have htext : spelling (negated condition) ++ ')' :: w =
      '!' :: '(' :: (spelling condition ++ ')' :: ')' :: w) := by simp [spelling_negated]
  rw [hlist, htext]
  exact hbang

/-- A comparison is spelled if the condition is. -/
theorem compared_spelled (hc : SpelledBefore ' ' condition) :
    SpelledBefore ')' (compared condition) := by
  intro rs w hr
  have htest : spells [gap, mark .equals, gap, word .null] = true := by decide
  have htail : SpelledBefore ')' [gap, mark .equals, gap, word .null] :=
    Spelled.before (spelled_of_spells htest) (by decide)
      (unopened_of_no_slash (by decide)) ⟨_, _, rfl⟩
  have hwhole := hc (htail hr)
  rw [spelling_compared, compared, List.append_assoc, List.append_assoc]
  exact hwhole

private theorem middle_before (he : spells (middle exception) = true) :
    SpelledBefore '(' (middle exception) := by
  have hspelled : Spelled (middle exception ++ []) (spelling (middle exception)) := by
    rw [List.append_nil]
    exact spelled_of_spells he
  have hparen : '(' ∈ followers := by decide
  have hopen : Unopened (middle exception) := unopened_of_no_slash fun p hp ↦ by
    simp only [middle, List.mem_cons, List.not_mem_nil, or_false] at hp
    rcases hp with rfl | rfl | rfl | rfl | rfl | rfl | rfl <;> exact nofun
  intro rs w hr
  exact hspelled.before hparen hopen ⟨_, _, rfl⟩ hr

/-- The text of a conditional throw is spelled, whatever follows it. -/
theorem pieces_spelled (hc : SpelledBefore ')' condition) (hm : SpelledBefore ')' message)
    (he : spells (middle exception) = true) (hr : Spelled rs w) :
    Spelled (pieces condition exception message ++ rs)
      (spelling (pieces condition exception message) ++ w) := by
  have hword : Spelled ([word .if] ++ []) _ := spelled_of_spells (by decide)
  have hif : SpelledBefore ' ' [word .if] :=
    hword.before (by decide) (unopened_of_no_slash (by decide)) ⟨_, _, rfl⟩
  have hargs := middle_before he (cons_leftParen (hm (cons_rightParen (cons_semicolon hr))))
  rw [spelling_middle] at hargs
  have htest := cons_leftParen (hc hargs)
  have hgap : Spelled (gap :: _) ([' '] ++ _) := Spelled.cons (by rfl) htest
  have hwhole := hif hgap
  have hlist : pieces condition exception message ++ rs =
      [word .if] ++ gap :: mark .leftParen :: (condition ++ (middle exception ++
        mark .leftParen :: (message ++ mark .rightParen :: mark .semicolon :: rs))) := by
    simp [pieces]
  have htext : spelling (pieces condition exception message) ++ w = spelling [word .if] ++
      ' ' :: '(' :: (spelling condition ++ (") throw new ".toList ++ exception.toList ++
        '(' :: (spelling message ++ ')' :: ';' :: w))) := by
    rw [spelling_pieces]
    simp only [List.append_assoc, List.cons_append, List.nil_append]
    rfl
  rw [hlist, htext]
  exact hwhole

end Template

end GuardLint.Syntax
