import GuardLint.Proofs.Syntax.Nesting
import GuardLint.Proofs.Syntax.Splice

/-!
# Excerpts

The lexemes of a source text make up the text, one behind the other, and each stands where counting
finds it. The tokens from one to a later one do not depend on the text around them: an excerpt from
the start of the first to the end of the last has the same tokens, counted from its own start.
-/

namespace GuardLint

namespace Position

/-- A position of a text, counted as if the text began at the position `p`. -/
def shift (p q : Position) : Position :=
  if q.line = 1 then ⟨p.offset + q.offset, p.line, p.column + (q.column - 1)⟩
  else ⟨p.offset + q.offset, p.line + (q.line - 1), q.column⟩

private theorem step_shift (p : Position) {q : Position} (hline : 1 ≤ q.line)
    (hcolumn : 1 ≤ q.column) (c : Char) : (p.shift q).step c = p.shift (q.step c) := by
  obtain ⟨offset, line, column⟩ := q
  have hpos : line ≠ 0 := Nat.ne_of_gt hline
  by_cases hc : c = '\n' <;> by_cases hfirst : line = 1 <;>
    simp [step, shift, hc, hfirst, hpos] at hcolumn ⊢ <;> omega

private theorem advance_shift (p : Position) {q : Position} (hline : 1 ≤ q.line)
    (hcolumn : 1 ≤ q.column) (text : List Char) :
    (p.shift q).advance text = p.shift (q.advance text) := by
  induction text generalizing q with
  | nil => rfl
  | cons c text ih =>
    have hstep : 1 ≤ (q.step c).line ∧ 1 ≤ (q.step c).column := by
      unfold step
      split
      · exact ⟨Nat.le_add_left 1 q.line, Nat.le_refl 1⟩
      · exact ⟨hline, Nat.le_add_left 1 q.column⟩
    have htail := ih hstep.1 hstep.2
    rw [← step_shift p hline hcolumn c] at htail
    exact htail

/-- Where a text ends depends on where it begins only by a shift. -/
theorem advance_eq_shift (p : Position) (text : List Char) :
    p.advance text = p.shift (origin.advance text) :=
  advance_shift p (q := origin) (Nat.le_refl 1) (Nat.le_refl 1) text

end Position

namespace Syntax

/-- A token of a text, located as if the text began at the position `p`. -/
def Token.shift (p : Position) (t : Token) : Token :=
  { t with location := ⟨p.shift t.location.first, p.shift t.location.last⟩ }

variable {at_ : Position} {ps : List Piece}

/-- Pieces laid elsewhere are the same tokens, shifted. -/
theorem Token.laid_eq_shift (at_ : Position) (ps : List Piece) :
    Token.laid at_ ps = (Token.laid .origin ps).map (Token.shift at_) := by
  have hlaid : ∀ (p : Position) (qs rs : List Piece), Token.laid (p.advance (spelling qs)) rs =
      (Token.laid (Position.origin.advance (spelling qs)) rs).map (Token.shift p) := by
    intro p qs rs
    induction rs generalizing qs with
    | nil => rfl
    | cons r rs ih =>
      obtain ⟨kind, piece⟩ := r
      have hnext := ih (qs ++ [(kind, piece)])
      rw [spelling_append, spelling_cons, spelling_nil, List.append_nil, Position.advance_append,
        Position.advance_append] at hnext
      cases kind with
      | token kind =>
        rw [Token.laid_token, Token.laid_token, List.map_cons, hnext, Token.shift]
        simp only [← Position.advance_append, ← Position.advance_eq_shift]
      | comment => exact hnext
      | blank => exact hnext
  exact hlaid at_ [] ps

/-! ### Lexemes -/

/-- A lexeme among those laid is one of the pieces, behind the text of those before it. -/
theorem Lexeme.exists_of_laid {front back : List Lexeme} {x : Lexeme}
    (h : Lexeme.laid at_ ps = front ++ x :: back) : ∃ qs rs, ps = qs ++ (x.kind, x.text) :: rs ∧
      front.flatMap Lexeme.text = spelling qs ∧
      x.location = ⟨at_.advance (spelling qs), at_.advance (spelling qs ++ x.text)⟩ := by
  induction front generalizing at_ ps with
  | nil =>
    cases ps with
    | nil => cases h
    | cons p ps =>
      obtain ⟨rfl, -⟩ := List.cons.inj h
      exact ⟨[], ps, rfl, rfl, rfl⟩
  | cons y front ih =>
    cases ps with
    | nil => cases h
    | cons p ps =>
      obtain ⟨kind, piece⟩ := p
      obtain ⟨rfl, htail⟩ := List.cons.inj h
      obtain ⟨qs, rs, rfl, hfront, hlocation⟩ := ih htail
      refine ⟨(kind, piece) :: qs, rs, rfl, ?_, ?_⟩
      · rw [List.flatMap_cons, hfront, spelling_cons]
      · rw [hlocation, spelling_cons, List.append_assoc, ← Position.advance_append,
          ← Position.advance_append]

theorem Lexeme.flatMap_text_laid (at_ : Position) (ps : List Piece) :
    (Lexeme.laid at_ ps).flatMap Lexeme.text = spelling ps := by
  induction ps generalizing at_ with
  | nil => rfl
  | cons p ps ih =>
    obtain ⟨kind, piece⟩ := p
    rw [Lexeme.laid, List.flatMap_cons, ih, spelling_cons]

/-- A lexeme of a source text stands behind the lexemes before it, where counting finds it. -/
private theorem Lexeme.counted_of_laid {source : List Char} (hs : Spelled ps source)
    {front back : List Lexeme} {x : Lexeme} (h : Lexeme.laid .origin ps = front ++ x :: back) :
    x.text ≠ [] ∧ x.location.start = (front.flatMap Lexeme.text).length ∧
      x.location.stop = x.location.start + x.text.length ∧ x.location.slice source = x.text ∧
      x.location.first = Position.counted source x.location.start ∧
      x.location.last = Position.counted source x.location.stop := by
  obtain ⟨qs, rs, rfl, hfront, hlocation⟩ := Lexeme.exists_of_laid h
  have hne : 0 < x.text.length :=
    hs.piece_ne_nil (x.kind, x.text) (List.mem_append_right qs List.mem_cons_self)
  have hsource : source = spelling qs ++ x.text ++ spelling rs := by
    rw [hs.text_eq, spelling_append, spelling_cons, List.append_assoc]
  have hstart : x.location.start = (spelling qs).length := by
    simp [hlocation, Location.start, Position.offset_advance, Position.origin]
  have hstop : x.location.stop = (spelling qs ++ x.text).length := by
    simp [hlocation, Location.stop, Position.offset_advance, Position.origin]
  refine ⟨List.ne_nil_of_length_pos hne, by rw [hstart, hfront], ?_, ?_, ?_, ?_⟩
  · rw [hstop, hstart, List.length_append]
  · simp [Location.slice, hstart, hstop, hsource]
  · rw [hstart, hsource, List.append_assoc, ← Position.advance_origin, hlocation]
  · rw [hstop, hsource, ← Position.advance_origin, hlocation]

/-! ### Excerpts -/

/-- No token goes on at the end of a text. -/
private theorem Lexer.seals_nil (kind : Kind) (piece : List Char) :
    Lexer.Seals (.token kind) piece [] := by
  cases kind with
  | name | word => rfl
  | number | char | string | mark => trivial

/-- Tokens that follow each other in a text are, but for a shift, the tokens of the text that they
stand on. -/
theorem Token.ofSource_slice {source : List Char} {front us back : List Token}
    (h : Token.ofSource source = (front ++ us ++ back, none)) (hne : us ≠ []) :
    ∃ ts, Token.ofSource ((Token.cover us).slice source) = (ts, none) ∧
      us = ts.map (Token.shift (Token.cover us).first) := by
  obtain ⟨ps, hs, hlaid⟩ := Token.laid_ofSource h
  obtain ⟨qs, rs, ss, rfl, -, hus, -, hcover, -, t, piece, -, hlast⟩ :=
    Token.exists_segment hlaid.symm hne
  have hslice : (Token.cover us).slice source = spelling rs :=
    Token.slice_of_spelling hs.text_eq hcover
  have hbehind : Spelled (rs ++ ss) (spelling (rs ++ ss)) := by
    rw [List.append_assoc] at hs
    exact hs.suffix
  have hspelled : Spelled rs (spelling rs) := hbehind.front fun kind x hx ↦ by
    rw [hlast] at hx
    cases hx
    exact Lexer.seals_nil t.kind piece
  refine ⟨Token.laid .origin rs, ?_, ?_⟩
  · rw [hslice]
    exact Token.ofSource_of_spelled hspelled
  · rw [hcover, ← Token.laid_eq_shift, hus]

/-- The lexemes of a source text without stray characters, gaps included, are not empty and make up
the text one behind the other. The location of each covers its text, and its ends are at the lines
and columns that counting finds. The tokens from one to another are, but for a shift, those of the
excerpt from the start of the first to the end of the last. -/
theorem Lexeme.ofSource_consecutive {source : List Char} {lexemes : List Lexeme}
    (h : Lexeme.ofSource source = (lexemes, none)) :
    lexemes.flatMap Lexeme.text = source ∧
    (∀ front x back, lexemes = front ++ x :: back →
      x.text ≠ [] ∧ x.location.start = (front.flatMap Lexeme.text).length ∧
      x.location.stop = x.location.start + x.text.length ∧ x.location.slice source = x.text ∧
      x.location.first = Position.counted source x.location.start ∧
      x.location.last = Position.counted source x.location.stop) ∧
    ∀ front us back, lexemes.filterMap Lexeme.token? = front ++ us ++ back → us ≠ [] →
      ∃ ts, Token.ofSource ((Token.cover us).slice source) = (ts, none) ∧
        us = ts.map (Token.shift (Token.cover us).first) := by
  obtain ⟨ps, hs, rfl⟩ := Lexeme.ofSource_eq.mp h
  refine ⟨?_, fun front x back hx ↦ Lexeme.counted_of_laid hs hx, fun front us back hus hne ↦ ?_⟩
  · rw [Lexeme.flatMap_text_laid, hs.text_eq]
  · have htokens : Token.ofSource source = (front ++ us ++ back, none) := by
      rw [Token.ofSource, h, ← hus]
    exact Token.ofSource_slice htokens hne

/-- A text in which a comment with a line feed stands between two of four tokens. -/
private def commentedText : List Char := "a +/* b\n*/1.5e".toList

private theorem commentedText_lexemes :
    (match Lexeme.ofSource commentedText with
      | (lexemes, none) =>
        match lexemes.filterMap Lexeme.token? with
        | [_, b, c, _] => (Token.cover [b, c]).slice commentedText == "+/* b\n*/1.5".toList
        | _ => false
      | _ => false) = true := by
  decide +kernel

/-- The excerpt from a sign to a number behind a comment has these two tokens. -/
theorem Lexeme.ofSource_consecutive_comment : ∃ lexemes a b c d ts,
    Lexeme.ofSource commentedText = (lexemes, none) ∧
    lexemes.flatMap Lexeme.text = commentedText ∧
    lexemes.filterMap Lexeme.token? = [a, b, c, d] ∧
    Token.ofSource "+/* b\n*/1.5".toList = (ts, none) ∧
    [b, c] = ts.map (Token.shift b.location.first) := by
  have hlexemes := commentedText_lexemes
  split at hlexemes
  · rename_i lexemes hsource
    split at hlexemes
    · rename_i a b c d htokens
      obtain ⟨htext, -, hexcerpt⟩ := Lexeme.ofSource_consecutive hsource
      obtain ⟨ts, hts, heq⟩ := hexcerpt [a] [b, c] [d] htokens (List.cons_ne_nil b [c])
      rw [beq_iff_eq.mp hlexemes] at hts
      exact ⟨lexemes, a, b, c, d, ts, hsource, htext, htokens, hts, heq⟩
    · cases hlexemes
  · cases hlexemes

end Syntax

end GuardLint
