import GuardLint.Proofs.Grammar.Viability
import GuardLint.Proofs.Syntax.Nesting
import GuardLint.Proofs.Syntax.Numbers

/-!
# Where a syntax error is

A text is rejected at the first place that no source file goes beyond: at a character that begins no
lexeme, where the tokens before it begin some source file, at the first token that does not continue
any, or at the end, where the tokens begin a source file but are none.
-/

namespace GuardLint.Syntax

open Grammar

/-- What comes before a stray character is cut into lexemes to its end, and no lexeme begins with
it. -/
theorem Lexeme.cut_stray {fuel : Nat} {at_ : Position} {text : List Char} {lexemes : List Lexeme}
    {s : Stray} (hfuel : text.length ≤ fuel) (h : Lexeme.cut fuel at_ text = (lexemes, some s)) :
    ∃ back, text = lexemes.flatMap Lexeme.text ++ s.char :: back ∧
      s.position = at_.advance (lexemes.flatMap Lexeme.text) ∧
      Lexer.first? (s.char :: back) = none := by
  induction fuel generalizing at_ text lexemes with
  | zero =>
    obtain rfl : text = [] := List.length_eq_zero_iff.mp (by omega)
    rw [Lexeme.cut] at h
    cases h
  | succ fuel ih =>
    cases text with
    | nil =>
      rw [Lexeme.cut] at h
      cases h
    | cons c text =>
      rw [Lexeme.cut] at h
      split at h
      · next hnone =>
        cases h
        exact ⟨text, rfl, rfl, hnone⟩
      · next kind n hfirst =>
        obtain ⟨hpos, -⟩ := Lexer.first?_bounds hfirst
        simp only [Prod.mk.injEq] at h
        obtain ⟨rfl, hstray⟩ := h
        have hlen : ((c :: text).drop n).length ≤ fuel := by
          rw [List.length_drop]
          omega
        obtain ⟨back, htext, hposition, hnone⟩ := ih hlen (Prod.ext
          (x := Lexeme.cut fuel (at_.advance ((c :: text).take n)) ((c :: text).drop n)) rfl hstray)
        refine ⟨back, ?_, ?_, hnone⟩
        · rw [List.flatMap_cons, List.append_assoc, ← htext, List.take_append_drop]
        · rw [hposition, List.flatMap_cons, Position.advance_append]

/-- Tokens belong to every category of source files. -/
theorem language_productive : Productive language := by
  have hbuilds : ∀ c ∈ Category.all, language.builds 40 c = true := by decide +kernel
  exact productive_of_builds fun c ↦ ⟨40, hbuilds c c.mem_all⟩

/-- The ways in which a text is rejected. -/
private theorem CompilationUnit.parse_error_cases {source : List Char} {e : SyntaxError}
    (h : CompilationUnit.parse source = .error e) :
    (∃ s c, e = .strayCharacter s ∧ (Token.ofSource source).2 = some s ∧
      Grammar.chart language (Token.ofSource source).1 = .ok c) ∨
    (∃ t, e = .unexpectedToken t ∧ Grammar.chart language (Token.ofSource source).1 = .error t) ∨
    (∃ c, e = .unexpectedEnd ∧ (Token.ofSource source).2 = none ∧
      Grammar.chart language (Token.ofSource source).1 = .ok c ∧
      reading language (Token.ofSource source).1 c = none) := by
  unfold CompilationUnit.parse at h
  simp only at h
  split at h
  · next t hchart =>
    cases h
    exact .inr (.inl ⟨t, rfl, hchart⟩)
  · next c hchart =>
    split at h
    · next s hs =>
      cases h
      exact .inl ⟨s, c, rfl, hs, hchart⟩
    · next hs =>
      split at h
      · cases h
      · next hreading =>
        cases h
        exact .inr (.inr ⟨c, rfl, hs, hchart, hreading⟩)

/-- A rejected text has its error at the first place that no source file goes beyond. Either a
character begins no lexeme, and the tokens before it begin some source file; or a token is the first
that does not, together with those before it, begin any; or the text ends, the error has no position,
and the tokens begin some source file but are none. -/
theorem CompilationUnit.parse_firstError {source : List Char} {e : SyntaxError}
    (h : CompilationUnit.parse source = .error e) :
    (∃ s front back, e.position? = some s.position ∧ e = .strayCharacter s ∧
      source = front ++ s.char :: back ∧ s.position = Position.counted source front.length ∧
      Lexer.first? (s.char :: back) = none ∧
      (Lexeme.ofSource source).1.flatMap Lexeme.text = front ∧
      Viable language (Token.ofSource source).1) ∨
    (∃ before t after, e.position? = some t.location.first ∧ e = .unexpectedToken t ∧
      (Token.ofSource source).1 = before ++ t :: after ∧
      (∀ us, us <+: before → Viable language us) ∧ ¬ Viable language (before ++ [t])) ∨
    (e.position? = none ∧ e = .unexpectedEnd ∧ (Token.ofSource source).2 = none ∧
      Viable language (Token.ofSource source).1 ∧
      ¬ Sentence language (Token.ofSource source).1) := by
  rcases CompilationUnit.parse_error_cases h with
    ⟨s, c, rfl, hs, hchart⟩ | ⟨t, rfl, hchart⟩ | ⟨c, rfl, hs, hchart, hreading⟩
  · obtain ⟨back, hsource, hposition, hnone⟩ := Lexeme.cut_stray (Nat.le_refl source.length)
      (Prod.ext (x := Lexeme.ofSource source) rfl hs)
    refine .inl ⟨s, _, back, rfl, rfl, hsource, ?_, hnone, rfl,
      viable_of_chart language_lawful language_productive hchart⟩
    rw [hposition, Position.advance_origin _ (s.char :: back), ← hsource]
  · obtain ⟨before, after, htokens, hviable, hnot⟩ :=
      viable_of_chart_eq_error language_lawful language_productive hchart
    exact .inr (.inl ⟨before, t, after, rfl, rfl, htokens, fun us hus ↦ hviable.of_prefix hus, hnot⟩)
  · refine .inr (.inr ⟨rfl, rfl, hs, viable_of_chart language_lawful language_productive hchart, ?_⟩)
    intro hsentence
    obtain ⟨unit, hr⟩ := Matches.exists_reads language_lawful
      (fun h hs ↦ .inl (by cases hs; rfl)) hsentence
    obtain ⟨c', hc', hread⟩ := (chart_reading_iff language_lawful).mpr hr
    rw [Except.ok.inj (hchart.symm.trans hc'), hread] at hreading
    cases hreading

/-- A text in which a field has no name. -/
private def namelessText : List Char := "class A \x7b int; \x7d #".toList

private theorem namelessText_error :
    (match CompilationUnit.parse namelessText with
      | .error (.unexpectedToken t) => t.location.first == ⟨13, 1, 14⟩
      | _ => false) = true := by
  have htext : namelessText = _ := String.toList_ofList
  rw [htext, CompilationUnit.parse_eq_parseNumbered]
  decide +kernel

/-- The semicolon in the place of the name of a field is the first token that no source file has
there, though a stray character stands behind it. -/
theorem CompilationUnit.parse_firstError_nameless : ∃ before t after,
    CompilationUnit.parse namelessText = .error (.unexpectedToken t) ∧
    t.location.first = ⟨13, 1, 14⟩ ∧ (Token.ofSource namelessText).1 = before ++ t :: after ∧
    (∀ us, us <+: before → Viable language us) ∧ ¬ Viable language (before ++ [t]) := by
  have herror := namelessText_error
  split at herror
  · rename_i t hparse
    rcases parse_firstError hparse with ⟨_, _, _, -, h, -⟩ |
      ⟨before, _, after, -, h, htokens, hviable, hnot⟩ | ⟨-, h, -⟩
    · cases h
    · obtain rfl := SyntaxError.unexpectedToken.inj h
      exact ⟨before, t, after, hparse, beq_iff_eq.mp herror, htokens, hviable, hnot⟩
    · cases h
  · cases herror

end GuardLint.Syntax
