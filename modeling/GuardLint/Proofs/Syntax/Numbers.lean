import GuardLint.Proofs.Grammar.NumberedReading
import GuardLint.Syntax.Parse
import Mathlib.Logic.Function.Basic

/-!
# The symbols of the language by numbers

With a number for each symbol of the language, source texts parse by numbers. What a given text is
read as is worked out in this way, from the list of its characters: a kernel finds the characters of
a string only by way of its bytes.
-/

namespace GuardLint.Syntax

open Grammar

/-- The number of a kind of token. -/
def Kind.index : Kind → Nat
  | .number => 0
  | .name => 1
  | .char => 2
  | .string => 3
  | .word k => 2 * k.ctorIdx + 4
  | .mark m => 2 * m.ctorIdx + 5

/-- The number of a symbol. -/
def Category.index : Symbol Category → Nat
  | .tok k => 3 * k.index
  | .node (.one c) => 3 * c.ctorIdx + 1
  | .node (.run c) => 3 * c.ctorIdx + 2

theorem Kind.index_injective : Kind.index.Injective := by
  have hword : Keyword.ctorIdx.Injective := Function.LeftInverse.injective Keyword.ofNat_ctorIdx
  have hmark : Mark.ctorIdx.Injective := Function.LeftInverse.injective Mark.ofNat_ctorIdx
  intro k l h
  cases k <;> cases l <;> simp only [index] at h <;> try omega
  any_goals rfl
  case word.word k l => rw [hword (show k.ctorIdx = l.ctorIdx by omega)]
  case mark.mark m n => rw [hmark (show m.ctorIdx = n.ctorIdx by omega)]

theorem Category.index_injective : Category.index.Injective := by
  have hcategory : Category.ctorIdx.Injective :=
    Function.LeftInverse.injective Category.ofNat_ctorIdx
  intro s t h
  rcases s with k | ⟨c⟩ | ⟨c⟩ <;> rcases t with l | ⟨d⟩ | ⟨d⟩ <;> simp only [index] at h <;> try omega
  · rw [Kind.index_injective (show k.index = l.index by omega)]
  · rw [hcategory (show c.ctorIdx = d.ctorIdx by omega)]
  · rw [hcategory (show c.ctorIdx = d.ctorIdx by omega)]

/-- The tree of a source text, found by numbers, or what is wrong with it. -/
def CompilationUnit.parseNumbered (source : List Char) : Except SyntaxError CompilationUnit :=
  let (tokens, stray) := Token.ofSource source
  match Numbered.chart language Category.index tokens with
  | .error token => .error (.unexpectedToken token)
  | .ok columns =>
    match stray with
    | some s => .error (.strayCharacter s)
    | none =>
      match Numbered.reading language Category.index tokens columns.reverse with
      | some unit => .ok unit
      | none => .error .unexpectedEnd

theorem CompilationUnit.parse_eq_parseNumbered :
    CompilationUnit.parse = CompilationUnit.parseNumbered := by
  funext source
  unfold CompilationUnit.parse CompilationUnit.parseNumbered
  obtain ⟨tokens, stray⟩ := Token.ofSource source
  simp only [Numbered.chart_eq Category.index_injective]
  cases Grammar.chart language tokens with
  | error t => rfl
  | ok chart =>
    have hread := Numbered.reading_eq Category.index_injective
      (Columns.record_reverse (g := language) chart) tokens
    cases stray with
    | some s => rfl
    | none =>
      cases hr : Grammar.reading language tokens chart <;> simp only [Except.map, hread, hr]

end GuardLint.Syntax

namespace GuardLint.Text

/-- The characters of a string that is put together from two. -/
theorem toList_ofList_append (front back : List Char) :
    (String.ofList front ++ String.ofList back).toList = front ++ back := by
  rw [String.toList_append, String.toList_ofList, String.toList_ofList]

end GuardLint.Text
