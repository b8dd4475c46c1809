import GuardLint.Proofs.Grammar.Division
import GuardLint.Proofs.Syntax.Language
import GuardLint.Proofs.Syntax.Segment

/-!
# What the parser accepts

A source text is accepted if lexemes spell it to its end and their tokens are a sentence of the
grammar. Its tree is then built by one derivation of these tokens. Where an `else` could belong to
more than one `if`, every `if` of that derivation is as a reader expects: of the ways to split its
tokens at an `else`, the last is taken.
-/

namespace GuardLint.Syntax

open Grammar Category

/-- Whether some elements begin with a token of some kind. -/
def beginsWith (k : Kind) : List (Element Category) → Bool
  | .need (.tok k') :: _ => k == k'
  | _ => false

/-- The elements of an `if` before its `else`. -/
def ifWithoutElse : List (Element Category) :=
  [word .«if», mark .leftParen, a .expr, mark .rightParen, a .statement]

/-- An `if` whose tokens can be split at an `else` is split at one, and at no earlier one. -/
def LastElse (es : List (Element Category)) (parts : List (List Token)) : Prop :=
  beginsWith (.word .«if») es = true → ∀ front back, parts.flatten = front ++ back →
    Spans language ifWithoutElse front → Matches language (.node (.one .elsePart)) back →
    ∃ before last, parts = before ++ [last] ∧
      Matches language (.node (.one .elsePart)) last ∧ last.length ≤ back.length

private theorem beginsWith_if : ∀ c ∈ Category.all, ∀ p ∈ c.rules,
    beginsWith (.word .«if») p.elements = true → c = .statement := by
  decide +kernel

/-- Only the production of `if` begins with that word. -/
theorem elements_of_if {h : Head Category} {p : Production Category.Value (h.Value Category.Value)}
    (hp : p ∈ language.productions h) (hif : beginsWith (.word .«if») p.elements = true) :
    p.elements = ifWithoutElse ++ [a? .elsePart] := by
  cases h with
  | one c =>
    obtain rfl := beginsWith_if c c.mem_all p hp hif
    have hstatement : ∀ p ∈ Category.rules .statement,
        beginsWith (.word .«if») p.elements = true →
          p.elements = ifWithoutElse ++ [a? .elsePart] := by
      simp [Category.rules, beginsWith, ifWithoutElse]
    exact hstatement p hp hif
  | run c =>
    simp only [productions, List.mem_cons, List.not_mem_nil, or_false] at hp
    rcases hp with rfl | rfl <;> cases hif

end GuardLint.Syntax
