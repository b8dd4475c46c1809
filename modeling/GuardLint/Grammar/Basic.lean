import GuardLint.Syntax.Token

/-!
# Grammars

A context-free grammar over tokens whose rules say what they mean. A category `c` of the grammar
stands for values of a type `Sem c`, and each production carries the function that builds such a
value from the values of its parts.

The right side of a production is a list of elements: a symbol, a symbol that may be left out, or a
category that may come any number of times. No category derives the empty token list through its
productions except where every element may be left out.
-/

namespace GuardLint

open Syntax (Kind Token)

namespace Grammar

/-- What a production defines: a category, or one or more of it in a row. -/
inductive Head (γ : Type) where
  | one (category : γ)
  | run (category : γ)
  deriving DecidableEq

/-- What an element refers to: a token of some kind, or what productions define. -/
inductive Symbol (γ : Type) where
  | tok (kind : Kind)
  | node (head : Head γ)
  deriving DecidableEq

/-- A part of the right side of a production. -/
inductive Element (γ : Type) where
  | need (symbol : Symbol γ)
  | maybe (symbol : Symbol γ)
  | many (category : γ)

variable {γ : Type}

/-- The symbol that an element consists of when it is not left out. -/
def Element.symbol : Element γ → Symbol γ
  | .need s => s
  | .maybe s => s
  | .many c => .node (.run c)

/-- Whether an element may be left out. -/
def Element.optional : Element γ → Bool
  | .need _ => false
  | _ => true

variable (Sem : γ → Type)

/-- The values of a head. -/
@[reducible] def Head.Value : Head γ → Type
  | .one c => Sem c
  | .run c => List (Sem c)

/-- The values of a symbol; a token stands for itself. -/
@[reducible] def Symbol.Value : Symbol γ → Type
  | .tok _ => Token
  | .node h => h.Value Sem

/-- The values of an element. -/
@[reducible] def Element.Value : Element γ → Type
  | .need s => s.Value Sem
  | .maybe s => Option (s.Value Sem)
  | .many c => List (Sem c)

/-- The values of a list of elements, in order. -/
@[reducible] def Values : List (Element γ) → Type
  | [] => PUnit
  | e :: es => e.Value Sem × Values es

/-- A function of the values of a list of elements. -/
@[reducible] def Action : List (Element γ) → Type → Type
  | [], α => α
  | e :: es, α => e.Value Sem → Action es α

variable {Sem}

/-- The value of an element that is there. -/
def Element.present : (e : Element γ) → e.symbol.Value Sem → e.Value Sem
  | .need _, v => v
  | .maybe _, v => some v
  | .many _, v => v

/-- The value of an element that is left out. -/
def Element.absent? : (e : Element γ) → Option (e.Value Sem)
  | .need _ => none
  | .maybe _ => some none
  | .many _ => some []

/-- Gives a function of a list of elements their values. -/
def Action.apply {α : Type} : (es : List (Element γ)) → Action Sem es α → Values Sem es → α
  | [], a, _ => a
  | _ :: es, f, (v, vs) => apply es (f v) vs

variable (Sem)

/-- A way to make a value: the elements that it consists of, and what it is made of their values
and their location. -/
structure Production (α : Type) where
  elements : List (Element γ)
  build : Location → Action Sem elements α

variable {Sem}

/-- The value that a production makes. -/
def Production.value {α : Type} (p : Production Sem α) (l : Location) (vs : Values Sem p.elements) :
    α :=
  Action.apply p.elements (p.build l) vs

end Grammar

open Grammar

/-- A grammar: the productions of each category in order of preference, the category of whole
texts, and for each category the kinds of token that may begin it. `states` is at least the number
of places in all productions of heads. -/
structure Grammar {γ : Type} (Sem : γ → Type) where
  rules : (c : γ) → List (Production Sem (Sem c))
  start : γ
  mayStart : γ → Kind → Bool
  states : Nat

namespace Grammar

variable {γ : Type} {Sem : γ → Type}

/-- The productions of a head. A run is one of its category, or a run and one more. -/
def productions (g : Grammar Sem) : (h : Head γ) → List (Production Sem (h.Value Sem))
  | .one c => g.rules c
  | .run c =>
    [⟨[.need (.node (.one c))], fun _ x => [x]⟩,
     ⟨[.need (.node (.run c)), .need (.node (.one c))], fun _ xs x => xs ++ [x]⟩]

/-- Whether a token of some kind may begin a symbol. -/
def symbolMayStart (g : Grammar Sem) (k : Kind) : Symbol γ → Bool
  | .tok k' => k == k'
  | .node (.one c) => g.mayStart c k
  | .node (.run c) => g.mayStart c k

/-- Whether a token of some kind may begin a nonempty list of elements; those that may be left out
are looked past. -/
def elementsMayStart (g : Grammar Sem) (k : Kind) : List (Element γ) → Bool
  | [] => false
  | e :: es => g.symbolMayStart k e.symbol || (e.optional && elementsMayStart g k es)

end Grammar

end GuardLint
