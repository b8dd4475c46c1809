import GuardLint.Grammar.Basic

/-!
# Derivations

What a grammar says: which token lists belong to a symbol, and with which values. The values of a
production are made from the location of the tokens it covers and the values of its elements.
-/

namespace GuardLint.Grammar

open Syntax (Kind Token)

variable {γ : Type} {Sem : γ → Type}

mutual

/-- A symbol derives a list of tokens with a value. -/
inductive Derives (g : Grammar Sem) : (s : Symbol γ) → List Token → s.Value Sem → Prop where
  /-- A token belongs to its kind. -/
  | tok (t : Token) : Derives g (.tok t.kind) [t] t
  /-- The elements of a production, one after the other, belong to its head. -/
  | node {h : Head γ} {p : Production Sem (h.Value Sem)} {ts : List Token}
      {vs : Values Sem p.elements} :
      p ∈ g.productions h → DerivesAll g p.elements ts vs →
      Derives g (.node h) ts (p.value (Token.cover ts) vs)

/-- A list of elements derives a list of tokens with their values. -/
inductive DerivesAll (g : Grammar Sem) :
    (es : List (Element γ)) → List Token → Values Sem es → Prop where
  /-- No elements derive no tokens. -/
  | nil : DerivesAll g [] [] ⟨⟩
  /-- An element that is there derives some tokens, and the others the rest. -/
  | present {e : Element γ} {es : List (Element γ)} {ts us : List Token}
      {v : e.symbol.Value Sem} {vs : Values Sem es} :
      Derives g e.symbol ts v → DerivesAll g es us vs →
      DerivesAll g (e :: es) (ts ++ us) (e.present v, vs)
  /-- An element that is left out derives nothing. -/
  | absent {e : Element γ} {es : List (Element γ)} {us : List Token} {v : e.Value Sem}
      {vs : Values Sem es} :
      e.absent? = some v → DerivesAll g es us vs → DerivesAll g (e :: es) us (v, vs)

end

/-- A sentence of a grammar is a token list that its start category derives. -/
def Sentence (g : Grammar Sem) (ts : List Token) : Prop :=
  ∃ v, Derives g (.node (.one g.start)) ts v

/-- A token list is viable if some tokens can follow it so that a sentence results. -/
def Viable (g : Grammar Sem) (ts : List Token) : Prop :=
  ∃ us, Sentence g (ts ++ us)

end GuardLint.Grammar
