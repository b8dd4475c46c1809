import GuardLint.Grammar.Chart

/-!
# Reading a value off a chart

A token list may have several values. The one that is read is found from the outside in: of the
productions of a head that fit, the first; of the ways to divide tokens among the elements of a
production, the one that leaves the last element as short as it can be, then the one before it,
and so on, where an element that can be there is not left out.
-/

namespace GuardLint.Grammar

open Syntax (Kind Token)

variable {γ : Type} [DecidableEq γ] {Sem : γ → Type}

/-- The location of the tokens from one place to another. -/
def extent (tokens : Array Token) (i k : Nat) : Location :=
  match tokens[i]?, tokens[k - 1]? with
  | some a, some b => if i < k then ⟨a.location.first, b.location.last⟩ else .empty
  | _, _ => .empty

/-- The places where the finished items of a head began that end at a place. -/
def origins (g : Grammar Sem) (chart : Chart γ) (h : Head γ) (place : Nat) : List Nat :=
  ((chart.at_ place).filter fun x => x.head == h && (x.rest g).isEmpty).map Item.origin

/-- The place where a symbol that ends at a place begins, the last that `fits`, and its value. -/
def readSymbol (g : Grammar Sem) (tokens : Array Token) (chart : Chart γ)
    (read : (h : Head γ) → Nat → Nat → Option (h.Value Sem)) (fits : Nat → Bool) (place : Nat) :
    (s : Symbol γ) → Option (Nat × s.Value Sem)
  | .tok k =>
    match place with
    | 0 => none
    | i + 1 =>
      match tokens[i]? with
      | some t => if t.kind == k && fits i then some (i, t) else none
      | none => none
  | .node h =>
    match ((origins g chart h place).filter fits).max? with
    | some i => (read h i place).map (i, ·)
    | none => none

/-- The values of the elements from number `done` on of a production that ends at a place, and the
place where they begin. -/
def readElements (g : Grammar Sem) (tokens : Array Token) (chart : Chart γ)
    (read : (h : Head γ) → Nat → Nat → Option (h.Value Sem)) (item : Nat → Item γ) (place : Nat) :
    (done : Nat) → (es : List (Element γ)) → Option (Nat × Values Sem es)
  | _, [] => some (place, ⟨⟩)
  | done, e :: es =>
    match readElements g tokens chart read item place (done + 1) es with
    | none => none
    | some (stop, vs) =>
      let fits := fun i => chart.has i (item done)
      match readSymbol g tokens chart read fits stop e.symbol with
      | some (start, v) => some (start, e.present v, vs)
      | none =>
        match e.absent? with
        | some v => if fits stop then some (stop, v, vs) else none
        | none => none

/-- The value of the first of some productions of a head, numbered from `choice`, that is finished
between two places. -/
def readFirst (g : Grammar Sem) (tokens : Array Token) (chart : Chart γ)
    (read : (h : Head γ) → Nat → Nat → Option (h.Value Sem)) (h : Head γ) (i k : Nat) :
    (choice : Nat) → List (Production Sem (h.Value Sem)) → Option (h.Value Sem)
  | _, [] => none
  | choice, p :: ps =>
    let item := fun done => ⟨h, choice, done, i⟩
    if chart.has k (item p.elements.length) then
      (readElements g tokens chart read item k 0 p.elements).map fun (_, vs) =>
        p.value (extent tokens i k) vs
    else readFirst g tokens chart read h i k (choice + 1) ps

/-- The value of a head between two places. A derivation has no more than `g.states` productions
for one list of tokens, so that many for each token are `fuel` enough. -/
def readHead (g : Grammar Sem) (tokens : Array Token) (chart : Chart γ) :
    (fuel : Nat) → (h : Head γ) → (i k : Nat) → Option (h.Value Sem)
  | 0, _, _, _ => none
  | fuel + 1, h, i, k =>
    readFirst g tokens chart (readHead g tokens chart fuel) h i k 0 (g.productions h)

/-- The value of a whole token list, from its chart; there is none if the tokens are no sentence. -/
def reading (g : Grammar Sem) (tokens : List Token) (chart : Chart γ) : Option (Sem g.start) :=
  readHead g tokens.toArray chart (g.states * (tokens.length + 1)) (.one g.start) 0 tokens.length

end GuardLint.Grammar
