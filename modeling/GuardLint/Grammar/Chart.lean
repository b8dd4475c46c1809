import GuardLint.Grammar.Basic

/-!
# Charts

A chart records, for each place between two tokens of a text, which productions are under way
there: where they began and how many of their elements are done. The items of a place are found
from those of earlier places alone, so a text is read from left to right, and a token that no item
waits for is the first that cannot continue any text.

A production is only begun if the next token may begin its elements.
-/

namespace GuardLint.Grammar

open Syntax (Kind Token)

variable {γ : Type} [DecidableEq γ] {Sem : γ → Type}

/-- A production under way: its head and its number among the productions of the head, how many of
its elements are done, and the place where it began. -/
structure Item (γ : Type) where
  head : Head γ
  choice : Nat
  done : Nat
  origin : Nat
  deriving DecidableEq

namespace Item

/-- Whether two items are the same. -/
def same (x y : Item γ) : Bool :=
  x.origin == y.origin && x.done == y.done && x.choice == y.choice && x.head == y.head

/-- The item with one element more done. -/
def next (x : Item γ) : Item γ := ⟨x.head, x.choice, x.done + 1, x.origin⟩

/-- The elements of an item that are not done. -/
def rest (g : Grammar Sem) (x : Item γ) : List (Element γ) :=
  match (g.productions x.head)[x.choice]? with
  | some p => p.elements.drop x.done
  | none => []

/-- Whether the next element of an item is the symbol `s`. -/
def awaits (g : Grammar Sem) (s : Symbol γ) (x : Item γ) : Bool :=
  match x.rest g with
  | e :: _ => e.symbol == s
  | [] => false

end Item

/-- The items of each place, in the order of the places. -/
abbrev Chart (γ : Type) := Array (List (Item γ))

namespace Chart

/-- The items of a place; a place not reached has none. -/
def at_ (chart : Chart γ) (place : Nat) : List (Item γ) := (chart[place]?).getD []

/-- Whether an item is recorded at a place. -/
def has (chart : Chart γ) (place : Nat) (x : Item γ) : Bool := (chart.at_ place).any x.same

end Chart

/-- The productions of a head that a token of kind `k` may begin, begun at a place. -/
def begun (g : Grammar Sem) (place : Nat) (k : Kind) (h : Head γ) : List (Item γ) :=
  (g.productions h).zipIdx.filterMap fun (p, choice) =>
    if g.elementsMayStart k p.elements then some ⟨h, choice, 0, place⟩ else none

/-- The items that an item at a place gives rise to at the same place. A finished item completes
the element of those that waited for it where it began; another leaves out its next element if it
may, and begins the productions of it that the next token allows. -/
def offspring (g : Grammar Sem) (earlier : Chart γ) (place : Nat) (next : Option Kind)
    (x : Item γ) : List (Item γ) :=
  match x.rest g with
  | [] => ((earlier.at_ x.origin).filter (·.awaits g (.node x.head))).map Item.next
  | e :: _ =>
    (if e.optional then [x.next] else []) ++
      match e.symbol, next with
      | .node h, some k => begun g place k h
      | _, _ => []

/-- Puts an item on a list unless it is there or among those seen. -/
def enqueue (seen : List (Item γ)) (agenda : List (Item γ)) (x : Item γ) : List (Item γ) :=
  if seen.any x.same || agenda.any x.same then agenda else x :: agenda

/-- All items that arise from an agenda, with those seen before. Each step settles one new item, so
`fuel` need not exceed the number of items that a place can have. -/
def saturate (step : Item γ → List (Item γ)) :
    (fuel : Nat) → (agenda seen : List (Item γ)) → List (Item γ)
  | fuel + 1, x :: agenda, seen =>
    saturate step fuel ((step x).foldl (enqueue (x :: seen)) agenda) (x :: seen)
  | _, _, seen => seen

/-- The items of a place, from those that the token before it leads to. -/
def itemsAt (g : Grammar Sem) (earlier : Chart γ) (place : Nat) (next : Option Kind)
    (seeds : List (Item γ)) : List (Item γ) :=
  saturate (offspring g earlier place next) (g.states * (place + 1)) seeds []

/-- The items after a token of kind `k`, from those before it. -/
def shift (g : Grammar Sem) (k : Kind) (items : List (Item γ)) : List (Item γ) :=
  (items.filter (·.awaits g (.tok k))).map Item.next

/-- The chart of a token list, given that of the places before and the items that lead to the
next place, or the first token that cannot follow those before it. -/
def extend (g : Grammar Sem) :
    List Token → Chart γ → (seeds : List (Item γ)) → Except Token (Chart γ)
  | [], chart, seeds => .ok (chart.push (itemsAt g chart chart.size none seeds))
  | t :: ts, chart, seeds =>
    let items := itemsAt g chart chart.size (some t.kind) seeds
    match shift g t.kind items with
    | [] => .error t
    | seeds => extend g ts (chart.push items) seeds

/-- The chart of a token list, or the first token that cannot follow those before it. -/
def chart (g : Grammar Sem) (tokens : List Token) : Except Token (Chart γ) :=
  extend g tokens #[] ((g.rules g.start).zipIdx.map fun (_, choice) => ⟨.one g.start, choice, 0, 0⟩)

end GuardLint.Grammar
