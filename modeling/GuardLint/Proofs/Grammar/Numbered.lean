import GuardLint.Proofs.Grammar.Saturation

/-!
# Charts by numbers

Nearly all the work on a chart is to find out whether an item is on a list, and which items wait for
a symbol. Here an item stands beside the elements that it has not done, the number of its head and
that of the symbol it waits for, so that only numbers are compared. The chart is the same.

The functions are made for the kernel, which works out an argument again wherever it is used: a
number is handed on by `numeral`, and what walks over a whole column is written with the recursors
of lists and truth values.
-/

namespace GuardLint.Grammar

open Syntax (Kind Token)

/-- Hands on a number that is worked out. -/
def numeral {α : Type} (n : Nat) (f : Nat → α) : α :=
  match n + 1 with
  | 0 => f 0
  | m + 1 => f m

theorem numeral_eq {α : Type} (n : Nat) (f : Nat → α) : numeral n f = f n := rfl

variable {γ : Type} {Sem : γ → Type}

/-! ### Items with numbers -/

/-- An item, the elements that it has not done, the number of its head, and the number after that of
the symbol that it waits for; `awaited` is zero if it is finished. -/
structure Numbered (γ : Type) where
  item : Item γ
  rest : List (Element γ)
  head : Nat
  awaited : Nat

/-- The number after that of the first symbol of some elements, or zero if there are none. -/
def awaitedNumber (number : Symbol γ → Nat) : List (Element γ) → Nat
  | [] => 0
  | e :: _ => number e.symbol + 1

/-- An item with its numbers. -/
def Item.numbered (g : Grammar Sem) (number : Symbol γ → Nat) (x : Item γ) : Numbered γ :=
  ⟨x, x.rest g, number (.node x.head), awaitedNumber number (x.rest g)⟩

/-- The items of each place with their numbers. -/
abbrev Columns (γ : Type) := List (List (Numbered γ))

/-- The column with some number; one that is not there is empty. -/
def Columns.column (columns : Columns γ) (n : Nat) : List (Numbered γ) :=
  (columns.rec (fun _ ↦ []) (fun xs _ others n ↦ n.casesOn xs others) : Nat → List (Numbered γ)) n

/-- The columns of a chart, that of the last place first. -/
def Columns.ofChart (g : Grammar Sem) (number : Symbol γ → Nat) (chart : Chart γ) : Columns γ :=
  (chart.toList.map (List.map (Item.numbered g number))).reverse

namespace Numbered

/-- Puts an item that needs the elements `rest` on a list, with all numbers worked out. -/
def cons (number : Symbol γ → Nat) (rest : List (Element γ)) :
    Item γ → List (Numbered γ) → List (Numbered γ)
  | ⟨h, choice, done, origin⟩, xs =>
    numeral choice fun choice ↦ numeral done fun done ↦ numeral origin fun origin ↦
      numeral (number (.node h)) fun head ↦ numeral (awaitedNumber number rest) fun awaited ↦
        ⟨⟨h, choice, done, origin⟩, rest, head, awaited⟩ :: xs

/-- Whether this is some item, given the number of the head of the item. -/
def is (head : Nat) (x : Item γ) (y : Numbered γ) : Bool :=
  (Nat.beq head y.head).rec false ((Nat.beq x.origin y.item.origin).rec false
    ((Nat.beq x.done y.item.done).rec false (Nat.beq x.choice y.item.choice)))

/-- Whether an item is on a list, given the number of its head. -/
def listed (head : Nat) (x : Item γ) (ys : List (Numbered γ)) : Bool :=
  ys.rec false fun y _ found ↦ (y.is head x).rec found true

/-- Puts an item on a list unless it is there or among those seen. -/
def enqueue (seen agenda : List (Numbered γ)) (x : Numbered γ) : List (Numbered γ) :=
  match listed x.head x.item seen with
  | true => agenda
  | false =>
    match listed x.head x.item agenda with
    | true => agenda
    | false => x :: agenda

/-- The items that wait for what has the number before `awaited`, with this element done. -/
def past (number : Symbol γ → Nat) (awaited : Nat) (xs : List (Numbered γ)) : List (Numbered γ) :=
  xs.rec [] fun x _ others ↦
    (Nat.beq x.awaited awaited).rec others (cons number x.rest.tail x.item.next others)

/-- The productions of a head, numbered from `choice`, that a token of kind `k` may begin. -/
def begun (g : Grammar Sem) (number : Symbol γ → Nat) (place : Nat) (k : Kind) (h : Head γ) :
    (choice : Nat) → List (Production Sem (h.Value Sem)) → List (Numbered γ)
  | _, [] => []
  | choice, p :: ps =>
    match g.elementsMayStart k p.elements with
    | true => cons number p.elements ⟨h, choice, 0, place⟩ (begun g number place k h (choice + 1) ps)
    | false => begun g number place k h (choice + 1) ps

/-- The items that an item at a place gives rise to, given the columns of the places before, the
last first. -/
def offspring (g : Grammar Sem) (number : Symbol γ → Nat) (earlier : Columns γ) (place : Nat)
    (next : Option Kind) (x : Numbered γ) : List (Numbered γ) :=
  match x.rest with
  | [] =>
    match place - x.item.origin with
    | 0 => []
    | back + 1 => numeral (x.head + 1) fun awaited ↦ past number awaited (earlier.column back)
  | e :: rest =>
    let started := match e.symbol, next with
      | .node h, some k => begun g number place k h 0 (g.productions h)
      | _, _ => []
    match e.optional with
    | true => cons number rest x.item.next started
    | false => started

/-- All items that arise from an agenda, with those seen before. -/
def saturate (step : Numbered γ → List (Numbered γ)) :
    (fuel : Nat) → (agenda seen : List (Numbered γ)) → List (Numbered γ)
  | fuel + 1, x :: agenda, seen =>
    saturate step fuel ((step x).foldl (enqueue (x :: seen)) agenda) (x :: seen)
  | _, _, seen => seen

/-- The items of a place, from those that the token before it leads to. -/
def itemsAt (g : Grammar Sem) (number : Symbol γ → Nat) (earlier : Columns γ) (place : Nat)
    (next : Option Kind) (seeds : List (Numbered γ)) : List (Numbered γ) :=
  saturate (offspring g number earlier place next) (g.states * (place + 1)) seeds []

/-- The columns of a token list, given those of the places before and the items that lead to the
next place, or the first token that cannot follow those before it. -/
def extend (g : Grammar Sem) (number : Symbol γ → Nat) : List Token → (place : Nat) →
    Columns γ → (seeds : List (Numbered γ)) → Except Token (Columns γ)
  | [], place, earlier, seeds => .ok (itemsAt g number earlier place none seeds :: earlier)
  | t :: ts, place, earlier, seeds =>
    match itemsAt g number earlier place (some t.kind) seeds with
    | [] => .error t
    | x :: xs =>
      match numeral (number (.tok t.kind) + 1) fun awaited ↦ past number awaited (x :: xs) with
      | [] => .error t
      | seeds => numeral (place + 1) fun place ↦ extend g number ts place ((x :: xs) :: earlier) seeds

/-- The columns of a token list, that of the last place first, or the first token that cannot follow
those before it. -/
def chart (g : Grammar Sem) (number : Symbol γ → Nat) (tokens : List Token) :
    Except Token (Columns γ) :=
  extend g number tokens 0 [] (((g.rules g.start).zipIdx.map fun (_, choice) ↦
    ⟨.one g.start, choice, 0, 0⟩).map (Item.numbered g number))

end Numbered

/-! ### What the numbers stand for -/

variable {g : Grammar Sem} {number : Symbol γ → Nat}

/-- What is left of an item with one more element done. -/
theorem Item.rest_next (x : Item γ) : x.next.rest g = (x.rest g).tail := by
  unfold Item.rest Item.next
  split <;> simp [*]

theorem Chart.at_of_size_le {chart : Chart γ} {n : Nat} (h : chart.size ≤ n) : chart.at_ n = [] := by
  simp [Chart.at_, Array.getElem?_eq_none h]

theorem Columns.column_eq (columns : Columns γ) (n : Nat) :
    columns.column n = columns[n]?.getD [] := by
  induction columns generalizing n with
  | nil => rfl
  | cons xs columns ih =>
    cases n with
    | zero => rfl
    | succ n => exact ih n

/-- The columns of a chart that holds one more. -/
theorem Columns.ofChart_push (chart : Chart γ) (items : List (Item γ)) :
    ofChart g number (chart.push items) =
      items.map (Item.numbered g number) :: ofChart g number chart := by
  simp [ofChart]

theorem Columns.column_ofChart {chart : Chart γ} {n back : Nat} (h : chart.size = n + 1 + back) :
    (ofChart g number chart).column back = (chart.at_ n).map (Item.numbered g number) := by
  have hn : chart.toList.length - 1 - back = n := by
    rw [Array.length_toList]
    omega
  rw [column_eq, ofChart, List.getElem?_reverse (by simp; omega), List.length_map, hn,
    List.getElem?_map, Array.getElem?_toList, Chart.at_]
  cases chart[n]? <;> rfl

namespace Numbered

theorem cons_rest (x : Item γ) (ys : List (Numbered γ)) :
    cons number (x.rest g) x ys = x.numbered g number :: ys := rfl

theorem listed_cons (head : Nat) (x : Item γ) (y : Numbered γ) (ys : List (Numbered γ)) :
    listed head x (y :: ys) = (y.is head x || listed head x ys) := by
  cases h : y.is head x <;> simp [listed, h]

theorem past_cons (awaited : Nat) (x : Numbered γ) (xs : List (Numbered γ)) :
    past number awaited (x :: xs) =
      bif Nat.beq x.awaited awaited then cons number x.rest.tail x.item.next (past number awaited xs)
      else past number awaited xs := by
  cases h : Nat.beq x.awaited awaited <;> simp only [past, h, cond]

theorem begun_eq (place : Nat) (k : Kind) (h : Head γ) :
    begun g number place k h 0 (g.productions h) =
      (Grammar.begun g place k h).map (Item.numbered g number) := by
  unfold Grammar.begun
  suffices hall : ∀ ps choice, (g.productions h).drop choice = ps →
      begun g number place k h choice ps = ((ps.zipIdx choice).filterMap fun q ↦
        if g.elementsMayStart k q.1.elements then some ⟨h, q.2, 0, place⟩
        else none).map (Item.numbered g number) from hall _ 0 rfl
  intro ps
  induction ps with
  | nil => exact fun _ _ ↦ rfl
  | cons p ps ih =>
    intro choice hps
    have hp : (g.productions h)[choice]? = some p := by
      rw [← List.head?_drop, hps, List.head?_cons]
    have hrest : (⟨h, choice, 0, place⟩ : Item γ).rest g = p.elements := by
      simp [Item.rest, hp]
    have hothers := ih (choice + 1) (by rw [← List.tail_drop, hps, List.tail_cons])
    rw [begun, List.zipIdx_cons, List.filterMap_cons, hothers, ← hrest, cons_rest, hrest]
    cases g.elementsMayStart k p.elements <;> rfl

end Numbered

/-! ### The chart -/

namespace Numbered

variable [DecidableEq γ]

theorem is_numbered (hn : number.Injective) (x y : Item γ) :
    (y.numbered g number).is (number (.node x.head)) x = x.same y := by
  have his : (y.numbered g number).is (number (.node x.head)) x =
      (Nat.beq (number (.node x.head)) (number (.node y.head)) && (Nat.beq x.origin y.origin &&
        (Nat.beq x.done y.done && Nat.beq x.choice y.choice))) := by
    unfold is Item.numbered
    cases Nat.beq (number (.node x.head)) (number (.node y.head)) <;>
      cases Nat.beq x.origin y.origin <;> cases Nat.beq x.done y.done <;> rfl
  rw [his, Bool.eq_iff_iff, Item.same_iff]
  obtain ⟨h, choice, done, origin⟩ := x
  obtain ⟨h', choice', done', origin'⟩ := y
  simp only [Bool.and_eq_true, Nat.beq_eq, hn.eq_iff, Symbol.node.injEq, Item.mk.injEq]
  tauto

theorem listed_numbered (hn : number.Injective) (x : Item γ) (ys : List (Item γ)) :
    listed (number (.node x.head)) x (ys.map (Item.numbered g number)) = ys.any x.same := by
  induction ys with
  | nil => rfl
  | cons y ys ih => rw [List.map_cons, listed_cons, is_numbered hn, ih, List.any_cons]

theorem enqueue_numbered (hn : number.Injective) (seen agenda : List (Item γ)) (x : Item γ) :
    enqueue (seen.map (Item.numbered g number)) (agenda.map (Item.numbered g number))
      (x.numbered g number) = (Grammar.enqueue seen agenda x).map (Item.numbered g number) := by
  have hlisted (ys : List (Item γ)) : listed (x.numbered g number).head (x.numbered g number).item
      (ys.map (Item.numbered g number)) = ys.any x.same := listed_numbered hn x ys
  unfold enqueue Grammar.enqueue
  rw [hlisted, hlisted]
  cases seen.any x.same <;> cases agenda.any x.same <;> rfl

theorem enqueueAll_numbered (hn : number.Injective) (seen xs agenda : List (Item γ)) :
    (xs.map (Item.numbered g number)).foldl (enqueue (seen.map (Item.numbered g number)))
        (agenda.map (Item.numbered g number)) =
      (xs.foldl (Grammar.enqueue seen) agenda).map (Item.numbered g number) := by
  induction xs generalizing agenda with
  | nil => rfl
  | cons x xs ih => rw [List.map_cons, List.foldl_cons, enqueue_numbered hn, ih, List.foldl_cons]

/-- The items of a column that wait for a symbol are those whose number says so. -/
theorem past_numbered (hn : number.Injective) (s : Symbol γ) (xs : List (Item γ)) :
    past number (number s + 1) (xs.map (Item.numbered g number)) =
      ((xs.filter (·.awaits g s)).map Item.next).map (Item.numbered g number) := by
  induction xs with
  | nil => rfl
  | cons x xs ih =>
    have hawaits : Nat.beq (x.numbered g number).awaited (number s + 1) = x.awaits g s := by
      unfold Item.numbered Item.awaits
      cases x.rest g with
      | nil => rfl
      | cons e es =>
        rw [Bool.eq_iff_iff, Nat.beq_eq, beq_iff_eq, awaitedNumber, Nat.succ_inj, hn.eq_iff]
    have hcons : cons number (x.numbered g number).rest.tail (x.numbered g number).item.next =
        (x.next.numbered g number :: ·) := by
      funext ys
      rw [← cons_rest, Item.rest_next]
      rfl
    rw [List.map_cons, past_cons, hawaits, hcons, ih, List.filter_cons]
    cases x.awaits g s <;> rfl

theorem offspring_numbered (hn : number.Injective) (chart : Chart γ) (next : Option Kind)
    (x : Item γ) :
    offspring g number (.ofChart g number chart) chart.size next (x.numbered g number) =
      (Grammar.offspring g chart chart.size next x).map (Item.numbered g number) := by
  have hrest : (x.numbered g number).rest = x.rest g := rfl
  have hitem : (x.numbered g number).item = x := rfl
  have hhead : (x.numbered g number).head = number (.node x.head) := rfl
  rw [offspring, Grammar.offspring, hrest, hitem, hhead]
  cases hr : x.rest g with
  | nil =>
    cases hback : chart.size - x.origin with
    | zero =>
      rw [Chart.at_of_size_le (by omega)]
      rfl
    | succ back =>
      have hcolumn : (Columns.ofChart g number chart).column back =
          (chart.at_ x.origin).map (Item.numbered g number) := Columns.column_ofChart (by omega)
      rw [← past_numbered hn, ← hcolumn]
      rfl
  | cons e rest =>
    have hnext : cons number rest x.next = (x.next.numbered g number :: ·) := by
      funext ys
      rw [← cons_rest, Item.rest_next, hr, List.tail_cons]
    simp only [hnext, List.map_append]
    cases e.optional <;> cases e.symbol <;> cases next <;> simp [begun_eq]

theorem saturate_numbered (hn : number.Injective) {step : Numbered γ → List (Numbered γ)}
    {step' : Item γ → List (Item γ)}
    (hstep : ∀ x, step (x.numbered g number) = (step' x).map (Item.numbered g number))
    (fuel : Nat) (agenda seen : List (Item γ)) :
    saturate step fuel (agenda.map (Item.numbered g number)) (seen.map (Item.numbered g number)) =
      (Grammar.saturate step' fuel agenda seen).map (Item.numbered g number) := by
  induction fuel generalizing agenda seen with
  | zero => simp [saturate, Grammar.saturate]
  | succ fuel ih =>
    cases agenda with
    | nil => simp [saturate, Grammar.saturate]
    | cons x agenda =>
      rw [List.map_cons, saturate, hstep, ← List.map_cons, enqueueAll_numbered hn, ih,
        Grammar.saturate]

theorem itemsAt_numbered (hn : number.Injective) (chart : Chart γ) (next : Option Kind)
    (seeds : List (Item γ)) :
    itemsAt g number (.ofChart g number chart) chart.size next
        (seeds.map (Item.numbered g number)) =
      (Grammar.itemsAt g chart chart.size next seeds).map (Item.numbered g number) :=
  saturate_numbered hn (offspring_numbered hn chart next) _ seeds []

theorem extend_numbered (hn : number.Injective) (ts : List Token) (chart : Chart γ)
    (seeds : List (Item γ)) :
    extend g number ts chart.size (.ofChart g number chart) (seeds.map (Item.numbered g number)) =
      (Grammar.extend g ts chart seeds).map (.ofChart g number) := by
  induction ts generalizing chart seeds with
  | nil => rw [extend, itemsAt_numbered hn, Grammar.extend, Except.map, Columns.ofChart_push]
  | cons t ts ih =>
    rw [extend, itemsAt_numbered hn, Grammar.extend]
    cases hitems : Grammar.itemsAt g chart chart.size (some t.kind) seeds with
    | nil => simp [shift, Except.map]
    | cons x xs =>
      have hpast := past_numbered (g := g) hn (.tok t.kind) (x :: xs)
      rw [List.map_cons] at hpast
      simp only [List.map_cons, numeral_eq, hpast]
      rw [← shift]
      cases hshift : shift g t.kind (x :: xs) with
      | nil => rfl
      | cons y ys =>
        have hrest := ih (chart.push (x :: xs)) (y :: ys)
        rw [Array.size_push, Columns.ofChart_push] at hrest
        exact hrest

/-- The columns of a token list are those of its chart. -/
theorem chart_eq (hn : number.Injective) (tokens : List Token) :
    chart g number tokens = (Grammar.chart g tokens).map (.ofChart g number) :=
  extend_numbered hn tokens #[] _

end Numbered

end GuardLint.Grammar
