import GuardLint.Grammar.Reading
import GuardLint.Proofs.Grammar.Numbered

/-!
# Reading by numbers

What is read off the columns of a token list is what is read off its chart.
-/

namespace GuardLint.Grammar

open Syntax (Kind Token)

variable {γ : Type} {Sem : γ → Type}

namespace Numbered

/-- The places where the finished items of a head began that end at a place. -/
def origins (columns : Columns γ) (head place : Nat) : List Nat :=
  (columns.column place).rec [] fun x _ others ↦
    bif Nat.beq x.head head && Nat.beq x.awaited 0 then x.item.origin :: others else others

/-- The place where a symbol that ends at a place begins, the last that `fits`, and its value. -/
def readSymbol (number : Symbol γ → Nat) (tokens : Array Token) (columns : Columns γ)
    (read : (h : Head γ) → Nat → Nat → Option (h.Value Sem)) (fits : Nat → Bool) (place : Nat) :
    (s : Symbol γ) → Option (Nat × s.Value Sem)
  | .tok k =>
    match place with
    | 0 => none
    | i + 1 =>
      match tokens[i]? with
      | some t => if t.kind == k && fits i then some (i, t) else none
      | none => none
  | .node h =>
    match (numeral (number (.node h)) fun head ↦ (origins columns head place).filter fits).max? with
    | some i => numeral i fun i ↦ (read h i place).map (i, ·)
    | none => none

/-- The values of the elements from number `done` on of a production that ends at a place, and the
place where they begin. -/
def readElements (number : Symbol γ → Nat) (tokens : Array Token) (columns : Columns γ)
    (read : (h : Head γ) → Nat → Nat → Option (h.Value Sem)) (head : Nat) (item : Nat → Item γ)
    (place : Nat) : (done : Nat) → (es : List (Element γ)) → Option (Nat × Values Sem es)
  | _, [] => some (place, ⟨⟩)
  | done, e :: es =>
    match numeral (done + 1) fun done ↦
      readElements number tokens columns read head item place done es with
    | none => none
    | some (stop, vs) =>
      let fits := fun i ↦ listed head (item done) (columns.column i)
      match readSymbol number tokens columns read fits stop e.symbol with
      | some (start, v) => some (start, e.present v, vs)
      | none =>
        match e.absent? with
        | some v => if fits stop then some (stop, v, vs) else none
        | none => none

/-- The value of the first of some productions of a head, numbered from `choice`, that is finished
between two places. -/
def readFirst (number : Symbol γ → Nat) (tokens : Array Token) (columns : Columns γ)
    (read : (h : Head γ) → Nat → Nat → Option (h.Value Sem)) (head : Nat) (h : Head γ) (i k : Nat) :
    (choice : Nat) → List (Production Sem (h.Value Sem)) → Option (h.Value Sem)
  | _, [] => none
  | choice, p :: ps =>
    let item := fun done ↦ ⟨h, choice, done, i⟩
    match numeral p.elements.length fun done ↦ listed head (item done) (columns.column k) with
    | true =>
      (readElements number tokens columns read head item k 0 p.elements).map fun (_, vs) ↦
        p.value (extent tokens i k) vs
    | false =>
      numeral (choice + 1) fun choice ↦ readFirst number tokens columns read head h i k choice ps

/-- The value of a head between two places. -/
def readHead (g : Grammar Sem) (number : Symbol γ → Nat) (tokens : Array Token)
    (columns : Columns γ) : (fuel : Nat) → (h : Head γ) → (i k : Nat) → Option (h.Value Sem)
  | 0, _, _, _ => none
  | fuel + 1, h, i, k =>
    numeral (number (.node h)) fun head ↦
      readFirst number tokens columns (readHead g number tokens columns fuel) head h i k 0
        (g.productions h)

/-- The value of a whole token list, from its columns, that of the first place first. -/
def reading (g : Grammar Sem) (number : Symbol γ → Nat) (tokens : List Token)
    (columns : Columns γ) : Option (Sem g.start) :=
  numeral tokens.length fun n ↦
    readHead g number tokens.toArray columns (g.states * (n + 1)) (.one g.start) 0 n

end Numbered

/-- Columns are those of a chart, in the order of the places. -/
def Columns.Record (g : Grammar Sem) (number : Symbol γ → Nat) (chart : Chart γ)
    (columns : Columns γ) : Prop :=
  ∀ n, columns.column n = (chart.at_ n).map (Item.numbered g number)

variable {g : Grammar Sem} {number : Symbol γ → Nat}

theorem Columns.record_reverse (chart : Chart γ) :
    Record g number chart (ofChart g number chart).reverse := by
  intro n
  rw [column_eq, ofChart, List.reverse_reverse, List.getElem?_map, Array.getElem?_toList, Chart.at_]
  cases chart[n]? <;> rfl

namespace Numbered

variable [DecidableEq γ] {chart : Chart γ} {columns : Columns γ} {tokens : Array Token}
  {read : (h : Head γ) → Nat → Nat → Option (h.Value Sem)}

theorem listed_column (hn : number.Injective) (hc : columns.Record g number chart) (place : Nat)
    (x : Item γ) :
    listed (number (.node x.head)) x (columns.column place) = chart.has place x := by
  rw [hc, listed_numbered hn, Chart.has]

theorem origins_eq (hn : number.Injective) (hc : columns.Record g number chart) (h : Head γ)
    (place : Nat) :
    origins columns (number (.node h)) place = Grammar.origins g chart h place := by
  unfold origins Grammar.origins
  rw [hc]
  induction chart.at_ place with
  | nil => rfl
  | cons x xs ih =>
    have hhead : Nat.beq (x.numbered g number).head (number (.node h)) = (x.head == h) := by
      rw [Bool.eq_iff_iff, Nat.beq_eq, beq_iff_eq, Item.numbered, hn.eq_iff, Symbol.node.injEq]
    have hdone : Nat.beq (x.numbered g number).awaited 0 = (x.rest g).isEmpty := by
      unfold Item.numbered
      cases x.rest g <;> rfl
    simp only [List.map_cons, hhead, hdone, ih, List.filter_cons]
    cases x.head == h && (x.rest g).isEmpty <;> rfl

theorem readSymbol_eq (hn : number.Injective) (hc : columns.Record g number chart)
    (fits : Nat → Bool) (place : Nat) (s : Symbol γ) :
    readSymbol number tokens columns read fits place s =
      Grammar.readSymbol g tokens chart read fits place s := by
  cases s with
  | tok k => rfl
  | node h =>
    cases hmax : ((Grammar.origins g chart h place).filter fits).max? <;>
      simp only [readSymbol, Grammar.readSymbol, numeral_eq, origins_eq hn hc, hmax]

theorem readElements_eq (hn : number.Injective) (hc : columns.Record g number chart) {h : Head γ}
    {item : Nat → Item γ} (hitem : ∀ done, (item done).head = h) (place done : Nat)
    (es : List (Element γ)) :
    readElements number tokens columns read (number (.node h)) item place done es =
      Grammar.readElements g tokens chart read item place done es := by
  induction es generalizing done with
  | nil => rfl
  | cons e es ih =>
    have hfits : (fun i ↦ listed (number (.node h)) (item done) (columns.column i)) =
        fun i ↦ chart.has i (item done) := by
      funext i
      rw [← hitem done, listed_column hn hc]
    rw [readElements, numeral_eq, ih, hfits, Grammar.readElements]
    cases Grammar.readElements g tokens chart read item place (done + 1) es with
    | none => rfl
    | some found =>
      obtain ⟨stop, vs⟩ := found
      cases hs : Grammar.readSymbol g tokens chart read (fun i ↦ chart.has i (item done)) stop
          e.symbol <;> cases e.absent? <;> simp only [readSymbol_eq hn hc, hs]

theorem readFirst_eq (hn : number.Injective) (hc : columns.Record g number chart) (h : Head γ)
    (i k choice : Nat) (ps : List (Production Sem (h.Value Sem))) :
    readFirst number tokens columns read (number (.node h)) h i k choice ps =
      Grammar.readFirst g tokens chart read h i k choice ps := by
  induction ps generalizing choice with
  | nil => rfl
  | cons p ps ih =>
    have hlisted := listed_column hn hc k ⟨h, choice, p.elements.length, i⟩
    have hread : readElements number tokens columns read (number (.node h))
        (fun done ↦ ⟨h, choice, done, i⟩) k 0 p.elements = Grammar.readElements g tokens chart read
          (fun done ↦ ⟨h, choice, done, i⟩) k 0 p.elements := by
      apply readElements_eq hn hc
      exact fun _ ↦ rfl
    simp only [readFirst, Grammar.readFirst, numeral_eq, ih, hlisted, hread]
    cases chart.has k ⟨h, choice, p.elements.length, i⟩ <;> rfl

theorem readHead_eq (hn : number.Injective) (hc : columns.Record g number chart) (fuel : Nat) :
    readHead g number tokens columns fuel = Grammar.readHead g tokens chart fuel := by
  induction fuel with
  | zero => rfl
  | succ fuel ih =>
    funext h i k
    rw [readHead, numeral_eq, ih, readFirst_eq hn hc, Grammar.readHead]

/-- The same value is read off columns and chart. -/
theorem reading_eq (hn : number.Injective) (hc : columns.Record g number chart)
    (tokens : List Token) : reading g number tokens columns = Grammar.reading g tokens chart := by
  rw [reading, numeral_eq, readHead_eq hn hc, Grammar.reading]

end Numbered

end GuardLint.Grammar
