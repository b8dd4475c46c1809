import GuardLint.Grammar.Chart
import GuardLint.Proofs.Grammar.Law
import Mathlib.Data.List.Perm.Subperm

/-!
# Saturation

The items of a place are all items that arise from its seeds. A place can have finitely many, as
many as the grammar has places in its productions for each place where they may have begun, and
the fuel of a saturation is at least that.
-/

namespace GuardLint.Grammar

open Syntax (Kind Token)

variable {γ : Type} {Sem : γ → Type} {g : Grammar Sem}

/-! ### Items -/

/-- An item at a place belongs to a production of the grammar and began no later. -/
def Item.Valid (g : Grammar Sem) (place : Nat) (x : Item γ) : Prop :=
  (∃ p, (g.productions x.head)[x.choice]? = some p ∧ x.done ≤ p.elements.length) ∧
    x.origin ≤ place

/-- The items of one head that a place can have. -/
private def headItems (g : Grammar Sem) (place : Nat) (h : Head γ) : List (Item γ) :=
  (g.productions h).zipIdx.flatMap fun q ↦
    (List.range (q.1.elements.length + 1)).flatMap fun done ↦
      (List.range (place + 1)).map fun origin ↦ ⟨h, q.2, done, origin⟩

/-- All items that a place can have. -/
private def allItems (g : Grammar Sem) (place : Nat) (categories : List γ) : List (Item γ) :=
  categories.flatMap fun c ↦ headItems g place (.one c) ++ headItems g place (.run c)

private theorem mem_headItems {place : Nat} {x : Item γ} (hx : x.Valid g place) :
    x ∈ headItems g place x.head := by
  obtain ⟨⟨p, hp, hd⟩, ho⟩ := hx
  refine List.mem_flatMap.mpr ⟨(p, x.choice), List.mem_zipIdx_iff_getElem?.mpr hp, ?_⟩
  refine List.mem_flatMap.mpr ⟨x.done, List.mem_range.mpr (Nat.lt_succ_of_le hd), ?_⟩
  exact List.mem_map.mpr ⟨x.origin, List.mem_range.mpr (Nat.lt_succ_of_le ho), rfl⟩

private theorem mem_allItems {place : Nat} {categories : List γ} (hc : ∀ c, c ∈ categories)
    {x : Item γ} (hx : x.Valid g place) : x ∈ allItems g place categories := by
  have h := mem_headItems hx
  cases hh : x.head with
  | one c =>
    rw [hh] at h
    exact List.mem_flatMap.mpr ⟨c, hc c, List.mem_append.mpr (.inl h)⟩
  | run c =>
    rw [hh] at h
    exact List.mem_flatMap.mpr ⟨c, hc c, List.mem_append.mpr (.inr h)⟩

private theorem length_headItems (place : Nat) (h : Head γ) :
    (headItems g place h).length =
      ((g.productions h).map fun p ↦ p.elements.length + 1).sum * (place + 1) := by
  unfold headItems
  generalize 0 = n
  induction g.productions h generalizing n with
  | nil => simp
  | cons p ps ih =>
    rw [List.zipIdx_cons, List.flatMap_cons, List.length_append, ih, List.map_cons, List.sum_cons,
      Nat.add_mul]
    simp [List.length_flatMap]

private theorem length_allItems (place : Nat) (categories : List γ) :
    (allItems g place categories).length = g.placeCount categories * (place + 1) := by
  unfold allItems placeCount
  induction categories with
  | nil => simp
  | cons c cs ih =>
    rw [List.flatMap_cons, List.length_append, List.length_append, ih, length_headItems,
      length_headItems, List.map_cons, List.sum_cons, ← Nat.add_mul, ← Nat.add_mul]
    rfl

/-! ### Agendas -/

variable [DecidableEq γ]

theorem Item.same_iff {x y : Item γ} : x.same y = true ↔ x = y := by
  obtain ⟨h, c, d, o⟩ := x
  obtain ⟨h', c', d', o'⟩ := y
  simp only [Item.same, Bool.and_eq_true, beq_iff_eq, Item.mk.injEq]
  constructor
  · rintro ⟨⟨⟨ho, hd⟩, hc⟩, hh⟩
    exact ⟨hh, hc, hd, ho⟩
  · rintro ⟨hh, hc, hd, ho⟩
    exact ⟨⟨⟨ho, hd⟩, hc⟩, hh⟩

private theorem any_same {xs : List (Item γ)} {x : Item γ} :
    xs.any x.same = true ↔ x ∈ xs := by
  rw [List.any_eq_true]
  constructor
  · rintro ⟨y, hy, h⟩
    rw [Item.same_iff.mp h]
    exact hy
  · exact fun h ↦ ⟨x, h, Item.same_iff.mpr rfl⟩

theorem Chart.has_iff {chart : Chart γ} {place : Nat} {x : Item γ} :
    chart.has place x = true ↔ x ∈ chart.at_ place := any_same

private theorem mem_enqueue {seen agenda : List (Item γ)} {x y : Item γ} :
    y ∈ enqueue seen agenda x ↔ y ∈ agenda ∨ y = x ∧ x ∉ seen := by
  unfold enqueue
  by_cases hs : x ∈ seen
  · have h : (seen.any x.same || agenda.any x.same) = true := by
      rw [Bool.or_eq_true, any_same]
      exact .inl hs
    simp [h, hs]
  · by_cases ha : x ∈ agenda
    · have h : (seen.any x.same || agenda.any x.same) = true := by
        rw [Bool.or_eq_true, any_same, any_same]
        exact .inr ha
      rw [if_pos h]
      exact ⟨.inl, fun hy ↦ hy.elim id fun hy ↦ hy.1 ▸ ha⟩
    · have h : ¬ (seen.any x.same || agenda.any x.same) = true := by
        rw [Bool.or_eq_true, any_same, any_same]
        exact fun h ↦ h.elim hs ha
      rw [if_neg h, List.mem_cons]
      exact ⟨fun hy ↦ hy.elim (fun h ↦ .inr ⟨h, hs⟩) .inl,
        fun hy ↦ hy.elim .inr fun h ↦ .inl h.1⟩

private theorem nodup_enqueue {seen agenda : List (Item γ)} (x : Item γ)
    (h : (agenda ++ seen).Nodup) : (enqueue seen agenda x ++ seen).Nodup := by
  unfold enqueue
  split
  · exact h
  · next hn =>
    rw [Bool.or_eq_true, any_same, any_same] at hn
    rw [List.cons_append, List.nodup_cons, List.mem_append]
    exact ⟨fun hm ↦ hn hm.symm, h⟩

private theorem mem_enqueueAll {seen agenda xs : List (Item γ)} {y : Item γ} :
    y ∈ xs.foldl (enqueue seen) agenda ↔ y ∈ agenda ∨ y ∈ xs ∧ y ∉ seen := by
  induction xs generalizing agenda with
  | nil => simp
  | cons x xs ih =>
    rw [List.foldl_cons, ih, mem_enqueue, List.mem_cons]
    constructor
    · rintro ((h | ⟨rfl, h⟩) | ⟨h, hs⟩)
      · exact .inl h
      · exact .inr ⟨.inl rfl, h⟩
      · exact .inr ⟨.inr h, hs⟩
    · rintro (h | ⟨rfl | h, hs⟩)
      · exact .inl (.inl h)
      · exact .inl (.inr ⟨rfl, hs⟩)
      · exact .inr ⟨h, hs⟩

private theorem nodup_enqueueAll {seen agenda : List (Item γ)} (xs : List (Item γ))
    (h : (agenda ++ seen).Nodup) : (xs.foldl (enqueue seen) agenda ++ seen).Nodup := by
  induction xs generalizing agenda with
  | nil => exact h
  | cons x xs ih => exact ih (nodup_enqueue x h)

/-! ### Saturation -/

/-- A list of items that holds the items it began with and all that arise from it, and nothing that
lacks a property which its beginning has and what arises keeps. -/
structure Saturated (step : Item γ → List (Item γ)) (P : Item γ → Prop)
    (seeds items : List (Item γ)) : Prop where
  nodup : items.Nodup
  sound : ∀ x ∈ items, P x
  seeded : ∀ x ∈ seeds, x ∈ items
  closed : ∀ x ∈ items, ∀ y ∈ step x, y ∈ items

private theorem saturate_saturated {step : Item γ → List (Item γ)} {P : Item γ → Prop}
    {every : List (Item γ)} (hstep : ∀ x, P x → ∀ y ∈ step x, P y) (hevery : ∀ x, P x → x ∈ every)
    {fuel : Nat} {agenda seen : List (Item γ)} (hnd : (agenda ++ seen).Nodup)
    (hP : ∀ x ∈ agenda ++ seen, P x) (hfuel : every.length ≤ fuel + seen.length)
    (hseen : ∀ x ∈ seen, ∀ y ∈ step x, y ∈ agenda ++ seen) :
    Saturated step P (agenda ++ seen) (saturate step fuel agenda seen) := by
  induction fuel generalizing agenda seen with
  | zero =>
    -- Nothing is left to do: the items seen are as many as there can be.
    have hle : (agenda ++ seen).length ≤ every.length :=
      (List.subperm_of_subset hnd fun x hx ↦ hevery x (hP x hx)).length_le
    rw [List.length_append] at hle
    have ha : agenda = [] := List.length_eq_zero_iff.mp (by omega)
    subst ha
    exact ⟨hnd, hP, fun x hx ↦ hx, hseen⟩
  | succ fuel ih =>
    cases agenda with
    | nil => exact ⟨hnd, hP, fun x hx ↦ hx, hseen⟩
    | cons x agenda =>
      rw [saturate]
      have hmid : (agenda ++ x :: seen).Nodup := List.perm_middle.nodup_iff.mpr hnd
      have hmem (y : Item γ) : y ∈ (step x).foldl (enqueue (x :: seen)) agenda ++ x :: seen ↔
          y ∈ x :: agenda ++ seen ∨ y ∈ step x := by
        rw [List.mem_append, mem_enqueueAll, List.cons_append, List.mem_cons, List.mem_cons,
          List.mem_append]
        constructor
        · rintro ((h | ⟨h, -⟩) | h | h)
          · exact .inl (.inr (.inl h))
          · exact .inr h
          · exact .inl (.inl h)
          · exact .inl (.inr (.inr h))
        · rintro ((h | h | h) | h)
          · exact .inr (.inl h)
          · exact .inl (.inl h)
          · exact .inr (.inr h)
          · by_cases hs : y = x ∨ y ∈ seen
            · exact .inr hs
            · exact .inl (.inr ⟨h, hs⟩)
      have hx : P x := hP x List.mem_cons_self
      obtain ⟨hnodup, hsound, hseeded, hclosed⟩ := ih (nodup_enqueueAll (step x) hmid)
        (fun y hy ↦ ((hmem y).mp hy).elim (hP y) (hstep x hx y))
        (by rw [List.length_cons]; omega)
        (fun y hy z hz ↦ by
          rw [hmem]
          rcases List.mem_cons.mp hy with rfl | hy
          · exact .inr hz
          · rcases List.mem_append.mp (hseen y hy z hz) with h | h
            · exact .inl (List.mem_append_left _ h)
            · exact .inl (List.mem_append_right _ h))
      exact ⟨hnodup, hsound, fun y hy ↦ hseeded y ((hmem y).mpr (.inl hy)), hclosed⟩

/-- The items of a place are all that arise from its seeds. -/
theorem itemsAt_saturated (hg : Lawful g) {earlier : Chart γ} {place : Nat} {next : Option Kind}
    {seeds : List (Item γ)} {P : Item γ → Prop} (hnd : seeds.Nodup)
    (hvalid : ∀ x, P x → x.Valid g place) (hseeds : ∀ x ∈ seeds, P x)
    (hstep : ∀ x, P x → ∀ y ∈ offspring g earlier place next x, P y) :
    Saturated (offspring g earlier place next) P seeds (itemsAt g earlier place next seeds) := by
  obtain ⟨categories, hc, hcount⟩ := hg.finite
  have hfuel : (allItems g place categories).length ≤
      g.states * (place + 1) + ([] : List (Item γ)).length := by
    rw [length_allItems]
    exact Nat.mul_le_mul_right _ hcount
  have h := saturate_saturated hstep (fun x hx ↦ mem_allItems hc (hvalid x hx))
    (by rwa [List.append_nil]) (by rwa [List.append_nil]) hfuel
    (fun x hx ↦ absurd hx List.not_mem_nil)
  rwa [List.append_nil] at h

end GuardLint.Grammar
