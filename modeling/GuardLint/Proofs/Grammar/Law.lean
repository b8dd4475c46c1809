import Mathlib.Algebra.Ring.Nat
import GuardLint.Proofs.Grammar.Derivation

/-!
# Lawful grammars

What a grammar has to be for its charts to be complete: only whole texts may be empty, the kinds of
token that may begin a category are known, and a category that stands alone for another is of lower
rank. Each law speaks of productions only, so it can be checked for a given grammar.
-/

namespace GuardLint.Grammar

open Syntax (Kind Token)

variable {γ : Type} {Sem : γ → Type}

/-- The number of places in the productions of some categories and of runs of them. -/
def placeCount (g : Grammar Sem) (categories : List γ) : Nat :=
  (categories.map fun c ↦ ((g.rules c).map fun p ↦ p.elements.length + 1).sum + 5).sum

/-- The categories that elements may consist of alone, all other elements left out. -/
def standAlone : List (Element γ) → List γ
  | [] => []
  | e :: es =>
    (match e.symbol with
      | .node (.one d) | .node (.run d) => if es.all Element.optional then [d] else []
      | .tok _ => []) ++ if e.optional then standAlone es else []

theorem mem_standAlone {es front back : List (Element γ)} {e : Element γ}
    (hes : es = front ++ e :: back) (ho : ∀ f ∈ front ++ back, f.optional = true) {d : γ}
    (hd : e.symbol = .node (.one d) ∨ e.symbol = .node (.run d)) : d ∈ standAlone es := by
  subst hes
  induction front with
  | nil =>
    have hall : back.all Element.optional = true := List.all_eq_true.mpr ho
    rw [List.nil_append, standAlone, List.mem_append]
    rcases hd with hd | hd <;> exact .inl (by simp [hd, hall])
  | cons f front ih =>
    rw [List.cons_append, standAlone, List.mem_append, if_pos (ho f List.mem_cons_self)]
    exact .inr (ih fun f' hf' ↦ ho f' (List.mem_cons_of_mem f hf'))

/-- The symbols that may come first in some elements. -/
def firsts : List (Element γ) → List (Symbol γ)
  | [] => []
  | e :: es => e.symbol :: if e.optional then firsts es else []

/-- A token begins elements exactly if it begins one of the symbols that may come first. -/
theorem elementsMayStart_iff {g : Grammar Sem} {k : Kind} {es : List (Element γ)} :
    g.elementsMayStart k es = true ↔ ∃ s ∈ firsts es, g.symbolMayStart k s = true := by
  induction es with
  | nil => simp [elementsMayStart, firsts]
  | cons e es ih => cases h : e.optional <;> simp [elementsMayStart, firsts, ih, h]

/-- Ranks of the categories: one that may stand alone for another has a lower rank. -/
structure Ranked (g : Grammar Sem) (rank : γ → Nat) : Prop where
  lt_states : ∀ c, 2 * rank c + 1 < g.states
  descends : ∀ c, ∀ p ∈ g.rules c, ∀ front e back, p.elements = front ++ e :: back →
    (∀ f ∈ front ++ back, f.optional = true) →
    ∀ d, e.symbol = .node (.one d) ∨ e.symbol = .node (.run d) → rank d < rank c

/-- The laws of a grammar. `solid` and `fresh` say that only the start may be empty, and that it is
no part of anything; `starts` says that `mayStart` leaves nothing out; `finite` says that `states`
counts all places. -/
structure Lawful (g : Grammar Sem) : Prop where
  solid : ∀ c, c ≠ g.start → ∀ p ∈ g.rules c, ∃ e ∈ p.elements, e.optional = false
  fresh : ∀ c, ∀ p ∈ g.rules c, ∀ e ∈ p.elements,
    e.symbol ≠ .node (.one g.start) ∧ e.symbol ≠ .node (.run g.start)
  starts : ∀ c, ∀ p ∈ g.rules c, ∀ k, g.elementsMayStart k p.elements = true →
    g.mayStart c k = true
  finite : ∃ categories : List γ, (∀ c, c ∈ categories) ∧ g.placeCount categories ≤ g.states
  ranked : ∃ rank : γ → Nat, Ranked g rank

/-- A head that is no whole text. -/
def Inner (g : Grammar Sem) : Head γ → Prop
  | .one c => c ≠ g.start
  | .run c => c ≠ g.start

variable {g : Grammar Sem}

/-- The parts of a production are no whole texts. -/
theorem Lawful.inner (hg : Lawful g) {h : Head γ} (hh : h = .one g.start ∨ Inner g h)
    {p : Production Sem (h.Value Sem)} (hp : p ∈ g.productions h) {e : Element γ}
    (he : e ∈ p.elements) {h' : Head γ} (hs : e.symbol = .node h') : Inner g h' := by
  cases h with
  | one c =>
    have hf := hg.fresh c p hp e he
    rw [hs] at hf
    cases h' with
    | one d => exact fun hd ↦ hf.1 (by rw [hd])
    | run d => exact fun hd ↦ hf.2 (by rw [hd])
  | run c =>
    have hc : c ≠ g.start := by
      rcases hh with hh | hh
      · cases hh
      · exact hh
    simp only [productions, List.mem_cons, List.not_mem_nil, or_false] at hp
    rcases hp with rfl | rfl
    · cases List.mem_singleton.mp he
      cases hs
      exact hc
    · simp only [List.mem_cons, List.not_mem_nil, or_false] at he
      rcases he with rfl | rfl <;> cases hs <;> exact hc

/-- A production of a part has an element that is always there. -/
theorem Lawful.exists_need (hg : Lawful g) {h : Head γ} (hh : Inner g h)
    {p : Production Sem (h.Value Sem)} (hp : p ∈ g.productions h) :
    ∃ e ∈ p.elements, e.optional = false := by
  cases h with
  | one c => exact hg.solid c hh p hp
  | run c =>
    simp only [productions, List.mem_cons, List.not_mem_nil, or_false] at hp
    rcases hp with rfl | rfl
    · exact ⟨_, List.mem_singleton.mpr rfl, rfl⟩
    · exact ⟨_, List.mem_cons_self, rfl⟩

/-- Tokens that are none cover only elements that may all be left out. -/
theorem optional_of_covers_nil {P : Symbol γ → List Token → Prop} {es : List (Element γ)}
    (hP : ∀ e ∈ es, ¬ P e.symbol []) (hc : Covers P es []) : ∀ e ∈ es, e.optional = true := by
  induction es with
  | nil => exact fun e he ↦ absurd he List.not_mem_nil
  | cons e es ih =>
    rcases hc with ⟨us, ws, h, hp, -⟩ | ⟨ho, hc⟩
    · obtain ⟨rfl, rfl⟩ := List.append_eq_nil_iff.mp h.symm
      exact absurd hp (hP e List.mem_cons_self)
    · intro f hf
      rcases List.mem_cons.mp hf with rfl | hf
      · exact ho
      · exact ih (fun f hf ↦ hP f (List.mem_cons_of_mem e hf)) hc f hf

/-- A part of a text is not empty. -/
theorem Matches.ne_nil (hg : Lawful g) {s : Symbol γ} (hs : ∀ h, s = .node h → Inner g h)
    {ts : List Token} (hm : Matches g s ts) : ts ≠ [] := by
  refine Matches.induction (P := fun s ts ↦ (∀ h, s = .node h → Inner g h) → ts ≠ [])
    (fun t _ ↦ List.cons_ne_nil _ _) (fun h p ts hp hc hin ↦ ?_) hm hs
  rintro rfl
  obtain ⟨e, he, hne⟩ := hg.exists_need (hin h rfl) hp
  have ho := optional_of_covers_nil (fun e he hP ↦
    hP.2 (fun h' hs ↦ hg.inner (.inr (hin h rfl)) hp he hs) rfl) hc e he
  rw [hne] at ho
  cases ho

/-- The elements of a production on no tokens may all be left out. -/
theorem Spans.optional (hg : Lawful g) {es : List (Element γ)}
    (hes : ∀ e ∈ es, ∀ h, e.symbol = .node h → Inner g h) (hs : Spans g es []) :
    ∀ e ∈ es, e.optional = true :=
  optional_of_covers_nil (fun e he hm ↦ hm.ne_nil hg (hes e he) rfl) (spans_iff_covers.mp hs)

/-- A token that begins a list of elements may begin it. -/
private theorem elementsMayStart_of_covers {es : List (Element γ)} {t : Token} {ts : List Token}
    (hc : Covers (fun s us ↦ us ≠ [] ∧ ∀ t us', us = t :: us' →
      g.symbolMayStart t.kind s = true) es (t :: ts)) :
    g.elementsMayStart t.kind es = true := by
  induction es with
  | nil => cases hc
  | cons e es ih =>
    rw [elementsMayStart, Bool.or_eq_true, Bool.and_eq_true]
    rcases hc with ⟨us, ws, h, ⟨hne, hP⟩, -⟩ | ⟨ho, hc⟩
    · cases us with
      | nil => exact absurd rfl hne
      | cons u us =>
        obtain ⟨rfl, -⟩ := List.cons.inj h
        exact .inl (hP _ _ rfl)
    · exact .inr ⟨ho, ih hc⟩

/-- A head may begin with the tokens that its productions may begin with. -/
theorem Lawful.head_starts (hg : Lawful g) {h : Head γ} {p : Production Sem (h.Value Sem)}
    (hp : p ∈ g.productions h) {k : Kind} (hk : g.elementsMayStart k p.elements = true) :
    g.symbolMayStart k (.node h) = true := by
  cases h with
  | one c => exact hg.starts c p hp k hk
  | run c =>
    simp only [productions, List.mem_cons, List.not_mem_nil, or_false] at hp
    rcases hp with rfl | rfl <;>
      simpa [elementsMayStart, Grammar.symbolMayStart, Element.symbol, Element.optional] using hk

/-- The first token of a symbol may begin it. -/
theorem Matches.symbolMayStart (hg : Lawful g) {s : Symbol γ}
    (hs : ∀ h, s = .node h → h = .one g.start ∨ Inner g h) {t : Token} {ts : List Token}
    (hm : Matches g s (t :: ts)) : g.symbolMayStart t.kind s = true := by
  refine Matches.induction (P := fun s us ↦ (∀ h, s = .node h → h = .one g.start ∨ Inner g h) →
    ∀ t ts, us = t :: ts → g.symbolMayStart t.kind s = true) ?_ ?_ hm hs t ts rfl
  · rintro t - _ _ ⟨⟩
    exact beq_self_eq_true _
  · rintro h p _ hp hc hin t ts rfl
    refine hg.head_starts hp (elementsMayStart_of_covers (hc.mono ?_))
    intro e he us ⟨hm, hP⟩
    have hi : ∀ h', e.symbol = .node h' → Inner g h' := fun h' hs ↦ hg.inner (hin h rfl) hp he hs
    exact ⟨hm.ne_nil hg hi, hP fun h' hs ↦ .inr (hi h' hs)⟩

/-- The first token of a list of elements may begin it. -/
theorem Spans.elementsMayStart (hg : Lawful g) {es : List (Element γ)}
    (hes : ∀ e ∈ es, ∀ h, e.symbol = .node h → Inner g h) {t : Token} {ts : List Token}
    (hs : Spans g es (t :: ts)) : g.elementsMayStart t.kind es = true := by
  refine elementsMayStart_of_covers ((spans_iff_covers.mp hs).mono fun e he us hm ↦ ?_)
  refine ⟨hm.ne_nil hg (hes e he), ?_⟩
  rintro t us rfl
  exact hm.symbolMayStart hg fun h hs ↦ .inr (hes e he h hs)

end GuardLint.Grammar
