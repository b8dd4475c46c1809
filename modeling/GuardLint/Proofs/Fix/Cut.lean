import GuardLint.Proofs.Fix.Application
import GuardLint.Proofs.Text.Newlines

/-!
# Cut texts

Fixes cut a text into what stays and what is replaced. A text whose line ends are unified before it
is cut can be cut in the same way as it was, and what stays of it stays as it was exactly if it has
no carriage return.
-/

namespace GuardLint

/-- A piece of a text that stays, the piece after it that is replaced, and what takes its place. -/
structure Cut where
  kept : List Char
  old : List Char
  new : List Char

namespace Cut

open Text

/-- The text of some cuts and of what stays behind them. -/
def source (cuts : List Cut) (last : List Char) : List Char :=
  cuts.flatMap (fun c ↦ c.kept ++ c.old) ++ last

/-- The text in which the pieces are replaced. -/
def result (cuts : List Cut) (last : List Char) : List Char :=
  cuts.flatMap (fun c ↦ c.kept ++ c.new) ++ last

/-- A cut of a text whose line ends are unified. What takes the place of a piece is no part of the
text. -/
def unified (c : Cut) : Cut := ⟨unifyNewlines c.kept, unifyNewlines c.old, c.new⟩

theorem source_cons (c : Cut) (cuts : List Cut) (last : List Char) :
    source (c :: cuts) last = c.kept ++ (c.old ++ source cuts last) := by
  simp [source]

theorem result_cons (c : Cut) (cuts : List Cut) (last : List Char) :
    result (c :: cuts) last = c.kept ++ (c.new ++ result cuts last) := by
  simp [result]

/-- Where a text with unified line ends is cut, so can the text be. -/
theorem exists_of_unifyNewlines_eq_source {text : List Char} {cuts : List Cut} {last : List Char}
    (h : unifyNewlines text = source cuts last) : ∃ cuts' last', text = source cuts' last' ∧
      cuts'.map unified = cuts ∧ unifyNewlines last' = last := by
  induction cuts generalizing text with
  | nil => exact ⟨[], text, rfl, rfl, h⟩
  | cons c cuts ih =>
    rw [source_cons] at h
    obtain ⟨kept, rest, rfl, hkept, hrest⟩ := exists_of_unifyNewlines_eq_append h
    obtain ⟨old, rest, rfl, hold, hrest⟩ := exists_of_unifyNewlines_eq_append hrest
    obtain ⟨cuts', last', rfl, rfl, hlast⟩ := ih hrest
    refine ⟨⟨kept, old, c.new⟩ :: cuts', last', (source_cons ⟨kept, old, c.new⟩ cuts' last').symm, ?_,
      hlast⟩
    rw [List.map_cons, unified, hkept, hold]

private theorem length_result_unified_le (cuts : List Cut) (last : List Char) :
    (result (cuts.map unified) (unifyNewlines last)).length ≤ (result cuts last).length := by
  induction cuts with
  | nil => exact length_unifyNewlines_le last
  | cons c cuts ih =>
    have hkept := length_unifyNewlines_le c.kept
    rw [List.map_cons, result_cons, result_cons]
    simp only [unified, List.length_append] at hkept ih ⊢
    omega

/-- What stays of a text stays as it was exactly if there is no carriage return in it. -/
theorem result_unified_eq_iff {cuts : List Cut} {last : List Char} :
    result (cuts.map unified) (unifyNewlines last) = result cuts last ↔
      (∀ c ∈ cuts, '\r' ∉ c.kept) ∧ '\r' ∉ last := by
  induction cuts with
  | nil => simpa [result] using unifyNewlines_eq_self_iff
  | cons c cuts ih =>
    rw [List.map_cons, result_cons, result_cons, List.forall_mem_cons, and_assoc, ← ih,
      ← @unifyNewlines_eq_self_iff c.kept]
    constructor
    · intro h
      -- Neither part can be longer than it was, so both are as long as they were.
      have hkept := length_unifyNewlines_le c.kept
      have hrest := length_result_unified_le cuts last
      have hlength := congrArg List.length h
      simp only [unified, List.length_append] at hlength
      obtain ⟨hk, hnew⟩ := List.append_inj h (by simp only [unified]; omega)
      exact ⟨hk, List.append_cancel_left hnew⟩
    · rintro ⟨hk, hr⟩
      rw [hr]
      simp only [unified, hk]

end Cut

namespace Edit

variable {text : List Char}

/-- The cuts that edits make in a text from an offset on, the edits given in the order of the
text. -/
def cuts (text : List Char) : (start : Nat) → List Edit → List Cut
  | _, [] => []
  | start, e :: es =>
    ⟨(text.drop start).take (e.start.toNat - start),
      (text.drop e.start.toNat).take (e.stop.toNat - e.start.toNat), e.replacement⟩ ::
        cuts text e.stop.toNat es

/-- What stays of a text behind the last edit. -/
def last (text : List Char) : (start : Nat) → List Edit → List Char
  | start, [] => text.drop start
  | _, e :: es => last text e.stop.toNat es

theorem weave_eq_result (text : List Char) (start : Nat) (es : List Edit) :
    weave text start es = Cut.result (cuts text start es) (last text start es) := by
  induction es generalizing start with
  | nil => rfl
  | cons e es ih => rw [weave, ih, cuts, last, Cut.result_cons, List.append_assoc]

private theorem take_append_drop_of_le (text : List Char) {i j : Nat} (h : i ≤ j) :
    (text.drop i).take (j - i) ++ text.drop j = text.drop i := by
  have hj : text.drop j = (text.drop i).drop (j - i) := by
    rw [List.drop_drop, Nat.add_sub_cancel' h]
  rw [hj, List.take_append_drop]

/-- A text is made of the cuts of edits that lie one after the other. -/
theorem source_cuts {es : List Edit} {s : Nat} (hin : ∀ e ∈ es, e.Inside text.length)
    (hp : es.Pairwise Precedes) (hs : ∀ e ∈ es, (s : Int) ≤ e.start) :
    Cut.source (cuts text s es) (last text s es) = text.drop s := by
  induction es generalizing s with
  | nil => rfl
  | cons e es ih =>
    obtain ⟨he, hp⟩ := List.pairwise_cons.mp hp
    obtain ⟨hn, hne, hb⟩ := hin e List.mem_cons_self
    have hse : s ≤ e.start.toNat := by have := hs e List.mem_cons_self; omega
    have hstop : ∀ f ∈ es, (e.stop.toNat : Int) ≤ f.start := fun f hf ↦ by
      have : e.stop ≤ f.start := he f hf
      omega
    have hrest := ih (fun f hf ↦ hin f (List.mem_cons_of_mem e hf)) hp hstop
    rw [cuts, last, Cut.source_cons, hrest, take_append_drop_of_le text (by omega),
      take_append_drop_of_le text hse]

end Edit

end GuardLint
