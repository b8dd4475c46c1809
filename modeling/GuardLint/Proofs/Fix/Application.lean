import GuardLint.Fix
import Mathlib.Data.List.Pairwise

/-!
# Applied fixes

Fixes are applied one after the other to a text that changes under them. The result is that of
replacing the chosen pieces of the text as it was, all at once: `Edit.weave` says what that is. The
chosen edits do not overlap, and each edit that is left out overlaps a chosen one.
-/

namespace GuardLint

namespace Edit

/-- The text from some offset on with pieces replaced, the edits given in the order of the text.
Offsets are those of the text as it is. -/
def weave (text : List Char) (start : Nat) : List Edit → List Char
  | [] => text.drop start
  | e :: es =>
    (text.drop start).take (e.start.toNat - start) ++ e.replacement ++
      weave text e.stop.toNat es

/-- An edit replaces at least one character of a text of some length. -/
structure Inside (length : Nat) (e : Edit) : Prop where
  nonneg : 0 ≤ e.start
  nonempty : e.start < e.stop
  bounded : e.stop ≤ length

/-- One edit ends before another begins. -/
def Precedes (e f : Edit) : Prop := e.stop ≤ f.start

/-- Two edits cover different pieces of a text. -/
def Apart (e f : Edit) : Prop := ¬ (e.start = f.start ∧ e.stop = f.stop)

instance (e f : Edit) : Decidable (Apart e f) :=
  inferInstanceAs (Decidable (¬ (e.start = f.start ∧ e.stop = f.stop)))

/-! ### The order of application -/

/-- Inserting an edit adds it and loses none. -/
theorem insert_perm (e : Edit) (es : List Edit) : (insert e es).Perm (e :: es) := by
  induction es with
  | nil => exact List.Perm.refl _
  | cons f fs ih =>
    unfold insert
    split
    · exact List.Perm.refl _
    · exact (ih.cons f).trans (List.Perm.swap e f fs)

private theorem foldl_insert_perm (edits acc : List Edit) :
    (edits.foldl (fun sorted e ↦ insert e sorted) acc).Perm (edits ++ acc) := by
  induction edits generalizing acc with
  | nil => exact List.Perm.refl _
  | cons e es ih =>
    rw [List.foldl_cons]
    refine (ih (insert e acc)).trans ?_
    exact ((insert_perm e acc).append_left es).trans List.perm_middle

/-- The order of application has the same edits. -/
theorem sorted_perm (edits : List Edit) : (sorted edits).Perm edits := by
  have h := foldl_insert_perm edits []
  rwa [List.append_nil] at h

/-- `before` is decided by the offsets. -/
theorem before_iff (e f : Edit) :
    e.before f = true ↔ f.start < e.start ∨ f.start = e.start ∧ f.stop < e.stop := by
  simp [before]

private theorem pairwise_insert (e : Edit) (es : List Edit)
    (h : es.Pairwise fun a b ↦ b.before a = false) :
    (insert e es).Pairwise fun a b ↦ b.before a = false := by
  induction es with
  | nil => exact List.pairwise_singleton _ _
  | cons f fs ih =>
    obtain ⟨hf, hfs⟩ := List.pairwise_cons.mp h
    unfold insert
    split
    · next he =>
      refine List.pairwise_cons.mpr ⟨fun g hg ↦ ?_, h⟩
      rw [before_iff] at he
      rcases List.mem_cons.mp hg with rfl | hg
      · rw [Bool.eq_false_iff, Ne, before_iff]; omega
      · have hgf := hf g hg
        rw [Bool.eq_false_iff, Ne, before_iff] at hgf ⊢
        omega
    · next he =>
      refine List.pairwise_cons.mpr ⟨fun g hg ↦ ?_, ih hfs⟩
      rcases List.mem_cons.mp ((insert_perm e fs).mem_iff.mp hg) with rfl | hg
      · exact Bool.eq_false_iff.mpr he
      · exact hf g hg

private theorem pairwise_foldl_insert (edits acc : List Edit)
    (h : acc.Pairwise fun a b ↦ b.before a = false) :
    (edits.foldl (fun sorted e ↦ insert e sorted) acc).Pairwise fun a b ↦ b.before a = false := by
  induction edits generalizing acc with
  | nil => exact h
  | cons e es ih => exact ih _ (pairwise_insert e acc h)

/-- In the order of application no edit comes before one that stands earlier in the list. -/
theorem pairwise_sorted (edits : List Edit) :
    (sorted edits).Pairwise fun a b ↦ b.before a = false :=
  pairwise_foldl_insert edits [] List.Pairwise.nil

instance : Std.Symm Apart where
  symm _ _ h := fun he ↦ h ⟨he.1.symm, he.2.symm⟩

/-- Edits of different pieces have one order of application, however they are listed. -/
theorem sorted_eq_of_perm {edits others : List Edit} (hp : others.Perm edits)
    (hd : edits.Pairwise Apart) : sorted others = sorted edits := by
  have hs : (sorted others).Perm (sorted edits) :=
    (sorted_perm others).trans (hp.trans (sorted_perm edits).symm)
  have hd' : (sorted edits).Pairwise Apart :=
    (sorted_perm edits).symm.pairwise hd fun h ↦ Std.Symm.symm _ _ h
  refine hs.eq_of_pairwise (fun a b ha hb hab hba ↦ ?_) (pairwise_sorted others)
    (pairwise_sorted edits)
  rw [Bool.eq_false_iff, Ne, before_iff] at hab hba
  by_contra hne
  apply hd'.forall (hs.mem_iff.mp ha) hb hne
  omega

/-! ### The choice of edits -/

/-- Every edit is either chosen or left out. -/
theorem choose_perm (chosen es : List Edit) :
    ((choose chosen es).1 ++ (choose chosen es).2).Perm es := by
  induction es generalizing chosen with
  | nil => exact List.Perm.refl _
  | cons e es ih =>
    unfold choose
    split
    · exact List.perm_middle.trans ((ih chosen).cons e)
    · exact (ih (e :: chosen)).cons e

/-- An edit that is left out overlaps one that is chosen before it. -/
theorem exists_overlaps_of_mem_left {chosen es : List Edit} {e : Edit}
    (hs : es.Pairwise fun a b ↦ b.before a = false)
    (hc : ∀ f ∈ chosen, ∀ e ∈ es, e.before f = false) (h : e ∈ (choose chosen es).2) :
    ∃ f ∈ chosen ++ (choose chosen es).1, e.overlaps f = true ∧ e.before f = false := by
  induction es generalizing chosen with
  | nil => cases h
  | cons g es ih =>
    obtain ⟨hg, hs⟩ := List.pairwise_cons.mp hs
    have hc' : ∀ f ∈ chosen, ∀ e ∈ es, e.before f = false :=
      fun f hf e he ↦ hc f hf e (List.mem_cons_of_mem g he)
    unfold choose at h ⊢
    split at h
    · next hover =>
      rw [if_pos hover]
      rcases List.mem_cons.mp h with rfl | h
      · obtain ⟨f, hf, ho⟩ := List.any_eq_true.mp hover
        exact ⟨f, List.mem_append_left _ hf, ho, hc f hf _ List.mem_cons_self⟩
      · exact ih hs hc' h
    · next hover =>
      rw [if_neg hover]
      obtain ⟨f, hf, ho⟩ := ih hs (List.forall_mem_cons.mpr ⟨hg, hc'⟩) h
      exact ⟨f, List.perm_middle.mem_iff.mpr hf, ho⟩

/-- Of two edits of a text that do not overlap, one that does not start later ends first. -/
theorem precedes_of_not_overlaps {n : Nat} {e f : Edit} (hf : f.Inside n)
    (hb : e.before f = false) (ho : e.overlaps f = false) : e.Precedes f := by
  rw [Bool.eq_false_iff, Ne, before_iff] at hb
  have hn := hf.nonempty
  simp only [overlaps, Bool.and_eq_false_iff, decide_eq_false_iff_not] at ho
  unfold Precedes
  omega

/-- The chosen edits lie apart, in the order of application, and before those chosen earlier. -/
theorem pairwise_choose {n : Nat} {chosen es : List Edit}
    (hin : ∀ f ∈ chosen ++ es, f.Inside n)
    (hs : es.Pairwise fun a b ↦ b.before a = false)
    (hc : ∀ f ∈ chosen, ∀ e ∈ es, e.before f = false) :
    (choose chosen es).1.Pairwise (fun a b ↦ b.Precedes a) ∧
      ∀ f ∈ chosen, ∀ e ∈ (choose chosen es).1, e.Precedes f := by
  induction es generalizing chosen with
  | nil => exact ⟨List.Pairwise.nil, fun _ _ _ he ↦ by cases he⟩
  | cons e es ih =>
    obtain ⟨he, hs⟩ := List.pairwise_cons.mp hs
    unfold choose
    split
    · refine ih (fun f hf ↦ hin f ?_) hs fun f hf g hg ↦ hc f hf g (List.mem_cons_of_mem e hg)
      exact ((List.sublist_cons_self e es).append_left chosen).mem hf
    · next ho =>
      have hch : ∀ f ∈ e :: chosen, ∀ g ∈ es, g.before f = false := by
        intro f hf g hg
        rcases List.mem_cons.mp hf with rfl | hf
        · exact he g hg
        · exact hc f hf g (List.mem_cons_of_mem e hg)
      obtain ⟨hp, hl⟩ := ih (fun f hf ↦ hin f (List.perm_middle.mem_iff.mpr hf)) hs hch
      refine ⟨List.pairwise_cons.mpr ⟨hl e List.mem_cons_self, hp⟩, fun f hf g hg ↦ ?_⟩
      rcases List.mem_cons.mp hg with rfl | hg
      · apply precedes_of_not_overlaps (hin f (List.mem_append_left _ hf))
          (hc f hf _ List.mem_cons_self)
        exact Bool.eq_false_iff.mpr fun h ↦ ho (List.any_eq_true.mpr ⟨f, hf, h⟩)
      · exact hl f (List.mem_cons_of_mem e hf) g hg

/-! ### Replacing all at once -/

/-- Replacing one piece keeps the text on both sides of it. -/
theorem splice_eq {text : List Char} {e : Edit} (h : e.Inside text.length) :
    splice text e = text.take e.start.toNat ++ e.replacement ++ text.drop e.stop.toNat := by
  obtain ⟨hn, hne, hb⟩ := h
  have hstart : clamp text.length e.start = e.start.toNat := by unfold clamp; split <;> omega
  have hstop : clamp text.length e.stop = e.stop.toNat := by unfold clamp; split <;> omega
  rw [splice, hstart, hstop]

/-- A text from an offset on, cut at a later offset. -/
private theorem take_append_take_drop (text : List Char) {i j : Nat} (h : i ≤ j) :
    text.take i ++ (text.drop i).take (j - i) = text.take j := by
  rw [← List.take_add, Nat.add_sub_cancel' h]

/-- Replacing pieces that lie one after the other, the last first, is replacing them all at once.
The invariant is that the text before the pieces is still the same. -/
theorem foldr_splice {text : List Char} {es : List Edit} {s : Nat}
    (hin : ∀ e ∈ es, e.Inside text.length) (hp : es.Pairwise Precedes)
    (hs : ∀ e ∈ es, (s : Int) ≤ e.start) :
    es.foldr (fun e t ↦ splice t e) text = text.take s ++ weave text s es := by
  induction es generalizing s with
  | nil => exact (List.take_append_drop s text).symm
  | cons e es ih =>
    obtain ⟨he, hp⟩ := List.pairwise_cons.mp hp
    obtain ⟨hn, hne, hb⟩ := hin e List.mem_cons_self
    have hse : s ≤ e.start.toNat := by have := hs e List.mem_cons_self; omega
    have hlen : (text.take e.stop.toNat).length = e.stop.toNat := by
      rw [List.length_take]; omega
    have hrest : es.foldr (fun e t ↦ splice t e) text =
        text.take e.stop.toNat ++ weave text e.stop.toNat es := by
      refine ih (fun f hf ↦ hin f (List.mem_cons_of_mem e hf)) hp fun f hf ↦ ?_
      have hef : e.stop ≤ f.start := he f hf
      omega
    have hin' : e.Inside (es.foldr (fun e t ↦ splice t e) text).length := by
      refine ⟨hn, hne, ?_⟩
      rw [hrest, List.length_append, hlen]
      omega
    rw [List.foldr_cons, splice_eq hin', hrest,
      List.take_append_of_le_length (by omega), List.take_take,
      List.drop_left' hlen, Nat.min_eq_left (by omega), weave,
      ← take_append_take_drop text hse]
    simp only [List.append_assoc]

end Edit

namespace Fix

/-- The edits that are made when fixes are applied, in the order of the text. -/
def applied (fixes : List Fix) : List Edit := (plan fixes).1.reverse

/-- A fix without offsets, or one that replaces at least one character of a text. -/
def Fits (length : Nat) (f : Fix) : Prop := ∀ e, f.edit? = some e → e.Inside length

/-- Applying fixes is making the applied edits one after the other, the last first. -/
theorem applyAll_eq_foldr (text : List Char) (fixes : List Fix) :
    applyAll text fixes = (applied fixes).foldr (fun e t ↦ e.splice t) text := by
  rw [applyAll, applied, List.foldr_reverse]

/-- The applied edits and those left out are all edits there are. -/
theorem applied_perm (fixes : List Fix) :
    (applied fixes ++ (plan fixes).2).Perm (fixes.filterMap edit?) :=
  ((List.reverse_perm _).append_right _).trans
    ((Edit.choose_perm [] _).trans (Edit.sorted_perm _))

/-- An edit that is left out overlaps an applied one, which does not come after it in the order of
application. -/
theorem exists_applied_overlaps {fixes : List Fix} {e : Edit} (h : e ∈ (plan fixes).2) :
    ∃ f ∈ applied fixes, e.overlaps f = true ∧ e.before f = false := by
  obtain ⟨f, hf, ho⟩ := Edit.exists_overlaps_of_mem_left (Edit.pairwise_sorted _)
    (fun f hf ↦ absurd hf List.not_mem_nil) h
  exact ⟨f, List.mem_reverse.mpr hf, ho⟩

variable {n : Nat} {text : List Char} {fixes : List Fix}

/-- The edits of fixes that fit a text lie inside it. -/
theorem inside_of_mem_filterMap (h : ∀ f ∈ fixes, f.Fits n) {e : Edit}
    (he : e ∈ fixes.filterMap edit?) : e.Inside n := by
  obtain ⟨f, hf, hfe⟩ := List.mem_filterMap.mp he
  exact h f hf e hfe

/-- Applied edits are edits of the fixes. -/
theorem mem_filterMap_of_mem_applied {e : Edit} (h : e ∈ applied fixes) :
    e ∈ fixes.filterMap edit? :=
  (applied_perm fixes).mem_iff.mp (List.mem_append_left _ h)

/-- Applied edits do not overlap, and come in the order of the text. -/
theorem pairwise_applied (h : ∀ f ∈ fixes, f.Fits n) :
    (applied fixes).Pairwise Edit.Precedes := by
  rw [applied, List.pairwise_reverse]
  refine (Edit.pairwise_choose (n := n) (fun f hf ↦ ?_) (Edit.pairwise_sorted _)
    fun f hf ↦ by cases hf).1
  rw [List.nil_append, (Edit.sorted_perm _).mem_iff] at hf
  exact inside_of_mem_filterMap h hf

/-- Applying fixes that fit a text replaces the pieces of the applied edits all at once. -/
theorem applyAll_eq_weave (h : ∀ f ∈ fixes, f.Fits text.length) :
    applyAll text fixes = Edit.weave text 0 (applied fixes) := by
  have hin : ∀ e ∈ applied fixes, e.Inside text.length := fun e he ↦
    inside_of_mem_filterMap h (mem_filterMap_of_mem_applied he)
  rw [applyAll_eq_foldr,
    Edit.foldr_splice (s := 0) hin (pairwise_applied h) fun e he ↦ (hin e he).nonneg]
  exact List.nil_append _

/-- Fixes of different pieces have one set of applied edits, however they are listed. -/
theorem applied_eq_of_perm {others : List Fix} (hp : others.Perm fixes)
    (hd : (fixes.filterMap edit?).Pairwise Edit.Apart) : applied others = applied fixes := by
  rw [applied, applied, plan, plan, Edit.sorted_eq_of_perm (hp.filterMap edit?) hd]

/-- Fixes that fit a text replace the pieces of the applied edits all at once, at their offsets in
the text as it was. The applied edits do not overlap, every other edit overlaps one of them, and if
the edits cover different pieces, neither they nor the result depend on the order of the fixes. -/
theorem applyAll_simultaneous (text : List Char) (fixes : List Fix)
    (h : ∀ f ∈ fixes, f.Fits text.length) :
    applyAll text fixes = Edit.weave text 0 (applied fixes) ∧
      (applied fixes).Pairwise Edit.Precedes ∧
      (applied fixes ++ (plan fixes).2).Perm (fixes.filterMap edit?) ∧
      (∀ e ∈ (plan fixes).2, ∃ f ∈ applied fixes, e.overlaps f = true) ∧
      ((fixes.filterMap edit?).Pairwise Edit.Apart → ∀ others : List Fix, others.Perm fixes →
        applied others = applied fixes ∧ applyAll text others = applyAll text fixes) := by
  refine ⟨applyAll_eq_weave h, pairwise_applied h, applied_perm fixes,
    fun e he ↦ (exists_applied_overlaps he).imp fun _ h ↦ ⟨h.1, h.2.1⟩, fun hd others hp ↦ ?_⟩
  have ha := applied_eq_of_perm hp hd
  refine ⟨ha, ?_⟩
  rw [applyAll_eq_foldr, applyAll_eq_foldr, ha]

/-- Four fixes of a text of ten characters: two that overlap, one that touches them, and one
without offsets. -/
def fourFixes : List Fix :=
  [⟨⟨none, none, none, none, none, some 2, some 6⟩, "x"⟩,
   ⟨⟨none, none, none, none, none, some 4, some 8⟩, "y"⟩,
   ⟨⟨none, some 1, none, none, none, none, none⟩, "z"⟩,
   ⟨⟨none, none, none, none, none, some 0, some 2⟩, "ab"⟩]

/-- Of two fixes that overlap the later one is applied, in whatever order they are listed. -/
theorem applyAll_fourFixes :
    (∀ f ∈ fourFixes, f.Fits "0123456789".toList.length) ∧
      (fourFixes.filterMap edit?).Pairwise Edit.Apart ∧
      applyAll "0123456789".toList fourFixes = "ab23y89".toList ∧
      applyAll "0123456789".toList fourFixes.reverse = "ab23y89".toList := by
  have hfit : ∀ f ∈ fourFixes, f.Fits "0123456789".toList.length := by
    intro f hf e he
    simp only [fourFixes, List.mem_cons, List.not_mem_nil, or_false] at hf
    rcases hf with rfl | rfl | rfl | rfl <;> cases he <;> constructor <;> decide
  have hapart : (fourFixes.filterMap edit?).Pairwise Edit.Apart := by decide
  obtain ⟨hw, _, _, _, hp⟩ := applyAll_simultaneous "0123456789".toList fourFixes hfit
  have hab : applyAll "0123456789".toList fourFixes = "ab23y89".toList := hw.trans (by decide)
  exact ⟨hfit, hapart, hab, (hp hapart _ (List.reverse_perm _)).2.trans hab⟩

end Fix

end GuardLint
