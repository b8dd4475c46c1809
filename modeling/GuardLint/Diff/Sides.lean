import GuardLint.Diff.Alignment

/-!
# The sides of an alignment

An alignment loses nothing and invents nothing: without the lines that are added it is the first
list, and without those that are dropped it is the second. The second rests on the run that is kept
being the same lines in both lists.
-/

namespace GuardLint.Diff

variable {Line : Type}

namespace Shared

/-- A run stands for the same lines in both lists. -/
structure Valid (r : Shared) (old new : List Line) : Prop where
  old_le : r.old + r.size ≤ old.length
  new_le : r.new + r.size ≤ new.length
  same : (old.drop r.old).take r.size = (new.drop r.new).take r.size

/-- Two lists end with the same `n` lines. -/
def EndAlike (n : Nat) (old new : List Line) : Prop :=
  ∃ s : List Line, s.length = n ∧ s <:+ old ∧ s <:+ new

/-- Lines that two lists have in common at two places are a run. -/
theorem EndAlike.valid {n i j : Nat} {old new : List Line} (hi : i < old.length)
    (hj : j < new.length) (h : EndAlike n (old.take (i + 1)) (new.take (j + 1))) :
    Valid ⟨i + 1 - n, j + 1 - n, n⟩ old new := by
  obtain ⟨s, rfl, hs, ht⟩ := h
  have hsl := hs.length_le
  have htl := ht.length_le
  simp only [List.length_take] at hsl htl
  have key : ∀ (k : Nat) (l : List Line), k < l.length → s <:+ l.take (k + 1) →
      s.length ≤ k + 1 → (l.drop (k + 1 - s.length)).take s.length = s := by
    intro k l hk hsuf hle
    have e := List.suffix_iff_eq_drop.1 hsuf
    rw [List.length_take, Nat.min_eq_left (by omega), List.drop_take] at e
    have : k + 1 - (k + 1 - s.length) = s.length := by omega
    rw [this] at e
    exact e.symm
  refine ⟨by simp only; omega, by simp only; omega, ?_⟩
  rw [key i old hi hs (by omega), key j new hj ht (by omega)]

/-- Each size in a row is that of an ending that the lines read so far share with the new list. -/
def RowFits (read new : List Line) (sizes : List Nat) : Prop :=
  ∀ j n, sizes[j]? = some n → EndAlike n read (new.take (j + 1))

/-- The longest of valid runs is valid. -/
theorem valid_longest {old new : List Line} {i : Nat} (hi : i < old.length) (sizes : List Nat) :
    ∀ (best : Shared) (j : Nat), j + sizes.length ≤ new.length → best.Valid old new →
      (∀ k n, sizes[k]? = some n → EndAlike n (old.take (i + 1)) (new.take (j + k + 1))) →
      (longest best i j sizes).Valid old new := by
  induction sizes with
  | nil => exact fun _ _ _ h _ => h
  | cons size sizes ih =>
    intro best j hj hb hsizes
    simp only [List.length_cons] at hj
    refine ih _ (j + 1) (by omega) ?_ ?_
    · split
      · exact EndAlike.valid hi (by omega) (hsizes 0 size rfl)
      · exact hb
    · intro k n hk
      have := hsizes (k + 1) n (by simpa using hk)
      rwa [show j + 1 + k + 1 = j + (k + 1) + 1 by omega]

variable [BEq Line] [LawfulBEq Line]

/-- A row made from one that fits fits as well. -/
theorem rowFits_row (anchor : Line → Bool) (line : Line) {read new : List Line}
    {before : List Nat} (h : RowFits read new before) :
    RowFits (read ++ [line]) new (row anchor line before new) := by
  intro j n hn
  simp only [row, List.getElem?_zipWith] at hn
  split at hn
  · rename_i size other hsize hother
    simp only [Option.some.injEq] at hn
    split at hn
    · rename_i hc
      have hline : line = other := by simp_all
      subst hline hn
      have htake : new.take (j + 1) = new.take j ++ [line] := by
        rw [List.take_add_one, hother]; rfl
      cases j with
      | zero =>
        simp only [List.getElem?_cons_zero, Option.some.injEq] at hsize
        subst hsize
        exact ⟨[line], rfl, List.suffix_append _ _, by rw [htake]; exact List.suffix_append _ _⟩
      | succ j =>
        obtain ⟨s, hs, ho, hnw⟩ := h j size (by simpa using hsize)
        refine ⟨s ++ [line], by simp [hs], ?_, ?_⟩
        · obtain ⟨t, ht⟩ := ho
          exact ⟨t, by rw [← ht, List.append_assoc]⟩
        · obtain ⟨t, ht⟩ := hnw
          exact ⟨t, by rw [htake, ← ht, List.append_assoc]⟩
    · subst hn
      exact ⟨[], rfl, List.nil_suffix, List.nil_suffix⟩
  · simp at hn

/-- A search ends with a valid run. -/
theorem valid_search (anchor : Line → Bool) {all new : List Line} (old : List Line) :
    ∀ (best : Shared) (read : List Line) (before : List Nat), read ++ old = all →
      before.length = new.length → best.Valid all new → RowFits read new before →
      (search anchor new best read.length before old).Valid all new := by
  induction old with
  | nil => exact fun _ _ _ _ _ h _ => h
  | cons line old ih =>
    intro best read before hall hlen hb hfit
    have hrow := rowFits_row anchor line hfit
    have hrl : (row anchor line before new).length = new.length := by
      simp [row, List.length_zipWith]; omega
    have htake : all.take (read.length + 1) = read ++ [line] := by
      subst hall
      rw [show read ++ line :: old = (read ++ [line]) ++ old by simp]
      exact List.take_left' (by simp)
    have hlt : read.length < all.length := by subst hall; simp
    have := ih (longest best read.length 0 (row anchor line before new)) (read ++ [line])
      (row anchor line before new) (by simpa using hall) hrl
      (valid_longest hlt _ best 0 (by omega) hb
        (by intro k n hk; rw [htake, Nat.zero_add]; exact hrow k n hk)) hrow
    simpa [search] using this

/-- What two lists begin with in common is in both. -/
theorem common_le (old new : List Line) :
    common old new ≤ old.length ∧ common old new ≤ new.length ∧
      old.take (common old new) = new.take (common old new) := by
  fun_induction common old new with
  | case1 a old b new h ih => simp_all
  | case2 => simp
  | case3 => simp

/-- Equal lines around a valid run make a longer one. -/
theorem Valid.extend {r : Shared} {old new : List Line} (h : r.Valid old new) :
    (r.extend old new).Valid old new := by
  obtain ⟨ho, hn, hs⟩ := h
  simp only [Shared.extend]
  obtain ⟨f1, f2, f3⟩ := common_le (old.take r.old).reverse (new.take r.new).reverse
  obtain ⟨b1, b2, b3⟩ := common_le (old.drop (r.old + r.size)) (new.drop (r.new + r.size))
  generalize common (old.take r.old).reverse (new.take r.new).reverse = f at *
  generalize common (old.drop (r.old + r.size)) (new.drop (r.new + r.size)) = b at *
  simp only [List.length_reverse, List.length_take, List.length_drop] at f1 f2 b1 b2
  refine ⟨by simp only; omega, by simp only; omega, ?_⟩
  simp only
  have split : ∀ (k : Nat) (l : List Line), f ≤ k → k + r.size ≤ l.length →
      (l.drop (k - f)).take (f + r.size + b) =
        ((l.take k).reverse.take f).reverse ++ (l.drop k).take r.size ++
          (l.drop (k + r.size)).take b := by
    intro k l hf hk
    rw [List.take_add, List.take_add, List.drop_drop, List.drop_drop, List.take_reverse,
      List.reverse_reverse, List.length_take, Nat.min_eq_left (by omega), List.drop_take,
      show k - f + f = k by omega, show k - f + (f + r.size) = k + r.size by omega,
      show k - (k - f) = f by omega]
  rw [split r.old old (by omega) ho, split r.new new (by omega) hn, f3, hs, b3]

/-- The run that is kept stands for the same lines in both lists. -/
theorem valid_best (anchor : Line → Bool) (old new : List Line) :
    (best anchor old new).Valid old new := by
  refine Valid.extend (valid_search anchor old _ [] _ rfl (by simp) ⟨by simp, by simp, by simp⟩ ?_)
  intro j n hn
  simp only [List.getElem?_map, Option.map_eq_some_iff] at hn
  obtain ⟨_, _, rfl⟩ := hn
  exact ⟨[], rfl, List.nil_suffix, List.nil_suffix⟩

end Shared

variable [BEq Line]

/-- The old side of an alignment is the first list. -/
theorem filterMap_old_alignWith (anchor : Line → Bool) (old new : List Line) :
    (alignWith anchor old new).filterMap Change.old? = old := by
  fun_induction alignWith anchor old new with
  | case1 old new _ =>
    have drop : ∀ l : List Line, (l.map Change.drop).filterMap Change.old? = l := by
      intro l; induction l <;> simp_all [Change.old?]
    have add : ∀ l : List Line, (l.map Change.add).filterMap Change.old? = [] := by
      intro l; induction l <;> simp_all [Change.old?]
    simp only [List.filterMap_append, drop, add, List.append_nil]
  | case2 old new r _ _ ih ih' =>
    have keep : ∀ l : List Line, (l.map Change.keep).filterMap Change.old? = l := by
      intro l; induction l <;> simp_all [Change.old?]
    rw [List.filterMap_append, List.filterMap_append, ih, ih', keep, ← List.drop_drop,
      List.append_assoc, List.take_append_drop, List.take_append_drop]
/-- The new side of an alignment is the second list. -/
theorem filterMap_new_alignWith [LawfulBEq Line] (anchor : Line → Bool) (old new : List Line) :
    (alignWith anchor old new).filterMap Change.new? = new := by
  fun_induction alignWith anchor old new with
  | case1 old new _ =>
    have drop : ∀ l : List Line, (l.map Change.drop).filterMap Change.new? = [] := by
      intro l; induction l <;> simp_all [Change.new?]
    have add : ∀ l : List Line, (l.map Change.add).filterMap Change.new? = l := by
      intro l; induction l <;> simp_all [Change.new?]
    simp only [List.filterMap_append, drop, add, List.nil_append]
  | case2 old new r _ hr ih ih' =>
    have keep : ∀ l : List Line, (l.map Change.keep).filterMap Change.new? = l := by
      intro l; induction l <;> simp_all [Change.new?]
    have hv : r.Valid old new := by
      simp only [Shared.best?, Option.dite_none_right_eq_some, Option.some.injEq] at hr
      obtain ⟨_, hr⟩ := hr
      rw [← show Shared.best anchor old new = r from congrArg Subtype.val hr]
      exact Shared.valid_best anchor old new
    rw [List.filterMap_append, List.filterMap_append, ih, ih', keep, hv.same, ← List.drop_drop,
      List.append_assoc, List.take_append_drop, List.take_append_drop]

end GuardLint.Diff
