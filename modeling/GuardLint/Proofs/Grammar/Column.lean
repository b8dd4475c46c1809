import GuardLint.Proofs.Grammar.Saturation

/-!
# Columns

The items of one place of a token list, its column, hold what is under way there: an item is in a
column exactly if its production was begun where some item waits for its head, and the elements
that it has done belong to the tokens since. So a chart is built to its end if and only if every
token can be taken.
-/

namespace GuardLint.Grammar

open Syntax (Kind Token)

variable {γ : Type} {Sem : γ → Type} {g : Grammar Sem}

/-! ### Stretches of tokens -/

/-- The tokens from one place to another. -/
def stretch (tokens : List Token) (i k : Nat) : List Token := (tokens.drop i).take (k - i)

theorem stretch_self (tokens : List Token) (i : Nat) : stretch tokens i i = [] := by
  simp [stretch]

theorem length_stretch {tokens : List Token} {i k : Nat} (hk : k ≤ tokens.length) :
    (stretch tokens i k).length = k - i := by
  rw [stretch, List.length_take, List.length_drop]
  omega

theorem stretch_append {tokens : List Token} {i j k : Nat} (hij : i ≤ j) (hjk : j ≤ k) :
    stretch tokens i j ++ stretch tokens j k = stretch tokens i k := by
  have h : k - i = (j - i) + (k - j) := by omega
  have hj : j = i + (j - i) := by omega
  unfold stretch
  rw [h, List.take_add, List.drop_drop, ← hj]

/-- A stretch cut in two is two stretches. -/
theorem stretch_eq_append {tokens us ws : List Token} {i k : Nat} (hik : i ≤ k)
    (hk : k ≤ tokens.length) (h : stretch tokens i k = us ++ ws) :
    ∃ j, i ≤ j ∧ j ≤ k ∧ us = stretch tokens i j ∧ ws = stretch tokens j k := by
  have hlen := congrArg List.length h
  rw [length_stretch hk, List.length_append] at hlen
  have hj : i + us.length ≤ k := by omega
  refine ⟨i + us.length, Nat.le_add_right _ _, hj, ?_⟩
  rw [← stretch_append (Nat.le_add_right i us.length) hj] at h
  have hl : us.length = (stretch tokens i (i + us.length)).length := by
    rw [length_stretch (by omega)]
    omega
  have := List.append_inj h hl.symm
  exact ⟨this.1.symm, this.2.symm⟩

theorem stretch_succ {tokens : List Token} {i : Nat} {t : Token} (ht : tokens[i]? = some t) :
    stretch tokens i (i + 1) = [t] := by
  obtain ⟨hi, rfl⟩ := List.getElem?_eq_some_iff.mp ht
  unfold stretch
  rw [Nat.add_sub_cancel_left, List.drop_eq_getElem_cons hi]
  rfl

/-- The first token of a stretch stands where it begins. -/
theorem stretch_eq_cons {tokens : List Token} {i k : Nat} (hik : i < k) (hk : k ≤ tokens.length) :
    ∃ t, tokens[i]? = some t ∧ stretch tokens i k = t :: stretch tokens (i + 1) k := by
  have hi : i < tokens.length := Nat.lt_of_lt_of_le hik hk
  refine ⟨tokens[i], List.getElem?_eq_getElem hi, ?_⟩
  rw [← stretch_append (Nat.le_succ i) hik, stretch_succ (List.getElem?_eq_getElem hi)]
  rfl

theorem stretch_all (tokens : List Token) : stretch tokens 0 tokens.length = tokens := by
  simp [stretch]

/-! ### Columns -/

variable [DecidableEq γ]

/-- The items with which a text begins. -/
def startItems (g : Grammar Sem) : List (Item γ) :=
  (g.rules g.start).zipIdx.map fun (_, choice) ↦ ⟨.one g.start, choice, 0, 0⟩

mutual

/-- The chart of the places before one. -/
def columns (g : Grammar Sem) (tokens : List Token) : Nat → Chart γ
  | 0 => #[]
  | n + 1 => (columns g tokens n).push
      (itemsAt g (columns g tokens n) n (tokens[n]?.map Token.kind) (seedsAt g tokens n))

/-- The items that the tokens before a place lead to. -/
def seedsAt (g : Grammar Sem) (tokens : List Token) : Nat → List (Item γ)
  | 0 => startItems g
  | n + 1 =>
    match tokens[n]? with
    | some t => shift g t.kind
        (itemsAt g (columns g tokens n) n (some t.kind) (seedsAt g tokens n))
    | none => []

end

/-- The items of a place. -/
def column (g : Grammar Sem) (tokens : List Token) (n : Nat) : List (Item γ) :=
  itemsAt g (columns g tokens n) n (tokens[n]?.map Token.kind) (seedsAt g tokens n)

theorem size_columns (tokens : List Token) (n : Nat) : (columns g tokens n).size = n := by
  induction n with
  | zero => rw [columns]; rfl
  | succ n ih => rw [columns, Array.size_push, ih]

/-- A chart of the places before one holds their columns. -/
theorem at_columns (tokens : List Token) (n i : Nat) :
    (columns g tokens n).at_ i = if i < n then column g tokens i else [] := by
  induction n with
  | zero => rw [columns]; rfl
  | succ n ih =>
    unfold Chart.at_ at ih ⊢
    rw [columns, Array.getElem?_push, size_columns]
    by_cases hi : i = n
    · subst hi
      rw [if_pos rfl, if_pos (Nat.lt_succ_self i)]
      rfl
    · rw [if_neg hi, ih]
      by_cases hlt : i < n
      · rw [if_pos hlt, if_pos (by omega)]
      · rw [if_neg hlt, if_neg (by omega)]

/-- The chart of a token list is extended by the columns of the tokens that are left, or to the
first token that cannot be taken. -/
private theorem extend_cases {tokens us ts : List Token} (htok : tokens = us ++ ts)
    (hread : ∀ n < us.length, seedsAt g tokens (n + 1) ≠ []) :
    (extend g ts (columns g tokens us.length) (seedsAt g tokens us.length) =
        .ok (columns g tokens (tokens.length + 1)) ∧
      ∀ n < tokens.length, seedsAt g tokens (n + 1) ≠ []) ∨
    ∃ before t after, tokens = before ++ t :: after ∧
      extend g ts (columns g tokens us.length) (seedsAt g tokens us.length) = .error t ∧
      (∀ n < before.length, seedsAt g tokens (n + 1) ≠ []) ∧
      seedsAt g tokens (before.length + 1) = [] := by
  induction ts generalizing us with
  | nil =>
    have hlen : tokens.length = us.length := by rw [htok, List.append_nil]
    have hnone : tokens[us.length]? = none := List.getElem?_eq_none (by omega)
    rw [extend, size_columns, hlen, columns, hnone]
    exact .inl ⟨rfl, hread⟩
  | cons t ts ih =>
    have hsome : tokens[us.length]? = some t := by
      rw [htok, List.getElem?_append_right (Nat.le_refl _), Nat.sub_self]
      rfl
    have hseeds : seedsAt g tokens (us.length + 1) = shift g t.kind
        (itemsAt g (columns g tokens us.length) us.length (some t.kind)
          (seedsAt g tokens us.length)) := by
      rw [seedsAt, hsome]
    rw [extend, size_columns, ← hseeds]
    cases hs : seedsAt g tokens (us.length + 1) with
    | nil => exact .inr ⟨us, t, ts, htok, rfl, hread, hs⟩
    | cons x xs =>
      have hcol : columns g tokens (us.length + 1) = (columns g tokens us.length).push
          (itemsAt g (columns g tokens us.length) us.length (some t.kind)
            (seedsAt g tokens us.length)) := by
        rw [columns, hsome]
        rfl
      have hread' : ∀ n < (us ++ [t]).length, seedsAt g tokens (n + 1) ≠ [] := by
        intro n hn
        rw [List.length_append, List.length_singleton] at hn
        by_cases he : n = us.length
        · rw [he, hs]
          exact List.cons_ne_nil x xs
        · exact hread n (by omega)
      have htok' : tokens = (us ++ [t]) ++ ts := by
        rw [htok, List.append_assoc]
        rfl
      have hrest := ih htok' hread'
      rwa [List.length_append, List.length_singleton, hcol, hs] at hrest

/-- A token list has a chart, or a first token that cannot be taken. -/
theorem chart_cases (g : Grammar Sem) (tokens : List Token) :
    (chart g tokens = .ok (columns g tokens (tokens.length + 1)) ∧
      ∀ n < tokens.length, seedsAt g tokens (n + 1) ≠ []) ∨
    ∃ before t after, tokens = before ++ t :: after ∧ chart g tokens = .error t ∧
      (∀ n < before.length, seedsAt g tokens (n + 1) ≠ []) ∧
      seedsAt g tokens (before.length + 1) = [] := by
  have hread : ∀ n < ([] : List Token).length, seedsAt g tokens (n + 1) ≠ [] :=
    fun n hn ↦ absurd hn (Nat.not_lt_zero n)
  have h := extend_cases (List.nil_append tokens).symm hread
  rwa [List.length_nil, columns, seedsAt] at h

/-- The chart of a token list is there if and only if every token can be taken. -/
theorem chart_eq_ok {tokens : List Token} {c : Chart γ} :
    chart g tokens = .ok c ↔
      c = columns g tokens (tokens.length + 1) ∧ ∀ n < tokens.length, seedsAt g tokens (n + 1) ≠ [] := by
  rcases chart_cases g tokens with ⟨hok, hseeds⟩ | ⟨before, t, after, htok, herror, -, hnil⟩
  · rw [hok, Except.ok.injEq]
    exact ⟨fun h ↦ ⟨h.symm, hseeds⟩, fun h ↦ h.1.symm⟩
  · have hlt : before.length < tokens.length := by simp [htok]
    rw [herror]
    exact ⟨nofun, fun h ↦ absurd hnil (h.2 before.length hlt)⟩

/-! ### What a place depends on -/

/-- The items that tokens lead to depend on these tokens alone. -/
theorem seedsAt_congr {tokens tokens' : List Token} {n : Nat}
    (h : ∀ i < n, tokens[i]? = tokens'[i]?) :
    columns g tokens n = columns g tokens' n ∧ seedsAt g tokens n = seedsAt g tokens' n := by
  induction n with
  | zero => exact ⟨by rw [columns, columns], by rw [seedsAt, seedsAt]⟩
  | succ n ih =>
    obtain ⟨hcolumns, hseeds⟩ := ih fun i hi ↦ h i (Nat.lt_succ_of_lt hi)
    have hn := h n (Nat.lt_succ_self n)
    exact ⟨by rw [columns, columns, hcolumns, hseeds, hn],
      by rw [seedsAt, seedsAt, hcolumns, hseeds, hn]⟩

end GuardLint.Grammar
