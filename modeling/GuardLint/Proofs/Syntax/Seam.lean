import Mathlib.Data.List.Chain
import GuardLint.Proofs.Syntax.Numeral

/-!
# Seams

Which lexeme a text begins with does not depend on what stands far behind it. So the text after some
lexemes may be exchanged for another one if this begins with a character that none of them could
take: a blank, a parenthesis, a semicolon or the letter `i`.
-/

namespace GuardLint.Syntax

namespace Lexer

variable {a v w : List Char} {n : Nat}

/-! ### Comments, names and literals -/

private theorem blockEnd_cons (c : Char) (text : List Char) : blockEnd (c :: text) =
    if c = '*' ∧ text.head? = some '/' then some 2 else (blockEnd text).map (· + 1) := by
  split
  · next h =>
    obtain ⟨rfl, htext⟩ := h
    obtain ⟨rest, rfl⟩ := List.head?_eq_some_iff.mp htext
    rfl
  · next h =>
    rw [blockEnd]
    rintro rest rfl rfl
    exact h ⟨rfl, rfl⟩

private theorem blockEnd_pos {text : List Char} (h : blockEnd text = some n) : 0 < n := by
  cases text with
  | nil => cases h
  | cons c text =>
    rw [blockEnd_cons] at h
    split at h
    · cases h
      exact Nat.zero_lt_two
    · obtain ⟨m, -, rfl⟩ := Option.map_eq_some_iff.mp h
      exact Nat.succ_pos m

private theorem blockEnd_append (h : blockEnd (a ++ v) = some n) (hn : n ≤ a.length) :
    blockEnd (a ++ w) = some n := by
  induction a generalizing n with
  | nil =>
    have := blockEnd_pos h
    rw [List.length_nil] at hn
    omega
  | cons c a ih =>
    rw [List.cons_append, blockEnd_cons] at h ⊢
    rw [List.length_cons] at hn
    cases a with
    | nil =>
      split at h
      · cases h
        rw [List.length_nil] at hn
        omega
      · obtain ⟨m, hm, rfl⟩ := Option.map_eq_some_iff.mp h
        have := blockEnd_pos hm
        rw [List.length_nil] at hn
        omega
    | cons d a =>
      rw [List.cons_append, List.head?_cons] at h ⊢
      split at h
      · next hc => rw [if_pos hc, h]
      · next hc =>
        obtain ⟨m, hm, rfl⟩ := Option.map_eq_some_iff.mp h
        rw [if_neg hc, ← List.cons_append, ih hm (by omega), Option.map_some]

private theorem comment_cases {text : List Char} (h : comment text = some n) :
    (∃ rest, text = '/' :: '/' :: rest ∧ n = 2 + run (· != '\n') rest) ∨
      ∃ rest m, text = '/' :: '*' :: rest ∧ blockEnd rest = some m ∧ n = m + 2 := by
  unfold comment at h
  split at h
  · cases h
    exact .inl ⟨_, rfl, rfl⟩
  · obtain ⟨m, hm, rfl⟩ := Option.map_eq_some_iff.mp h
    exact .inr ⟨_, m, rfl, hm, rfl⟩
  · cases h

/-- The first two characters of a text that is cut behind them. -/
private theorem append_eq_two {c d : Char} {rest : List Char} (h : a ++ v = c :: d :: rest)
    (ha : 2 ≤ a.length) : ∃ b, a = c :: d :: b ∧ rest = b ++ v := by
  obtain ⟨x, a, rfl⟩ := List.exists_cons_of_length_pos (Nat.lt_of_lt_of_le Nat.zero_lt_two ha)
  rw [List.length_cons] at ha
  obtain ⟨y, a, rfl⟩ := List.exists_cons_of_length_pos (Nat.le_of_succ_le_succ ha)
  obtain ⟨rfl, htail⟩ := List.cons.inj h
  obtain ⟨rfl, hrest⟩ := List.cons.inj htail
  exact ⟨a, rfl, hrest.symm⟩

private theorem comment_append (h : comment (a ++ v) = some n) (hn : n ≤ a.length)
    (hend : n = a.length → ∀ text, a ≠ '/' :: '/' :: text) : comment (a ++ w) = some n := by
  rcases comment_cases h with ⟨rest, heq, rfl⟩ | ⟨rest, m, heq, hm, rfl⟩
  · obtain ⟨b, rfl, rfl⟩ := append_eq_two heq (by omega)
    simp only [List.length_cons] at hn hend
    have hne : 2 + run (· != '\n') (b ++ v) ≠ b.length + 1 + 1 := fun hn ↦ hend hn b rfl
    have hrun : run (· != '\n') (b ++ w) = run (· != '\n') (b ++ v) :=
      run_append (by omega) fun h ↦ absurd h (by omega)
    rw [← hrun]
    rfl
  · obtain ⟨b, rfl, rfl⟩ := append_eq_two heq (by omega)
    simp only [List.length_cons] at hn
    exact congrArg (Option.map (· + 2)) (blockEnd_append (w := w) hm (by omega))

private theorem comment_none (ha : a ≠ []) (hw : Quiet w) (h : comment (a ++ v) = none)
    (hopen : ∀ text, a ≠ '/' :: '*' :: text) : comment (a ++ w) = none := by
  cases hc : comment (a ++ w) with
  | none => rfl
  | some n =>
    obtain ⟨x, a, rfl⟩ := List.exists_cons_of_ne_nil ha
    cases a with
    | nil =>
      -- A mark of a comment does not begin with the character at the seam.
      rcases comment_cases hc with ⟨rest, heq, -⟩ | ⟨rest, m, heq, -⟩
      · obtain ⟨-, rfl⟩ := List.cons.inj heq
        exact absurd (hw '/' rfl) (by decide)
      · obtain ⟨-, rfl⟩ := List.cons.inj heq
        exact absurd (hw '*' rfl) (by decide)
    | cons y a =>
      rcases comment_cases hc with ⟨rest, heq, -⟩ | ⟨rest, m, heq, -⟩
      · obtain ⟨b, hb, -⟩ := append_eq_two heq (by simp)
        rw [hb] at h
        cases h
      · obtain ⟨b, hb, -⟩ := append_eq_two heq (by simp)
        exact absurd hb (hopen b)

private theorem comment_none_left (h : comment (a ++ v) = none) : comment a = none := by
  cases hc : comment a with
  | none => rfl
  | some n =>
    have hle := (bounded_comment a n hc).2
    rcases comment_cases hc with ⟨rest, rfl, -⟩ | ⟨rest, m, rfl, hm, rfl⟩
    · cases h
    · simp only [List.length_cons] at hle
      have hend : blockEnd (rest ++ v) = some m :=
        blockEnd_append (v := []) (by rwa [List.append_nil]) (by omega)
      rw [List.cons_append, List.cons_append, comment, hend] at h
      cases h

private theorem name_append (h : name (a ++ v) = some n) (hn : n ≤ a.length)
    (hend : n = a.length → run isNamePart w = 0) : name (a ++ w) = some n := by
  have hpos := (bounded_name _ n h).1
  obtain ⟨c, a, rfl⟩ := List.exists_cons_of_length_pos (Nat.lt_of_lt_of_le hpos hn)
  rw [List.cons_append, name] at h ⊢
  rw [List.length_cons] at hn hend
  split at h
  · next hc =>
    cases h
    have hrun : run isNamePart (a ++ w) = run isNamePart (a ++ v) :=
      run_append (by omega) fun h ↦ hend (by omega)
    rw [if_pos hc, hrun]
  · cases h

private theorem name_none (ha : a ≠ []) (h : name (a ++ v) = none) : name (a ++ w) = none := by
  obtain ⟨c, a, rfl⟩ := List.exists_cons_of_ne_nil ha
  rw [List.cons_append, name] at h ⊢
  split at h
  · cases h
  · next hc => rw [if_neg hc]

private theorem closing_pos {quote : Char} {text : List Char} (h : closing quote text = some n) :
    0 < n := by
  fun_induction closing quote text generalizing n with
  | case1 | case2 | case3 | case6 => cases h
  | case4 c text _ ih =>
    obtain ⟨m, -, rfl⟩ := Option.map_eq_some_iff.mp h
    omega
  | case5 text =>
    cases h
    exact Nat.zero_lt_one
  | case7 c text _ _ _ _ ih =>
    obtain ⟨m, -, rfl⟩ := Option.map_eq_some_iff.mp h
    omega

private theorem closing_append {quote : Char} (h : closing quote (a ++ v) = some n)
    (hn : n ≤ a.length) : closing quote (a ++ w) = some n := by
  have hpos := closing_pos h
  induction hlen : a.length using Nat.strongRecOn generalizing a n with
  | ind length ih =>
    obtain ⟨c, b, rfl⟩ := List.exists_cons_of_length_pos (Nat.lt_of_lt_of_le hpos hn)
    rw [List.length_cons] at hn hlen
    by_cases hesc : c = '\\'
    · subst hesc
      cases b with
      | nil =>
        cases v with
        | nil => cases h
        | cons d v =>
          rw [List.cons_append, List.nil_append, closing] at h
          split at h
          · cases h
          · obtain ⟨m, -, rfl⟩ := Option.map_eq_some_iff.mp h
            rw [List.length_nil] at hn
            omega
      | cons d b =>
        rw [List.cons_append, List.cons_append, closing] at h ⊢
        rw [List.length_cons] at hn hlen
        split at h
        · cases h
        · next hd =>
          obtain ⟨m, hm, rfl⟩ := Option.map_eq_some_iff.mp h
          rw [if_neg hd, ih b.length (by omega) hm (by omega) (closing_pos hm) rfl, Option.map_some]
    · have hcons : ∀ text, closing quote (c :: text) =
          if c = quote then some 1
          else if c = '\n' then none else (closing quote text).map (· + 1) := by
        intro text
        rw [closing]
        · exact fun h _ ↦ hesc h
        · exact fun _ _ h _ ↦ hesc h
      rw [List.cons_append, hcons] at h ⊢
      split at h
      · next hq => rw [if_pos hq, h]
      · next hq =>
        split at h
        · cases h
        · next hl =>
          obtain ⟨m, hm, rfl⟩ := Option.map_eq_some_iff.mp h
          rw [if_neg hq, if_neg hl,
            ih b.length (by omega) hm (by omega) (closing_pos hm) rfl, Option.map_some]

private theorem char_append (h : char (a ++ v) = some n) (hn : n ≤ a.length) :
    char (a ++ w) = some n := by
  have hpos := (bounded_char _ n h).1
  obtain ⟨c, b, rfl⟩ := List.exists_cons_of_length_pos (Nat.lt_of_lt_of_le hpos hn)
  rw [List.cons_append] at h ⊢
  rw [List.length_cons] at hn
  by_cases hc : c = '\''
  · subst hc
    rw [char] at h ⊢
    obtain ⟨m, hm, heq⟩ := Option.bind_eq_some_iff.mp h
    have hle : m ≤ b.length := by
      split at heq
      · cases heq
      · cases heq
        omega
    rw [closing_append hm hle, Option.bind_some, heq]
  · rw [char] at h
    · cases h
    · exact fun _ h ↦ hc (List.cons.inj h).1

private theorem string_append (h : string (a ++ v) = some n) (hn : n ≤ a.length) :
    string (a ++ w) = some n := by
  have hpos := (bounded_string _ n h).1
  obtain ⟨c, b, rfl⟩ := List.exists_cons_of_length_pos (Nat.lt_of_lt_of_le hpos hn)
  rw [List.cons_append] at h ⊢
  rw [List.length_cons] at hn
  by_cases hc : c = '"'
  · subst hc
    rw [string] at h ⊢
    obtain ⟨m, hm, rfl⟩ := Option.map_eq_some_iff.mp h
    rw [closing_append hm (by omega), Option.map_some]
  · rw [string] at h
    · cases h
    · exact fun _ h ↦ hc (List.cons.inj h).1

/-! ### Blanks and marks -/

private theorem blank_append (h : blank (a ++ v) = some n) (hn : n ≤ a.length)
    (hend : n = a.length → run Text.isBlank w = 0) : blank (a ++ w) = some n := by
  simp only [blank] at h ⊢
  split at h
  · cases h
  · next h0 =>
    cases h
    rw [run_append hn hend, if_neg h0]

private theorem blank_none (ha : a ≠ []) (h : blank (a ++ v) = none) : blank (a ++ w) = none := by
  obtain ⟨c, a, rfl⟩ := List.exists_cons_of_ne_nil ha
  simp only [blank] at h ⊢
  split at h
  · next h0 =>
    have hrun : run Text.isBlank (c :: a ++ w) = run Text.isBlank (c :: a ++ v) :=
      run_append (by omega) fun h ↦ by rw [h0, List.length_cons] at h; cases h
    rw [hrun, if_pos h0]
  · cases h

/-- No mark goes on with a character that a seam has. -/
private theorem mark_seams {m : Mark} (hm : m ∈ Mark.all) {d : Char}
    (hd : d ∈ m.text.toList.tail) : d ∉ seams := by
  have h : (Mark.all.any fun m ↦ m.text.toList.tail.any seams.contains) = false := by decide
  simpa using List.any_eq_false.mp (Bool.eq_false_iff.mpr (List.any_eq_false.mp h m hm)) d hd

private theorem mark_prefix {m : Mark} (hm : m ∈ Mark.all) (ha : a ≠ []) (hw : Quiet w)
    (h : m.text.toList <+: a ++ w) : m.text.toList <+: a := by
  obtain ⟨rest, h⟩ := h
  rcases List.append_eq_append_iff.mp h with ⟨xs, rfl, -⟩ | ⟨xs, hxs, rfl⟩
  · exact List.prefix_append _ _
  · cases xs with
    | nil =>
      exact List.append_nil a ▸ hxs ▸ List.prefix_refl _
    | cons d xs =>
      -- The mark would take the character at the seam.
      obtain ⟨c, b, rfl⟩ := List.exists_cons_of_ne_nil ha
      refine absurd (hw d rfl) (mark_seams hm ?_)
      rw [hxs, List.cons_append, List.tail_cons]
      exact List.mem_append_right b List.mem_cons_self

private theorem mark?_append {m : Mark} (ha : a ≠ []) (hw : Quiet w)
    (h : mark? (a ++ v) = some m) (hn : m.text.length ≤ a.length) : mark? (a ++ w) = some m := by
  obtain ⟨hm, front, back, hall, hfront⟩ := List.find?_eq_some_iff_append.mp h
  have hpre : m.text.toList <+: a :=
    List.prefix_of_prefix_length_le (List.isPrefixOf_iff_prefix.mp hm) (List.prefix_append a v)
      (by rwa [String.length_toList])
  refine List.find?_eq_some_iff_append.mpr ⟨?_, front, back, hall, fun x hx ↦ ?_⟩
  · exact List.isPrefixOf_iff_prefix.mpr (hpre.trans (List.prefix_append a w))
  · cases hp : x.text.toList.isPrefixOf (a ++ w) with
    | false => rfl
    | true =>
      have hmem : x ∈ Mark.all := by
        rw [hall]
        exact List.mem_append_left _ hx
      have hxa := mark_prefix hmem ha hw (List.isPrefixOf_iff_prefix.mp hp)
      have hxv := hfront x hx
      rw [List.isPrefixOf_iff_prefix.mpr (hxa.trans (List.prefix_append a v))] at hxv
      cases hxv

/-! ### Lexemes -/

/-- A lexeme that a text ends with ends there also if another text follows. -/
def Seals (kind : Lexeme.Class) (piece w : List Char) : Prop :=
  match kind with
  | .blank => run Text.isBlank w = 0
  | .comment => ∀ text, piece ≠ '/' :: '/' :: text
  | .token .name | .token (.word _) => run isNamePart w = 0
  | .token _ => True

private theorem char_of_ne {c : Char} (hc : c ≠ '\'') (text : List Char) :
    char (c :: text) = none := by
  rw [char]
  exact fun _ h ↦ hc (List.cons.inj h).1

private theorem string_of_ne {c : Char} (hc : c ≠ '"') (text : List Char) :
    string (c :: text) = none := by
  rw [string]
  exact fun _ h ↦ hc (List.cons.inj h).1

private theorem seals_name {text : List Char} (h : Seals (.token (wordKind text)) a w) :
    run isNamePart w = 0 := by
  unfold wordKind at h
  split at h <;> exact h

private theorem blank_head {text : List Char} (h : blank text = some n) :
    ∃ c, text.head? = some c ∧ Text.isBlank c = true := by
  cases text with
  | nil => cases h
  | cons c text =>
    cases hc : Text.isBlank c with
    | true => exact ⟨c, rfl, hc⟩
    | false => simp [blank, run, hc] at h

private theorem mark_heads : ∀ m ∈ Mark.all,
    m.text.toList.head? ≠ none ∧ m.text.toList.head? ≠ some '\'' ∧
      m.text.toList.head? ≠ some '"' := by
  decide

private theorem mark_of_mark? {text : List Char} {m : Mark} (h : mark? text = some m) :
    m ∈ Mark.all ∧ m.text.toList <+: text := by
  have hm := List.find?_some (p := fun m : Mark ↦ m.text.toList.isPrefixOf text) h
  exact ⟨List.mem_of_find?_eq_some h, List.isPrefixOf_iff_prefix.mp hm⟩

private theorem mark_head {text : List Char} {m : Mark} (h : mark? text = some m) :
    ∃ c, text.head? = some c ∧ c ≠ '\'' ∧ c ≠ '"' := by
  obtain ⟨hmem, rest, rfl⟩ := mark_of_mark? h
  obtain ⟨hne, hchar, hstring⟩ := mark_heads m hmem
  obtain ⟨c, hc⟩ := Option.ne_none_iff_exists'.mp hne
  rw [hc] at hchar hstring
  exact ⟨c, by rw [List.head?_append, hc, Option.some_or], fun h ↦ hchar (congrArg some h),
    fun h ↦ hstring (congrArg some h)⟩

private theorem ne_nil_of_first? {kind : Lexeme.Class} (h : first? (a ++ v) = some (kind, n))
    (hn : n ≤ a.length) : a ≠ [] := by
  rintro rfl
  have := (first?_bounds h).1
  rw [List.length_nil] at hn
  omega

/-- What follows some characters may be exchanged if no comment begins there that did not before. -/
private theorem first?_exchange {kind : Lexeme.Class} (h : first? (a ++ v) = some (kind, n))
    (hn : n ≤ a.length) (hw : Quiet w) (hend : n = a.length → Seals kind a w)
    (hcomment : kind ≠ .comment → comment (a ++ v) = none → comment (a ++ w) = none) :
    first? (a ++ w) = some (kind, n) := by
  have ha : a ≠ [] := ne_nil_of_first? h hn
  have hchar : ∀ x, (a ++ v).head? = some x → x ≠ '\'' → char (a ++ w) = none := by
    intro x hx hne
    obtain ⟨c, b, rfl⟩ := List.exists_cons_of_ne_nil ha
    obtain rfl := Option.some.inj hx
    exact char_of_ne hne _
  have hstring : ∀ x, (a ++ v).head? = some x → x ≠ '"' → string (a ++ w) = none := by
    intro x hx hne
    obtain ⟨c, b, rfl⟩ := List.exists_cons_of_ne_nil ha
    obtain rfl := Option.some.inj hx
    exact string_of_ne hne _
  rw [first?_eq_some] at h ⊢
  rcases h with ⟨h, rfl⟩ | ⟨h₁, h, rfl⟩ | ⟨h₁, h₂, h, rfl⟩ | ⟨h₁, h₂, h₃, h, rfl⟩ |
    ⟨h₁, h₂, h₃, h₄, h, rfl⟩ | ⟨h₁, h₂, h₃, h₄, h₅, h, rfl⟩ | ⟨h₁, h₂, h₃, h₄, h₅, h₆, m, h, rfl, rfl⟩
  · exact .inl ⟨number_append hw h hn, rfl⟩
  all_goals have h₁' := number_none_append ha hw h₁
  · exact .inr (.inl ⟨h₁', comment_append h hn hend, rfl⟩)
  all_goals have h₂' := hcomment (by simp) h₂
  · refine .inr (.inr (.inl ⟨h₁', h₂', name_append h hn fun he ↦ seals_name (hend he), ?_⟩))
    rw [List.take_append_of_le_length hn, List.take_append_of_le_length hn]
  all_goals have h₃' := name_none (w := w) ha h₃
  · exact .inr (.inr (.inr (.inl ⟨h₁', h₂', h₃', char_append h hn, rfl⟩)))
  · obtain ⟨text, htext⟩ : ∃ text, a ++ v = '"' :: text := by
      unfold string at h
      split at h
      · exact ⟨_, by assumption⟩
      · cases h
    have h₄' := hchar '"' (by rw [htext]; rfl) (by decide)
    exact .inr (.inr (.inr (.inr (.inl ⟨h₁', h₂', h₃', h₄', string_append h hn, rfl⟩))))
  · obtain ⟨c, hc, hb⟩ := blank_head h
    have h₄' := hchar c hc (by rintro rfl; exact absurd hb (by decide))
    have h₅' := hstring c hc (by rintro rfl; exact absurd hb (by decide))
    exact .inr (.inr (.inr (.inr (.inr (.inl
      ⟨h₁', h₂', h₃', h₄', h₅', blank_append h hn hend, rfl⟩)))))
  · obtain ⟨c, hc, hne, hne'⟩ := mark_head h
    exact .inr (.inr (.inr (.inr (.inr (.inr ⟨h₁', h₂', h₃', hchar c hc hne, hstring c hc hne',
      blank_none ha h₆, m, mark?_append ha hw h hn, rfl, rfl⟩)))))

/-- The lexeme that a text begins with is the same if what follows some characters is exchanged,
unless it is these characters and would go on, or a comment would begin there. -/
theorem first?_append {kind : Lexeme.Class} (h : first? (a ++ v) = some (kind, n))
    (hn : n ≤ a.length) (hw : Quiet w) (hend : n = a.length → Seals kind a w)
    (hopen : kind ≠ .comment → ∀ text, a ≠ '/' :: '*' :: text) :
    first? (a ++ w) = some (kind, n) :=
  first?_exchange h hn hw hend fun hk hnone ↦
    comment_none (ne_nil_of_first? h hn) hw hnone (hopen hk)

/-- The lexeme that a text begins with is the same if the text is cut off behind it. -/
theorem first?_left {kind : Lexeme.Class} (h : first? (a ++ v) = some (kind, n))
    (hn : n ≤ a.length) (hend : n = a.length → Seals kind a []) : first? a = some (kind, n) := by
  have := first?_exchange (w := []) h hn (fun c hc ↦ by cases hc) hend fun _ hnone ↦ by
    rw [List.append_nil]
    exact comment_none_left hnone
  rwa [List.append_nil] at this

/-! ### Blanks before tokens -/

private theorem digit_not_blank : ∀ first ∈ Text.zeros, ∀ k < 10,
    Text.isBlank (Char.ofNat (first + k)) = false := by
  decide

private theorem isBlank_of_isDecimal {c : Char} (h : Text.isDecimal c = true) :
    Text.isBlank c = false := by
  have hdigit : ∃ first ∈ Text.zeros, ∃ k < 10, c.toNat = first + k := by
    unfold Text.isDecimal at h
    split at h
    · simp only [Char.isDigit, Bool.and_eq_true, decide_eq_true_eq] at h
      have hlow : 48 ≤ c.toNat := h.1
      have hhigh : c.toNat ≤ 57 := h.2
      exact ⟨48, by decide, c.toNat - 48, by omega, by omega⟩
    · obtain ⟨first, hfirst, hc⟩ := List.any_eq_true.mp h
      simp only [Bool.and_eq_true, decide_eq_true_eq] at hc
      exact ⟨first, hfirst, c.toNat - first, by omega, by omega⟩
  obtain ⟨first, hfirst, k, hk, hc⟩ := hdigit
  have := digit_not_blank first hfirst k hk
  rwa [← hc, Char.ofNat_toNat] at this

private theorem isBlank_of_isNameStart {c : Char} (h : isNameStart c = true) :
    Text.isBlank c = false := by
  simp only [isNameStart, Bool.or_eq_true, beq_iff_eq] at h
  rcases h with (h | rfl) | rfl
  · have hrange : 65 ≤ c.toNat ∧ c.toNat ≤ 122 := by
      rcases Bool.or_eq_true_iff.mp h with h | h
      · obtain ⟨hlow, hhigh⟩ : 65 ≤ c.toNat ∧ c.toNat ≤ 90 := of_decide_eq_true h
        omega
      · obtain ⟨hlow, hhigh⟩ := Bool.and_eq_true_iff.mp h
        have hlow : 97 ≤ c.toNat := of_decide_eq_true hlow
        have hhigh : c.toNat ≤ 122 := of_decide_eq_true hhigh
        omega
    have hsmall : c.toNat < 128 := by omega
    simp only [Text.isBlank, if_pos hsmall, Bool.or_eq_false_iff, Bool.and_eq_false_iff,
      decide_eq_false_iff_not]
    omega
  · decide
  · decide

/-- No token begins with a blank. -/
theorem isBlank_of_token {c : Char} {text : List Char} {kind : Kind}
    (h : first? (c :: text) = some (.token kind, n)) : Text.isBlank c = false := by
  by_contra hblank
  rw [Bool.not_eq_false] at hblank
  have hne : ∀ d, Text.isBlank d = false → c ≠ d := by
    rintro d hd rfl
    rw [hd] at hblank
    cases hblank
  rcases first?_eq_some.mp h with ⟨h, -⟩ | ⟨-, -, h⟩ | ⟨-, -, h, -⟩ | ⟨-, -, -, h, -⟩ |
    ⟨-, -, -, -, h, -⟩ | ⟨-, -, -, -, -, -, h⟩ | ⟨-, -, -, -, -, h, -⟩
  · have hdigit : Text.isDecimal c = false := Bool.eq_false_iff.mpr fun hd ↦ by
      rw [isBlank_of_isDecimal hd] at hblank
      cases hblank
    rw [number_of_ne (hne '0' (by decide)) (hne '.' (by decide)) hdigit] at h
    cases h
  · cases h
  · rw [name] at h
    split at h
    · next hc =>
      rw [isBlank_of_isNameStart hc] at hblank
      cases hblank
    · cases h
  · rw [char_of_ne (hne '\'' (by decide))] at h
    cases h
  · rw [string_of_ne (hne '"' (by decide))] at h
    cases h
  · cases h
  · simp [blank, run, hblank] at h

/-! ### Comments that do not begin -/

private theorem first?_mark {c : Char} {text : List Char} {kind : Lexeme.Class}
    (hc : c = '/' ∨ c = '*') (h : first? (c :: text) = some (kind, n)) (hk : kind ≠ .comment) :
    ∃ m, mark? (c :: text) = some m ∧ kind = .token (.mark m) ∧ n = m.text.length := by
  have hnumber : number (c :: text) = none := by
    rcases hc with rfl | rfl <;> exact number_of_ne (by decide) (by decide) (by decide) text
  have hname : name (c :: text) = none := by
    rcases hc with rfl | rfl <;> rfl
  have hchar : char (c :: text) = none := by
    rcases hc with rfl | rfl <;> exact char_of_ne (by decide) text
  have hstring : string (c :: text) = none := by
    rcases hc with rfl | rfl <;> exact string_of_ne (by decide) text
  have hblank : blank (c :: text) = none := by
    rcases hc with rfl | rfl <;> rfl
  rw [first?_eq_some, hnumber, hname, hchar, hstring, hblank] at h
  rcases h with ⟨h, -⟩ | ⟨-, -, rfl⟩ | ⟨-, -, h, -⟩ | ⟨-, -, -, h, -⟩ | ⟨-, -, -, -, h, -⟩ |
    ⟨-, -, -, -, -, h, -⟩ | ⟨-, -, -, -, -, -, h⟩
  · cases h
  · exact absurd rfl hk
  · cases h
  · cases h
  · cases h
  · cases h
  · exact h

private theorem mark_star : ∀ m ∈ Mark.all, m.text.toList.head? = some '*' →
    m = .star ∨ m = .timesAssign := by
  decide

private theorem mark_slash : ∀ m ∈ Mark.all, m.text.toList.head? = some '/' →
    m = .slash ∨ m.text.toList = ['/', '='] := by
  decide

private theorem head_of_start {c : Char} {text piece : List Char} (h : piece <+: c :: text)
    (hne : piece ≠ []) : piece.head? = some c := by
  obtain ⟨d, piece, rfl⟩ := List.exists_cons_of_ne_nil hne
  rw [(List.cons_prefix_cons.mp h).1, List.head?_cons]

private theorem mark_ne_nil : ∀ m ∈ Mark.all, m.text.toList ≠ [] := by decide

/-- A lexeme that begins with a star is the mark, alone or with the sign of an assignment. -/
private theorem first?_star {text : List Char} {kind : Lexeme.Class}
    (h : first? ('*' :: text) = some (kind, n)) :
    kind = .token (.mark .star) ∨ kind = .token (.mark .timesAssign) := by
  have hk : kind ≠ .comment := by
    rintro rfl
    rw [first?_eq_some] at h
    simp [comment] at h
  obtain ⟨m, hm, rfl, -⟩ := first?_mark (.inr rfl) h hk
  obtain ⟨hmem, hpre⟩ := mark_of_mark? hm
  rcases mark_star m hmem (head_of_start hpre (mark_ne_nil m hmem)) with rfl | rfl
  · exact .inl rfl
  · exact .inr rfl

/-- A lexeme where a comment could begin, but does not, is a slash. -/
private theorem first?_opener {text : List Char} {kind : Lexeme.Class}
    (h : first? ('/' :: '*' :: text) = some (kind, n)) (hk : kind ≠ .comment) :
    kind = .token (.mark .slash) ∧ n = 1 := by
  obtain ⟨m, hm, rfl, rfl⟩ := first?_mark (.inl rfl) h hk
  obtain ⟨hmem, hpre⟩ := mark_of_mark? hm
  rcases mark_slash m hmem (head_of_start hpre (mark_ne_nil m hmem)) with rfl | htext
  · exact ⟨rfl, rfl⟩
  · rw [htext] at hpre
    have := (List.cons_prefix_cons.mp (List.cons_prefix_cons.mp hpre).2).1
    exact absurd this (by decide)

end Lexer

/-! ### Spelling -/

/-- The text of some pieces. -/
def spelling (pieces : List (Lexeme.Class × List Char)) : List Char := pieces.flatMap Prod.snd

@[simp] theorem spelling_nil : spelling [] = [] := rfl

@[simp] theorem spelling_cons (kind : Lexeme.Class) (piece : List Char)
    (ps : List (Lexeme.Class × List Char)) :
    spelling ((kind, piece) :: ps) = piece ++ spelling ps := rfl

@[simp] theorem spelling_append (ps qs : List (Lexeme.Class × List Char)) :
    spelling (ps ++ qs) = spelling ps ++ spelling qs := List.flatMap_append

variable {ps qs rs : List (Lexeme.Class × List Char)} {text w : List Char}

theorem Spelled.text_eq (h : Spelled ps text) : text = spelling ps := by
  induction h with
  | nil => rfl
  | cons _ _ ih => rw [ih, spelling_cons]

/-- The first piece of a text is its first lexeme. -/
theorem Spelled.cons_inv {kind : Lexeme.Class} {piece : List Char}
    (h : Spelled ((kind, piece) :: ps) text) :
    Lexer.first? (piece ++ spelling ps) = some (kind, piece.length) ∧ Spelled ps (spelling ps) := by
  cases h with
  | cons hfirst h =>
    obtain rfl := h.text_eq
    exact ⟨hfirst, h⟩

/-- A slash before a star: together they would begin a comment. -/
def Kind.Opens (k l : Kind) : Prop :=
  k = .mark .slash ∧ (l = .mark .star ∨ l = .mark .timesAssign)

/-- No slash is followed at once by a star. -/
def Unopened (ps : List (Lexeme.Class × List Char)) : Prop :=
  ps.IsChain fun p q ↦ ∀ k l, p.1 = .token k → q.1 = .token l → ¬ k.Opens l

/-- A piece that is all of the text before a cut is the last before it. -/
private theorem seals_of_last {kind : Lexeme.Class} {piece : List Char} (h : Spelled (ps ++ qs) text)
    (hend : ((kind, piece) :: ps).getLast? = some (kind, piece) → Lexer.Seals kind piece w)
    (hn : piece.length = (piece ++ spelling ps).length) :
    Lexer.Seals kind (piece ++ spelling ps) w := by
  have hnil : spelling ps = [] := by
    rw [List.length_append] at hn
    exact List.length_eq_zero_iff.mp (by omega)
  cases ps with
  | nil =>
    rw [spelling_nil, List.append_nil]
    exact hend rfl
  | cons q ps =>
    obtain ⟨kind', piece'⟩ := q
    rw [spelling_cons] at hnil
    obtain ⟨rfl, -⟩ := List.append_eq_nil_iff.mp hnil
    have := (Lexer.first?_bounds h.cons_inv.1).1
    cases this

private theorem getLast?_cons_of_some {p q : Lexeme.Class × List Char}
    (h : ps.getLast? = some q) : (p :: ps).getLast? = some q := by
  rw [List.getLast?_cons, h]
  rfl

/-- The text after some pieces may be exchanged. -/
theorem Spelled.seam (h : Spelled (ps ++ qs) text) (hr : Spelled rs w) (hw : Lexer.Quiet w)
    (hend : ∀ kind piece, ps.getLast? = some (kind, piece) → Lexer.Seals kind piece w)
    (hopen : Unopened ps) : Spelled (ps ++ rs) (spelling ps ++ w) := by
  induction ps generalizing text with
  | nil => exact hr
  | cons p ps ih =>
    obtain ⟨kind, piece⟩ := p
    rw [List.cons_append] at h
    obtain ⟨hfirst, hrest⟩ := h.cons_inv
    have hrest' : Spelled (ps ++ rs) (spelling ps ++ w) := by
      exact ih hrest (fun k x hx ↦ hend k x (getLast?_cons_of_some hx)) hopen.of_cons
    rw [spelling_append, ← List.append_assoc] at hfirst
    have hpos : 0 < piece.length := (Lexer.first?_bounds hfirst).1
    have hsame := Lexer.first?_append (w := w) hfirst (by simp) hw (fun hn ↦ ?_) fun hk text ha ↦ ?_
    · rw [List.append_assoc] at hsame
      rw [spelling_cons, List.append_assoc, List.cons_append]
      exact .cons hsame hrest'
    · exact seals_of_last hrest (hend kind piece) hn
    · -- A star would follow the slash.
      cases piece with
      | nil => cases hpos
      | cons c piece =>
        obtain ⟨rfl, htail⟩ := List.cons.inj ha
        rw [ha, List.cons_append, List.cons_append] at hfirst
        obtain ⟨hslash, hlen⟩ := Lexer.first?_opener hfirst hk
        obtain rfl := List.length_eq_zero_iff.mp (Nat.succ.inj hlen)
        cases ps with
        | nil => cases htail
        | cons q ps =>
          obtain ⟨kind', piece'⟩ := q
          rw [List.cons_append] at hrest
          have hsecond := hrest.cons_inv.1
          have htail' : piece' ++ spelling ps = '*' :: text := htail
          rw [spelling_append, ← List.append_assoc, htail', List.cons_append] at hsecond
          have hpair := (List.isChain_cons_cons.mp hopen).1
          rcases Lexer.first?_star hsecond with hs | hs
          · exact hpair _ _ hslash hs ⟨rfl, .inl rfl⟩
          · exact hpair _ _ hslash hs ⟨rfl, .inr rfl⟩

/-- Some pieces of a text from its start on spell their own text. -/
theorem Spelled.front (h : Spelled (ps ++ qs) text)
    (hend : ∀ kind piece, ps.getLast? = some (kind, piece) → Lexer.Seals kind piece []) :
    Spelled ps (spelling ps) := by
  induction ps generalizing text with
  | nil => exact .nil
  | cons p ps ih =>
    obtain ⟨kind, piece⟩ := p
    rw [List.cons_append] at h
    obtain ⟨hfirst, hrest⟩ := h.cons_inv
    rw [spelling_append, ← List.append_assoc] at hfirst
    refine .cons (Lexer.first?_left hfirst (by simp) fun hn ↦ ?_) ?_
    · exact seals_of_last hrest (hend kind piece) hn
    · exact ih hrest fun k x hx ↦ hend k x (getLast?_cons_of_some hx)

end GuardLint.Syntax
