import GuardLint.Syntax.Lexer

/-!
# Lexemes

A source text without stray characters is spelled by its lexemes: one after the other they make up
the text, and each is the first lexeme of what follows. Where a lexeme stands follows from the text
before it, so lexemes and tokens stand one behind the other.
-/

namespace GuardLint.Syntax

namespace Lexer

/-! ### The length of a lexeme -/

/-- A class of lexemes takes a character at least, and none that is not there. -/
def Bounded (f : List Char → Option Nat) : Prop :=
  ∀ text n, f text = some n → 0 < n ∧ n ≤ text.length

theorem run_le (p : Char → Bool) (text : List Char) : run p text ≤ text.length :=
  (List.takeWhile_prefix p).length_le

theorem oneOf_le (cs text : List Char) : oneOf cs text ≤ text.length := by
  cases text with
  | nil => exact Nat.le_refl 0
  | cons c text =>
    rw [oneOf, List.length_cons]
    split <;> omega

theorem bounded_basedNumber (marks : List Char) (p : Char → Bool) :
    Bounded (basedNumber marks p) := by
  intro text n h
  unfold basedNumber at h
  split at h
  · next mark text =>
    simp only at h
    split at h
    · have hrun := run_le p text
      have hone := oneOf_le ['l', 'L'] (text.drop (run p text))
      rw [List.length_drop] at hone
      cases h
      simp only [List.length_cons]
      omega
    · cases h
  · cases h

theorem bounded_mantissa : Bounded mantissa := by
  intro text n h
  unfold mantissa at h
  split at h
  · next d text =>
    have hrun := run_le isDigitOrBar text
    split at h
    · cases h
      simp only [List.length_cons]
      omega
    · cases h
  · next d text _ =>
    have hrun := run_le isDigitOrBar text
    split at h
    · simp only at h
      split at h
      · next rest hrest =>
        have hdrop := congrArg List.length hrest
        have hrun' := run_le isDigitOrBar rest
        rw [List.length_drop, List.length_cons] at hdrop
        cases h
        simp only [List.length_cons]
        omega
      · cases h
        simp only [List.length_cons]
        omega
    · cases h
  · cases h

theorem exponent_le (text : List Char) : exponent text ≤ text.length := by
  cases text with
  | nil => exact Nat.le_refl 0
  | cons e text =>
    have hone := oneOf_le ['+', '-'] text
    have hrun := run_le Text.isDecimal (text.drop (oneOf ['+', '-'] text))
    rw [List.length_drop] at hrun
    simp only [exponent, List.length_cons]
    split
    · split <;> omega
    · omega

theorem bounded_decimalNumber : Bounded decimalNumber := by
  intro text n h
  obtain ⟨m, hm, hn⟩ := Option.map_eq_some_iff.mp h
  simp only at hn
  have hmant := bounded_mantissa text m hm
  have hexp := exponent_le (text.drop m)
  have hone := oneOf_le ['f', 'F', 'd', 'D', 'l', 'L'] (text.drop (m + exponent (text.drop m)))
  rw [List.length_drop] at hexp hone
  omega

theorem bounded_number : Bounded number := by
  intro text n h
  simp only [number, Option.orElse_eq_orElse, Option.orElse_eq_or, Option.or_eq_some_iff] at h
  rcases h with h | ⟨-, h | ⟨-, h⟩⟩
  · exact bounded_basedNumber _ _ text n h
  · exact bounded_basedNumber _ _ text n h
  · exact bounded_decimalNumber text n h

private theorem blockEnd_le {text : List Char} {n : Nat} (h : blockEnd text = some n) :
    n ≤ text.length := by
  fun_induction blockEnd text generalizing n with
  | case1 text =>
    cases h
    simp only [List.length_cons]
    omega
  | case2 c text _ ih =>
    obtain ⟨m, hm, rfl⟩ := Option.map_eq_some_iff.mp h
    have := ih hm
    rw [List.length_cons]
    omega
  | case3 => cases h

theorem bounded_comment : Bounded comment := by
  intro text n h
  unfold comment at h
  split at h
  · next text =>
    have hrun := run_le (· != '\n') text
    cases h
    simp only [List.length_cons]
    omega
  · obtain ⟨m, hm, rfl⟩ := Option.map_eq_some_iff.mp h
    have hend := blockEnd_le hm
    simp only [List.length_cons]
    omega
  · cases h

theorem bounded_name : Bounded name := by
  intro text n h
  unfold name at h
  split at h
  · next c text =>
    have hrun := run_le isNamePart text
    split at h
    · cases h
      rw [List.length_cons]
      omega
    · cases h
  · cases h

private theorem closing_le {quote : Char} {text : List Char} {n : Nat}
    (h : closing quote text = some n) : n ≤ text.length := by
  fun_induction closing quote text generalizing n with
  | case1 | case2 | case3 | case6 => cases h
  | case4 c text _ ih =>
    obtain ⟨m, hm, rfl⟩ := Option.map_eq_some_iff.mp h
    have := ih hm
    simp only [List.length_cons]
    omega
  | case5 text =>
    cases h
    rw [List.length_cons]
    omega
  | case7 c text _ _ _ _ ih =>
    obtain ⟨m, hm, rfl⟩ := Option.map_eq_some_iff.mp h
    have := ih hm
    rw [List.length_cons]
    omega

theorem bounded_char : Bounded char := by
  intro text n h
  unfold char at h
  split at h
  · obtain ⟨m, hm, hn⟩ := Option.bind_eq_some_iff.mp h
    have hend := closing_le hm
    split at hn
    · cases hn
    · cases hn
      rw [List.length_cons]
      omega
  · cases h

theorem bounded_string : Bounded string := by
  intro text n h
  unfold string at h
  split at h
  · obtain ⟨m, hm, rfl⟩ := Option.map_eq_some_iff.mp h
    have hend := closing_le hm
    rw [List.length_cons]
    omega
  · cases h

theorem bounded_blank : Bounded blank := by
  intro text n h
  have hrun := run_le Text.isBlank text
  simp only [blank] at h
  split at h
  · cases h
  · cases h
    omega

theorem bounded_mark : Bounded fun text ↦ (mark? text).map fun m ↦ m.text.length := by
  intro text n h
  obtain ⟨m, hm, rfl⟩ := Option.map_eq_some_iff.mp h
  have hpre := List.find?_some hm
  have hlen := (List.isPrefixOf_iff_prefix.mp hpre).length_le
  rw [String.length_toList] at hlen
  exact ⟨by cases m <;> decide, hlen⟩

/-- Which classes a lexeme may be of, and why the classes before it do not apply. -/
theorem first?_eq_some {text : List Char} {kind : Lexeme.Class} {n : Nat} :
    first? text = some (kind, n) ↔
      (number text = some n ∧ kind = .token .number) ∨
      (number text = none ∧ comment text = some n ∧ kind = .comment) ∨
      (number text = none ∧ comment text = none ∧ name text = some n ∧
        kind = .token (wordKind (text.take n))) ∨
      (number text = none ∧ comment text = none ∧ name text = none ∧ char text = some n ∧
        kind = .token .char) ∨
      (number text = none ∧ comment text = none ∧ name text = none ∧ char text = none ∧
        string text = some n ∧ kind = .token .string) ∨
      (number text = none ∧ comment text = none ∧ name text = none ∧ char text = none ∧
        string text = none ∧ blank text = some n ∧ kind = .blank) ∨
      (number text = none ∧ comment text = none ∧ name text = none ∧ char text = none ∧
        string text = none ∧ blank text = none ∧
        ∃ m, mark? text = some m ∧ kind = .token (.mark m) ∧ n = m.text.length) := by
  unfold first?
  simp only [Option.orElse_eq_orElse, Option.orElse_eq_or, Option.or_eq_some_iff,
    Option.map_eq_some_iff, Option.map_eq_none_iff, Prod.mk.injEq]
  constructor
  · rintro (⟨_, h, rfl, rfl⟩ | ⟨h₁, ⟨_, h, rfl, rfl⟩ | ⟨h₂, ⟨_, h, rfl, rfl⟩ | ⟨h₃, ⟨_, h, rfl, rfl⟩ |
      ⟨h₄, ⟨_, h, rfl, rfl⟩ | ⟨h₅, ⟨_, h, rfl, rfl⟩ | ⟨h₆, m, h, rfl, rfl⟩⟩⟩⟩⟩⟩)
    · exact .inl ⟨h, rfl⟩
    · exact .inr (.inl ⟨h₁, h, rfl⟩)
    · exact .inr (.inr (.inl ⟨h₁, h₂, h, rfl⟩))
    · exact .inr (.inr (.inr (.inl ⟨h₁, h₂, h₃, h, rfl⟩)))
    · exact .inr (.inr (.inr (.inr (.inl ⟨h₁, h₂, h₃, h₄, h, rfl⟩))))
    · exact .inr (.inr (.inr (.inr (.inr (.inl ⟨h₁, h₂, h₃, h₄, h₅, h, rfl⟩)))))
    · exact .inr (.inr (.inr (.inr (.inr (.inr ⟨h₁, h₂, h₃, h₄, h₅, h₆, m, h, rfl, rfl⟩)))))
  · rintro (⟨h, rfl⟩ | ⟨h₁, h, rfl⟩ | ⟨h₁, h₂, h, rfl⟩ | ⟨h₁, h₂, h₃, h, rfl⟩ |
      ⟨h₁, h₂, h₃, h₄, h, rfl⟩ | ⟨h₁, h₂, h₃, h₄, h₅, h, rfl⟩ |
      ⟨h₁, h₂, h₃, h₄, h₅, h₆, m, h, rfl, rfl⟩)
    · exact .inl ⟨n, h, rfl, rfl⟩
    · exact .inr ⟨h₁, .inl ⟨n, h, rfl, rfl⟩⟩
    · exact .inr ⟨h₁, .inr ⟨h₂, .inl ⟨n, h, rfl, rfl⟩⟩⟩
    · exact .inr ⟨h₁, .inr ⟨h₂, .inr ⟨h₃, .inl ⟨n, h, rfl, rfl⟩⟩⟩⟩
    · exact .inr ⟨h₁, .inr ⟨h₂, .inr ⟨h₃, .inr ⟨h₄, .inl ⟨n, h, rfl, rfl⟩⟩⟩⟩⟩
    · exact .inr ⟨h₁, .inr ⟨h₂, .inr ⟨h₃, .inr ⟨h₄, .inr ⟨h₅, .inl ⟨n, h, rfl, rfl⟩⟩⟩⟩⟩⟩
    · exact .inr ⟨h₁, .inr ⟨h₂, .inr ⟨h₃, .inr ⟨h₄, .inr ⟨h₅, .inr ⟨h₆, m, h, rfl, rfl⟩⟩⟩⟩⟩⟩

/-- A lexeme takes a character at least, and none that is not there. -/
theorem first?_bounds {text : List Char} {kind : Lexeme.Class} {n : Nat}
    (h : first? text = some (kind, n)) : 0 < n ∧ n ≤ text.length := by
  rcases first?_eq_some.mp h with ⟨h, -⟩ | ⟨-, h, -⟩ | ⟨-, -, h, -⟩ | ⟨-, -, -, h, -⟩ |
    ⟨-, -, -, -, h, -⟩ | ⟨-, -, -, -, -, h, -⟩ | ⟨-, -, -, -, -, -, m, hm, -, rfl⟩
  · exact bounded_number text n h
  · exact bounded_comment text n h
  · exact bounded_name text n h
  · exact bounded_char text n h
  · exact bounded_string text n h
  · exact bounded_blank text n h
  · exact bounded_mark text _ (by simp only [hm, Option.map_some])

end Lexer

/-! ### Spelling -/

/-- Some pieces, each with its class, spell a text: each is the first lexeme of what is left of the
text, and nothing is left in the end. -/
inductive Spelled : List (Lexeme.Class × List Char) → List Char → Prop where
  | nil : Spelled [] []
  | cons {kind : Lexeme.Class} {piece rest : List Char}
      {pieces : List (Lexeme.Class × List Char)} :
      Lexer.first? (piece ++ rest) = some (kind, piece.length) → Spelled pieces rest →
      Spelled ((kind, piece) :: pieces) (piece ++ rest)

/-- Pieces as lexemes that follow each other from a position on. -/
def Lexeme.laid : Position → List (Lexeme.Class × List Char) → List Lexeme
  | _, [] => []
  | at_, (kind, piece) :: pieces =>
    ⟨kind, piece, ⟨at_, at_.advance piece⟩⟩ :: laid (at_.advance piece) pieces

/-- The lexemes of a text without stray characters spell it. -/
theorem Lexeme.cut_eq {fuel : Nat} {at_ : Position} {text : List Char} {lexemes : List Lexeme}
    (hfuel : text.length ≤ fuel) :
    Lexeme.cut fuel at_ text = (lexemes, none) ↔
      ∃ pieces, Spelled pieces text ∧ lexemes = Lexeme.laid at_ pieces := by
  induction fuel generalizing at_ text lexemes with
  | zero =>
    have htext : text = [] := List.length_eq_zero_iff.mp (by omega)
    subst htext
    constructor
    · intro h
      rw [Lexeme.cut] at h
      cases h
      exact ⟨[], .nil, rfl⟩
    · rintro ⟨pieces, hs, rfl⟩
      generalize htext : ([] : List Char) = text at hs
      cases hs with
      | nil => rfl
      | cons h _ =>
        have := (Lexer.first?_bounds h).1
        obtain ⟨rfl, -⟩ := List.append_eq_nil_iff.mp htext.symm
        cases this
  | succ fuel ih =>
    cases text with
    | nil =>
      constructor
      · intro h
        rw [Lexeme.cut] at h
        cases h
        exact ⟨[], .nil, rfl⟩
      · rintro ⟨pieces, hs, rfl⟩
        generalize htext : ([] : List Char) = text at hs
        cases hs with
        | nil => rfl
        | cons h _ =>
          have := (Lexer.first?_bounds h).1
          obtain ⟨rfl, -⟩ := List.append_eq_nil_iff.mp htext.symm
          cases this
    | cons c text =>
      rw [Lexeme.cut]
      constructor
      · intro h
        split at h
        · cases h
        · next kind n hfirst =>
          obtain ⟨hpos, hle⟩ := Lexer.first?_bounds hfirst
          simp only [Prod.mk.injEq] at h
          obtain ⟨rfl, hnone⟩ := h
          have hlen : ((c :: text).drop n).length ≤ fuel := by
            rw [List.length_drop]
            omega
          obtain ⟨pieces, hs, hls⟩ := (ih hlen).mp
            (Prod.ext (x := Lexeme.cut fuel (at_.advance ((c :: text).take n))
              ((c :: text).drop n)) rfl hnone)
          refine ⟨(kind, (c :: text).take n) :: pieces, ?_, by rw [Lexeme.laid, ← hls]⟩
          have hsp : Spelled ((kind, (c :: text).take n) :: pieces)
              ((c :: text).take n ++ (c :: text).drop n) := by
            refine .cons ?_ hs
            rw [List.take_append_drop, List.length_take, Nat.min_eq_left hle]
            exact hfirst
          rwa [List.take_append_drop] at hsp
      · rintro ⟨pieces, hs, rfl⟩
        generalize htext : c :: text = whole at hs
        cases hs with
        | nil => cases htext
        | @cons kind piece rest pieces h hs =>
          have hpos := (Lexer.first?_bounds h).1
          have hlen : rest.length ≤ fuel := by
            have := congrArg List.length htext
            rw [List.length_append, List.length_cons] at this
            rw [List.length_cons] at hfuel
            omega
          rw [h]
          simp only [List.take_left', List.drop_left', (ih hlen).mpr ⟨pieces, hs, rfl⟩]
          rfl

/-- A source text has no stray characters if and only if some pieces spell it; they are its
lexemes. -/
theorem Lexeme.ofSource_eq {source : List Char} {lexemes : List Lexeme} :
    Lexeme.ofSource source = (lexemes, none) ↔
      ∃ pieces, Spelled pieces source ∧ lexemes = Lexeme.laid .origin pieces :=
  Lexeme.cut_eq (Nat.le_refl _)

end GuardLint.Syntax
