import GuardLint.Proofs.Syntax.Lexeme

/-!
# How far a number looks

A number looks at the characters after it, and at a few more if an exponent might begin there. If it
is followed by a blank, a parenthesis, a semicolon or the letter `i`, it does not look any further, and
neither does a text that begins with no number.
-/

namespace GuardLint.Syntax

namespace Lexer

/-- The characters that a text may begin with that is put behind lexemes. -/
def seams : List Char := [' ', '(', ')', ';', 'i']

/-- A text that may be put behind lexemes. -/
def Quiet (text : List Char) : Prop := ∀ c, text.head? = some c → c ∈ seams

variable {a v w : List Char} {n : Nat}

/-! ### Numbers -/

/-- A length that does not depend on what follows if it ends before that. -/
private def Local (f : List Char → Nat) : Prop :=
  ∀ a v w, Quiet w → f (a ++ v) ≤ a.length → f (a ++ w) = f (a ++ v)

/-- What no seam has, no character at a seam has. -/
private theorem head_of_seams {p : Char → Bool} (h : seams.any p = false) {d : Char}
    (hw : Quiet (d :: w)) : p d = false :=
  Bool.eq_false_iff.mpr (List.any_eq_false.mp h d (hw d rfl))

private theorem run_quiet {p : Char → Bool} (hp : seams.any p = false) (hw : Quiet w) :
    run p w = 0 := by
  cases w with
  | nil => rfl
  | cons d w => simp [run, head_of_seams hp hw]

private theorem oneOf_quiet {cs : List Char} (hc : seams.any cs.contains = false)
    (hw : Quiet w) : oneOf cs w = 0 := by
  cases w with
  | nil => rfl
  | cons d w => simp only [oneOf, head_of_seams hc hw, Bool.false_eq_true, if_false]

/-- A run ends where it did if it goes on neither way. -/
theorem run_append {p : Char → Bool} (h : run p (a ++ v) ≤ a.length)
    (hw : run p (a ++ v) = a.length → run p w = 0) : run p (a ++ w) = run p (a ++ v) := by
  induction a with
  | nil =>
    have hv : run p ([] ++ v) = 0 := Nat.le_zero.mp h
    rw [hv]
    exact hw hv
  | cons c a ih =>
    cases hc : p c with
    | false => simp [run, hc]
    | true =>
      simp only [run, List.cons_append, List.takeWhile_cons, hc, if_true, List.length_cons]
        at h hw ih ⊢
      rw [ih (by omega) fun h ↦ hw (by omega)]

private theorem local_run {p : Char → Bool} (hp : seams.any p = false) : Local (run p) :=
  fun _ _ _ hw h ↦ run_append h fun _ ↦ run_quiet hp hw

private theorem local_oneOf {cs : List Char} (hc : seams.any cs.contains = false) :
    Local (oneOf cs) := by
  intro a v w hw h
  cases a with
  | nil => rw [List.nil_append, oneOf_quiet hc hw, Nat.le_zero.mp h]
  | cons c a => rfl

/-- One length after another. -/
private theorem Local.drop {f g : List Char → Nat} (hf : Local f) (hg : Local g) :
    Local fun text ↦ f text + g (text.drop (f text)) := by
  intro a v w hw h
  simp only at h ⊢
  rw [hf a v w hw (by omega)]
  have hle : f (a ++ v) ≤ a.length := by omega
  rw [List.drop_append_of_le_length hle] at h ⊢
  rw [List.drop_append_of_le_length hle, hg _ v w hw]
  rw [List.length_drop]
  omega

private theorem isDecimal_seams : seams.any Text.isDecimal = false := by decide

private theorem isDigitOrBar_seams : seams.any isDigitOrBar = false := by decide

/-- An exponent without digits is none, so what stands after the sign is looked at too. -/
private theorem local_exponent : Local exponent := by
  intro a v w hw h
  have hrun := run_quiet isDecimal_seams hw
  have hone : oneOf ['+', '-'] w = 0 := oneOf_quiet (by decide) hw
  cases a with
  | nil =>
    rw [Nat.le_zero.mp h]
    cases w with
    | nil => rfl
    | cons d w =>
      have hd : (d == 'e' || d == 'E') = false :=
        head_of_seams (p := fun d ↦ d == 'e' || d == 'E') (by decide) hw
      simp only [List.nil_append, exponent, hd, Bool.false_eq_true, if_false]
  | cons c a =>
    simp only [List.cons_append, exponent, List.length_cons] at h ⊢
    split at h
    · next hc =>
      rw [if_pos hc, if_pos hc]
      cases a with
      | nil =>
        simp only [List.nil_append, List.length_nil] at h ⊢
        rw [hone, List.drop_zero, hrun, if_pos rfl]
        split
        · rfl
        · next hdigits =>
          rw [if_neg hdigits] at h
          omega
      | cons d a =>
        have hsign : ∀ text, oneOf ['+', '-'] (d :: a ++ text) = oneOf ['+', '-'] (d :: a) :=
          fun _ ↦ rfl
        have hle : oneOf ['+', '-'] (d :: a) ≤ (d :: a).length := oneOf_le _ _
        rw [hsign, hsign] at *
        rw [List.drop_append_of_le_length hle] at h ⊢
        rw [List.drop_append_of_le_length hle,
          local_run isDecimal_seams _ v w hw (by rw [List.length_drop]; split at h <;> omega)]
    · next hc => rw [if_neg hc, if_neg hc]

/-- What begins a text and ends in it does not depend on what follows. -/
private def LocalSome (f : List Char → Option Nat) : Prop :=
  ∀ a v w n, Quiet w → f (a ++ v) = some n → n ≤ a.length → f (a ++ w) = some n

/-- That something does not begin a text does not depend on what follows. -/
private def LocalNone (f : List Char → Option Nat) : Prop :=
  ∀ a v w, a ≠ [] → Quiet w → f (a ++ v) = none → f (a ++ w) = none

private theorem basedNumber_cons (marks : List Char) (p : Char → Bool) (c : Char)
    (text : List Char) : basedNumber marks p ('0' :: c :: text) =
      if marks.contains c && run p text != 0 then
        some (2 + (run p text + oneOf ['l', 'L'] (text.drop (run p text))))
      else none := by
  rw [basedNumber]
  split
  · rw [Nat.add_assoc]
  · rfl

private theorem basedNumber_nil {marks : List Char} (hm : seams.any marks.contains = false)
    (p : Char → Bool) (hw : Quiet w) : basedNumber marks p ('0' :: w) = none := by
  cases w with
  | nil => rfl
  | cons d w =>
    rw [basedNumber_cons, head_of_seams hm hw]
    rfl

private theorem basedNumber_of_ne {c : Char} (hc : c ≠ '0') (marks : List Char) (p : Char → Bool)
    (text : List Char) : basedNumber marks p (c :: text) = none := by
  unfold basedNumber
  split
  · next h =>
    cases h
    exact absurd rfl hc
  · rfl

variable {marks : List Char} {p : Char → Bool}

private theorem localSome_basedNumber (hp : seams.any p = false) :
    LocalSome (basedNumber marks p) := by
  intro a v w n hw h hn
  have hpos : 0 < n := (bounded_basedNumber marks p _ n h).1
  cases a with
  | nil =>
    rw [List.length_nil] at hn
    omega
  | cons c a =>
    by_cases hc : c = '0'
    · subst hc
      cases a with
      | nil =>
        cases v with
        | nil => cases h
        | cons d v =>
          rw [List.cons_append, List.nil_append, basedNumber_cons] at h
          split at h
          · cases h
            simp only [List.length_cons, List.length_nil] at hn
            omega
          · cases h
      | cons d a =>
        rw [List.cons_append, List.cons_append, basedNumber_cons] at h ⊢
        have hsuffix : Local (oneOf ['l', 'L']) := local_oneOf (by decide)
        have hloc := (local_run hp).drop hsuffix a v w hw
        simp only at hloc
        split at h
        · next hd =>
          simp only [List.length_cons] at hn
          cases h
          have hrun := local_run hp a v w hw (by omega)
          rw [if_pos (by rwa [hrun]), hloc (by omega)]
        · cases h
    · rw [List.cons_append, basedNumber_of_ne hc] at h
      cases h

private theorem localNone_basedNumber (hm : seams.any marks.contains = false)
    (hp : seams.any p = false) : LocalNone (basedNumber marks p) := by
  intro a v w ha hw h
  cases a with
  | nil => exact absurd rfl ha
  | cons c a =>
    by_cases hc : c = '0'
    · subst hc
      cases a with
      | nil => exact basedNumber_nil hm p hw
      | cons d a =>
        rw [List.cons_append, List.cons_append, basedNumber_cons] at h ⊢
        split at h
        · cases h
        · next hd =>
          rw [if_neg]
          intro hd'
          simp only [Bool.and_eq_true, bne_iff_ne] at hd hd'
          refine hd ⟨hd'.1, fun h0 ↦ hd'.2 ?_⟩
          rw [local_run hp a v w hw (by omega), h0]
    · rw [List.cons_append, basedNumber_of_ne hc]

private theorem mantissa_point (d : Char) (text : List Char) : mantissa ('.' :: d :: text) =
    if Text.isDecimal d then some (2 + run isDigitOrBar text) else none := rfl

/-- The length of a point and the digits after it. -/
private def fraction : List Char → Nat
  | '.' :: rest => 1 + run isDigitOrBar rest
  | _ => 0

private theorem fraction_eq_zero {text : List Char} (h : ∀ rest, text ≠ '.' :: rest) :
    fraction text = 0 := by
  unfold fraction
  split
  · next rest => exact absurd rfl (h rest)
  · rfl

private theorem mantissa_digit {d : Char} (hd : Text.isDecimal d = true) (text : List Char) :
    mantissa (d :: text) =
      some (1 + (run isDigitOrBar text + fraction (text.drop (run isDigitOrBar text)))) := by
  unfold mantissa
  split
  · next h =>
    cases h
    exact absurd hd (by decide)
  · next heq =>
    cases heq
    simp only [hd, if_true]
    split
    · next rest hrest =>
      rw [hrest, fraction]
      congr 1
      omega
    · next hne => rw [fraction_eq_zero hne, Nat.add_zero]
  · next h => cases h

private theorem mantissa_of_ne {c : Char} (hc : c ≠ '.') (hd : Text.isDecimal c = false)
    (text : List Char) : mantissa (c :: text) = none := by
  unfold mantissa
  split
  · next h =>
    cases h
    exact absurd rfl hc
  · next heq =>
    cases heq
    rw [hd]
    rfl
  · rfl

private theorem mantissa_only_point (hw : Quiet w) : mantissa ('.' :: w) = none := by
  cases w with
  | nil => rfl
  | cons d w => rw [mantissa_point, head_of_seams isDecimal_seams hw]; rfl

private theorem local_fraction : Local fraction := by
  intro a v w hw h
  cases a with
  | nil =>
    rw [Nat.le_zero.mp h]
    cases w with
    | nil => rfl
    | cons d w =>
      refine fraction_eq_zero fun rest h ↦ ?_
      cases h
      exact absurd (hw '.' rfl) (by decide)
  | cons c a =>
    by_cases hc : c = '.'
    · subst hc
      simp only [List.cons_append, fraction, List.length_cons] at h ⊢
      rw [local_run isDigitOrBar_seams a v w hw (by omega)]
    · have hzero : ∀ text, fraction (c :: text) = 0 := fun text ↦
        fraction_eq_zero fun rest h ↦ hc (List.cons.inj h).1
      rw [List.cons_append, List.cons_append, hzero, hzero]

private theorem localSome_mantissa : LocalSome mantissa := by
  intro a v w n hw h hn
  have hpos : 0 < n := (bounded_mantissa _ n h).1
  cases a with
  | nil =>
    rw [List.length_nil] at hn
    omega
  | cons c a =>
    rw [List.cons_append] at h ⊢
    rw [List.length_cons] at hn
    cases hd : Text.isDecimal c with
    | true =>
      rw [mantissa_digit hd] at h ⊢
      cases h
      have hloc := (local_run isDigitOrBar_seams).drop local_fraction a v w hw
      simp only at hloc
      rw [hloc (by omega)]
    | false =>
      by_cases hc : c = '.'
      · subst hc
        cases a with
        | nil =>
          cases v with
          | nil => cases h
          | cons d v =>
            rw [List.nil_append, mantissa_point] at h
            split at h
            · cases h
              rw [List.length_nil] at hn
              omega
            · cases h
        | cons d a =>
          rw [List.cons_append, mantissa_point] at h ⊢
          split at h
          · next hd' =>
            cases h
            rw [List.length_cons] at hn
            rw [if_pos hd', local_run isDigitOrBar_seams a v w hw (by omega)]
          · cases h
      · rw [mantissa_of_ne hc hd] at h
        cases h

private theorem localNone_mantissa : LocalNone mantissa := by
  intro a v w ha hw h
  cases a with
  | nil => exact absurd rfl ha
  | cons c a =>
    rw [List.cons_append] at h ⊢
    cases hd : Text.isDecimal c with
    | true =>
      rw [mantissa_digit hd] at h
      cases h
    | false =>
      by_cases hc : c = '.'
      · subst hc
        cases a with
        | nil => exact mantissa_only_point hw
        | cons d a =>
          rw [List.cons_append, mantissa_point] at h ⊢
          split at h
          · cases h
          · next hd' => rw [if_neg hd']
      · exact mantissa_of_ne hc hd _

private theorem localSome_decimalNumber : LocalSome decimalNumber := by
  intro a v w n hw h hn
  obtain ⟨m, hm, heq⟩ := Option.map_eq_some_iff.mp h
  simp only at heq
  have hmant := localSome_mantissa a v w m hw hm (by omega)
  unfold decimalNumber
  rw [hmant, Option.map_some]
  have hle : m ≤ a.length := by omega
  have hlen : (a.drop m).length = a.length - m := List.length_drop
  have hsuffix : Local (oneOf ['f', 'F', 'd', 'D', 'l', 'L']) := local_oneOf (by decide)
  have hrest := (local_exponent.drop hsuffix) (a.drop m) v w hw
  simp only at hrest
  rw [← List.drop_append_of_le_length hle, ← List.drop_append_of_le_length hle] at hrest
  simp only [List.drop_drop] at hrest
  have := hrest (by omega)
  simp only [Option.some.injEq]
  omega

private theorem number_cases : number = fun text ↦
    (basedNumber ['x', 'X'] isHexOrBar text).or
      ((basedNumber ['b', 'B'] isBinaryOrBar text).or (decimalNumber text)) := by
  funext text
  simp only [number, Option.orElse_eq_orElse, Option.orElse_eq_or]

theorem number_none_append (ha : a ≠ []) (hw : Quiet w) (h : number (a ++ v) = none) :
    number (a ++ w) = none := by
  simp only [number_cases, Option.or_eq_none_iff] at h ⊢
  refine ⟨localNone_basedNumber (by decide) (by decide) a v w ha hw h.1,
    localNone_basedNumber (by decide) (by decide) a v w ha hw h.2.1, ?_⟩
  exact Option.map_eq_none_iff.mpr
    (localNone_mantissa a v w ha hw (Option.map_eq_none_iff.mp h.2.2))

theorem number_append (hw : Quiet w) (h : number (a ++ v) = some n) (hn : n ≤ a.length) :
    number (a ++ w) = some n := by
  have ha : a ≠ [] := by
    rintro rfl
    have := (bounded_number _ n h).1
    rw [List.length_nil] at hn
    omega
  simp only [number_cases, Option.or_eq_some_iff] at h ⊢
  rcases h with h | ⟨h₁, h | ⟨h₂, h⟩⟩
  · exact .inl (localSome_basedNumber (by decide) a v w n hw h hn)
  · exact .inr ⟨localNone_basedNumber (by decide) (by decide) a v w ha hw h₁,
      .inl (localSome_basedNumber (by decide) a v w n hw h hn)⟩
  · exact .inr ⟨localNone_basedNumber (by decide) (by decide) a v w ha hw h₁,
      .inr ⟨localNone_basedNumber (by decide) (by decide) a v w ha hw h₂,
        localSome_decimalNumber a v w n hw h hn⟩⟩

theorem number_of_ne {c : Char} (h0 : c ≠ '0') (hp : c ≠ '.') (hd : Text.isDecimal c = false)
    (text : List Char) : number (c :: text) = none := by
  simp only [number_cases, basedNumber_of_ne h0, decimalNumber, mantissa_of_ne hp hd,
    Option.map_none, Option.none_or]

end Lexer

end GuardLint.Syntax
