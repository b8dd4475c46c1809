import GuardLint.Proofs.Syntax.Depth

/-!
# Brackets

Parentheses and braces of a text open and close in turn. So what stands before a closing parenthesis
that nothing before it opens is determined by the tokens, and so is an expression before a
semicolon, since the semicolons in an expression all stand inside brackets.
-/

namespace GuardLint.Syntax

open Grammar

/-- By how much a token takes the text deeper into parentheses and braces. -/
def Kind.rise : Kind → Int
  | .mark .leftParen | .mark .leftBrace => 1
  | .mark .rightParen | .mark .rightBrace => -1
  | _ => 0

private theorem prefix_append_cases {us ws ps : List Token} (h : ps <+: us ++ ws) :
    ps <+: us ∨ ∃ qs, ps = us ++ qs ∧ qs <+: ws := by
  obtain ⟨zs, hz⟩ := h
  rcases List.append_eq_append_iff.mp hz with ⟨xs, rfl, -⟩ | ⟨xs, rfl, rfl⟩
  · exact .inl (List.prefix_append ps xs)
  · exact .inr ⟨xs, rfl, List.prefix_append xs zs⟩

namespace Token

/-- How deep into parentheses and braces some tokens lead. -/
def depth (ts : List Token) : Int := (ts.map fun t ↦ t.kind.rise).sum

@[simp] theorem depth_nil : depth [] = 0 := rfl

@[simp] theorem depth_cons (t : Token) (ts : List Token) :
    depth (t :: ts) = t.kind.rise + depth ts := by
  simp [depth]

@[simp] theorem depth_append (us ws : List Token) : depth (us ++ ws) = depth us + depth ws := by
  simp [depth]

/-- Tokens whose brackets open and close in turn. -/
structure Balanced (ts : List Token) : Prop where
  low : ∀ us, us <+: ts → 0 ≤ depth us
  closed : depth ts = 0

/-- Tokens whose semicolons all stand inside brackets. -/
def Fenced (ts : List Token) : Prop :=
  ∀ us t, us ++ [t] <+: ts → t.kind = .mark .semicolon → 0 < depth us

variable {us ws rest rest' : List Token} {t t' : Token}

/-- Balanced tokens that are the start of other tokens end before a token that closes a bracket
which these do not open. -/
private theorem prefix_of_balanced (hu : Balanced us) (hr : t.kind.rise < 0)
    (h : us ++ t :: rest = ws ++ t' :: rest') (hw : Balanced ws) : ws <+: us := by
  rcases List.append_eq_append_iff.mp h with ⟨xs, rfl, hx⟩ | ⟨xs, rfl, -⟩
  · cases xs with
    | nil => exact ⟨[], by rw [List.append_nil, List.append_nil]⟩
    | cons x xs =>
      obtain ⟨rfl, -⟩ := List.cons.inj hx
      have hlow := hw.low (us ++ [t]) ⟨xs, by simp⟩
      rw [depth_append, depth_cons, depth_nil, hu.closed] at hlow
      omega
  · exact List.prefix_append ws xs

/-- Balanced tokens before a token that closes a bracket they do not open are determined. -/
theorem Balanced.unique (hu : Balanced us) (hw : Balanced ws) (ht : t.kind.rise < 0)
    (ht' : t'.kind.rise < 0) (h : us ++ t :: rest = ws ++ t' :: rest') :
    us = ws ∧ t = t' ∧ rest = rest' := by
  obtain rfl : us = ws := (prefix_of_balanced hw ht' h.symm hu).eq_of_length_le
    (prefix_of_balanced hu ht h hw).length_le
  obtain ⟨rfl, rfl⟩ := List.cons.inj (List.append_cancel_left h)
  exact ⟨rfl, rfl, rfl⟩

private theorem depth_flat (h : ∀ t ∈ ws, t.kind.rise = 0) : depth ws = 0 := by
  induction ws with
  | nil => rfl
  | cons t ws ih =>
    rw [depth_cons, h t List.mem_cons_self, ih fun u hu ↦ h u (List.mem_cons_of_mem t hu)]
    rfl

/-- Balanced tokens stay so with tokens behind them that are no brackets. -/
theorem Balanced.append_flat (hu : Balanced us) (hw : ∀ t ∈ ws, t.kind.rise = 0) :
    Balanced (us ++ ws) := by
  refine ⟨fun vs hvs ↦ ?_, ?_⟩
  · rcases prefix_append_cases hvs with h | ⟨xs, rfl, h⟩
    · exact hu.low vs h
    · rw [depth_append, hu.closed, depth_flat fun t ht ↦ hw t (h.subset ht)]
      decide
  · rw [depth_append, hu.closed, depth_flat hw]
    rfl

private theorem prefix_of_fenced (hu : Balanced us) (hs : t.kind = .mark .semicolon)
    (h : us ++ t :: rest = ws ++ t' :: rest') (hw : Fenced ws) : ws <+: us := by
  rcases List.append_eq_append_iff.mp h with ⟨xs, rfl, hx⟩ | ⟨xs, rfl, -⟩
  · cases xs with
    | nil => exact ⟨[], by rw [List.append_nil, List.append_nil]⟩
    | cons x xs =>
      obtain ⟨rfl, -⟩ := List.cons.inj hx
      have hin := hw us t ⟨xs, by simp⟩ hs
      rw [hu.closed] at hin
      omega
  · exact List.prefix_append ws xs

/-- Balanced tokens without semicolons outside brackets are determined by what ends with the
semicolon after them. -/
theorem Fenced.unique (hu : Balanced us) (hw : Balanced ws) (hfu : Fenced us) (hfw : Fenced ws)
    (ht : t.kind = .mark .semicolon) (ht' : t'.kind = .mark .semicolon)
    (h : us ++ t :: rest = ws ++ t' :: rest') : us = ws ∧ t = t' ∧ rest = rest' := by
  obtain rfl : us = ws := (prefix_of_fenced hw ht' h.symm hfu).eq_of_length_le
    (prefix_of_fenced hu ht h hfw).length_le
  obtain ⟨rfl, rfl⟩ := List.cons.inj (List.append_cancel_left h)
  exact ⟨rfl, rfl, rfl⟩

end Token

/-! ### Parts of a text -/

/-- The brackets of all productions open and close in turn. -/
theorem rise_levels : Levels Kind.rise := by
  unfold Levels
  decide +kernel

/-- The brackets of a part of a text open and close in turn. -/
theorem balanced_of_matches {h : Head Category} {ts : List Token}
    (hm : Matches language (.node h) ts) : Token.Balanced ts :=
  ⟨(even_of_matches rise_levels hm).low, (even_of_matches rise_levels hm).closed⟩

/-- Whether semicolons outside brackets may stand in a category. -/
def Category.loosensSemicolons : Category → Bool
  | .compilationUnit | .packageDecl | .importDecl | .typeDecl | .enumMembers | .member
  | .fieldDecl | .methodDecl | .methodBody | .blockStmt | .statement | .elsePart | .switchItem
  | .furtherResource => true
  | _ => false

/-- The categories in which no semicolons stand outside brackets. -/
private def fenced : List Category := Category.all.filter fun c ↦ !c.loosensSemicolons

private theorem fenced_encloses : encloses Kind.rise fenced [] = true := by decide

private theorem fenced_shows : shows Kind.rise fenced (· != .mark .semicolon) = true := by
  decide

/-- The semicolons of an expression, say, stand inside brackets. -/
theorem fenced_of_matches {h : Head Category} (hh : h.category.loosensSemicolons = false)
    {ts : List Token} (hm : Matches language (.node h) ts) : Token.Fenced ts := by
  rintro us t ⟨vs, rfl⟩ ht
  rw [List.append_assoc, List.singleton_append] at hm
  refine Int.lt_iff_le_and_ne.mpr
    ⟨(balanced_of_matches hm).low us (List.prefix_append us _), fun h0 ↦ ?_⟩
  have hmem : h.category ∈ fenced := by simp [fenced, Category.mem_all, hh]
  obtain ⟨_, -, _, -, _, _, _, _, _, _, -, -, -, -, hstop⟩ :=
    (Token.found rise_levels fenced_encloses (by decide) hmem hm h0.symm).exists_stop fenced_shows
      (by simp [ht])
  cases hstop

end GuardLint.Syntax
