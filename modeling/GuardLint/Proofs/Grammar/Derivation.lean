import GuardLint.Grammar.Derivation

/-!
# Derivations, part by part

A derivation is a tree of productions. `Parts` says how the values of a list of elements lie side by
side on a list of tokens, and `Covers` says the same without values. Properties of derivations are
proved by one induction, over `Parts` or over `Covers`.
-/

namespace GuardLint.Grammar

open Syntax (Kind Token)

variable {γ : Type} {Sem : γ → Type} {g : Grammar Sem}

/-- Some tokens fall into parts, one for each element that is there, and each part and its value
are in a relation. -/
def Parts (M : (s : Symbol γ) → List Token → s.Value Sem → Prop) :
    (es : List (Element γ)) → List Token → Values Sem es → Prop
  | [], ts, _ => ts = []
  | e :: es, ts, (v, vs) =>
    (∃ us ws x, ts = us ++ ws ∧ M e.symbol us x ∧ v = e.present x ∧ Parts M es ws vs) ∨
      (e.absent? = some v ∧ Parts M es ts vs)

/-- Some tokens fall into parts, one for each element that is there, and each part has a
property. -/
def Covers (P : Symbol γ → List Token → Prop) : List (Element γ) → List Token → Prop
  | [], ts => ts = []
  | e :: es, ts =>
    (∃ us ws, ts = us ++ ws ∧ P e.symbol us ∧ Covers P es ws) ∨
      (e.optional = true ∧ Covers P es ts)

/-- Some tokens belong to a symbol. -/
def Matches (g : Grammar Sem) (s : Symbol γ) (ts : List Token) : Prop := ∃ v, Derives g s ts v

/-- Some tokens belong to a list of elements. -/
def Spans (g : Grammar Sem) (es : List (Element γ)) (ts : List Token) : Prop :=
  ∃ vs, DerivesAll g es ts vs

/-! ### Parts with values -/

theorem Parts.mono {M N : (s : Symbol γ) → List Token → s.Value Sem → Prop}
    {es : List (Element γ)} {ts : List Token} {vs : Values Sem es} (hp : Parts M es ts vs)
    (h : ∀ e ∈ es, ∀ us v, M e.symbol us v → N e.symbol us v) : Parts N es ts vs := by
  induction es generalizing ts with
  | nil => exact hp
  | cons e es ih =>
    obtain ⟨v, vs⟩ := vs
    have htail := fun f hf ↦ h f (List.mem_cons_of_mem e hf)
    rcases hp with ⟨us, ws, x, rfl, hx, rfl, hp⟩ | ⟨ha, hp⟩
    · exact .inl ⟨us, ws, x, rfl, h e List.mem_cons_self _ _ hx, rfl, ih hp htail⟩
    · exact .inr ⟨ha, ih hp htail⟩

section

variable {M : (s : Symbol γ) → List Token → s.Value Sem → Prop} {es : List (Element γ)}
  {ts : List Token} {vs : Values Sem es}

theorem parts_nil {v : PUnit} : Parts M [] ts v ↔ ts = [] := Iff.rfl

theorem parts_need {s : Symbol γ} {v : s.Value Sem} :
    Parts M (.need s :: es) ts (v, vs) ↔
      ∃ us ws, ts = us ++ ws ∧ M s us v ∧ Parts M es ws vs := by
  constructor
  · rintro (⟨us, ws, x, rfl, hx, rfl, hp⟩ | ⟨ha, -⟩)
    · exact ⟨us, ws, rfl, hx, hp⟩
    · cases ha
  · rintro ⟨us, ws, rfl, hx, hp⟩
    exact .inl ⟨us, ws, v, rfl, hx, rfl, hp⟩

/-- A symbol alone has what belongs to it. -/
theorem parts_alone {s : Symbol γ} {v : s.Value Sem} {u : PUnit} :
    Parts M [.need s] ts (v, u) ↔ M s ts v := by
  rw [parts_need]
  constructor
  · rintro ⟨us, ws, rfl, hm, hnil⟩
    rwa [parts_nil.mp hnil, List.append_nil]
  · exact fun hm ↦ ⟨ts, [], (List.append_nil ts).symm, hm, rfl⟩

theorem parts_maybe {s : Symbol γ} {v : Option (s.Value Sem)} :
    Parts M (.maybe s :: es) ts (v, vs) ↔
      (∃ us ws x, ts = us ++ ws ∧ M s us x ∧ v = some x ∧ Parts M es ws vs) ∨
        v = none ∧ Parts M es ts vs := by
  constructor
  · rintro (⟨us, ws, x, rfl, hx, rfl, hp⟩ | ⟨ha, hp⟩)
    · exact .inl ⟨us, ws, x, rfl, hx, rfl, hp⟩
    · cases ha
      exact .inr ⟨rfl, hp⟩
  · rintro (⟨us, ws, x, rfl, hx, rfl, hp⟩ | ⟨rfl, hp⟩)
    · exact .inl ⟨us, ws, x, rfl, hx, rfl, hp⟩
    · exact .inr ⟨rfl, hp⟩

theorem parts_many {c : γ} {v : List (Sem c)} :
    Parts M (.many c :: es) ts (v, vs) ↔
      (∃ us ws, ts = us ++ ws ∧ M (.node (.run c)) us v ∧ Parts M es ws vs) ∨
        v = [] ∧ Parts M es ts vs := by
  constructor
  · rintro (⟨us, ws, x, rfl, hx, rfl, hp⟩ | ⟨ha, hp⟩)
    · exact .inl ⟨us, ws, rfl, hx, hp⟩
    · cases ha
      exact .inr ⟨rfl, hp⟩
  · rintro (⟨us, ws, rfl, hx, hp⟩ | ⟨rfl, hp⟩)
    · exact .inl ⟨us, ws, v, rfl, hx, rfl, hp⟩
    · exact .inr ⟨rfl, hp⟩

end

/-- A list of elements derives tokens if each element derives its part. -/
theorem derivesAll_iff_parts {es : List (Element γ)} {ts : List Token} {vs : Values Sem es} :
    DerivesAll g es ts vs ↔ Parts (Derives g) es ts vs := by
  constructor
  · intro h
    induction es generalizing ts with
    | nil => cases h; rfl
    | cons e es ih =>
      cases h with
      | present hd hs => exact .inl ⟨_, _, _, rfl, hd, rfl, ih hs⟩
      | absent ha hs => exact .inr ⟨ha, ih hs⟩
  · intro h
    induction es generalizing ts with
    | nil =>
      cases (h : ts = [])
      exact .nil
    | cons e es ih =>
      obtain ⟨v, vs⟩ := vs
      rcases h with ⟨us, ws, x, rfl, hx, rfl, hp⟩ | ⟨ha, hp⟩
      · exact .present hx (ih hp)
      · exact .absent ha (ih hp)

mutual

/-- What holds of every token, and of the value of a production whenever it holds of its parts,
holds of every derivation. -/
theorem Derives.induction {M : (s : Symbol γ) → List Token → s.Value Sem → Prop}
    (tok : ∀ t : Token, M (.tok t.kind) [t] t)
    (node : ∀ (h : Head γ) (p : Production Sem (h.Value Sem)) (ts : List Token)
      (vs : Values Sem p.elements), p ∈ g.productions h →
      Parts (fun s us x ↦ Derives g s us x ∧ M s us x) p.elements ts vs →
      M (.node h) ts (p.value (Token.cover ts) vs)) :
    {s : Symbol γ} → {ts : List Token} → {v : s.Value Sem} → Derives g s ts v → M s ts v
  | _, _, _, .tok t => tok t
  | _, _, _, .node hp hd => node _ _ _ _ hp (DerivesAll.parts tok node hd)

private theorem DerivesAll.parts {M : (s : Symbol γ) → List Token → s.Value Sem → Prop}
    (tok : ∀ t : Token, M (.tok t.kind) [t] t)
    (node : ∀ (h : Head γ) (p : Production Sem (h.Value Sem)) (ts : List Token)
      (vs : Values Sem p.elements), p ∈ g.productions h →
      Parts (fun s us x ↦ Derives g s us x ∧ M s us x) p.elements ts vs →
      M (.node h) ts (p.value (Token.cover ts) vs)) :
    {es : List (Element γ)} → {ts : List Token} → {vs : Values Sem es} → DerivesAll g es ts vs →
      Parts (fun s us x ↦ Derives g s us x ∧ M s us x) es ts vs
  | _, _, _, .nil => rfl
  | _, _, _, .present hd hs =>
    .inl ⟨_, _, _, rfl, ⟨hd, Derives.induction tok node hd⟩, rfl, DerivesAll.parts tok node hs⟩
  | _, _, _, .absent ha hs => .inr ⟨ha, DerivesAll.parts tok node hs⟩

end

/-! ### Parts without values -/

theorem Covers.mono {P Q : Symbol γ → List Token → Prop} {es : List (Element γ)}
    (h : ∀ e ∈ es, ∀ ts, P e.symbol ts → Q e.symbol ts) {ts : List Token} (hc : Covers P es ts) :
    Covers Q es ts := by
  induction es generalizing ts with
  | nil => exact hc
  | cons e es ih =>
    have hes : ∀ f ∈ es, ∀ ts, P f.symbol ts → Q f.symbol ts :=
      fun f hf ↦ h f (List.mem_cons_of_mem e hf)
    rcases hc with ⟨us, ws, rfl, hp, hc⟩ | ⟨ho, hc⟩
    · exact .inl ⟨us, ws, rfl, h e List.mem_cons_self us hp, ih hes hc⟩
    · exact .inr ⟨ho, ih hes hc⟩

/-- Elements that are there side by side make a list of elements that is there, and so does a
list of elements cut in two. -/
theorem covers_append {P : Symbol γ → List Token → Prop} {es fs : List (Element γ)}
    {ts : List Token} :
    Covers P (es ++ fs) ts ↔ ∃ us ws, ts = us ++ ws ∧ Covers P es us ∧ Covers P fs ws := by
  induction es generalizing ts with
  | nil =>
    constructor
    · exact fun h ↦ ⟨[], ts, rfl, rfl, h⟩
    · rintro ⟨us, ws, rfl, hu, hw⟩
      cases (hu : us = [])
      exact hw
  | cons e es ih =>
    constructor
    · rintro (⟨us, ws, rfl, hp, h⟩ | ⟨ho, h⟩)
      · obtain ⟨xs, ys, rfl, hx, hy⟩ := ih.mp h
        exact ⟨us ++ xs, ys, by rw [List.append_assoc], .inl ⟨us, xs, rfl, hp, hx⟩, hy⟩
      · obtain ⟨xs, ys, rfl, hx, hy⟩ := ih.mp h
        exact ⟨xs, ys, rfl, .inr ⟨ho, hx⟩, hy⟩
    · rintro ⟨us, ws, rfl, ⟨xs, ys, rfl, hp, h⟩ | ⟨ho, h⟩, hw⟩
      · exact .inl ⟨xs, ys ++ ws, by rw [List.append_assoc], hp, ih.mpr ⟨ys, ws, rfl, h, hw⟩⟩
      · exact .inr ⟨ho, ih.mpr ⟨us, ws, rfl, h, hw⟩⟩

/-- An element may be left out if and only if it has a value for that. -/
theorem optional_iff_absent? (e : Element γ) :
    e.optional = true ↔ ∃ v, @Element.absent? γ Sem e = some v := by
  cases e <;> simp [Element.optional, Element.absent?]

/-- Tokens belong to a list of elements if they fall into parts that belong to its elements. -/
theorem spans_iff_covers {es : List (Element γ)} {ts : List Token} :
    Spans g es ts ↔ Covers (Matches g) es ts := by
  constructor
  · rintro ⟨vs, h⟩
    rw [derivesAll_iff_parts] at h
    induction es generalizing ts with
    | nil => exact h
    | cons e es ih =>
      obtain ⟨v, vs⟩ := vs
      rcases h with ⟨us, ws, x, rfl, hx, -, h⟩ | ⟨ha, h⟩
      · exact .inl ⟨us, ws, rfl, ⟨x, hx⟩, ih vs h⟩
      · exact .inr ⟨(optional_iff_absent? e).mpr ⟨v, ha⟩, ih vs h⟩
  · intro h
    induction es generalizing ts with
    | nil =>
      cases (h : ts = [])
      exact ⟨⟨⟩, .nil⟩
    | cons e es ih =>
      rcases h with ⟨us, ws, rfl, ⟨x, hx⟩, h⟩ | ⟨ho, h⟩
      · obtain ⟨vs, hs⟩ := ih h
        exact ⟨_, .present hx hs⟩
      · obtain ⟨v, hv⟩ := (optional_iff_absent? e).mp ho
        obtain ⟨vs, hs⟩ := ih h
        exact ⟨_, .absent hv hs⟩

theorem spans_nil {ts : List Token} : Spans g [] ts ↔ ts = [] := spans_iff_covers

theorem spans_append {es fs : List (Element γ)} {ts : List Token} :
    Spans g (es ++ fs) ts ↔ ∃ us ws, ts = us ++ ws ∧ Spans g es us ∧ Spans g fs ws := by
  simp only [spans_iff_covers, covers_append]

theorem spans_cons {e : Element γ} {es : List (Element γ)} {ts : List Token} :
    Spans g (e :: es) ts ↔
      (∃ us ws, ts = us ++ ws ∧ Matches g e.symbol us ∧ Spans g es ws) ∨
        (e.optional = true ∧ Spans g es ts) := by
  simp only [spans_iff_covers, Covers]

/-- The tokens of a kind are the texts of one token of that kind. -/
theorem matches_tok {k : Kind} {ts : List Token} :
    Matches g (.tok k) ts ↔ ∃ t, t.kind = k ∧ ts = [t] := by
  constructor
  · rintro ⟨v, h⟩
    cases h
    exact ⟨_, rfl, rfl⟩
  · rintro ⟨t, rfl, rfl⟩
    exact ⟨t, .tok t⟩

/-- Tokens belong to a head if they belong to the elements of one of its productions. -/
theorem matches_node {h : Head γ} {ts : List Token} :
    Matches g (.node h) ts ↔ ∃ p ∈ g.productions h, Spans g p.elements ts := by
  constructor
  · rintro ⟨v, hd⟩
    cases hd with
    | node hp hs => exact ⟨_, hp, _, hs⟩
  · rintro ⟨p, hp, vs, hs⟩
    exact ⟨_, .node hp hs⟩

/-- What holds of every token, and of the tokens of a production whenever it holds of its parts,
holds of all tokens that belong to a symbol. -/
theorem Matches.induction {P : Symbol γ → List Token → Prop} (tok : ∀ t : Token, P (.tok t.kind) [t])
    (node : ∀ (h : Head γ) (p : Production Sem (h.Value Sem)) (ts : List Token),
      p ∈ g.productions h → Covers (fun s us ↦ Matches g s us ∧ P s us) p.elements ts →
      P (.node h) ts) {s : Symbol γ} {ts : List Token} (hm : Matches g s ts) : P s ts := by
  obtain ⟨v, hd⟩ := hm
  refine Derives.induction (M := fun s ts _ ↦ P s ts) tok (fun h p ts vs hp hv ↦ ?_) hd
  refine node h p ts hp ?_
  generalize p.elements = es at vs hv
  induction es generalizing ts with
  | nil => exact hv
  | cons e es ih =>
    obtain ⟨v, vs⟩ := vs
    rcases hv with ⟨us, ws, x, rfl, ⟨hd, hx⟩, -, hv⟩ | ⟨ha, hv⟩
    · exact .inl ⟨us, ws, rfl, ⟨⟨x, hd⟩, hx⟩, ih ws vs hv⟩
    · exact .inr ⟨(optional_iff_absent? e).mpr ⟨v, ha⟩, ih ts vs hv⟩

end GuardLint.Grammar
