import GuardLint.Proofs.Grammar.Preference

/-!
# How a derivation divides its tokens

A derivation divides the tokens of each production among its elements. `DerivesBy` says of a
derivation that every such division obeys a law; the preferred derivation obeys every law that only
asks that the last element begin as late as it can.
-/

namespace GuardLint.Grammar

open Syntax (Kind Token)

variable {γ : Type} {Sem : γ → Type}

mutual

/-- A symbol derives a list of tokens with a value, and every production of the derivation divides
its tokens among its elements as a law has it. -/
inductive DerivesBy (g : Grammar Sem) (law : List (Element γ) → List (List Token) → Prop) :
    (s : Symbol γ) → List Token → s.Value Sem → Prop where
  /-- A token belongs to its kind. -/
  | tok (t : Token) : DerivesBy g law (.tok t.kind) [t] t
  /-- The elements of a production, one after the other, belong to its head. -/
  | node {h : Head γ} {p : Production Sem (h.Value Sem)} {parts : List (List Token)}
      {vs : Values Sem p.elements} :
      p ∈ g.productions h → law p.elements parts → DerivesParts g law p.elements parts vs →
      DerivesBy g law (.node h) parts.flatten (p.value (Token.cover parts.flatten) vs)

/-- Each of some elements derives one of some lists of tokens; an element that is left out derives
an empty one. -/
inductive DerivesParts (g : Grammar Sem) (law : List (Element γ) → List (List Token) → Prop) :
    (es : List (Element γ)) → List (List Token) → Values Sem es → Prop where
  /-- No elements have no parts. -/
  | nil : DerivesParts g law [] [] ⟨⟩
  /-- An element that is there derives the first part, and the others the rest. -/
  | present {e : Element γ} {es : List (Element γ)} {us : List Token} {parts : List (List Token)}
      {v : e.symbol.Value Sem} {vs : Values Sem es} :
      DerivesBy g law e.symbol us v → DerivesParts g law es parts vs →
      DerivesParts g law (e :: es) (us :: parts) (e.present v, vs)
  /-- The part of an element that is left out has no tokens. -/
  | absent {e : Element γ} {es : List (Element γ)} {parts : List (List Token)} {v : e.Value Sem}
      {vs : Values Sem es} :
      e.absent? = some v → DerivesParts g law es parts vs →
      DerivesParts g law (e :: es) ([] :: parts) (v, vs)

end

variable {g : Grammar Sem} {law : List (Element γ) → List (List Token) → Prop}

mutual

/-- A derivation under a law is a derivation. -/
theorem DerivesBy.derives : {s : Symbol γ} → {ts : List Token} → {v : s.Value Sem} →
    DerivesBy g law s ts v → Derives g s ts v
  | _, _, _, .tok t => .tok t
  | _, _, _, .node hp _ hd => .node hp hd.derivesAll

theorem DerivesParts.derivesAll : {es : List (Element γ)} → {parts : List (List Token)} →
    {vs : Values Sem es} → DerivesParts g law es parts vs → DerivesAll g es parts.flatten vs
  | _, _, _, .nil => .nil
  | _, _, _, .present hv hr => .present hv.derives hr.derivesAll
  | _, _, _, .absent ha hr => .absent ha hr.derivesAll

end

/-- After the elements `front` on the tokens `pre`, the last of some elements begins as late as it
can: wherever it could begin, it is there and begins there or later. -/
def EndsLate (g : Grammar Sem) (front : List (Element γ)) (pre : List Token)
    (es : List (Element γ)) (parts : List (List Token)) : Prop :=
  ∀ others e, es = others ++ [e] → ∀ xs ys, pre ++ parts.flatten = xs ++ ys →
    Spans g (front ++ others) xs → Matches g e.symbol ys →
    ∃ before last, parts = before ++ [last] ∧ Matches g e.symbol last ∧ last.length ≤ ys.length

/-- A law allows every division of a production whose last element begins as late as it can. -/
def Allows (g : Grammar Sem) (law : List (Element γ) → List (List Token) → Prop) : Prop :=
  ∀ {h : Head γ} {p : Production Sem (h.Value Sem)}, p ∈ g.productions h →
    ∀ {parts : List (List Token)}, EndsLate g [] [] p.elements parts → law p.elements parts

variable {front es : List (Element γ)} {e : Element γ} {pre us : List Token}
  {parts : List (List Token)}

/-- More elements put before others leave the last element where it is. -/
private theorem EndsLate.cons (hne : es ≠ [])
    (h : EndsLate g (front ++ [e]) (pre ++ us) es parts) :
    EndsLate g front pre (e :: es) (us :: parts) := by
  intro others f hes xs ys hts hxs hys
  obtain ⟨others, rfl⟩ : ∃ others', others = e :: others' := by
    cases others with
    | nil => exact absurd (List.cons.inj hes).2 hne
    | cons e' others' => exact ⟨others', by rw [(List.cons.inj hes).1]⟩
  rw [List.flatten_cons, ← List.append_assoc] at hts
  rw [List.append_cons] at hxs
  obtain ⟨before, last, rfl, hlast, hle⟩ := h others f (List.cons.inj hes).2 xs ys hts hxs hys
  exact ⟨us :: before, last, rfl, hlast, hle⟩

/-- An element with none after it begins as late as it can if no later place would do. -/
private theorem endsLate_singleton (hm : Matches g e.symbol us)
    (hlast : ∀ xs ys, us = xs ++ ys → Spans g front (pre ++ xs) → Matches g e.symbol ys → xs = []) :
    EndsLate g front pre [e] [us] := by
  intro others f hes xs ys hts hxs hys
  obtain ⟨rfl, hf⟩ := (List.append_eq_singleton_iff.mp hes.symm).resolve_right
    fun h ↦ List.cons_ne_nil _ _ h.2
  obtain rfl := List.head_eq_of_cons_eq hf
  rw [List.flatten_singleton] at hts
  rw [List.append_nil] at hxs
  refine ⟨[], us, rfl, hm, ?_⟩
  rcases List.append_eq_append_iff.mp hts with ⟨zs, rfl, rfl⟩ | ⟨zs, rfl, rfl⟩
  · rw [hlast zs ys rfl hxs hys]
    exact Nat.le_refl _
  · rw [List.length_append]
    exact Nat.le_add_left ..

/-- An element with none after it is left out only if it fits nowhere. -/
private theorem endsLate_absent
    (hnone : ∀ xs ys, pre = xs ++ ys → Spans g front xs → ¬ Matches g e.symbol ys) :
    EndsLate g front pre [e] [[]] := by
  intro others f hes xs ys hts hxs hys
  obtain ⟨rfl, hf⟩ := (List.append_eq_singleton_iff.mp hes.symm).resolve_right
    fun h ↦ List.cons_ne_nil _ _ h.2
  obtain rfl := List.head_eq_of_cons_eq hf
  rw [List.flatten_singleton, List.append_nil] at hts
  rw [List.append_nil] at hxs
  exact absurd hys (hnone xs ys hts hxs)

mutual

/-- The preferred derivation divides the tokens of each production so that its last element begins
as late as it can. -/
theorem Reads.derivesBy (hlaw : Allows g law) :
    {s : Symbol γ} → {ts : List Token} → {v : s.Value Sem} → Reads g s ts v →
      DerivesBy g law s ts v
  | _, _, _, .tok t => .tok t
  | _, _, _, .node hp _ hr => by
    obtain ⟨parts, rfl, hd, hlate⟩ := ReadsAll.derivesParts hlaw hr
    exact .node (List.mem_of_getElem? hp) (hlaw (List.mem_of_getElem? hp) hlate) hd

theorem ReadsAll.derivesParts (hlaw : Allows g law) :
    {front es : List (Element γ)} → {pre ts : List Token} → {vs : Values Sem es} →
      ReadsAll g front es pre ts vs → ∃ parts, parts.flatten = ts ∧
        DerivesParts g law es parts vs ∧ EndsLate g front pre es parts
  | _, _, _, _, _, .nil => ⟨[], rfl, .nil, fun others e hes ↦ by cases others <;> cases hes⟩
  | _, _ :: es, _, _, _, @ReadsAll.present _ _ _ _ _ _ _ us _ _ _ _ hv hlast hr => by
    obtain ⟨parts, rfl, hd, hlate⟩ := ReadsAll.derivesParts hlaw hr
    refine ⟨us :: parts, rfl, .present (Reads.derivesBy hlaw hv) hd, ?_⟩
    cases es with
    | nil =>
      cases hd
      exact endsLate_singleton hv.matches hlast
    | cons => exact hlate.cons (List.cons_ne_nil _ _)
  | _, _ :: es, pre, _, _, .absent _ ha hnone hr => by
    obtain ⟨parts, rfl, hd, hlate⟩ := ReadsAll.derivesParts hlaw hr
    refine ⟨[] :: parts, rfl, .absent ha hd, ?_⟩
    cases es with
    | nil =>
      cases hd
      exact endsLate_absent hnone
    | cons =>
      refine EndsLate.cons (List.cons_ne_nil _ _) ?_
      rwa [List.append_nil]

end

end GuardLint.Grammar
