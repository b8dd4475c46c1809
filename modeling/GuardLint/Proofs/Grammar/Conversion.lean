import GuardLint.Proofs.Grammar.Preference

/-!
# Reading converted tokens

Which tokens belong to a symbol depends on their kinds alone. So if tokens are converted and keep
their kinds, and what a production builds of converted parts is what it builds of the parts,
converted, then what is read from the converted tokens is what was read before, converted.
-/

namespace GuardLint.Grammar

open Syntax (Kind Token)

variable {γ : Type} {Sem : γ → Type} {g : Grammar Sem}

/-! ### Kinds -/

private theorem covers_of_kinds {P Q : Symbol γ → List Token → Prop}
    (hPQ : ∀ s ts us, P s ts → us.map Token.kind = ts.map Token.kind → Q s us)
    {es : List (Element γ)} {ts us : List Token} (hc : Covers P es ts)
    (hk : us.map Token.kind = ts.map Token.kind) : Covers Q es us := by
  induction es generalizing ts us with
  | nil =>
    cases (hc : ts = [])
    exact List.map_eq_nil_iff.mp hk
  | cons e es ih =>
    rcases hc with ⟨xs, ys, rfl, hx, hy⟩ | ⟨ho, hc⟩
    · rw [List.map_append] at hk
      obtain ⟨xs', ys', rfl, hx', hy'⟩ := List.map_eq_append_iff.mp hk
      exact .inl ⟨xs', ys', rfl, hPQ _ _ _ hx hx', ih hy hy'⟩
    · exact .inr ⟨ho, ih hc hk⟩

/-- Whether tokens belong to a symbol depends on their kinds. -/
theorem Matches.of_kinds {s : Symbol γ} {ts us : List Token} (hm : Matches g s ts)
    (hk : us.map Token.kind = ts.map Token.kind) : Matches g s us := by
  refine Matches.induction (P := fun s ts ↦ ∀ us : List Token,
    us.map Token.kind = ts.map Token.kind → Matches g s us) (fun t us hk ↦ ?_)
    (fun h p ts hp hc us hk ↦ ?_) hm us hk
  · obtain ⟨u, rfl, hu⟩ := List.map_eq_singleton_iff.mp hk
    exact matches_tok.mpr ⟨u, hu, rfl⟩
  · exact matches_node.mpr ⟨p, hp, spans_iff_covers.mpr
      (covers_of_kinds (fun s ts us h hk ↦ h.2 us hk) hc hk)⟩

/-- Whether tokens belong to some elements depends on their kinds. -/
theorem Spans.of_kinds {es : List (Element γ)} {ts us : List Token} (hs : Spans g es ts)
    (hk : us.map Token.kind = ts.map Token.kind) : Spans g es us :=
  spans_iff_covers.mpr
    (covers_of_kinds (fun _ _ _ hm hk ↦ hm.of_kinds hk) (spans_iff_covers.mp hs) hk)

/-! ### Values -/

section

variable (φ : (c : γ) → Sem c → Sem c) (move : Token → Token)

/-- The value of a symbol, converted. -/
def Symbol.convert : (s : Symbol γ) → s.Value Sem → s.Value Sem
  | .tok _ => move
  | .node (.one c) => φ c
  | .node (.run c) => List.map (φ c)

/-- The value of an element, converted. -/
def Element.convert : (e : Element γ) → e.Value Sem → e.Value Sem
  | .need s => s.convert φ move
  | .maybe s => Option.map (s.convert φ move)
  | .many c => List.map (φ c)

/-- The values of some elements, converted. -/
def convert : (es : List (Element γ)) → Values Sem es → Values Sem es
  | [], _ => ⟨⟩
  | e :: es, (v, vs) => (e.convert φ move v, convert es vs)

end

variable {φ : (c : γ) → Sem c → Sem c} {move : Token → Token}

theorem Element.convert_present (e : Element γ) (v : e.symbol.Value Sem) :
    e.convert φ move (e.present v) = e.present (e.symbol.convert φ move v) := by
  cases e <;> rfl

theorem Element.convert_absent {e : Element γ} {v : e.Value Sem} (h : e.absent? = some v) :
    e.convert φ move v = v := by
  cases e <;> cases h <;> rfl

/-- What a run builds of converted parts is what it builds of the parts, converted. -/
theorem convert_run {c : γ} {p : Production Sem (List (Sem c))} (hp : p ∈ g.productions (.run c))
    (l l' : Location) (vs : Values Sem p.elements) :
    (p.value l vs).map (φ c) = p.value l' (convert φ move p.elements vs) := by
  simp only [productions, List.mem_cons, List.not_mem_nil, or_false] at hp
  rcases hp with rfl | rfl
  · rfl
  · exact List.map_append

/-- A conversion keeps the kinds of tokens, and what the productions of a grammar build of converted
parts at another place is what they build, converted. -/
structure Converts (g : Grammar Sem) (φ : (c : γ) → Sem c → Sem c) (move : Token → Token)
    (place : Location → Location) : Prop where
  kind : ∀ t, (move t).kind = t.kind
  value : ∀ c, ∀ p ∈ g.rules c, ∀ (l : Location) (vs : Values Sem p.elements),
    φ c (p.value l vs) = p.value (place l) (convert φ move p.elements vs)

namespace Converts

variable {place : Location → Location} (hg : Converts g φ move place)
include hg

theorem kinds (ts : List Token) : (ts.map move).map Token.kind = ts.map Token.kind := by
  rw [List.map_map]
  exact List.map_congr_left fun t _ ↦ hg.kind t

private theorem head_value {h : Head γ} {p : Production Sem (h.Value Sem)}
    (hp : p ∈ g.productions h) (l : Location) (vs : Values Sem p.elements) :
    Symbol.convert φ move (.node h) (p.value l vs) =
      p.value (place l) (convert φ move p.elements vs) := by
  cases h with
  | one c => exact hg.value c p hp l vs
  | run c => exact convert_run hp l (place l) vs

mutual

/-- What is read from converted tokens is what was read from the tokens, converted. -/
theorem reads : {s : Symbol γ} → {ts : List Token} → {v : s.Value Sem} → Reads g s ts v →
    (∀ us, us <:+: ts → place (Token.cover us) = Token.cover (us.map move)) →
    Reads g s (ts.map move) (s.convert φ move v)
  | _, _, _, .tok t, _ => by
    have h : Reads g (.tok (move t).kind) [move t] (move t) := .tok (move t)
    rwa [hg.kind t] at h
  | _, ts, _, .node hp hfirst hr, hplace => by
    have hmem := List.mem_of_getElem? hp
    rw [head_value hg hmem, hplace ts (List.infix_refl ts)]
    exact .node hp (fun q hq hs ↦ hfirst q hq (hs.of_kinds (hg.kinds ts).symm))
      (readsAll hr hplace)

/-- What is read for some elements from converted tokens is what was read for them, converted. -/
theorem readsAll : {front es : List (Element γ)} → {pre ts : List Token} → {vs : Values Sem es} →
    ReadsAll g front es pre ts vs →
    (∀ us, us <:+: ts → place (Token.cover us) = Token.cover (us.map move)) →
    ReadsAll g front es (pre.map move) (ts.map move) (convert φ move es vs)
  | _, _, _, _, _, .nil, _ => .nil
  | _, _, _, _, _, @ReadsAll.present _ _ _ _ _ _ pre us ws _ _ hf hv hlast hr, hplace => by
    have hu := reads hv fun xs hx ↦ hplace xs (hx.trans (List.prefix_append us ws).isInfix)
    have hw := readsAll hr fun xs hx ↦ hplace xs (hx.trans (List.suffix_append us ws).isInfix)
    rw [List.map_append] at hw ⊢
    rw [convert, Element.convert_present]
    refine .present (hf.of_kinds (hg.kinds pre)) hu (fun xs ys hxy hs hm ↦ ?_) hw
    -- A later place where the element could begin was one before.
    obtain ⟨xs, ys, rfl, rfl, rfl⟩ := List.map_eq_append_iff.mp hxy
    rw [← List.map_append] at hs
    rw [hlast xs ys rfl (hs.of_kinds (hg.kinds _).symm) (hm.of_kinds (hg.kinds ys).symm)]
    rfl
  | _, _, _, _, _, @ReadsAll.absent _ _ _ _ _ _ pre _ _ _ hf ha hnone hr, hplace => by
    have hw := readsAll hr hplace
    rw [convert, Element.convert_absent ha]
    refine .absent (hf.of_kinds (hg.kinds pre)) ha (fun xs ys hxy hs hm ↦ ?_) hw
    obtain ⟨xs, ys, rfl, rfl, rfl⟩ := List.map_eq_append_iff.mp hxy
    exact hnone xs ys rfl (hs.of_kinds (hg.kinds xs).symm) (hm.of_kinds (hg.kinds ys).symm)

end

end Converts

end GuardLint.Grammar
