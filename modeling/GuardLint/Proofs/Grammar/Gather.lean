import GuardLint.Proofs.Grammar.Preference

/-!
# What values hold

What the values of the elements of a production hold, side by side in their order, if it is known
what each value of a category holds. What a tree holds is laid out on its tokens in this way.
-/

namespace GuardLint.Grammar

open Syntax (Kind Token)

/-! ### Parts that may be missing -/

theorem flatMap_none {α β : Type} (xs : List α) : xs.flatMap (fun _ ↦ ([] : List β)) = [] := by
  simp

theorem flatMap_getD {α β : Type} (o : Option (List α)) (f : α → List β) :
    (o.getD []).flatMap f = o.toList.flatMap fun xs ↦ xs.flatMap f := by
  cases o <;> simp

/-! ### Parts side by side -/

variable {γ α : Type} {Sem : γ → Type} (f : (c : γ) → Sem c → List α)

/-- What the value of a symbol holds; a token holds nothing. -/
def Symbol.gather : (s : Symbol γ) → s.Value Sem → List α
  | .tok _ => fun _ ↦ []
  | .node (.one c) => f c
  | .node (.run c) => fun vs ↦ vs.flatMap (f c)

/-- What the value of an element holds. -/
def Element.gather : (e : Element γ) → e.Value Sem → List α
  | .need s => s.gather f
  | .maybe s => fun v ↦ v.toList.flatMap (s.gather f)
  | .many c => fun vs ↦ vs.flatMap (f c)

/-- What the values of some elements hold, in their order. -/
def gather : (es : List (Element γ)) → Values Sem es → List α
  | [], _ => []
  | e :: es, (v, vs) => e.gather f v ++ gather es vs

variable {f}

theorem Element.gather_present (e : Element γ) (v : e.symbol.Value Sem) :
    e.gather f (e.present v) = e.symbol.gather f v := by
  cases e with
  | need s => rfl
  | maybe s => exact List.append_nil _
  | many c => rfl

theorem Element.gather_absent {e : Element γ} {v : e.Value Sem} (h : e.absent? = some v) :
    e.gather f v = [] := by
  cases e with
  | need s => cases h
  | maybe s =>
    cases h
    rfl
  | many c =>
    cases h
    rfl

/-- A run holds what its parts hold. -/
theorem gather_run {g : Grammar Sem} {c : γ} {p : Production Sem (List (Sem c))}
    (hp : p ∈ g.productions (.run c)) (l : Location) (vs : Values Sem p.elements) :
    (p.value l vs).flatMap (f c) = gather f p.elements vs := by
  simp only [productions, List.mem_cons, List.not_mem_nil, or_false] at hp
  rcases hp with rfl | rfl <;>
    simp [gather, Element.gather, Symbol.gather, Production.value, Action.apply]

variable {R : List Token → List α → Prop}

/-- A relation between tokens and what is held on them extends from the parts of a production to all
of them. -/
theorem Parts.gather (nil : R [] []) (append : ∀ {us ws xs ys}, R us xs → R ws ys →
      R (us ++ ws) (xs ++ ys)) {es : List (Element γ)} {ts : List Token} {vs : Values Sem es}
    (hp : Parts (fun s us v ↦ R us (s.gather f v)) es ts vs) : R ts (gather f es vs) := by
  induction es generalizing ts with
  | nil =>
    cases (hp : ts = [])
    exact nil
  | cons e es ih =>
    obtain ⟨v, vs⟩ := vs
    rw [Grammar.gather]
    rcases hp with ⟨us, ws, x, rfl, hx, rfl, hp⟩ | ⟨ha, hp⟩
    · rw [Element.gather_present]
      exact append hx (ih hp)
    · rw [Element.gather_absent ha, List.nil_append]
      exact ih hp

/-- A relation between tokens and what is held on them holds of everything that is read, if it
extends from the parts of a production to what it builds. -/
theorem Reads.gather {g : Grammar Sem} (nil : ∀ ts, R ts [])
    (append : ∀ {us ws xs ys}, R us xs → R ws ys → R (us ++ ws) (xs ++ ys))
    (build : ∀ (c : γ) (p : Production Sem (Sem c)) (ts : List Token) (vs : Values Sem p.elements),
      p ∈ g.rules c → Matches g (.node (.one c)) ts → R ts (gather f p.elements vs) →
      R ts (f c (p.value (Token.cover ts) vs)))
    {s : Symbol γ} {ts : List Token} {v : s.Value Sem} (hr : Reads g s ts v) :
    R ts (s.gather f v) := by
  refine Reads.induction (M := fun s ts v ↦ R ts (s.gather f v)) (fun t ↦ nil [t]) ?_ hr
  intro h p ts vs hp hr hv
  have hparts : R ts (Grammar.gather f p.elements vs) :=
    (hv.mono fun _ _ _ _ h ↦ h.2).gather (nil []) append
  cases h with
  | one c => exact build c p ts vs hp hr.matches hparts
  | run c =>
    rw [← gather_run hp (Token.cover ts) vs] at hparts
    exact hparts

/-! ### Properties of parts -/

section

variable (P : (c : γ) → Sem c → Prop) (Q : Kind → Token → Prop)

/-- The value of a symbol has the property of its category, or of its kind of token. -/
def Symbol.All : (s : Symbol γ) → s.Value Sem → Prop
  | .tok k => Q k
  | .node (.one c) => P c
  | .node (.run c) => fun vs ↦ ∀ v ∈ vs, P c v

/-- The value of an element has the property of its category, as far as it is there. -/
def Element.All : (e : Element γ) → e.Value Sem → Prop
  | .need s => s.All P Q
  | .maybe s => fun v ↦ ∀ x ∈ v, s.All P Q x
  | .many c => fun vs ↦ ∀ v ∈ vs, P c v

/-- The values of some elements have the properties of their categories. -/
def All : (es : List (Element γ)) → Values Sem es → Prop
  | [], _ => True
  | e :: es, (v, vs) => e.All P Q v ∧ All es vs

end

variable {P : (c : γ) → Sem c → Prop} {Q : Kind → Token → Prop}

private theorem Element.all_present {e : Element γ} {v : e.symbol.Value Sem}
    (h : e.symbol.All P Q v) : e.All P Q (e.present v) := by
  cases e with
  | need s => exact h
  | maybe s => exact fun x hx ↦ (Option.mem_some.mp hx) ▸ h
  | many c => exact h

private theorem Element.all_absent {e : Element γ} {v : e.Value Sem} (h : e.absent? = some v) :
    e.All P Q v := by
  cases e with
  | need s => cases h
  | maybe s =>
    cases h
    exact fun x hx ↦ absurd hx (Option.not_mem_none x)
  | many c =>
    cases h
    exact fun v hv ↦ absurd hv List.not_mem_nil

/-- What a run is built of has the property of its category. -/
private theorem all_run {g : Grammar Sem} {c : γ} {p : Production Sem (List (Sem c))}
    (hp : p ∈ g.productions (.run c)) (l : Location) {vs : Values Sem p.elements}
    (h : All P Q p.elements vs) : ∀ v ∈ p.value l vs, P c v := by
  simp only [productions, List.mem_cons, List.not_mem_nil, or_false] at hp
  rcases hp with rfl | rfl
  · exact List.forall_mem_singleton.mpr h.1
  · exact List.forall_mem_append.mpr ⟨h.1, List.forall_mem_singleton.mpr h.2.1⟩

/-- If the tokens have the property of their kind, and what a production builds has that of its
category whenever its parts have theirs, then everything that is read has the property of its
category. -/
theorem Reads.all {g : Grammar Sem}
    (build : ∀ (c : γ) (p : Production Sem (Sem c)), p ∈ g.rules c → ∀ (l : Location)
      (vs : Values Sem p.elements), All P Q p.elements vs → P c (p.value l vs))
    {s : Symbol γ} {ts : List Token} {v : s.Value Sem} (hr : Reads g s ts v)
    (ht : ∀ t ∈ ts, Q t.kind t) : s.All P Q v := by
  refine Reads.induction (M := fun s ts v ↦ (∀ t ∈ ts, Q t.kind t) → s.All P Q v)
    (fun t ht ↦ ht t (List.mem_singleton_self t)) ?_ hr ht
  intro h p ts vs hp _ hv ht
  have hall : ∀ {es : List (Element γ)} {ts : List Token} {vs : Values Sem es},
      Parts (fun s us x ↦ Reads g s us x ∧ ((∀ t ∈ us, Q t.kind t) → s.All P Q x)) es ts vs →
      (∀ t ∈ ts, Q t.kind t) → All P Q es vs := by
    intro es
    induction es with
    | nil => exact fun _ _ ↦ trivial
    | cons e es ih =>
      rintro ts ⟨v, vs⟩ (⟨us, ws, x, rfl, hx, rfl, hp⟩ | ⟨ha, hp⟩) ht
      · obtain ⟨hus, hws⟩ := List.forall_mem_append.mp ht
        exact ⟨Element.all_present (hx.2 hus), ih hp hws⟩
      · exact ⟨Element.all_absent ha, ih hp ht⟩
  cases h with
  | one c => exact build c p hp (Token.cover ts) vs (hall hv ht)
  | run c => exact all_run hp (Token.cover ts) (hall hv ht)

end GuardLint.Grammar
