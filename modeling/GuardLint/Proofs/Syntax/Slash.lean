import GuardLint.Proofs.Syntax.Language
import GuardLint.Proofs.Syntax.Order
import GuardLint.Proofs.Syntax.Seam

/-!
# Slashes before stars

In a text that parses no slash stands right before a star, so nothing in it could be taken for the
beginning of a comment.
-/

namespace GuardLint.Syntax

open Grammar

/-- No slash among some tokens is followed by a star. -/
def Token.Unopened (ts : List Token) : Prop := ts.IsChain fun a b ↦ ¬ a.kind.Opens b.kind

/-- Whether every slash among some elements is followed by something that does not begin with a
star. -/
def divides : List (Element Category) → Bool
  | [] => true
  | .need (.tok (.mark .slash)) :: es =>
    (match es with
      | .need s :: _ =>
        !language.symbolMayStart (.mark .star) s && !language.symbolMayStart (.mark .timesAssign) s
      | _ => false) && divides es
  | e :: es => e.symbol != .tok (.mark .slash) && divides es

private theorem divides_rules : ∀ c ∈ Category.all, ∀ p ∈ c.rules,
    divides p.elements = true := by
  decide +kernel

private theorem divides_productions {h : Head Category}
    {p : Production Category.Value (h.Value Category.Value)} (hp : p ∈ language.productions h) :
    divides p.elements = true := by
  cases h with
  | one c => exact divides_rules c c.mem_all p hp
  | run c =>
    simp only [productions, List.mem_cons, List.not_mem_nil, or_false] at hp
    rcases hp with rfl | rfl <;> simp [divides, Element.symbol]

private theorem divides_cons {e : Element Category} {es : List (Element Category)}
    (h : divides (e :: es) = true) : divides es = true ∧
      (e.symbol = .tok (.mark .slash) → ∃ s es', es = .need s :: es' ∧
        language.symbolMayStart (.mark .star) s = false ∧
        language.symbolMayStart (.mark .timesAssign) s = false) := by
  unfold divides at h
  split at h
  · next heq => cases heq
  · next es' heq =>
    obtain ⟨rfl, rfl⟩ := List.cons.inj heq
    rw [Bool.and_eq_true] at h
    refine ⟨h.2, fun _ ↦ ?_⟩
    have hnext := h.1
    split at hnext
    · next s es'' =>
      simp only [Bool.and_eq_true, Bool.not_eq_true'] at hnext
      exact ⟨s, es'', rfl, hnext⟩
    · cases hnext
  · next e' es' _ heq =>
    obtain ⟨rfl, rfl⟩ := List.cons.inj heq
    rw [Bool.and_eq_true, bne_iff_ne] at h
    exact ⟨h.2, fun hs ↦ absurd hs h.1⟩

/-- What is shown of the tokens of a symbol. -/
private def Apart : Symbol Category → List Token → Prop
  | .tok k, ts => ∃ t, t.kind = k ∧ ts = [t]
  | .node _, ts => Token.Unopened ts ∧ ∀ t, ts.getLast? = some t → t.kind ≠ .mark .slash

private theorem getLast?_cases {us ws : List Token} {t : Token}
    (h : (us ++ ws).getLast? = some t) : ws.getLast? = some t ∨ ws = [] ∧ us.getLast? = some t := by
  cases ws with
  | nil => exact .inr ⟨rfl, by rwa [List.append_nil] at h⟩
  | cons w ws => exact .inl (by rwa [List.getLast?_append_of_ne_nil _ (List.cons_ne_nil w ws)] at h)

private theorem apart_covers {es : List (Element Category)} {ts : List Token}
    (hi : ∀ e ∈ es, ∀ h, e.symbol = .node h → Inner language h) (hd : divides es = true)
    (hc : Covers (fun s us ↦ Matches language s us ∧ Apart s us) es ts) :
    Token.Unopened ts ∧ ∀ t, ts.getLast? = some t → t.kind ≠ .mark .slash := by
  induction es generalizing ts with
  | nil =>
    cases (hc : ts = [])
    exact ⟨.nil, fun t ht ↦ by cases ht⟩
  | cons e es ih =>
    obtain ⟨hd', hnext⟩ := divides_cons hd
    have hi' : ∀ f ∈ es, ∀ h, f.symbol = .node h → Inner language h :=
      fun f hf ↦ hi f (List.mem_cons_of_mem e hf)
    rcases hc with ⟨us, ws, rfl, ⟨-, hu⟩, hc⟩ | ⟨-, hc⟩
    · obtain ⟨hws, hlast⟩ := ih hi' hd' hc
      cases hs : e.symbol with
      | node h =>
        rw [hs] at hu
        refine ⟨List.isChain_append.mpr ⟨hu.1, hws, fun a ha b _ hab ↦ ?_⟩, fun t ht ↦ ?_⟩
        · exact hu.2 a ha hab.1
        · rcases getLast?_cases ht with ht | ⟨-, ht⟩
          · exact hlast t ht
          · exact hu.2 t ht
      | tok k =>
        rw [hs] at hu
        obtain ⟨u, rfl, rfl⟩ := hu
        by_cases hslash : u.kind = .mark .slash
        · -- What follows is there, and does not begin with a star.
          obtain ⟨s, es', rfl, hstar, htimes⟩ := hnext (by rw [hs, hslash])
          rcases hc with ⟨xs, ys, rfl, ⟨hm, -⟩, -⟩ | ⟨ho, -⟩
          · have hne := hm.ne_nil language_lawful (hi' _ List.mem_cons_self)
            obtain ⟨x, xs, rfl⟩ := List.exists_cons_of_ne_nil hne
            have hstart := hm.symbolMayStart language_lawful
              fun h hs ↦ .inr (hi' _ List.mem_cons_self h hs)
            refine ⟨List.isChain_append.mpr ⟨.singleton u, hws, fun a ha b hb hab ↦ ?_⟩,
              fun t ht ↦ ?_⟩
            · obtain rfl := Option.some.inj hb
              rcases hab.2 with hk | hk
              · rw [hk] at hstart
                rw [Element.symbol, hstar] at hstart
                cases hstart
              · rw [hk] at hstart
                rw [Element.symbol, htimes] at hstart
                cases hstart
            · rcases getLast?_cases ht with ht | ⟨hnil, -⟩
              · exact hlast t ht
              · cases hnil
          · cases ho
        · refine ⟨List.isChain_append.mpr ⟨.singleton u, hws, fun a ha b _ hab ↦ ?_⟩,
            fun t ht ↦ ?_⟩
          · obtain rfl := Option.some.inj ha
            exact hslash hab.1
          · rcases getLast?_cases ht with ht | ⟨-, ht⟩
            · exact hlast t ht
            · obtain rfl := Option.some.inj ht
              exact hslash
    · exact ih hi' hd' hc

/-- In a text that parses no slash is followed by a star. -/
theorem Token.unopened_of_matches {h : Head Category} {ts : List Token}
    (hh : h = .one language.start ∨ Inner language h) (hm : Matches language (.node h) ts) :
    Token.Unopened ts := by
  have key := Matches.induction (g := language)
    (P := fun s ts ↦ (∀ h, s = .node h → h = .one language.start ∨ Inner language h) → Apart s ts)
    (fun t _ ↦ ⟨t, rfl, rfl⟩) (fun h p ts hp hc hh ↦ ?_) hm
  · exact (key fun h' hs ↦ by cases hs; exact hh).1
  · have hi : ∀ e ∈ p.elements, ∀ h', e.symbol = .node h' → Inner language h' :=
      fun e he h' hs ↦ language_lawful.inner (hh h rfl) hp he hs
    exact apart_covers hi (divides_productions hp)
      (hc.mono fun e he us hu ↦ ⟨hu.1, hu.2 fun h' hs ↦ .inr (hi e he h' hs)⟩)

/-! ### Pieces -/

/-- If no slash among the tokens of some pieces is followed by a star, none among the pieces is. -/
theorem unopened_of_tokens {ps : List (Lexeme.Class × List Char)} {at_ : Position}
    (h : Token.Unopened ((Lexeme.laid at_ ps).filterMap Lexeme.token?)) : Unopened ps := by
  induction ps generalizing at_ with
  | nil => exact .nil
  | cons p ps ih =>
    obtain ⟨kind, piece⟩ := p
    rw [Lexeme.laid] at h
    have htail : Unopened ps := by
      rw [List.filterMap_cons] at h
      split at h
      · exact ih h
      · exact ih h.tail
    refine List.isChain_cons.mpr ⟨fun q hq k l hk hl hkl ↦ ?_, htail⟩
    obtain ⟨kind', piece'⟩ := q
    obtain ⟨ps, rfl⟩ := List.head?_eq_some_iff.mp hq
    simp only at hk hl
    subst hk hl
    rw [Lexeme.laid] at h
    simp only [List.filterMap_cons, Lexeme.token?] at h
    exact (List.isChain_cons_cons.mp h).1 hkl

end GuardLint.Syntax
