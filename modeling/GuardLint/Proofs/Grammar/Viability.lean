import GuardLint.Proofs.Grammar.Chart

/-!
# Viable prefixes

A chart stops at the first token that no text continues. If tokens belong to every category, an item
in a column can be completed: whatever tokens belong to its elements that are left, some further
ones make a sentence. So tokens that can all be taken begin a sentence. A token that cannot be taken
ends no beginning of a sentence, since every token of a sentence can be taken and a column depends
only on the tokens up to it and the next.
-/

namespace GuardLint.Grammar

open Syntax (Kind Token)

variable {γ : Type} {Sem : γ → Type} {g : Grammar Sem} {read tokens us : List Token}

/-! ### Productive grammars -/

/-- Tokens belong to every category. -/
def Productive (g : Grammar Sem) : Prop := ∀ c, ∃ ts, Matches g (.node (.one c)) ts

/-- Whether tokens are found to belong to a category in some rounds: it has a production whose
elements may be left out, are tokens or are found in one round less. -/
def builds (g : Grammar Sem) : (rounds : Nat) → γ → Bool
  | 0, _ => false
  | rounds + 1, c => (g.rules c).any fun p ↦ p.elements.all fun e ↦ e.optional ||
      match e.symbol with
      | .tok _ => true
      | .node (.one d) | .node (.run d) => builds g rounds d

private theorem exists_matches_tok (g : Grammar Sem) (k : Kind) : ∃ ts, Matches g (.tok k) ts :=
  ⟨[⟨k, "", .empty⟩], matches_tok.mpr ⟨_, rfl, rfl⟩⟩

/-- One of a category is a run of it. -/
private theorem matches_run {c : γ} {ts : List Token} (h : Matches g (.node (.one c)) ts) :
    Matches g (.node (.run c)) ts := by
  refine matches_node.mpr ⟨_, List.mem_cons_self, spans_cons.mpr (.inl ?_)⟩
  exact ⟨ts, [], (List.append_nil ts).symm, h, spans_nil.mpr rfl⟩

/-- Elements have tokens if those have that may not be left out. -/
private theorem exists_spans_of {es : List (Element γ)}
    (h : ∀ e ∈ es, e.optional = true ∨ ∃ ts, Matches g e.symbol ts) : ∃ ts, Spans g es ts := by
  induction es with
  | nil => exact ⟨[], spans_nil.mpr rfl⟩
  | cons e es ih =>
    obtain ⟨ws, hws⟩ := ih fun f hf ↦ h f (List.mem_cons_of_mem e hf)
    rcases h e List.mem_cons_self with ho | ⟨us, hus⟩
    · exact ⟨ws, spans_cons.mpr (.inr ⟨ho, hws⟩)⟩
    · exact ⟨us ++ ws, spans_cons.mpr (.inl ⟨us, ws, rfl, hus, hws⟩)⟩

private theorem exists_matches_of_builds {rounds : Nat} {c : γ} (h : g.builds rounds c = true) :
    ∃ ts, Matches g (.node (.one c)) ts := by
  induction rounds generalizing c with
  | zero => cases h
  | succ rounds ih =>
    obtain ⟨p, hp, hall⟩ := List.any_eq_true.mp h
    have hspans : ∃ ts, Spans g p.elements ts := by
      refine exists_spans_of fun e he ↦ ?_
      rcases Bool.or_eq_true_iff.mp (List.all_eq_true.mp hall e he) with ho | hs
      · exact .inl ho
      · refine .inr ?_
        split at hs
        · next k hsymbol => exact hsymbol ▸ exists_matches_tok g k
        · next d hsymbol => exact hsymbol ▸ ih hs
        · next d hsymbol =>
          obtain ⟨ts, hts⟩ := ih hs
          exact hsymbol ▸ ⟨ts, matches_run hts⟩
    obtain ⟨ts, hts⟩ := hspans
    exact ⟨ts, matches_node.mpr ⟨p, hp, hts⟩⟩

/-- A grammar is productive if tokens are found for every category. -/
theorem productive_of_builds (h : ∀ c, ∃ rounds, g.builds rounds c = true) : Productive g :=
  fun c ↦ exists_matches_of_builds (h c).choose_spec

theorem Productive.exists_spans (hp : Productive g) (es : List (Element γ)) :
    ∃ ts, Spans g es ts := by
  refine exists_spans_of fun e _ ↦ .inr ?_
  cases e.symbol with
  | tok k => exact exists_matches_tok g k
  | node h =>
    cases h with
    | one c => exact hp c
    | run c =>
      obtain ⟨ts, hts⟩ := hp c
      exact ⟨ts, matches_run hts⟩

/-! ### Prefixes -/

theorem Viable.left (h : Viable g (read ++ us)) : Viable g read := by
  obtain ⟨ws, hws⟩ := h
  exact ⟨us ++ ws, by rwa [← List.append_assoc]⟩

/-- The beginnings of a viable token list are viable. -/
theorem Viable.of_prefix (h : Viable g read) (hp : us <+: read) : Viable g us := by
  obtain ⟨ws, rfl⟩ := hp
  exact h.left

/-! ### Items that can be completed -/

/-- Whatever tokens belong to what is left of an item, behind those read they begin a sentence. -/
def Alive (g : Grammar Sem) (read : List Token) (x : Item γ) : Prop :=
  ∀ ts, Spans g (x.rest g) ts → Viable g (read ++ ts)

variable {x : Item γ} {e : Element γ} {es : List (Element γ)}

private theorem Alive.next (hx : Alive g read x) (hr : x.rest g = e :: es)
    (hm : Matches g e.symbol us) : Alive g (read ++ us) x.next := by
  intro ts hts
  obtain ⟨p, -, -, -, hnext⟩ := Item.exists_of_rest hr
  rw [hnext] at hts
  rw [List.append_assoc]
  exact hx _ (hr ▸ spans_cons.mpr (.inl ⟨us, ts, rfl, hm, hts⟩))

private theorem Alive.skip (hx : Alive g read x) (hr : x.rest g = e :: es)
    (ho : e.optional = true) : Alive g read x.next := by
  intro ts hts
  obtain ⟨p, -, -, -, hnext⟩ := Item.exists_of_rest hr
  rw [hnext] at hts
  exact hx _ (hr ▸ spans_cons.mpr (.inr ⟨ho, hts⟩))

private theorem Alive.begin (hp : Productive g) (hx : Alive g read x) (hr : x.rest g = e :: es)
    {h : Head γ} (he : e.symbol = .node h) {choice origin : Nat}
    {p : Production Sem (h.Value Sem)} (hchoice : (g.productions h)[choice]? = some p) :
    Alive g read ⟨h, choice, 0, origin⟩ := by
  intro ts hts
  have hm : Matches g e.symbol ts := by
    rw [Item.rest_eq hchoice] at hts
    exact he ▸ matches_node.mpr ⟨p, List.mem_of_getElem? hchoice, hts⟩
  -- The elements behind the head are completed somehow.
  obtain ⟨ws, hws⟩ := hp.exists_spans es
  have hviable := hx _ (hr ▸ spans_cons.mpr (.inl ⟨ts, ws, rfl, hm, hws⟩))
  rw [← List.append_assoc] at hviable
  exact hviable.left

private theorem alive_start {choice : Nat} {p : Production Sem (Sem g.start)}
    (hp : (g.rules g.start)[choice]? = some p) : Alive g [] ⟨.one g.start, choice, 0, 0⟩ := by
  intro ts hts
  rw [Item.rest_eq (x := ⟨.one g.start, choice, 0, 0⟩) hp] at hts
  refine ⟨[], ?_⟩
  rw [List.append_nil]
  exact matches_node.mpr ⟨p, List.mem_of_getElem? hp, hts⟩

variable [DecidableEq γ]

/-- The items of a column can be completed. -/
theorem alive_of_mem_column (hg : Lawful g) (hp : Productive g) {n : Nat}
    (hx : x ∈ column g tokens n) : Alive g (stretch tokens 0 n) x := by
  have hkept : Kept g tokens fun n x ↦ Alive g (stretch tokens 0 n) x := by
    constructor
    case start =>
      intro choice p hchoice
      rw [stretch_self]
      exact alive_start hchoice
    case take =>
      intro n t x e es ht hr he hx
      rw [← stretch_append (Nat.zero_le n) (Nat.le_succ n), stretch_succ ht]
      exact hx.next hr (he ▸ ⟨t, .tok t⟩)
    case skip => exact fun n x e es hr ho hx ↦ hx.skip hr ho
    case begin => exact fun n x h e es choice p hr he hchoice hx ↦ hx.begin hp hr he hchoice
    case complete =>
      intro n x z e es hgenuine hr hrz he hz
      rw [← stretch_append (Nat.zero_le x.origin) hgenuine.origin_le]
      exact hz.next hrz (he ▸ hgenuine.matches hr)
  exact ((column_saturated_of hg hkept n).sound x hx).2

/-- Tokens that lead to some item begin a sentence. -/
theorem viable_of_seedsAt (hg : Lawful g) (hp : Productive g) {n : Nat}
    (h : seedsAt g tokens n ≠ []) : Viable g (stretch tokens 0 n) := by
  obtain ⟨x, hx⟩ := List.exists_mem_of_ne_nil _ h
  obtain ⟨ts, hts⟩ := hp.exists_spans (x.rest g)
  exact (alive_of_mem_column hg hp ((column_saturated hg n).seeded x hx) ts hts).left

/-- Tokens each of which can be taken begin a sentence. -/
theorem viable_of_taken (hg : Lawful g) (hp : Productive g) (hle : us <+: tokens)
    (h : ∀ n < us.length, seedsAt g tokens (n + 1) ≠ []) : Viable g us := by
  have hseeds : seedsAt g tokens us.length ≠ [] := by
    cases hlen : us.length with
    | zero =>
      obtain ⟨ts, hts⟩ := hp g.start
      obtain ⟨p, hmem, -⟩ := matches_node.mp hts
      obtain ⟨choice, hchoice⟩ := List.getElem?_of_mem hmem
      rw [seedsAt]
      exact List.ne_nil_of_mem
        (List.mem_map.mpr ⟨(p, choice), List.mem_zipIdx_iff_getElem?.mpr hchoice, rfl⟩)
    | succ n => exact h n (by omega)
  have hviable := viable_of_seedsAt hg hp hseeds
  rwa [stretch, List.drop_zero, Nat.sub_zero, ← List.prefix_iff_eq_take.mp hle] at hviable

/-- The tokens of a chart begin a sentence. -/
theorem viable_of_chart (hg : Lawful g) (hp : Productive g) {c : Chart γ}
    (h : chart g tokens = .ok c) : Viable g tokens :=
  viable_of_taken hg hp (List.prefix_refl tokens) (chart_eq_ok.mp h).2

/-- The token at which a chart stops is the first that no text continues. -/
theorem viable_of_chart_eq_error (hg : Lawful g) (hp : Productive g) {t : Token}
    (h : chart g tokens = .error t) : ∃ before after, tokens = before ++ t :: after ∧
      Viable g before ∧ ¬ Viable g (before ++ [t]) := by
  rcases chart_cases g tokens with ⟨hok, -⟩ | ⟨before, t', after, htok, herror, hseeds, hnil⟩
  · rw [hok] at h
    cases h
  · obtain rfl : t' = t := Except.error.inj (herror.symm.trans h)
    refine ⟨before, after, htok, viable_of_taken hg hp ⟨_, htok.symm⟩ hseeds, ?_⟩
    rintro ⟨us, hsentence⟩
    -- Behind the same tokens a sentence would go on from some item.
    have htaken := (chart_eq_ok.mp (chart_of_sentence hg hsentence)).2 before.length (by simp)
    have hsame : ∀ i < before.length + 1, (before ++ [t'] ++ us)[i]? = tokens[i]? := by
      intro i hi
      have hlen : i < (before ++ [t']).length := by simpa using hi
      have hcut : tokens = before ++ [t'] ++ after := by simp [htok]
      rw [hcut, List.getElem?_append_left hlen, List.getElem?_append_left hlen]
    rw [(seedsAt_congr hsame).2] at htaken
    exact htaken hnil

end GuardLint.Grammar
