import GuardLint.Proofs.Grammar.Law

/-!
# The preferred derivation

Of the derivations of a token list, one is preferred: it takes the first production of a head that
fits, and divides the tokens among the elements so that the last element is as short as it can be,
then the one before it, and so on; an element that can be there is not left out. `Reads` says which
value that derivation has, without a word on how it is found.
-/

namespace GuardLint.Grammar

open Syntax (Kind Token)

variable {γ : Type} {Sem : γ → Type}

mutual

/-- The preferred derivation of a symbol on some tokens has a value. -/
inductive Reads (g : Grammar Sem) : (s : Symbol γ) → List Token → s.Value Sem → Prop where
  /-- A token stands for itself. -/
  | tok (t : Token) : Reads g (.tok t.kind) [t] t
  /-- Of the productions of a head, the first that fits is read. -/
  | node {h : Head γ} {choice : Nat} {p : Production Sem (h.Value Sem)} {ts : List Token}
      {vs : Values Sem p.elements} :
      (g.productions h)[choice]? = some p →
      (∀ q ∈ (g.productions h).take choice, ¬ Spans g q.elements ts) →
      ReadsAll g [] p.elements [] ts vs →
      Reads g (.node h) ts (p.value (Token.cover ts) vs)

/-- After the elements `front` on the tokens `pre`, other elements have values on the tokens that
follow. No element could begin later than it does. -/
inductive ReadsAll (g : Grammar Sem) : (front es : List (Element γ)) → (pre ts : List Token) →
    Values Sem es → Prop where
  /-- No elements are left for no tokens. -/
  | nil {front : List (Element γ)} {pre : List Token} : ReadsAll g front [] pre [] ⟨⟩
  /-- An element that is there begins as late as it can. -/
  | present {front : List (Element γ)} {e : Element γ} {es : List (Element γ)}
      {pre us ws : List Token} {v : e.symbol.Value Sem} {vs : Values Sem es} :
      Spans g front pre → Reads g e.symbol us v →
      (∀ xs ys, us = xs ++ ys → Spans g front (pre ++ xs) → Matches g e.symbol ys → xs = []) →
      ReadsAll g (front ++ [e]) es (pre ++ us) ws vs →
      ReadsAll g front (e :: es) pre (us ++ ws) (e.present v, vs)
  /-- An element is left out only if it could not be there. -/
  | absent {front : List (Element γ)} {e : Element γ} {es : List (Element γ)}
      {pre ts : List Token} {v : e.Value Sem} {vs : Values Sem es} :
      Spans g front pre → e.absent? = some v →
      (∀ xs ys, pre = xs ++ ys → Spans g front xs → ¬ Matches g e.symbol ys) →
      ReadsAll g (front ++ [e]) es pre ts vs →
      ReadsAll g front (e :: es) pre ts (v, vs)

end

variable {g : Grammar Sem}

mutual

/-- The preferred derivation is a derivation. -/
theorem Reads.derives : {s : Symbol γ} → {ts : List Token} → {v : s.Value Sem} → Reads g s ts v →
    Derives g s ts v
  | _, _, _, .tok t => .tok t
  | _, _, _, .node hp _ hr => .node (List.mem_of_getElem? hp) hr.derivesAll

/-- The parts of the preferred derivation are derivations. -/
theorem ReadsAll.derivesAll : {front es : List (Element γ)} → {pre ts : List Token} →
    {vs : Values Sem es} → ReadsAll g front es pre ts vs → DerivesAll g es ts vs
  | _, _, _, _, _, .nil => .nil
  | _, _, _, _, _, .present _ hv _ hr => .present hv.derives hr.derivesAll
  | _, _, _, _, _, .absent _ ha _ hr => .absent ha hr.derivesAll

end

theorem Reads.matches {s : Symbol γ} {ts : List Token} {v : s.Value Sem} (h : Reads g s ts v) :
    Matches g s ts := ⟨v, h.derives⟩

mutual

/-- What holds of every token, and of what a production reads whenever it holds of its parts, holds
of everything that is read. -/
theorem Reads.induction {M : (s : Symbol γ) → List Token → s.Value Sem → Prop}
    (tok : ∀ t : Token, M (.tok t.kind) [t] t)
    (node : ∀ (h : Head γ) (p : Production Sem (h.Value Sem)) (ts : List Token)
      (vs : Values Sem p.elements), p ∈ g.productions h →
      Reads g (.node h) ts (p.value (Token.cover ts) vs) →
      Parts (fun s us x ↦ Reads g s us x ∧ M s us x) p.elements ts vs →
      M (.node h) ts (p.value (Token.cover ts) vs)) :
    {s : Symbol γ} → {ts : List Token} → {v : s.Value Sem} → Reads g s ts v → M s ts v
  | _, _, _, .tok t => tok t
  | _, _, _, .node hp hfirst hr =>
    node _ _ _ _ (List.mem_of_getElem? hp) (.node hp hfirst hr) (ReadsAll.parts tok node hr)

private theorem ReadsAll.parts {M : (s : Symbol γ) → List Token → s.Value Sem → Prop}
    (tok : ∀ t : Token, M (.tok t.kind) [t] t)
    (node : ∀ (h : Head γ) (p : Production Sem (h.Value Sem)) (ts : List Token)
      (vs : Values Sem p.elements), p ∈ g.productions h →
      Reads g (.node h) ts (p.value (Token.cover ts) vs) →
      Parts (fun s us x ↦ Reads g s us x ∧ M s us x) p.elements ts vs →
      M (.node h) ts (p.value (Token.cover ts) vs)) :
    {front es : List (Element γ)} → {pre ts : List Token} → {vs : Values Sem es} →
      ReadsAll g front es pre ts vs → Parts (fun s us x ↦ Reads g s us x ∧ M s us x) es ts vs
  | _, _, _, _, _, .nil => rfl
  | _, _, _, _, _, .present _ hv _ hr =>
    .inl ⟨_, _, _, rfl, ⟨hv, Reads.induction tok node hv⟩, rfl, ReadsAll.parts tok node hr⟩
  | _, _, _, _, _, .absent _ ha _ hr => .inr ⟨ha, ReadsAll.parts tok node hr⟩

end

/-- Elements are read part by part. -/
theorem ReadsAll.parts_reads : {front es : List (Element γ)} → {pre ts : List Token} →
    {vs : Values Sem es} → ReadsAll g front es pre ts vs → Parts (Reads g) es ts vs
  | _, _, _, _, _, .nil => rfl
  | _, _, _, _, _, .present _ hv _ hr => .inl ⟨_, _, _, rfl, hv, rfl, hr.parts_reads⟩
  | _, _, _, _, _, .absent _ ha _ hr => .inr ⟨ha, hr.parts_reads⟩

/-- What is read for a head is what one of its productions builds of what is read for the parts. -/
theorem Reads.node_inv {h : Head γ} {ts : List Token} {v : h.Value Sem}
    (hr : Reads g (.node h) ts v) : ∃ p ∈ g.productions h, ∃ vs,
      v = p.value (Token.cover ts) vs ∧ Parts (Reads g) p.elements ts vs := by
  cases hr with
  | node hp _ hr => exact ⟨_, List.mem_of_getElem? hp, _, rfl, hr.parts_reads⟩

/-- The first production that fits is read. -/
theorem Reads.first_inv {h : Head γ} {ts : List Token} {v : h.Value Sem}
    (hr : Reads g (.node h) ts v) {choice : Nat} {p : Production Sem (h.Value Sem)}
    (hp : (g.productions h)[choice]? = some p)
    (hfirst : ∀ q ∈ (g.productions h).take choice, ¬ Spans g q.elements ts)
    (hs : Spans g p.elements ts) :
    ∃ vs, v = p.value (Token.cover ts) vs ∧ ReadsAll g [] p.elements [] ts vs := by
  cases hr with
  | @node _ c q _ vs hq hfirst' hr =>
    have hc : c = choice := by
      rcases Nat.lt_trichotomy c choice with hlt | heq | hlt
      · exact absurd ⟨_, hr.derivesAll⟩
          (hfirst q (List.mem_of_getElem? (by rwa [List.getElem?_take_of_lt hlt])))
      · exact heq
      · exact absurd hs
          (hfirst' p (List.mem_of_getElem? (by rwa [List.getElem?_take_of_lt hlt])))
    subst hc
    obtain rfl : q = p := Option.some.inj (hq.symm.trans hp)
    exact ⟨vs, rfl, hr⟩

/-- What is read for a token is the token. -/
theorem Reads.tok_eq {k : Kind} {ts : List Token} {t : Token} (h : Reads g (.tok k) ts t) :
    ts = [t] := by
  cases h
  rfl

theorem Reads.tok_kind {k : Kind} {ts : List Token} {t : Token} (h : Reads g (.tok k) ts t) :
    t.kind = k := by
  cases h
  rfl

/-- How the first of some elements is read, and the others after it. -/
theorem ReadsAll.cons_inv {front : List (Element γ)} {e : Element γ} {es : List (Element γ)}
    {pre ts : List Token} {v : e.Value Sem} {vs : Values Sem es}
    (h : ReadsAll g front (e :: es) pre ts (v, vs)) :
    (∃ us ws x, ts = us ++ ws ∧ v = e.present x ∧ Spans g front pre ∧ Reads g e.symbol us x ∧
      (∀ xs ys, us = xs ++ ys → Spans g front (pre ++ xs) → Matches g e.symbol ys → xs = []) ∧
      ReadsAll g (front ++ [e]) es (pre ++ us) ws vs) ∨
    (e.absent? = some v ∧ Spans g front pre ∧
      (∀ xs ys, pre = xs ++ ys → Spans g front xs → ¬ Matches g e.symbol ys) ∧
      ReadsAll g (front ++ [e]) es pre ts vs) := by
  cases h with
  | present hf hv hlast hr => exact .inl ⟨_, _, _, rfl, rfl, hf, hv, hlast, hr⟩
  | absent hf ha hnone hr => exact .inr ⟨ha, hf, hnone, hr⟩

/-! ### There is only one -/

/-- Tokens divided in two ways at the same or at a later place. -/
private theorem append_eq_cases {pre us pre' us' : List Token} (h : pre ++ us = pre' ++ us') :
    (∃ xs, us = xs ++ us' ∧ pre' = pre ++ xs) ∨ ∃ xs, us' = xs ++ us ∧ pre = pre' ++ xs := by
  rcases List.append_eq_append_iff.mp h with ⟨xs, h₁, h₂⟩ | ⟨xs, h₁, h₂⟩
  · exact .inl ⟨xs, h₂, h₁⟩
  · exact .inr ⟨xs, h₂, h₁⟩

mutual

/-- A token list has one preferred derivation at most. -/
theorem Reads.unique : {s : Symbol γ} → {ts : List Token} → {v w : s.Value Sem} →
    Reads g s ts v → Reads g s ts w → v = w
  | _, _, _, _, .tok t, hw => (List.cons.inj hw.tok_eq).1
  | _, _, _, _, .node hp hfirst hr, hw => by
    obtain ⟨ws, rfl, hr'⟩ := hw.first_inv hp hfirst ⟨_, hr.derivesAll⟩
    obtain ⟨-, -, rfl⟩ := ReadsAll.unique hr hr' rfl
    rfl

/-- The elements of a production divide its tokens in one way at most. -/
theorem ReadsAll.unique : {front es : List (Element γ)} → {pre ts pre' ts' : List Token} →
    {vs ws : Values Sem es} → ReadsAll g front es pre ts vs → ReadsAll g front es pre' ts' ws →
    pre ++ ts = pre' ++ ts' → pre = pre' ∧ ts = ts' ∧ vs = ws
  | _, _, _, _, _, _, _, _, .nil, hw, h => by
    cases hw
    rw [List.append_nil, List.append_nil] at h
    exact ⟨h, rfl, rfl⟩
  | _, _, _, _, _, _, _, w, @ReadsAll.present _ _ _ _ _ _ pre us _ _ _ hf hv hlast hr, hw, h => by
    obtain ⟨w, ws⟩ := w
    have hval : ∀ x, Reads g _ us x → _ = x := fun x hx ↦ Reads.unique hv hx
    rcases hw.cons_inv with ⟨us', ws', x, rfl, rfl, hf', hv', hlast', hr'⟩ |
      ⟨ha', hf', hnone, hr'⟩
    · rw [← List.append_assoc, ← List.append_assoc] at h
      obtain ⟨hpre, rfl, rfl⟩ := ReadsAll.unique hr hr' h
      rcases append_eq_cases hpre with ⟨xs, rfl, rfl⟩ | ⟨xs, rfl, rfl⟩
      · obtain rfl := hlast xs us' rfl hf' hv'.matches
        obtain rfl := hval x hv'
        exact ⟨(List.append_nil pre).symm, rfl, rfl⟩
      · obtain rfl := hlast' xs us rfl hf hv.matches
        obtain rfl := hval x hv'
        exact ⟨List.append_nil _, rfl, rfl⟩
    · rw [← List.append_assoc] at h
      obtain ⟨rfl, -, -⟩ := ReadsAll.unique hr hr' h
      exact absurd hv.matches (hnone _ _ rfl hf)
  | _, _, _, _, _, _, _, w, .absent hf ha hnone hr, hw, h => by
    obtain ⟨w, ws⟩ := w
    rcases hw.cons_inv with ⟨us', ws', x, rfl, rfl, hf', hv', -, hr'⟩ | ⟨ha', hf', -, hr'⟩
    · rw [← List.append_assoc] at h
      obtain ⟨rfl, -, -⟩ := ReadsAll.unique hr hr' h
      exact absurd hv'.matches (hnone _ _ rfl hf')
    · obtain ⟨rfl, rfl, rfl⟩ := ReadsAll.unique hr hr' h
      obtain rfl := Option.some.inj (ha.symm.trans ha')
      exact ⟨rfl, rfl, rfl⟩

end

/-! ### There is one -/

/-- How much there is to do for a head on some number of tokens. -/
def weight (g : Grammar Sem) (rank : γ → Nat) (h : Head γ) (length : Nat) : Nat :=
  length * g.states +
    match h with
    | .one c => 2 * rank c
    | .run c => 2 * rank c + 1

/-- A part of a production has less to do than the production. -/
theorem Ranked.weight_lt {rank : γ → Nat} (hr : Ranked g rank) (hg : Lawful g) {h : Head γ}
    (hh : h = .one g.start ∨ Inner g h) {p : Production Sem (h.Value Sem)}
    (hp : p ∈ g.productions h) {front back : List (Element γ)} {e : Element γ}
    (hes : p.elements = front ++ e :: back) {pre ws : List Token} (us : List Token)
    (hpre : Spans g front pre) (hws : Spans g back ws) {h' : Head γ} (hs : e.symbol = .node h') :
    weight g rank h' us.length < weight g rank h (pre ++ us ++ ws).length := by
  have hlt (h : Head γ) : weight g rank h 0 < g.states := by
    cases h with
    | one c => have := hr.lt_states c; simp only [weight]; omega
    | run c => have := hr.lt_states c; simp only [weight]; omega
  have hinner : ∀ f ∈ p.elements, ∀ h'', f.symbol = .node h'' → Inner g h'' :=
    fun f hf h'' hs ↦ hg.inner hh hp hf hs
  rw [List.length_append, List.length_append]
  by_cases hshort : 0 < pre.length + ws.length
  · -- The part has fewer tokens.
    have hmul : (us.length + 1) * g.states ≤ (pre.length + us.length + ws.length) * g.states :=
      Nat.mul_le_mul_right _ (by omega)
    have h0 := hlt h'
    rw [Nat.add_mul, Nat.one_mul] at hmul
    simp only [weight] at h0 ⊢
    omega
  · -- The part stands alone, so its rank is lower.
    have hpre0 : pre = [] := List.length_eq_zero_iff.mp (by omega)
    have hws0 : ws = [] := List.length_eq_zero_iff.mp (by omega)
    subst hpre0 hws0
    have hopt : ∀ f ∈ front ++ back, f.optional = true := by
      intro f hf
      rcases List.mem_append.mp hf with hf | hf
      · exact hpre.optional hg (fun f hf ↦ hinner f (by rw [hes]; exact List.mem_append_left _ hf))
          f hf
      · exact hws.optional hg (fun f hf ↦ hinner f (by
          rw [hes]; exact List.mem_append_right _ (List.mem_cons_of_mem e hf))) f hf
    have hrank : weight g rank h' 0 < weight g rank h 0 := by
      cases h with
      | one c =>
        cases h' with
        | one d =>
          have := hr.descends c p hp front e back hes hopt d (.inl hs)
          simp only [weight]
          omega
        | run d =>
          have := hr.descends c p hp front e back hes hopt d (.inr hs)
          simp only [weight]
          omega
      | run c =>
        simp only [productions, List.mem_cons, List.not_mem_nil, or_false] at hp
        rcases hp with rfl | rfl
        · obtain ⟨rfl, he⟩ := List.append_eq_singleton_iff.mp hes.symm |>.resolve_right
            (fun h ↦ by cases h.2)
          obtain ⟨rfl, rfl⟩ := List.cons.inj he
          cases hs
          simp only [weight]
          omega
        · -- One part of a longer run is never all of it.
          have hlen := congrArg List.length hes
          simp only [List.length_append, List.length_cons, List.length_nil] at hlen
          have hne : front ++ back ≠ [] := by
            intro h0
            have := congrArg List.length h0
            rw [List.length_append, List.length_nil] at this
            omega
          obtain ⟨f, hf⟩ := List.exists_mem_of_ne_nil _ hne
          have hmem : f ∈ front ++ e :: back := by
            rcases List.mem_append.mp hf with hf | hf
            · exact List.mem_append_left _ hf
            · exact List.mem_append_right _ (List.mem_cons_of_mem e hf)
          rw [← hes] at hmem
          have hof := hopt f hf
          simp only [List.mem_cons, List.not_mem_nil, or_false] at hmem
          rcases hmem with rfl | rfl <;> cases hof
    have h0 : 0 + us.length + 0 = us.length := by omega
    simp only [weight, List.length_nil, h0] at hrank ⊢
    omega

/-- Of the ways to cut a list in two of which the second part has a property, there is one whose
second part is shortest. -/
private theorem exists_last_cut {P : List Token → List Token → Prop} {ts : List Token}
    (h : ∃ xs ys, ts = xs ++ ys ∧ P xs ys) :
    ∃ xs ys, ts = xs ++ ys ∧ P xs ys ∧
      ∀ zs ws, ys = zs ++ ws → P (xs ++ zs) ws → zs = [] := by
  obtain ⟨xs, ys, rfl, hP⟩ := h
  induction hn : ys.length using Nat.strongRecOn generalizing xs ys with
  | ind n ih =>
    by_cases hlater : ∃ zs ws, ys = zs ++ ws ∧ P (xs ++ zs) ws ∧ zs ≠ []
    · obtain ⟨zs, ws, rfl, hP', hne⟩ := hlater
      have hlt : ws.length < n := by
        have := List.length_pos_iff.mpr hne
        rw [← hn, List.length_append]
        omega
      have := ih ws.length hlt (xs ++ zs) ws hP' rfl
      rwa [List.append_assoc] at this
    · refine ⟨xs, ys, rfl, hP, fun zs ws hys hP' ↦ ?_⟩
      apply Classical.byContradiction
      exact fun hne ↦ hlater ⟨zs, ws, hys, hP', hne⟩

/-- If each part has a preferred derivation, the elements have one. -/
private theorem exists_readsAll {es : List (Element γ)} (back : List (Element γ)) :
    ∀ (front : List (Element γ)) (ts : List Token), es = front ++ back → Spans g es ts →
      (∀ f e b, es = f ++ e :: b → ∀ xs us ws, ts = xs ++ us ++ ws → Spans g f xs →
        Spans g b ws → Matches g e.symbol us → ∃ v, Reads g e.symbol us v) →
      ∃ pre us vs, ts = pre ++ us ∧ Spans g front pre ∧ ReadsAll g front back pre us vs := by
  induction back with
  | nil =>
    rintro front ts rfl hs -
    rw [List.append_nil] at hs
    exact ⟨ts, [], ⟨⟩, (List.append_nil ts).symm, hs, .nil⟩
  | cons e back ih =>
    intro front ts hes hs hread
    obtain ⟨pre, ws, vs, rfl, hpre, hr⟩ := ih (front ++ [e]) ts (by rw [hes, List.append_assoc]; rfl)
      hs hread
    by_cases hthere : ∃ xs ys, pre = xs ++ ys ∧ Spans g front xs ∧ Matches g e.symbol ys
    · obtain ⟨xs, ys, rfl, ⟨hxs, hys⟩, hlast⟩ := exists_last_cut hthere
      obtain ⟨v, hv⟩ := hread front e back hes xs ys ws rfl hxs ⟨_, hr.derivesAll⟩ hys
      exact ⟨xs, ys ++ ws, _, by rw [List.append_assoc], hxs,
        .present hxs hv (fun zs us h hz hu ↦ hlast zs us h ⟨hz, hu⟩) hr⟩
    · obtain ⟨xs, ys, rfl, hxs, hys⟩ := spans_append.mp hpre
      rcases spans_cons.mp hys with ⟨us, zs, rfl, hu, hz⟩ | ⟨ho, hz⟩
      · rw [spans_nil.mp hz, List.append_nil] at hthere
        exact absurd ⟨xs, us, rfl, hxs, hu⟩ hthere
      · rw [spans_nil.mp hz, List.append_nil] at hr hthere ⊢
        obtain ⟨v, hv⟩ := (optional_iff_absent? e).mp ho
        exact ⟨xs, ws, _, rfl, hxs,
          .absent hxs hv (fun zs us h hz hu ↦ hthere ⟨zs, us, h, hz, hu⟩) hr⟩

/-- Of some productions that fit, one is the first. -/
private theorem exists_first {α : Type} {ps : List (Production Sem α)} {ts : List Token}
    (h : ∃ p ∈ ps, Spans g p.elements ts) : ∃ choice p, ps[choice]? = some p ∧
      Spans g p.elements ts ∧ ∀ q ∈ ps.take choice, ¬ Spans g q.elements ts := by
  induction ps with
  | nil =>
    obtain ⟨p, hp, -⟩ := h
    cases hp
  | cons q ps ih =>
    by_cases hq : Spans g q.elements ts
    · exact ⟨0, q, rfl, hq, fun r hr ↦ absurd hr (by rw [List.take_zero]; exact List.not_mem_nil)⟩
    · obtain ⟨p, hp, hs⟩ := h
      have hp' : p ∈ ps := (List.mem_cons.mp hp).resolve_left (fun h ↦ hq (h ▸ hs))
      obtain ⟨choice, p, hc, hs, hfirst⟩ := ih ⟨p, hp', hs⟩
      refine ⟨choice + 1, p, hc, hs, fun r hr ↦ ?_⟩
      rw [List.take_succ_cons, List.mem_cons] at hr
      rcases hr with rfl | hr
      · exact hq
      · exact hfirst r hr

/-- Tokens that belong to a symbol have a preferred derivation. -/
theorem Matches.exists_reads (hg : Lawful g) {s : Symbol γ} {ts : List Token}
    (hs : ∀ h, s = .node h → h = .one g.start ∨ Inner g h) (hm : Matches g s ts) :
    ∃ v, Reads g s ts v := by
  obtain ⟨rank, hrank⟩ := hg.ranked
  have key : ∀ n h ts, weight g rank h ts.length = n → (h = .one g.start ∨ Inner g h) →
      Matches g (.node h) ts → ∃ v, Reads g (.node h) ts v := by
    intro n
    induction n using Nat.strongRecOn with
    | ind n ih =>
      rintro h ts rfl hh hm
      obtain ⟨choice, p, hp, hspan, hfirst⟩ := exists_first (matches_node.mp hm)
      have hmem := List.mem_of_getElem? hp
      obtain ⟨pre, us, vs, rfl, hpre, hr⟩ := exists_readsAll p.elements [] ts rfl hspan
        fun f e b hes xs us ws hts hf hb hu ↦ by
          cases he : e.symbol with
          | tok k =>
            rw [he] at hu
            obtain ⟨t, rfl, rfl⟩ := matches_tok.mp hu
            exact ⟨t, .tok t⟩
          | node h' =>
            rw [he] at hu
            have he' : p.elements = f ++ e :: b := hes
            have hlt := hrank.weight_lt hg hh hmem he' us hf hb he
            rw [← hts] at hlt
            exact ih _ hlt h' us rfl
              (.inr (hg.inner hh hmem (he' ▸ List.mem_append_right f List.mem_cons_self) he)) hu
      rw [spans_nil.mp hpre] at hr hfirst ⊢
      exact ⟨_, .node hp hfirst hr⟩
  cases s with
  | tok k =>
    obtain ⟨t, rfl, rfl⟩ := matches_tok.mp hm
    exact ⟨t, .tok t⟩
  | node h => exact key _ h ts rfl (hs h rfl) hm

end GuardLint.Grammar
