import Mathlib.Algebra.Ring.Int.Defs
import GuardLint.Proofs.Syntax.Language

/-!
# How deep tokens stand

Tokens that open brackets lead deeper into a text, and those that close them lead back. If what is
opened and closed in each production is the same, in this order, then so it is in every part of a
text. A token outside the brackets of a part is one of those that a production puts there, and the
productions on the way down to it are such that what they are in stands outside brackets too.
-/

namespace GuardLint

/-- The category that a head is about. -/
def Grammar.Head.category {γ : Type} : Head γ → γ
  | .one c | .run c => c

namespace Syntax

open Grammar

variable {w : Kind → Int}

namespace Token

/-- How deep some tokens lead, if each kind of token leads deeper by some number. -/
def height (w : Kind → Int) (ts : List Token) : Int := (ts.map fun t ↦ w t.kind).sum

@[simp] theorem height_nil : height w [] = 0 := rfl

@[simp] theorem height_cons (t : Token) (ts : List Token) :
    height w (t :: ts) = w t.kind + height w ts := by
  simp [height]

@[simp] theorem height_append (us vs : List Token) :
    height w (us ++ vs) = height w us + height w vs := by
  simp [height]

/-- Tokens that lead back as far as they lead deeper, and never further. -/
structure Even (w : Kind → Int) (ts : List Token) : Prop where
  low : ∀ us, us <+: ts → 0 ≤ height w us
  closed : height w ts = 0

/-- Of the tokens from an opening bracket to a closing one only the first stands outside them. -/
theorem Even.eq_nil_of_bracketed {ts us : List Token} {l r u : Token} (hts : Even w ts)
    (hl : 0 < w l.kind) (hu : us ++ [u] <+: l :: (ts ++ [r])) (h0 : height w us = 0) : us = [] := by
  cases us with
  | nil => rfl
  | cons x us =>
    obtain ⟨rfl, -⟩ := List.cons_prefix_cons.mp hu
    have hxs : us ++ [u] <+: ts ++ [r] := (List.cons_prefix_cons.mp hu).2
    have hlen : us.length ≤ ts.length := by
      have := hxs.length_le
      rw [List.length_append, List.length_append, List.length_singleton] at this
      exact Nat.le_of_add_le_add_right this
    have hus : us <+: ts := List.prefix_of_prefix_length_le ((List.prefix_append us [u]).trans hxs)
      (List.prefix_append ts [r]) hlen
    have hlow := hts.low us hus
    rw [height_cons] at h0
    omega

end Token

/-! ### Productions -/

/-- Whether the brackets among some elements that follow others open and close in turn. -/
def level (w : Kind → Int) (depth : Int) : List (Element Category) → Bool
  | [] => depth == 0
  | .need (.tok k) :: es => 0 ≤ depth + w k && level w (depth + w k) es
  | .maybe (.tok k) :: es => w k == 0 && level w depth es
  | _ :: es => level w depth es

/-- The symbols among some elements that stand outside brackets. -/
def surface (w : Kind → Int) (depth : Int) : List (Element Category) → List (Symbol Category)
  | [] => []
  | .need (.tok k) :: es => (if depth = 0 then [.tok k] else []) ++ surface w (depth + w k) es
  | e :: es => (if depth = 0 then [e.symbol] else []) ++ surface w depth es

/-- By how much an element leads deeper. -/
private def deepening (w : Kind → Int) : Element Category → Int
  | .need (.tok k) => w k
  | _ => 0

variable {d : Int} {e : Element Category} {es : List (Element Category)} {ts us vs : List Token}
  {t : Token}

private theorem level_cons (hd : 0 ≤ d) (hl : level w d (e :: es) = true) :
    0 ≤ d + deepening w e ∧ level w (d + deepening w e) es = true := by
  rcases e with (k | h) | (k | h) | c
  · simpa only [level, deepening, Bool.and_eq_true, decide_eq_true_eq] using hl
  all_goals simp only [deepening, Int.add_zero]
  · exact ⟨hd, hl⟩
  · exact ⟨hd, (Bool.and_eq_true_iff.mp hl).2⟩
  · exact ⟨hd, hl⟩
  · exact ⟨hd, hl⟩

private theorem deepening_of_optional (ho : e.optional = true) : deepening w e = 0 := by
  cases e with
  | need s => cases ho
  | maybe s => rfl
  | many c => rfl

private theorem surface_cons : surface w (d + deepening w e) es ⊆ surface w d (e :: es) := by
  rcases e with (k | h) | s | c
  · exact List.subset_append_right _ _
  all_goals
    simp only [deepening, Int.add_zero]
    exact List.subset_append_right _ _

private theorem mem_surface (hd : d = 0) : e.symbol ∈ surface w d (e :: es) := by
  rcases e with (k | h) | s | c
  all_goals simp only [surface, if_pos hd, Element.symbol, List.mem_append, List.mem_singleton, true_or]

/-- The brackets of all productions open and close in turn. -/
def Levels (w : Kind → Int) : Prop := ∀ c ∈ Category.all, ∀ p ∈ c.rules, level w 0 p.elements = true

/-- The brackets of a production open and close in turn. -/
theorem Levels.production (hw : Levels w) {h : Head Category}
    {p : Production Category.Value (h.Value Category.Value)} (hp : p ∈ language.productions h) :
    level w 0 p.elements = true := by
  cases h with
  | one c => exact hw c c.mem_all p hp
  | run c =>
    simp only [productions, List.mem_cons, List.not_mem_nil, or_false] at hp
    rcases hp with rfl | rfl <;> rfl

/-- What is shown of the tokens of a symbol. -/
private def Evens (w : Kind → Int) : Symbol Category → List Token → Prop
  | .tok k, ts => ∃ t, t.kind = k ∧ ts = [t]
  | .node _, ts => Token.Even w ts

/-- The tokens of an element lead as deep as it says, and nowhere back. -/
private theorem part_heights (hd : 0 ≤ d) (hl : level w d (e :: es) = true)
    (hu : Evens w e.symbol us) :
    (∀ ps, ps <+: us → 0 ≤ d + Token.height w ps) ∧ Token.height w us = deepening w e := by
  have hnode : Token.Even w us → deepening w e = 0 →
      (∀ ps, ps <+: us → 0 ≤ d + Token.height w ps) ∧ Token.height w us = deepening w e :=
    fun hu h0 ↦ ⟨fun ps hp ↦ Int.add_nonneg hd (hu.low ps hp), hu.closed.trans h0.symm⟩
  have htok : ∀ t : Token, us = [t] → w t.kind = deepening w e →
      (∀ ps, ps <+: us → 0 ≤ d + Token.height w ps) ∧ Token.height w us = deepening w e := by
    rintro t rfl ht
    have hheight : Token.height w [t] = deepening w e := by simpa using ht
    refine ⟨fun ps hp ↦ ?_, hheight⟩
    rcases List.prefix_cons_iff.mp hp with rfl | ⟨qs, rfl, hq⟩
    · rwa [Token.height_nil, Int.add_zero]
    · rw [List.prefix_nil.mp hq, hheight]
      exact (level_cons hd hl).1
  rcases e with (k | h) | (k | h) | c
  · obtain ⟨t, rfl, rfl⟩ := hu
    exact htok t rfl rfl
  · exact hnode hu rfl
  · obtain ⟨t, rfl, rfl⟩ := hu
    simp only [level, Bool.and_eq_true, beq_iff_eq] at hl
    exact htok t rfl hl.1
  · exact hnode hu rfl
  · exact hnode hu rfl

/-- What stands before a token of a symbol leads nowhere back. -/
private theorem height_nonneg {s : Symbol Category} (h : Evens w s (us ++ t :: vs)) :
    0 ≤ Token.height w us := by
  cases s with
  | tok k =>
    obtain ⟨_, -, heq⟩ := h
    rcases List.append_eq_singleton_iff.mp heq with ⟨rfl, -⟩ | ⟨-, hnil⟩
    · exact Int.le_refl 0
    · cases hnil
  | node h' => exact h.low us (List.prefix_append us _)

private theorem even_covers (hd : 0 ≤ d) (hl : level w d es = true) (hc : Covers (Evens w) es ts) :
    (∀ ps, ps <+: ts → 0 ≤ d + Token.height w ps) ∧ d + Token.height w ts = 0 := by
  induction es generalizing d ts with
  | nil =>
    cases (hc : ts = [])
    obtain rfl : d = 0 := by simpa [level] using hl
    refine ⟨fun ps hp ↦ ?_, rfl⟩
    rw [List.prefix_nil.mp hp]
    exact Int.le_refl 0
  | cons e es ih =>
    obtain ⟨hd', hl'⟩ := level_cons hd hl
    rcases hc with ⟨us, vs, rfl, hu, hc⟩ | ⟨ho, hc⟩
    · obtain ⟨hlow, hheight⟩ := part_heights hd hl hu
      obtain ⟨hlow', hclosed⟩ := ih hd' hl' hc
      rw [← hheight] at hlow' hclosed
      refine ⟨fun ps hp ↦ ?_, by rwa [Token.height_append, ← Int.add_assoc]⟩
      obtain ⟨zs, hz⟩ := hp
      rcases List.append_eq_append_iff.mp hz with ⟨xs, rfl, -⟩ | ⟨xs, rfl, rfl⟩
      · exact hlow ps (List.prefix_append ps xs)
      · rw [Token.height_append, ← Int.add_assoc]
        exact hlow' xs (List.prefix_append xs zs)
    · rw [deepening_of_optional ho, Int.add_zero] at hd' hl'
      exact ih hd' hl' hc

/-- The brackets of a part of a text open and close in turn. -/
theorem even_of_matches (hw : Levels w) {h : Head Category}
    (hm : Matches language (.node h) ts) : Token.Even w ts := by
  refine Matches.induction (P := Evens w) (fun t ↦ ⟨t, rfl, rfl⟩) (fun h p ts hp hc ↦ ?_) hm
  have hl := even_covers (Int.le_refl 0) (hw.production hp) (hc.mono fun _ _ _ h ↦ h.2)
  simp only [Int.zero_add] at hl
  exact ⟨hl.1, hl.2⟩

private theorem evens_of_matches (hw : Levels w) {s : Symbol Category}
    (hm : Matches language s ts) : Evens w s ts := by
  cases s with
  | tok k => exact matches_tok.mp hm
  | node h => exact even_of_matches hw hm

/-! ### Outside brackets -/

/-- The symbols that some elements may begin with. -/
def firstSymbols : List (Element Category) → List (Symbol Category)
  | [] => []
  | e :: es => e.symbol :: if e.optional then firstSymbols es else []

theorem mem_firstSymbols {front back : List (Element Category)}
    (ho : ∀ f ∈ front, f.optional = true) : e.symbol ∈ firstSymbols (front ++ e :: back) := by
  induction front with
  | nil => exact List.mem_cons_self
  | cons f front ih =>
    rw [List.cons_append, firstSymbols, if_pos (ho f List.mem_cons_self)]
    exact List.mem_cons_of_mem _ (ih fun f hf ↦ ho f (List.mem_cons_of_mem _ hf))

/-- Where a token stands that some elements have outside brackets: in one of them, behind the tokens
of those before. -/
inductive Token.Lies (P : Symbol Category → List Token → Prop) (w : Kind → Int) (depth : Int)
    (es : List (Element Category)) (e : Element Category) (t : Token) :
    List Token → List Token → Prop where
  | intro {front back : List (Element Category)} {before left right after : List Token} :
    es = front ++ e :: back → e.symbol ∈ surface w depth es → Covers P front before →
    P e.symbol (left ++ t :: right) → Covers P back after → Token.height w left = 0 →
    Lies P w depth es e t (before ++ left) (right ++ after)

variable {P : Symbol Category → List Token → Prop} {f : Element Category} {xs : List Token}

private theorem Token.Lies.behind (h : Token.Lies P w (d + deepening w e) es f t us vs)
    (hx : Covers P [e] xs) : Token.Lies P w d (e :: es) f t (xs ++ us) vs := by
  obtain ⟨rfl, hf, hfront, hhere, hback, hflat⟩ := h
  rw [← List.append_assoc]
  exact .intro (List.cons_append ..).symm (surface_cons hf)
    (covers_append.mpr ⟨xs, _, rfl, hx, hfront⟩) hhere hback hflat

theorem Token.Lies.mono {Q : Symbol Category → List Token → Prop} (h : Token.Lies P w d es e t us vs)
    (hPQ : ∀ s us, P s us → Q s us) : Token.Lies Q w d es e t us vs := by
  obtain ⟨hes, he, hfront, hhere, hback, hflat⟩ := h
  exact .intro hes he (hfront.mono fun e _ ↦ hPQ e.symbol) (hPQ _ _ hhere)
    (hback.mono fun e _ ↦ hPQ e.symbol) hflat

/-- A token of some elements that stands outside brackets is in an element that does. -/
private theorem exists_lies_covers (hP : ∀ s us, P s us → Evens w s us) (hd : 0 ≤ d)
    (hl : level w d es = true) (hc : Covers P es (us ++ t :: vs))
    (h0 : d + Token.height w us = 0) : ∃ e, Token.Lies P w d es e t us vs := by
  induction es generalizing d us with
  | nil => cases (List.append_eq_nil_iff.mp hc).2
  | cons e es ih =>
    obtain ⟨hd', hl'⟩ := level_cons hd hl
    rcases hc with ⟨xs, ys, heq, hx, hc⟩ | ⟨ho, hc⟩
    · -- The token is behind the first element, or in it.
      have hbehind : ∀ zs, us = xs ++ zs → ys = zs ++ t :: vs →
          ∃ f, Token.Lies P w d (e :: es) f t us vs := by
        rintro zs rfl rfl
        rw [Token.height_append, ← Int.add_assoc, (part_heights hd hl (hP _ _ hx)).2] at h0
        obtain ⟨f, hf⟩ := ih hd' hl' hc h0
        exact ⟨f, hf.behind (.inl ⟨xs, [], (List.append_nil xs).symm, hx, rfl⟩)⟩
      rcases List.append_eq_append_iff.mp heq with ⟨zs, rfl, hz⟩ | ⟨zs, hus, hys⟩
      · cases zs with
        | nil => exact hbehind [] (by simp) hz.symm
        | cons z zs =>
          obtain ⟨rfl, rfl⟩ := List.cons.inj hz
          have hu := height_nonneg (hP _ _ hx)
          have hhead : Token.Lies P w d (e :: es) e t ([] ++ us) (zs ++ ys) :=
            .intro (List.nil_append _).symm (mem_surface (by omega)) rfl hx hc (by omega)
          exact ⟨e, hhead⟩
      · exact hbehind zs hus hys
    · obtain ⟨f, hf⟩ := ih hd' hl' hc (by rwa [deepening_of_optional ho, Int.add_zero])
      have hnone : Covers P [e] [] := .inr ⟨ho, rfl⟩
      exact ⟨f, hf.behind hnone⟩

/-! ### On the way down -/

/-- Whether the categories that stand outside brackets in productions of some categories are among
these, or among some others. -/
def encloses (w : Kind → Int) (cs stops : List Category) : Bool :=
  cs.all fun c ↦ (Category.rules c).all fun p ↦ (surface w 0 p.elements).all fun
    | .tok _ => true
    | .node h => cs.contains h.category || stops.contains h.category

/-- Whether the categories that productions of some categories may begin with are among these. -/
def beginsWithin (cs : List Category) : Bool :=
  cs.all fun c ↦ (Category.rules c).all fun p ↦ (firstSymbols p.elements).all fun
    | .tok _ => true
    | .node h => cs.contains h.category

/-- Whether the tokens that stand outside brackets in productions of some categories have kinds that
are allowed. -/
def shows (w : Kind → Int) (cs : List Category) (ok : Kind → Bool) : Bool :=
  cs.all fun c ↦ (Category.rules c).all fun p ↦ (surface w 0 p.elements).all fun
    | .tok k => ok k
    | .node _ => true

variable {cs stops : List Category}

private theorem encloses_production (hc : encloses w cs stops = true) {h h' : Head Category}
    (hh : h.category ∈ cs) {p : Production Category.Value (h.Value Category.Value)}
    (hp : p ∈ language.productions h) (hs : .node h' ∈ surface w 0 p.elements) :
    h'.category ∈ cs ∨ h'.category ∈ stops := by
  cases h with
  | one c =>
    have hall := List.all_eq_true.mp (List.all_eq_true.mp (List.all_eq_true.mp hc c hh) p hp) _ hs
    simpa [Bool.or_eq_true, List.contains_iff_mem] using hall
  | run c =>
    left
    simp only [productions, List.mem_cons, List.not_mem_nil, or_false] at hp
    rcases hp with rfl | rfl <;> simp [surface, Element.symbol] at hs
    · exact hs ▸ hh
    · rcases hs with rfl | rfl <;> exact hh

private theorem beginsWithin_production (hc : beginsWithin cs = true) {h h' : Head Category}
    (hh : h.category ∈ cs) {p : Production Category.Value (h.Value Category.Value)}
    (hp : p ∈ language.productions h) (hs : .node h' ∈ firstSymbols p.elements) :
    h'.category ∈ cs := by
  cases h with
  | one c =>
    have hall := List.all_eq_true.mp (List.all_eq_true.mp (List.all_eq_true.mp hc c hh) p hp) _ hs
    simpa [List.contains_iff_mem] using hall
  | run c =>
    simp only [productions, List.mem_cons, List.not_mem_nil, or_false] at hp
    rcases hp with rfl | rfl <;> simp [firstSymbols, Element.symbol, Element.optional] at hs <;>
      exact hs ▸ hh

/-- Where a token outside the brackets of a text stands: in a production of one of the categories on
the way down to it, as one of its tokens or in a category at which the way ends. If no token stands
before this production, the categories on the way begin each other. -/
inductive Token.Found (w : Kind → Int) (cs stops : List Category) (h : Head Category) (t : Token) :
    List Token → List Token → Prop where
  | intro {c : Category} {p : Production Category.Value c.Value} {e : Element Category}
      {pre mid after post : List Token} :
    c ∈ cs → p ∈ c.rules → Token.Lies (Matches language) w 0 p.elements e t mid after →
    (e.symbol = .tok t.kind ∨ ∃ h', e.symbol = .node h' ∧ h'.category ∈ stops) →
    (∀ fs, beginsWithin fs = true → h.category ∈ fs → pre = [] → c ∈ fs) →
    Found w cs stops h t (pre ++ mid) (after ++ post)

private theorem Token.Found.down {h h' : Head Category} {before after : List Token}
    (hf : Token.Found w cs stops h' t us vs)
    (hfirst : before = [] → ∀ fs, beginsWithin fs = true → h.category ∈ fs → h'.category ∈ fs) :
    Token.Found w cs stops h t (before ++ us) (vs ++ after) := by
  obtain @⟨c, p, e, pre, mid, after', post, hc, hp, hl, hsymbol, hstart⟩ := hf
  have hfound : Token.Found w cs stops h t ((before ++ pre) ++ mid) (after' ++ (post ++ after)) :=
    .intro hc hp hl hsymbol fun fs hfs hmem hnil ↦ by
      obtain ⟨hbefore, hpre⟩ := List.append_eq_nil_iff.mp hnil
      exact hstart fs hfs (hfirst hbefore fs hfs hmem) hpre
  simpa only [List.append_assoc] using hfound

/-- A token outside the brackets of a text is found on a way down through categories that stand
outside brackets. -/
theorem Token.found (hw : Levels w) (hc : encloses w cs stops = true)
    (hin : .compilationUnit ∉ cs) {h : Head Category} (hh : h.category ∈ cs)
    (hm : Matches language (.node h) (us ++ t :: vs)) (h0 : Token.height w us = 0) :
    Token.Found w cs stops h t us vs := by
  refine Matches.induction (g := language)
    (P := fun s ts ↦ ∀ h, s = .node h → h.category ∈ cs → ∀ us vs, ts = us ++ t :: vs →
      Token.height w us = 0 → Token.Found w cs stops h t us vs)
    (fun _ _ hs ↦ by cases hs) (fun h p ts hp hcov h' hs hh us vs heq h0 ↦ ?_) hm h rfl hh us vs rfl h0
  cases hs
  subst heq
  have hinner : Inner language h := by
    cases h with
    | one c | run c => exact fun hc : c = .compilationUnit ↦ hin (hc ▸ hh)
  obtain ⟨e, hlies⟩ := exists_lies_covers (fun s us hu ↦ evens_of_matches hw hu.1) (Int.le_refl 0)
    (hw.production hp) hcov (by rwa [Int.zero_add])
  have hmatches := hlies.mono fun _ _ hu ↦ hu.1
  by_cases hdown : ∃ h', e.symbol = .node h' ∧ h'.category ∈ cs
  · obtain ⟨h', hs, hh'⟩ := hdown
    obtain ⟨hes, -, hfront, hhere, -, hflat⟩ := hlies
    refine (hhere.2 h' hs hh' _ _ rfl hflat).down fun hbefore fs hfs hmem ↦ ?_
    -- Nothing stands before the element, so those before it are left out.
    rw [hbefore] at hfront
    refine beginsWithin_production hfs hmem hp ?_
    rw [← hs, hes]
    refine mem_firstSymbols (optional_of_covers_nil (fun f hf hnil ↦ ?_) hfront)
    exact hnil.1.ne_nil language_lawful (fun h hs ↦ language_lawful.inner (.inr hinner) hp
      (hes ▸ List.mem_append_left _ hf) hs) rfl
  · have hlast : e.symbol = .tok t.kind ∨ ∃ h', e.symbol = .node h' ∧ h'.category ∈ stops := by
      obtain ⟨-, hsurface, -, hhere, -, -⟩ := hlies
      cases hs : e.symbol with
      | tok k =>
        rw [hs] at hhere
        obtain ⟨_, rfl, heq⟩ := matches_tok.mp hhere.1
        rcases List.append_eq_singleton_iff.mp heq with ⟨-, heq⟩ | ⟨-, heq⟩
        · rw [(List.cons.inj heq).1]
          exact .inl rfl
        · cases heq
      | node h' =>
        refine .inr ⟨h', rfl, ?_⟩
        rw [hs] at hsurface
        exact (encloses_production hc hh hp hsurface).resolve_left fun hh' ↦ hdown ⟨h', hs, hh'⟩
    cases h with
    | one c =>
      have hfound : Token.Found w cs stops (.one c) t ([] ++ us) (vs ++ []) :=
        .intro hh hp hmatches hlast fun _ _ hmem _ ↦ hmem
      rwa [List.nil_append, List.append_nil] at hfound
    | run c =>
      -- A run has no parts but those of its category, and these are on the way.
      exfalso
      obtain ⟨hes, -, -, -, -, -⟩ := hlies
      refine hdown ?_
      simp only [productions, List.mem_cons, List.not_mem_nil, or_false] at hp
      have hmem : e ∈ p.elements := by rw [hes]; simp
      rcases hp with rfl | rfl <;> simp at hmem
      · exact ⟨.one c, by rw [hmem]; rfl, hh⟩
      · rcases hmem with rfl | rfl
        · exact ⟨.run c, rfl, hh⟩
        · exact ⟨.one c, rfl, hh⟩

/-- A token that no production on the way down has is in a category at which the way ends. -/
theorem Token.Found.exists_stop {h : Head Category} (hf : Token.Found w cs stops h t us vs)
    {ok : Kind → Bool} (hs : shows w cs ok = true) (ht : ok t.kind = false) :
    ∃ c ∈ cs, ∃ p ∈ Category.rules c, ∃ e h' pre mid after post, us = pre ++ mid ∧
      vs = after ++ post ∧ Token.Lies (Matches language) w 0 p.elements e t mid after ∧
      e.symbol = .node h' ∧ h'.category ∈ stops := by
  obtain ⟨hc, hp, hl, hsymbol, -⟩ := hf
  rcases hsymbol with hsymbol | ⟨h', hsymbol, hstop⟩
  · obtain ⟨-, hsurface, -⟩ := hl
    have hall := List.all_eq_true.mp (List.all_eq_true.mp (List.all_eq_true.mp hs _ hc) _ hp) _
      hsurface
    rw [hsymbol] at hall
    exact absurd (ht.symm.trans hall) Bool.false_ne_true
  · exact ⟨_, hc, _, hp, _, h', _, _, _, _, rfl, rfl, hl, hsymbol, hstop⟩

end Syntax

end GuardLint
