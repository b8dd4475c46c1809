import GuardLint.Proofs.Syntax.Balance
import GuardLint.Proofs.Syntax.Expression

/-!
# Tokens outside brackets

A production that needs a token outside brackets fits only tokens that have it there. So the tokens
that stand outside all brackets of an expression often leave one production of each category, and
the expression is read as the category of the tightest one.
-/

namespace GuardLint.Syntax

open Grammar

/-- Tokens begin with a token of some kind, and of the others those that stand outside brackets are
of one of some kinds. -/
def Token.Surfaces (k : Kind) (ks : List Kind) (ts : List Token) : Prop :=
  ∃ t ws, ts = t :: ws ∧ t.kind = k ∧
    ∀ us u, us ++ [u] <+: ws → t.kind.rise + Token.depth us = 0 → u.kind ∈ ks

/-- Whether some elements may belong to tokens that follow others. Outside brackets, the next token
has one of the kinds `hs` and those after it one of the kinds `ks`; `opens` says which categories
may begin there with a token of some kind. -/
def clear (ks : List Kind) (opens : Kind → Category → Bool) :
    (hs : List Kind) → Int → List (Element Category) → Bool
  | _, _, [] => true
  | hs, d, .need (.tok k) :: es => (d != 0 || hs.contains k) && clear ks opens ks (d + k.rise) es
  | hs, d, .need (.node h) :: es =>
    (d != 0 || hs.any (opens · h.category)) && clear ks opens ks d es
  | hs, d, _ :: es => clear ks opens (hs ++ ks) d es

/-- Whether a category may belong to tokens of which the first has some kind and the others outside
brackets have some kinds, as far as productions inside each other up to some number tell. -/
def opens (ks : List Kind) : Nat → Kind → Category → Bool
  | 0, k, c => language.mayStart c k
  | n + 1, k, c => (Category.rules c).any fun p ↦ clear ks (opens ks n) [k] 0 p.elements

/-- Whether a symbol may belong to such tokens. -/
private def admits (ks : List Kind) (n : Nat) (k : Kind) : Symbol Category → Bool
  | .tok l => k == l
  | .node h => opens ks n k h.category

variable {k : Kind} {ks hs : List Kind} {d : Int} {ts us ws : List Token}

/-- The tokens outside brackets have the kinds that they may have. -/
private def Open (ks hs : List Kind) (d : Int) (ts : List Token) : Prop :=
  ∀ us u, us ++ [u] <+: ts → d + Token.depth us = 0 → u.kind ∈ if us = [] then hs else ks

private theorem Open.tail {us : List Token} (h : Open ks hs d (us ++ ws)) (hne : us ≠ []) :
    Open ks ks (d + Token.depth us) ws := by
  intro xs x hx hd
  have := h (us ++ xs) x
    (by rw [List.append_assoc]; exact (List.prefix_append_right_inj us).mpr hx)
    (by rw [Token.depth_append]; omega)
  rw [if_neg (by simp [hne])] at this
  rwa [ite_self]

private theorem Open.weaken (h : Open ks hs d ts) : Open ks (hs ++ ks) d ts := by
  intro us u hu hd
  have := h us u hu hd
  split at this
  · rw [if_pos ‹_›]
    exact List.mem_append_left ks this
  · rwa [if_neg ‹_›]

private theorem Open.weaken_right (h : Open ks ks d ts) : Open ks (hs ++ ks) d ts := by
  intro us u hu hd
  have := h us u hu hd
  rw [ite_self] at this
  split
  · exact List.mem_append_right hs this
  · exact this

/-- The first tokens of those outside brackets, as a part of their own. -/
private theorem Open.surfaces (h : Open ks hs d (us ++ ws)) (hd : d = 0) (hne : us ≠ []) :
    ∃ k ∈ hs, Token.Surfaces k ks us := by
  subst hd
  obtain ⟨t, us, rfl⟩ := List.exists_cons_of_ne_nil hne
  refine ⟨t.kind, ?_, t, us, rfl, rfl, fun xs x hx hd ↦ ?_⟩
  · have := h [] t (List.prefix_append [t] (us ++ ws)) rfl
    rwa [if_pos rfl] at this
  · have := h (t :: xs) x (by
      rw [List.cons_append, List.cons_append]
      exact List.cons_prefix_cons.mpr ⟨rfl, hx.trans (List.prefix_append us ws)⟩)
      (by rw [Token.depth_cons]; omega)
    rwa [if_neg (List.cons_ne_nil t xs)] at this

private theorem clear_of_covers {n : Nat} {es : List (Element Category)}
    (hin : ∀ e ∈ es, ∀ h, e.symbol = .node h → Inner language h) (hl : level Kind.rise d es = true)
    (ho : Open ks hs d ts)
    (hc : Covers (fun s us ↦ Matches language s us ∧
      ∀ k, Token.Surfaces k ks us → admits ks n k s = true) es ts) :
    clear ks (opens ks n) hs d es = true := by
  induction es generalizing hs d ts with
  | nil => rfl
  | cons e es ih =>
    have hin' : ∀ f ∈ es, ∀ h, f.symbol = .node h → Inner language h :=
      fun f hf ↦ hin f (List.mem_cons_of_mem e hf)
    rcases hc with ⟨us, ws, rfl, ⟨hm, ha⟩, hc⟩ | ⟨hopt, hc⟩
    · have hne : us ≠ [] := hm.ne_nil language_lawful (hin e List.mem_cons_self)
      have hopen : d = 0 → ∃ k ∈ hs, admits ks n k e.symbol = true := fun hd ↦ by
        obtain ⟨k, hk, hs⟩ := ho.surfaces hd hne
        exact ⟨k, hk, ha k hs⟩
      have htail := ho.tail hne
      rcases e with (k | h) | (k | h) | c
      · obtain ⟨t, rfl, rfl⟩ := matches_tok.mp hm
        simp only [level, Bool.and_eq_true] at hl
        simp only [clear, Bool.and_eq_true, Bool.or_eq_true, bne_iff_ne, List.contains_iff_mem]
        refine ⟨?_, ih hin' hl.2 (by simpa using htail) hc⟩
        by_cases hd : d = 0
        · obtain ⟨k, hk, hadm⟩ := hopen hd
          obtain rfl : k = t.kind := beq_iff_eq.mp hadm
          exact .inr hk
        · exact .inl hd
      · rw [(balanced_of_matches hm).closed, Int.add_zero] at htail
        simp only [clear, Bool.and_eq_true, Bool.or_eq_true, bne_iff_ne, List.any_eq_true]
        refine ⟨?_, ih hin' hl htail hc⟩
        by_cases hd : d = 0
        · exact .inr (hopen hd)
        · exact .inl hd
      · obtain ⟨t, rfl, rfl⟩ := matches_tok.mp hm
        simp only [level, Bool.and_eq_true, beq_iff_eq] at hl
        rw [Token.depth_cons, hl.1, Token.depth_nil, Int.add_zero, Int.add_zero] at htail
        exact ih hin' hl.2 htail.weaken_right hc
      · rw [(balanced_of_matches hm).closed, Int.add_zero] at htail
        exact ih hin' hl htail.weaken_right hc
      · rw [(balanced_of_matches hm).closed, Int.add_zero] at htail
        exact ih hin' hl htail.weaken_right hc
    · rcases e with s | (k | h) | c
      · cases hopt
      · exact ih hin' (Bool.and_eq_true_iff.mp hl).2 ho.weaken hc
      · exact ih hin' hl ho.weaken hc
      · exact ih hin' hl ho.weaken hc

private theorem Token.Surfaces.open (h : Token.Surfaces k ks ts) : Open ks [k] 0 ts := by
  obtain ⟨t, ws, rfl, rfl, hws⟩ := h
  intro us u hu hd
  cases us with
  | nil =>
    obtain ⟨rfl, -⟩ := List.cons_prefix_cons.mp hu
    exact List.mem_singleton.mpr rfl
  | cons t' us =>
    obtain ⟨rfl, hu'⟩ := List.cons_prefix_cons.mp hu
    rw [if_neg (List.cons_ne_nil _ _)]
    exact hws us u hu' (by rwa [Token.depth_cons, Int.zero_add] at hd)

private theorem admits_of_matches {s : Symbol Category} (hm : Matches language s ts)
    (hs : ∀ h, s = .node h → h = .one language.start ∨ Inner language h) (n : Nat)
    (ht : Token.Surfaces k ks ts) : admits ks n k s = true := by
  refine Matches.induction (g := language)
    (P := fun s ts ↦ (∀ h, s = .node h → h = .one language.start ∨ Inner language h) →
      ∀ n k, Token.Surfaces k ks ts → admits ks n k s = true)
    (fun t _ n k ht ↦ ?_) (fun h p ts hp hc hs n k ht ↦ ?_) hm hs n k ht
  · obtain ⟨u, ws, heq, rfl, -⟩ := ht
    obtain ⟨rfl, -⟩ := List.cons.inj heq
    exact beq_self_eq_true _
  · have hin : ∀ e ∈ p.elements, ∀ h', e.symbol = .node h' → Inner language h' :=
      fun e he h' hsym ↦ language_lawful.inner (hs h rfl) hp he hsym
    have hclear (n : Nat) : clear ks (opens ks n) [k] 0 p.elements = true :=
      clear_of_covers hin (rise_levels.production hp) ht.open <| hc.mono fun e he us hu ↦
        ⟨hu.1, fun k ↦ hu.2 (fun h' hsym ↦ .inr (hin e he h' hsym)) n k⟩
    cases h with
    | one c =>
      cases n with
      | zero =>
        obtain ⟨t, ws, rfl, rfl, -⟩ := ht
        have hm' : Matches language (.node (.one c)) (t :: ws) :=
          matches_node.mpr ⟨p, hp, spans_iff_covers.mpr (hc.mono fun _ _ _ h ↦ h.1)⟩
        exact hm'.symbolMayStart language_lawful hs
      | succ n => exact List.any_eq_true.mpr ⟨p, hp, hclear n⟩
    | run c =>
      have hc := hclear n
      simp only [productions, List.mem_cons, List.not_mem_nil, or_false] at hp
      rcases hp with rfl | rfl
      · simpa [clear, admits, Head.category] using hc
      · simp only [clear, Head.category, bne_self_eq_false, Bool.false_or, List.any_cons,
          List.any_nil, Bool.or_false, Bool.and_eq_true] at hc
        exact hc.1

/-- A production that tokens fit needs no others outside brackets than they have. -/
theorem clear_of_spans {c : Category} {p : Production Category.Value c.Value} (hp : p ∈ c.rules)
    (hs : Spans language p.elements ts) (ht : Token.Surfaces k ks ts) (n : Nat) :
    clear ks (opens ks n) [k] 0 p.elements = true := by
  have hh : Head.one c = .one language.start ∨ Inner language (.one c) := by
    by_cases hc : c = language.start
    · exact .inl (congrArg Head.one hc)
    · exact .inr hc
  have hin : ∀ e ∈ p.elements, ∀ h', e.symbol = .node h' → Inner language h' :=
    fun e he h' hsym ↦ language_lawful.inner hh hp he hsym
  refine clear_of_covers hin (rise_levels.production (h := .one c) hp) ht.open <|
    (spans_iff_covers.mp hs).mono fun e he us hu ↦ ⟨hu, fun k ↦ ?_⟩
  exact admits_of_matches hu (fun h' hsym ↦ .inr (hin e he h' hsym)) n

/-! ### Categories that stand for others -/

/-- Whether what belongs to a category belongs to another one, which may stand for it alone, through
some number of categories at most. -/
def Category.lifts : Nat → Category → Category → Bool
  | 0, c, d => c == d
  | n + 1, c, d => c == d || (Category.rules d).any fun p ↦
    match p.elements with
    | [.need (.node (.one b))] => lifts n c b
    | _ => false

/-- An element alone covers what belongs to it. -/
theorem spans_alone {s : Symbol Category} : Spans language [.need s] ts ↔ Matches language s ts := by
  rw [spans_cons]
  constructor
  · rintro (⟨us, ws, rfl, hm, hnil⟩ | ⟨ho, -⟩)
    · rwa [spans_nil.mp hnil, List.append_nil]
    · cases ho
  · exact fun hm ↦ .inl ⟨ts, [], (List.append_nil ts).symm, hm, spans_nil.mpr rfl⟩

theorem matches_of_lifts {n : Nat} {c d : Category} (hl : c.lifts n d = true)
    (hm : Matches language (.node (.one c)) ts) : Matches language (.node (.one d)) ts := by
  induction n generalizing d with
  | zero =>
    cases beq_iff_eq.mp hl
    exact hm
  | succ n ih =>
    rw [Category.lifts, Bool.or_eq_true] at hl
    rcases hl with hl | hl
    · cases beq_iff_eq.mp hl
      exact hm
    · obtain ⟨p, hp, hl⟩ := List.any_eq_true.mp hl
      split at hl
      · next b heq =>
        refine matches_node.mpr ⟨p, hp, ?_⟩
        rw [heq]
        exact spans_alone.mpr (ih hl)
      · cases hl

/-! ### Reading through categories -/

/-- Whether a category, of tokens with some kinds outside brackets, is always read as another one,
through some number of categories at most. -/
def funnels (ks : List Kind) (k : Kind) : Nat → Category → Category → Bool
  | 0, c, d => c == d
  | n + 1, c, d => c == d || (Category.rules c).all fun p ↦
    !clear ks (opens ks 2) [k] 0 p.elements ||
      match p.elements with
      | [.need (.node (.one b))] => funnels ks k n b d
      | _ => false

/-- An expression of a category that is always read as another is an expression of that one. -/
theorem reads_of_funnels {n : Nat} {c d : Category} (hf : funnels ks k n c d = true)
    (ht : Token.Surfaces k ks ts) {v : c.Value} {e : Expr}
    (hr : Reads language (.node (.one c)) ts v) (he : c.expr? v = some e) :
    ∃ w, Reads language (.node (.one d)) ts w ∧ d.expr? w = some e := by
  induction n generalizing c with
  | zero =>
    obtain rfl : c = d := beq_iff_eq.mp hf
    exact ⟨v, hr, he⟩
  | succ n ih =>
    rcases Bool.or_eq_true_iff.mp hf with hf | hf
    · obtain rfl : c = d := beq_iff_eq.mp hf
      exact ⟨v, hr, he⟩
    · obtain ⟨p, hp, -, hs, hpass⟩ := Category.exists_passed hr he
      have hp' := List.all_eq_true.mp hf p hp
      rw [clear_of_spans hp hs ht 2, Bool.not_true, Bool.false_or] at hp'
      split at hp'
      · next b heq =>
        obtain ⟨w, hw, he⟩ := hpass b heq
        exact ih hp' hw he
      · cases hp'

/-- Whether a category is read as another one if it can be, through some number of categories at
most. -/
def prefers : Nat → Category → Category → Bool
  | 0, c, d => c == d
  | n + 1, c, d => c == d ||
    match (Category.rules c)[0]? with
    | some p =>
      match p.elements with
      | [.need (.node (.one b))] => prefers n b d
      | _ => false
    | none => false

theorem matches_of_prefers {n : Nat} {c d : Category} (hf : prefers n c d = true)
    (hm : Matches language (.node (.one d)) ts) : Matches language (.node (.one c)) ts := by
  induction n generalizing c with
  | zero =>
    cases beq_iff_eq.mp hf
    exact hm
  | succ n ih =>
    rcases Bool.or_eq_true_iff.mp hf with hf | hf
    · cases beq_iff_eq.mp hf
      exact hm
    · split at hf
      · next p hp =>
        split at hf
        · next b hes =>
          refine matches_node.mpr ⟨p, List.mem_of_getElem? hp, ?_⟩
          rw [hes]
          exact spans_alone.mpr (ih hf)
        · cases hf
      · cases hf

/-- Tokens of a category as which another one is read if it can be are read so. -/
theorem reads_of_prefers {n : Nat} {c d : Category} (hf : prefers n c d = true)
    (hm : Matches language (.node (.one d)) ts) {v : c.Value} {e : Expr}
    (hr : Reads language (.node (.one c)) ts v) (he : c.expr? v = some e) :
    ∃ w, Reads language (.node (.one d)) ts w ∧ d.expr? w = some e := by
  induction n generalizing c with
  | zero =>
    cases beq_iff_eq.mp hf
    exact ⟨v, hr, he⟩
  | succ n ih =>
    rcases Bool.or_eq_true_iff.mp hf with hf | hf
    · cases beq_iff_eq.mp hf
      exact ⟨v, hr, he⟩
    · split at hf
      · next p hp =>
        split at hf
        · next b hes =>
          have hs : Spans language p.elements ts := by
            rw [hes]
            exact spans_alone.mpr (matches_of_prefers hf hm)
          obtain ⟨vs, rfl, hall⟩ := hr.first_inv hp (fun q hq ↦ by cases hq) hs
          obtain ⟨w, hw, he⟩ :=
            Category.exists_passed_part (List.mem_of_getElem? hp) hes hall.parts_reads he
          exact ih hf hw he
        · cases hf
      · cases hf

end GuardLint.Syntax
