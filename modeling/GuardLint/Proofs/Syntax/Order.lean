import GuardLint.Proofs.Syntax.Lexeme

/-!
# The order of tokens

The tokens of a source text stand one behind the other, and each takes a character at least. So the
tokens that begin at or after the end of some of them are those that come after these.
-/

namespace GuardLint

namespace Position

theorem offset_step (p : Position) (c : Char) : (p.step c).offset = p.offset + 1 := by
  unfold step
  split <;> rfl

theorem offset_advance (p : Position) (text : List Char) :
    (p.advance text).offset = p.offset + text.length := by
  unfold advance
  induction text generalizing p with
  | nil => rfl
  | cons c text ih =>
    rw [List.foldl_cons, ih, offset_step, List.length_cons]
    omega

theorem advance_append (p : Position) (u v : List Char) :
    p.advance (u ++ v) = (p.advance u).advance v := List.foldl_append

end Position

namespace Location

/-- The order of the text in which a piece comes before those inside it: by the start, and for one
start by the end, the later end first. -/
def Before (l m : Location) : Prop := l.start < m.start ∨ l.start = m.start ∧ m.stop < l.stop

theorem Before.ne {l m : Location} (h : Before l m) : l ≠ m := by
  rintro rfl
  unfold Before at h
  omega

end Location

namespace Syntax

/-- Tokens that stand one behind the other, each with a character at least. -/
structure Token.Ordered (ts : List Token) : Prop where
  solid : ∀ t ∈ ts, t.location.start < t.location.stop
  apart : ts.Pairwise fun a b ↦ a.location.stop ≤ b.location.start

variable {us ws : List Token}

/-- Tokens in order are so on both sides of a cut. -/
theorem Token.Ordered.append (ho : Token.Ordered (us ++ ws)) :
    Token.Ordered us ∧ Token.Ordered ws :=
  ⟨⟨fun t ht ↦ ho.solid t (List.mem_append_left ws ht), (List.pairwise_append.mp ho.apart).1⟩,
    ⟨fun t ht ↦ ho.solid t (List.mem_append_right us ht), (List.pairwise_append.mp ho.apart).2.1⟩⟩

/-- Tokens that follow each other among tokens in order are in order. -/
theorem Token.Ordered.among (ho : Token.Ordered us) {xs : List Token} (hx : xs <:+: us) :
    Token.Ordered xs := by
  obtain ⟨front, rest, rfl⟩ := hx
  exact ho.append.1.append.2

/-- Of tokens on both sides of a cut, one before it begins first. -/
theorem Token.Ordered.first_lt (ho : Token.Ordered (us ++ ws)) {a b : Token} (ha : a ∈ us)
    (hb : b ∈ ws) : a.location.start < b.location.start := by
  have h1 := ho.solid a (List.mem_append_left ws ha)
  have h2 := (List.pairwise_append.mp ho.apart).2.2 a ha b hb
  omega

/-- Of tokens on both sides of a cut, one before it ends first. -/
theorem Token.Ordered.last_lt (ho : Token.Ordered (us ++ ws)) {a b : Token} (ha : a ∈ us)
    (hb : b ∈ ws) : a.location.stop < b.location.stop := by
  have h1 := ho.solid b (List.mem_append_right us hb)
  have h2 := (List.pairwise_append.mp ho.apart).2.2 a ha b hb
  omega

/-- Tokens on both sides of a cut do not begin at the same place. -/
theorem Token.Ordered.first_ne (ho : Token.Ordered (us ++ ws)) {a b : Token} (ha : a ∈ us)
    (hb : b ∈ ws) : a.location.first ≠ b.location.first :=
  fun h ↦ Nat.ne_of_lt (ho.first_lt ha hb) (congrArg Position.offset h)

/-- Tokens on both sides of a cut do not end at the same place. -/
theorem Token.Ordered.last_ne (ho : Token.Ordered (us ++ ws)) {a b : Token} (ha : a ∈ us)
    (hb : b ∈ ws) : a.location.last ≠ b.location.last :=
  fun h ↦ Nat.ne_of_lt (ho.last_lt ha hb) (congrArg Position.offset h)

/-- No token begins before the first. -/
theorem Token.Ordered.first_le (ho : Token.Ordered us) {a b : Token} (ha : us.head? = some a)
    (hb : b ∈ us) : a.location.start ≤ b.location.start := by
  obtain ⟨us, rfl⟩ := List.head?_eq_some_iff.mp ha
  rcases List.mem_cons.mp hb with rfl | hb
  · exact Nat.le_refl _
  · have hcut : Token.Ordered ([a] ++ us) := ho
    exact Nat.le_of_lt (hcut.first_lt (List.mem_singleton.mpr rfl) hb)

/-- No token ends behind the last. -/
theorem Token.Ordered.le_last (ho : Token.Ordered us) {a b : Token} (ha : us.getLast? = some a)
    (hb : b ∈ us) : b.location.stop ≤ a.location.stop := by
  obtain ⟨us, rfl⟩ := List.getLast?_eq_some_iff.mp ha
  rcases List.mem_append.mp hb with hb | hb
  · exact Nat.le_of_lt (ho.last_lt hb (List.mem_singleton.mpr rfl))
  · cases List.mem_singleton.mp hb
    exact Nat.le_refl _

theorem Spelled.piece_ne_nil {pieces : List (Lexeme.Class × List Char)} {text : List Char}
    (h : Spelled pieces text) : ∀ p ∈ pieces, 0 < p.2.length := by
  induction h with
  | nil => exact fun p hp ↦ absurd hp List.not_mem_nil
  | cons h _ ih =>
    intro p hp
    rcases List.mem_cons.mp hp with rfl | hp
    · exact (Lexer.first?_bounds h).1
    · exact ih p hp

private theorem start_of_mem_laid {pieces : List (Lexeme.Class × List Char)} {at_ : Position}
    {x : Lexeme} (hx : x ∈ Lexeme.laid at_ pieces) : at_.offset ≤ x.location.start := by
  induction pieces generalizing at_ with
  | nil => cases hx
  | cons p pieces ih =>
    obtain ⟨kind, piece⟩ := p
    rcases List.mem_cons.mp hx with rfl | hx
    · exact Nat.le_refl _
    · have := ih hx
      rw [Position.offset_advance] at this
      omega

private theorem laid_ordered {pieces : List (Lexeme.Class × List Char)} (at_ : Position)
    (hne : ∀ p ∈ pieces, 0 < p.2.length) :
    (∀ x ∈ Lexeme.laid at_ pieces, x.location.start < x.location.stop) ∧
      (Lexeme.laid at_ pieces).Pairwise fun x y ↦ x.location.stop ≤ y.location.start := by
  induction pieces generalizing at_ with
  | nil => exact ⟨fun x hx ↦ absurd hx List.not_mem_nil, .nil⟩
  | cons p pieces ih =>
    obtain ⟨kind, piece⟩ := p
    obtain ⟨hsolid, hapart⟩ := ih (at_.advance piece) fun p hp ↦ hne p (List.mem_cons_of_mem _ hp)
    refine ⟨fun x hx ↦ ?_, List.pairwise_cons.mpr ⟨fun y hy ↦ start_of_mem_laid hy, hapart⟩⟩
    rcases List.mem_cons.mp hx with rfl | hx
    · have : 0 < piece.length := hne _ List.mem_cons_self
      simp only [Location.start, Location.stop, Position.offset_advance]
      omega
    · exact hsolid x hx

private theorem location_of_token? {x : Lexeme} {t : Token} (h : x.token? = some t) :
    t.location = x.location := by
  unfold Lexeme.token? at h
  split at h
  · cases h
    rfl
  · cases h

/-- The tokens of a source text are in order. -/
theorem Token.ordered_ofSource {source : List Char} {tokens : List Token}
    (h : Token.ofSource source = (tokens, none)) : Token.Ordered tokens := by
  unfold Token.ofSource at h
  obtain ⟨htokens, hstray⟩ := Prod.mk.inj h
  obtain ⟨pieces, hs, hls⟩ := Lexeme.ofSource_eq.mp
    (Prod.ext (x := Lexeme.ofSource source) rfl hstray)
  obtain ⟨hsolid, hapart⟩ := laid_ordered .origin hs.piece_ne_nil
  rw [← hls] at hsolid hapart
  rw [← htokens]
  constructor
  · intro t ht
    obtain ⟨x, hx, hxt⟩ := List.mem_filterMap.mp ht
    rw [location_of_token? hxt]
    exact hsolid x hx
  · refine List.pairwise_filterMap.mpr (hapart.imp fun {x y} hxy t ht u hu ↦ ?_)
    rw [location_of_token? ht, location_of_token? hu]
    exact hxy

/-- The first token that begins at an offset or after it. -/
def Token.next? (tokens : List Token) (offset : Nat) : Option Token :=
  tokens.find? fun t ↦ offset ≤ t.location.start

/-- The location of some tokens is that of the first and the last of them. -/
theorem Token.cover_eq {ts : List Token} (h : ts ≠ []) :
    ∃ a ∈ ts, ∃ b ∈ ts, ts.head? = some a ∧ ts.getLast? = some b ∧
      Token.cover ts = ⟨a.location.first, b.location.last⟩ := by
  obtain ⟨a, ha⟩ : ∃ a, ts.head? = some a := Option.isSome_iff_exists.mp (by simpa using h)
  obtain ⟨b, hb⟩ : ∃ b, ts.getLast? = some b := Option.isSome_iff_exists.mp (by simpa using h)
  exact ⟨a, List.mem_of_head? ha, b, List.mem_of_getLast? hb, ha, hb, by rw [cover, ha, hb]⟩

/-- Tokens on both sides of a cut stand apart. -/
theorem Token.Ordered.cover_apart (ho : Token.Ordered (us ++ ws)) {xs ys : List Token}
    (hx : xs <:+: us) (hy : ys <:+: ws) (hxs : xs ≠ []) (hys : ys ≠ []) :
    (Token.cover xs).stop ≤ (Token.cover ys).start := by
  obtain ⟨_, -, b, hb, -, -, hcover⟩ := Token.cover_eq hxs
  obtain ⟨a, ha, _, -, -, -, hcover'⟩ := Token.cover_eq hys
  rw [hcover, hcover']
  exact (List.pairwise_append.mp ho.apart).2.2 b (hx.subset hb) a (hy.subset ha)

/-- Tokens among others stand inside these. -/
theorem Token.Ordered.cover_inside (ho : Token.Ordered us) {xs : List Token} (hx : xs <:+: us)
    (hxs : xs ≠ []) : (Token.cover us).start ≤ (Token.cover xs).start ∧
      (Token.cover xs).stop ≤ (Token.cover us).stop := by
  obtain ⟨a, ha, b, hb, -, -, hcover⟩ := Token.cover_eq hxs
  obtain ⟨c, -, d, -, hc, hd, hcover'⟩ :=
    Token.cover_eq (List.ne_nil_of_mem (hx.subset ha))
  rw [hcover, hcover']
  exact ⟨ho.first_le hc (hx.subset ha), ho.le_last hd (hx.subset hb)⟩

/-- What follows some tokens is the first that begins where they end or later. -/
theorem Token.next?_cover {front us rest : List Token} (ho : Token.Ordered (front ++ us ++ rest))
    (hne : us ≠ []) : Token.next? (front ++ us ++ rest) (Token.cover us).stop = rest.head? := by
  obtain ⟨a, -, b, hb, -, hlast, hcover⟩ := Token.cover_eq hne
  obtain ⟨hfu, hrest, hcross⟩ := List.pairwise_append.mp ho.apart
  have hstop : (Token.cover us).stop = b.location.stop := by
    rw [hcover]
    rfl
  have hbefore : ∀ t ∈ front ++ us, t.location.start < b.location.stop := by
    intro t ht
    have hbu := List.getLast?_eq_some_iff.mp hlast
    obtain ⟨ys, hys⟩ := hbu
    rw [hys, ← List.append_assoc] at hfu ht
    rcases List.mem_append.mp ht with ht | ht
    · have h1 := (List.pairwise_append.mp hfu).2.2 t ht b (List.mem_singleton.mpr rfl)
      have h2 := ho.solid b (List.mem_append_left _ (List.mem_append_right _ hb))
      have h3 := ho.solid t (by
        rw [hys]
        exact List.mem_append_left _ (by rw [← List.append_assoc]; exact List.mem_append_left _ ht))
      omega
    · obtain rfl := List.mem_singleton.mp ht
      exact ho.solid t (List.mem_append_left _ (List.mem_append_right _ hb))
  unfold Token.next?
  rw [hstop, List.find?_append]
  have hnone : (front ++ us).find? (fun t ↦ decide (b.location.stop ≤ t.location.start)) = none := by
    rw [List.find?_eq_none]
    intro t ht
    have := hbefore t ht
    simp only [decide_eq_true_eq]
    omega
  rw [hnone, Option.none_or]
  cases rest with
  | nil => rfl
  | cons r rest =>
    have hle := hcross b (List.mem_append_right _ hb) r List.mem_cons_self
    rw [List.find?_cons_of_pos (by simpa using hle)]
    rfl

/-- The tokens inside a piece of the text. -/
def Token.within (tokens : List Token) (l : Location) : List Token :=
  tokens.filter fun t ↦ l.start ≤ t.location.start && t.location.stop ≤ l.stop

/-- The tokens inside the location of tokens that follow each other are these. -/
theorem Token.within_cover {front us rest : List Token} (ho : Token.Ordered (front ++ us ++ rest))
    (hne : us ≠ []) : Token.within (front ++ us ++ rest) (Token.cover us) = us := by
  obtain ⟨a, ha, b, hb, hhead, hlast, hcover⟩ := Token.cover_eq hne
  have hu : Token.Ordered us := ho.append.1.append.2
  have hstart : (Token.cover us).start = a.location.start := by rw [hcover]; rfl
  have hstop : (Token.cover us).stop = b.location.stop := by rw [hcover]; rfl
  have hfront : Token.within front (Token.cover us) = [] := by
    refine List.filter_eq_nil_iff.mpr fun t ht h ↦ ?_
    have hlt := ho.append.1.first_lt ht ha
    simp only [hstart, Bool.and_eq_true, decide_eq_true_eq] at h
    omega
  have hrest : Token.within rest (Token.cover us) = [] := by
    refine List.filter_eq_nil_iff.mpr fun t ht h ↦ ?_
    have hlt := ho.last_lt (List.mem_append_right front hb) ht
    simp only [hstop, Bool.and_eq_true, decide_eq_true_eq] at h
    omega
  have hus : Token.within us (Token.cover us) = us := by
    refine List.filter_eq_self.mpr fun t ht ↦ ?_
    simp only [hstart, hstop, Bool.and_eq_true, decide_eq_true_eq]
    exact ⟨hu.first_le hhead ht, hu.le_last hlast ht⟩
  rw [Token.within, List.filter_append, List.filter_append]
  rw [Token.within] at hfront hrest hus
  rw [hfront, hrest, hus, List.nil_append, List.append_nil]

end Syntax

end GuardLint
