import GuardLint.Proofs.Fix.Application
import GuardLint.Proofs.Syntax.Exchange
import GuardLint.Proofs.Syntax.Segment

/-!
# Splicing

Where pieces of a text are replaced that make up expression statements, and the new pieces make up
conditional throws, the tokens of the new text are those of the old one with these statements
exchanged.
-/

namespace GuardLint.Syntax

variable {ps qs : List Piece} {at_ : Position} {f : Rewrite} {L : Location → Prop}
  {us ts post pre rest : List Token} {text w : List Char} {e : Edit}

theorem Spelled.suffix (h : Spelled (ps ++ qs) text) : Spelled qs (spelling qs) := by
  induction ps generalizing text with
  | nil =>
    have htext := h.text_eq
    rw [List.nil_append] at h htext
    rwa [← htext]
  | cons p ps ih =>
    rw [List.cons_append] at h
    exact ih h.cons_inv.2

/-! ### What stands before a name -/

private theorem run_append_length {p : Char → Bool} {a v : List Char} {c : Char}
    (h : Lexer.run p (a ++ c :: v) = a.length) : p c = false := by
  induction a with
  | nil =>
    cases hc : p c with
    | false => rfl
    | true => simp [Lexer.run, hc] at h
  | cons d a ih =>
    cases hd : p d with
    | false => simp [Lexer.run, hd] at h
    | true =>
      simp only [Lexer.run, List.cons_append, List.takeWhile_cons, hd, if_true, List.length_cons,
        Nat.add_right_cancel_iff] at h
      exact ih h

private theorem name_head {piece rest : List Char}
    (h : Lexer.first? (piece ++ rest) = some (.token .name, piece.length)) :
    ∃ c tail, piece ++ rest = c :: tail ∧ Lexer.isNameStart c = true := by
  have hname : Lexer.name (piece ++ rest) = some piece.length := by
    rcases Lexer.first?_eq_some.mp h with ⟨-, h⟩ | ⟨-, -, h⟩ | ⟨-, -, h, -⟩ | ⟨-, -, -, -, h⟩ |
      ⟨-, -, -, -, -, h⟩ | ⟨-, -, -, -, -, -, h⟩ | ⟨-, -, -, -, -, -, m, -, h, -⟩
    · cases h
    · cases h
    · exact h
    · cases h
    · cases h
    · cases h
    · cases h
  unfold Lexer.name at hname
  split at hname
  · next c tail heq =>
    split at hname
    · next hc => exact ⟨c, tail, heq, hc⟩
    · cases hname
  · cases hname

private theorem namePart_of_nameStart {c : Char} (h : Lexer.isNameStart c = true) :
    Lexer.isNamePart c = true := by
  simp only [Lexer.isNameStart, Lexer.isNamePart, Char.isAlphanum, Bool.or_eq_true] at h ⊢
  rcases h with (h | h) | h
  · exact .inl (.inl (.inl h))
  · exact .inl (.inr h)
  · exact .inr h

/-- A piece before a name may stand before a word as well. -/
private theorem seals_of_name {kind : Lexeme.Class} {piece : List Char} {c : Char} {v : List Char}
    (h : Lexer.first? (piece ++ c :: v) = some (kind, piece.length))
    (hc : Lexer.isNameStart c = true) : Lexer.Seals kind piece ('i' :: w) := by
  have hname : Lexer.name (piece ++ c :: v) ≠ some piece.length := by
    intro h
    obtain ⟨d, piece, rfl⟩ := List.exists_cons_of_length_pos (Lexer.bounded_name _ _ h).1
    rw [List.cons_append, Lexer.name, List.length_cons] at h
    split at h
    · simp only [Option.some.injEq] at h
      have := run_append_length (p := Lexer.isNamePart) (a := piece) (c := c) (v := v) (by omega)
      rw [namePart_of_nameStart hc] at this
      cases this
    · cases h
  rcases Lexer.first?_eq_some.mp h with ⟨-, rfl⟩ | ⟨-, hline, rfl⟩ | ⟨-, -, h, -⟩ | ⟨-, -, -, -, rfl⟩ |
    ⟨-, -, -, -, -, rfl⟩ | ⟨-, -, -, -, -, -, rfl⟩ | ⟨-, -, -, -, -, -, m, -, rfl, -⟩
  · trivial
  · -- A line comment would take the name.
    rintro text rfl
    have hrun : 2 + Lexer.run (· != '\n') (text ++ c :: v) = text.length + 1 + 1 :=
      Option.some.inj hline
    have hline := run_append_length (p := (· != '\n')) (a := text) (c := c) (v := v) (by omega)
    rw [bne_eq_false_iff_eq] at hline
    subst hline
    cases hc
  · exact absurd h hname
  · trivial
  · trivial
  · rfl
  · trivial

theorem Spelled.seals_before_name {piece : List Char}
    (h : Spelled (ps ++ (.token .name, piece) :: qs) text) :
    ∀ kind last, ps.getLast? = some (kind, last) → Lexer.Seals kind last ('i' :: w) := by
  intro kind last hlast
  obtain ⟨front, rfl⟩ := List.getLast?_eq_some_iff.mp hlast
  rw [List.append_assoc, List.singleton_append] at h
  obtain ⟨hfirst, hrest⟩ := h.suffix.cons_inv
  obtain ⟨c, tail, htail, hc⟩ := name_head hrest.cons_inv.1
  rw [spelling_cons, htail] at hfirst
  exact seals_of_name hfirst hc

/-! ### Pieces in other places -/

/-- Pieces that are laid elsewhere make the same tokens. -/
theorem swapped_laid (at_' : Position)
    (hf : ∀ t ∈ Token.laid at_ ps, ∀ l, l.first = t.location.first → f l = none) :
    Swapped f L post (Token.laid at_ ps) (Token.laid at_' ps) := by
  induction ps generalizing at_ at_' with
  | nil => exact .nil
  | cons p ps ih =>
    obtain ⟨kind, piece⟩ := p
    cases kind with
    | token kind =>
      rw [Token.laid_token] at hf ⊢
      exact .keep rfl rfl (hf _ List.mem_cons_self)
        (ih _ fun t ht ↦ hf t (List.mem_cons_of_mem _ ht))
    | comment => exact ih _ hf
    | blank => exact ih _ hf

/-- Tokens stand between the ends of their pieces. -/
theorem Token.bounds_of_mem_laid {t : Token} (h : t ∈ Token.laid at_ ps) :
    at_.offset ≤ t.location.start ∧ t.location.stop ≤ (at_.advance (spelling ps)).offset := by
  induction ps generalizing at_ with
  | nil => cases h
  | cons p ps ih =>
    obtain ⟨kind, piece⟩ := p
    rw [← List.singleton_append, Token.laid_append, List.mem_append] at h
    rw [spelling_cons, Position.advance_append]
    rcases h with h | h
    · cases kind with
      | token kind =>
        obtain rfl := List.mem_singleton.mp h
        simp only [Location.start, Location.stop, Position.offset_advance]
        omega
      | comment => cases h
      | blank => cases h
    · rw [spelling_cons, spelling_nil, List.append_nil] at h
      obtain ⟨hlow, hhigh⟩ := ih h
      rw [Position.offset_advance] at hlow
      omega

/-! ### Replacing -/

/-- Pieces with which an expression statement may be replaced: they begin with a word and are spelled
whatever follows, and wherever they are laid their tokens are a conditional throw. -/
structure Patch (f : Rewrite) (us : List Token) (ps : List Piece) : Prop where
  word : ∃ text, spelling ps = 'i' :: text
  closed : ∀ {rs : List Piece} {w : List Char}, Spelled rs w →
    Spelled (ps ++ rs) (spelling ps ++ w)
  exchanged : ∀ at_, ∃ g : Throw, g.tokens = Token.laid at_ ps ∧ Exchanged f us g

/-- An edit replaces one of the expression statements of some tokens that begins with a name and that
no `else` follows. -/
structure Patched (f : Rewrite) (L : Location → Prop) (us rest : List Token) (e : Edit) : Prop where
  start : e.start = (Token.cover us).start
  stop : e.stop = (Token.cover us).stop
  place : L (Token.cover us)
  name : ∃ t, us.head? = some t ∧ t.kind = .name
  noElse : ∀ t, rest.head? = some t → t.kind ≠ .word .else
  patch : ∃ ps, e.replacement = spelling ps ∧ Patch f us ps

/-- An edit that begins behind some tokens is one of the others. -/
private theorem Patched.later {front : List Token} (ho : Token.Ordered (pre ++ ts))
    (h : Patched f L us rest e) (heq : pre ++ ts = front ++ us ++ rest)
    (hpre : ∀ t ∈ pre, (t.location.stop : Int) ≤ e.start) :
    ∃ front', ts = front' ++ us ++ rest := by
  rw [List.append_assoc] at heq
  rcases List.append_eq_append_iff.mp heq with ⟨zs, rfl, rfl⟩ | ⟨zs, rfl, hzs⟩
  · exact ⟨zs, (List.append_assoc ..).symm⟩
  · cases zs with
    | nil => exact ⟨[], by rw [List.nil_append] at hzs ⊢; exact hzs.symm⟩
    | cons z zs =>
      -- The edit would begin with one of the tokens before it.
      exfalso
      obtain ⟨t, ht, -⟩ := h.name
      obtain ⟨us, rfl⟩ := List.head?_eq_some_iff.mp ht
      obtain ⟨rfl, -⟩ := List.cons.inj hzs
      have hmem : t ∈ front ++ t :: zs := List.mem_append_right front List.mem_cons_self
      have hsolid := ho.solid t (List.mem_append_left ts hmem)
      have hstop := hpre t hmem
      rw [h.start, Location.start, Token.first_cover] at hstop
      simp only [Location.start] at hsolid
      omega

/-- The text in which pieces have been replaced is spelled, and its tokens are those of the old text
with statements exchanged. The invariant is that the edits that are left replace statements of the
tokens that are left. -/
theorem exists_spliced {s : Nat} {es : List Edit} (hs : at_.offset = s)
    (hsp : Spelled ps (text.drop s)) (ho : Token.Ordered (Token.laid at_ ps)) (hun : Unopened ps)
    (hp : es.Pairwise Edit.Precedes) (hin : ∀ e ∈ es, e.Inside text.length)
    (hes : ∀ e ∈ es, ∃ front us rest, Token.laid at_ ps = front ++ us ++ rest ∧
      Patched f L us rest e)
    (hf : ∀ t ∈ Token.laid at_ ps, ∀ l, l.first = t.location.first → f l ≠ none →
      ∃ e ∈ es, e.start = l.start) :
    ∃ ps', Spelled ps' (Edit.weave text s es) ∧
      ∀ at_', Swapped f L [] (Token.laid at_ ps) (Token.laid at_' ps') := by
  induction es generalizing at_ ps s with
  | nil =>
    refine ⟨ps, hsp, fun at_' ↦ swapped_laid at_' fun t ht l hl ↦ ?_⟩
    cases hfl : f l with
    | none => rfl
    | some v =>
      obtain ⟨e, he, -⟩ := hf t ht l hl (by rw [hfl]; exact Option.some_ne_none v)
      cases he
  | cons e es ih =>
    obtain ⟨front, us, rest, hlaid, hpatched⟩ := hes e List.mem_cons_self
    obtain ⟨t, ht, hname⟩ := hpatched.name
    obtain ⟨new, hnew, hpatch⟩ := hpatched.patch
    have hne : us ≠ [] := by
      rintro rfl
      cases ht
    obtain ⟨before, old, after, rfl, hbefore, hold, hafter, hcover, ⟨t', piece, ht', hhead⟩, -⟩ :=
      Token.exists_segment hlaid hne
    obtain rfl := Option.some.inj (ht.symm.trans ht')
    obtain ⟨old, rfl⟩ := List.head?_eq_some_iff.mp hhead
    rw [hname] at *
    -- Where the edit begins and ends.
    have hstart : e.start = ((s + (spelling before).length : Nat) : Int) := by
      rw [hpatched.start, hcover, Location.start, Position.offset_advance, hs]
    have hstop : e.stop = ((at_.advance (spelling (before ++ (.token .name, piece) :: old))).offset
        : Int) := by
      rw [hpatched.stop, hcover, Location.stop]
    have htext := hsp.text_eq
    have hkept : (text.drop s).take (e.start.toNat - s) = spelling before := by
      rw [htext, hstart, Int.toNat_natCast, Nat.add_sub_cancel_left, spelling_append,
        spelling_append, List.append_assoc, List.take_left]
    have hdrop : text.drop e.stop.toNat = spelling after := by
      rw [hstop, Int.toNat_natCast, Position.offset_advance, hs, ← List.drop_drop, htext,
        spelling_append (before ++ _), List.drop_left]
    obtain ⟨hprec, hp⟩ := List.pairwise_cons.mp hp
    have hend : ∀ t ∈ front ++ us, (t.location.stop : Int) ≤ e.stop := by
      intro t ht
      have hmem : t ∈ Token.laid at_ (before ++ (.token .name, piece) :: old) := by
        rwa [Token.laid_append, hbefore, hold]
      rw [hstop]
      exact Int.ofNat_le.mpr (Token.bounds_of_mem_laid hmem).2
    rw [hlaid] at ho hf hes
    have hlater : ∀ e' ∈ es, e.stop ≤ e'.start := hprec
    have hpos : e.start < e.stop := (hin e List.mem_cons_self).nonempty
    -- What is left after the edit.
    have hspafter : Spelled after (text.drop e.stop.toNat) := by
      rw [hdrop]
      exact hsp.suffix
    have hes' : ∀ e' ∈ es, ∃ front' us' rest', rest = front' ++ us' ++ rest' ∧
        Patched f L us' rest' e' := by
      intro e' he'
      obtain ⟨front', us', rest', heq, hpatched'⟩ := hes e' (List.mem_cons_of_mem e he')
      obtain ⟨front'', hrest⟩ := hpatched'.later ho heq fun t ht ↦
        Int.le_trans (hend t ht) (hlater e' he')
      exact ⟨front'', us', rest', hrest, hpatched'⟩
    have hf' : ∀ t ∈ rest, ∀ l, l.first = t.location.first → f l ≠ none →
        ∃ e ∈ es, e.start = l.start := by
      intro t ht l hl hne
      obtain ⟨e', he', hstart'⟩ := hf t (List.mem_append_right _ ht) l hl hne
      rcases List.mem_cons.mp he' with rfl | he'
      · rw [← hafter] at ht
        have hlow := (Token.bounds_of_mem_laid ht).1
        rw [Location.start, hl] at hstart'
        simp only [Location.start] at hlow
        omega
      · exact ⟨e', he', hstart'⟩
    have hkeep : ∀ t ∈ front, ∀ l, l.first = t.location.first → f l = none := by
      intro t ht l hl
      cases hfl : f l with
      | none => rfl
      | some v =>
        exfalso
        have hmem : t ∈ front ++ us ++ rest := by simp [ht]
        obtain ⟨e', he', hstart'⟩ := hf t hmem l hl (by rw [hfl]; exact Option.some_ne_none v)
        have hsolid := ho.solid t hmem
        have hhigh : t.location.stop ≤ (at_.advance (spelling before)).offset := by
          rw [← hbefore] at ht
          exact (Token.bounds_of_mem_laid ht).2
        rw [Position.offset_advance, hs] at hhigh
        rw [Location.start, hl] at hstart'
        simp only [Location.start] at hsolid
        rcases List.mem_cons.mp he' with rfl | he'
        · omega
        · have := hlater e' he'
          omega
    rw [← hafter] at hes' hf'
    obtain ⟨ps', hsp', hsw'⟩ := ih (by rw [hstop, Int.toNat_natCast]) hspafter
      (by rw [hafter]; exact ho.append.2) hun.right_of_append hp
      (fun e he ↦ hin e (List.mem_cons_of_mem _ he)) hes' hf'
    refine ⟨before ++ (new ++ ps'), ?_, fun at_' ↦ ?_⟩
    · rw [Edit.weave, hkept, hnew, List.append_assoc]
      obtain ⟨tail, htail⟩ := hpatch.word
      rw [List.append_assoc] at hsp hun
      refine hsp.seam (hpatch.closed hsp') ?_ ?_ hun.left_of_append
      · rw [htail]
        intro c hc
        obtain rfl := Option.some.inj hc
        decide
      · rw [htail, List.cons_append]
        exact hsp.seals_before_name
    · obtain ⟨g, hg, hex⟩ := hpatch.exchanged (at_'.advance (spelling before))
      rw [hlaid, Token.laid_append, Token.laid_append, ← hg, List.append_assoc]
      refine Swapped.append ?_ (.swap hex hpatched.place ?_ ?_)
      · rw [← hbefore]
        exact swapped_laid at_' (by rwa [hbefore])
      · rw [List.append_nil]
        exact hpatched.noElse
      · rw [← hafter]
        exact hsw' _

end GuardLint.Syntax
