import GuardLint.Proofs.Syntax.Slash

/-!
# Segments

Tokens that follow each other in a source text come from pieces that do. The text of these pieces is
that which the location of the tokens covers. Pieces that are laid elsewhere make the same tokens, but
for their locations.
-/

namespace GuardLint.Syntax

/-- A piece of a text with its class. -/
abbrev Piece := Lexeme.Class × List Char

/-- The tokens of some pieces that follow each other from a position on. -/
def Token.laid (at_ : Position) (ps : List Piece) : List Token :=
  (Lexeme.laid at_ ps).filterMap Lexeme.token?

variable {at_ : Position} {ps qs : List Piece} {kind : Kind} {piece : List Char}
  {us ws front rest : List Token} {t : Token}

theorem Lexeme.laid_append (at_ : Position) (ps qs : List Piece) :
    Lexeme.laid at_ (ps ++ qs) = Lexeme.laid at_ ps ++ Lexeme.laid (at_.advance (spelling ps)) qs := by
  induction ps generalizing at_ with
  | nil => rfl
  | cons p ps ih =>
    obtain ⟨kind, piece⟩ := p
    rw [List.cons_append, Lexeme.laid, Lexeme.laid, ih, List.cons_append, spelling_cons,
      Position.advance_append]

namespace Token

@[simp] theorem laid_nil (at_ : Position) : laid at_ [] = [] := rfl

theorem laid_append (at_ : Position) (ps qs : List Piece) :
    laid at_ (ps ++ qs) = laid at_ ps ++ laid (at_.advance (spelling ps)) qs := by
  rw [laid, Lexeme.laid_append, List.filterMap_append]
  rfl

theorem laid_token (at_ : Position) (kind : Kind) (piece : List Char) (ps : List Piece) :
    laid at_ ((.token kind, piece) :: ps) =
      ⟨kind, String.ofList piece, ⟨at_, at_.advance piece⟩⟩ :: laid (at_.advance piece) ps := rfl

theorem laid_blank (at_ : Position) (piece : List Char) (ps : List Piece) :
    laid at_ ((.blank, piece) :: ps) = laid (at_.advance piece) ps := rfl

/-- What a token is, wherever it stands. -/
def face (t : Token) : Kind × String := (t.kind, t.text)

/-- Which tokens pieces make does not depend on where they are laid. -/
theorem faces_laid (ps : List Piece) (at_ at_' : Position) :
    (laid at_ ps).map face = (laid at_' ps).map face := by
  induction ps generalizing at_ at_' with
  | nil => rfl
  | cons p ps ih =>
    obtain ⟨kind, piece⟩ := p
    cases kind with
    | token kind => exact congrArg ((kind, String.ofList piece) :: ·) (ih _ _)
    | comment => exact ih _ _
    | blank => exact ih _ _

/-! ### Cutting -/

/-- The first token is a piece behind pieces without tokens. -/
private theorem exists_piece_of_cons (h : laid at_ ps = t :: ws) : ∃ gaps piece qs,
    ps = gaps ++ (.token t.kind, piece) :: qs ∧ laid at_ gaps = [] ∧
      laid (at_.advance (spelling gaps)) [(.token t.kind, piece)] = [t] ∧
      laid (at_.advance (spelling gaps ++ piece)) qs = ws := by
  induction ps generalizing at_ with
  | nil => cases h
  | cons p ps ih =>
    obtain ⟨kind, piece⟩ := p
    have hgap : laid at_ [(kind, piece)] = [] → laid (at_.advance piece) ps = t :: ws →
        ∃ gaps piece' qs, (kind, piece) :: ps = gaps ++ (.token t.kind, piece') :: qs ∧
          laid at_ gaps = [] ∧
          laid (at_.advance (spelling gaps)) [(.token t.kind, piece')] = [t] ∧
          laid (at_.advance (spelling gaps ++ piece')) qs = ws := by
      intro hnil h
      obtain ⟨gaps, piece', qs, rfl, hgaps, ht, hqs⟩ := ih h
      refine ⟨(kind, piece) :: gaps, piece', qs, rfl, ?_, ?_, ?_⟩
      · rw [← List.singleton_append, laid_append, hnil]
        simpa using hgaps
      · rw [spelling_cons, Position.advance_append, ht]
      · rw [spelling_cons, List.append_assoc, Position.advance_append, hqs]
    cases kind with
    | token kind =>
      obtain ⟨rfl, hws⟩ := List.cons.inj h
      exact ⟨[], piece, ps, rfl, rfl, rfl, hws⟩
    | comment => exact hgap rfl h
    | blank => exact hgap rfl h

/-- No gap stands behind the last token of some pieces. -/
def EndsWith (at_ : Position) (ps : List Piece) (us : List Token) : Prop :=
  match us.getLast? with
  | none => ps = []
  | some t => ∃ piece, ps.getLast? = some (.token t.kind, piece) ∧
    t.location.last = at_.advance (spelling ps)

/-- Where the tokens of some pieces are cut the pieces can be cut. -/
theorem exists_cut (h : laid at_ ps = us ++ ws) : ∃ qs rs, ps = qs ++ rs ∧ laid at_ qs = us ∧
    laid (at_.advance (spelling qs)) rs = ws ∧ EndsWith at_ qs us := by
  induction us generalizing at_ ps with
  | nil => exact ⟨[], ps, rfl, rfl, h, rfl⟩
  | cons t us ih =>
    obtain ⟨gaps, piece, qs, rfl, hgaps, ht, hqs⟩ := exists_piece_of_cons h
    obtain ⟨qs, rs, rfl, hq, hr, hlast⟩ := ih hqs
    have hspell : ∀ qs : List Piece, spelling (gaps ++ (Lexeme.Class.token t.kind, piece) :: qs) =
        spelling gaps ++ piece ++ spelling qs := by simp
    refine ⟨gaps ++ (.token t.kind, piece) :: qs, rs, by simp, ?_, ?_, ?_⟩
    · rw [laid_append, hgaps, List.nil_append, ← List.singleton_append, laid_append, ht,
        spelling_cons, spelling_nil, List.append_nil, ← Position.advance_append, hq,
        List.singleton_append]
    · rw [hspell, Position.advance_append, hr]
    · cases us with
      | nil =>
        obtain rfl : qs = [] := hlast
        refine ⟨piece, by simp, ?_⟩
        rw [hspell, spelling_nil, List.append_nil, Position.advance_append]
        have hlocation := congrArg (fun ts ↦ ts.map fun t ↦ t.location.last) ht
        exact (List.cons.inj hlocation).1.symm
      | cons u us =>
        have hcons : (t :: u :: us).getLast? = (u :: us).getLast? := List.getLast?_cons_cons
        unfold EndsWith at hlast ⊢
        rw [hcons]
        split at hlast
        · next hnone => cases hnone ▸ List.getLast?_eq_some_getLast (List.cons_ne_nil u us)
        · next x _ =>
          obtain ⟨piece', hp, hl⟩ := hlast
          refine ⟨piece', ?_, by rw [hl, hspell]; exact (Position.advance_append _ _ _).symm⟩
          rw [List.getLast?_append, List.getLast?_cons, hp]
          rfl

/-- A token of some pieces is the text of one of them, where this stands. -/
theorem exists_piece_of_mem (h : t ∈ laid at_ ps) : ∃ pre post,
    spelling ps = pre ++ t.text.toList ++ post ∧
      t.location = ⟨at_.advance pre, at_.advance (pre ++ t.text.toList)⟩ := by
  obtain ⟨front, rest, hts⟩ := List.append_of_mem h
  obtain ⟨qs, rs, rfl, -, hr, -⟩ := exists_cut hts
  obtain ⟨gaps, piece, rs, rfl, -, ht, -⟩ := exists_piece_of_cons hr
  have htext : piece = t.text.toList := by
    rw [← congrArg Token.text (List.cons.inj ht).1]
    exact String.toList_ofList.symm
  refine ⟨spelling qs ++ spelling gaps, spelling rs, by simp [htext], ?_⟩
  rw [← congrArg Token.location (List.cons.inj ht).1, ← htext]
  simp only [Position.advance_append]

/-- The pieces of tokens that follow each other: they begin with the first token and end with the
last. -/
theorem exists_segment (h : laid at_ ps = front ++ us ++ rest) (hne : us ≠ []) :
    ∃ qs rs ss, ps = qs ++ rs ++ ss ∧ laid at_ qs = front ∧
      laid (at_.advance (spelling qs)) rs = us ∧
      laid (at_.advance (spelling (qs ++ rs))) ss = rest ∧
      cover us = ⟨at_.advance (spelling qs), at_.advance (spelling (qs ++ rs))⟩ ∧
      (∃ t piece, us.head? = some t ∧ rs.head? = some (.token t.kind, piece)) ∧
      ∃ t piece, us.getLast? = some t ∧ rs.getLast? = some (.token t.kind, piece) := by
  rw [List.append_assoc] at h
  obtain ⟨qs, rs, rfl, hq, hr, -⟩ := exists_cut h
  obtain ⟨t, us, rfl⟩ := List.exists_cons_of_ne_nil hne
  obtain ⟨gaps, piece, rs, rfl, hgaps, ht, hrs⟩ := exists_piece_of_cons hr
  -- The gaps before the first token belong to what stands before it.
  have hat : at_.advance (spelling (qs ++ gaps)) =
      (at_.advance (spelling qs)).advance (spelling gaps) := by
    rw [spelling_append, Position.advance_append]
  have hlaid : laid (at_.advance (spelling (qs ++ gaps))) ((.token t.kind, piece) :: rs) =
      t :: us ++ rest := by
    rw [hat, ← List.singleton_append, laid_append, ht, spelling_cons, spelling_nil,
      List.append_nil, ← Position.advance_append, hrs]
    rfl
  obtain ⟨rs', ss, hcut, hr', hs', hend⟩ := exists_cut hlaid
  cases rs' with
  | nil => cases hr'
  | cons r rs' =>
    obtain ⟨rfl, rfl⟩ := List.cons.inj hcut
    have hfirst : t.location.first = at_.advance (spelling (qs ++ gaps)) := by
      rw [hat]
      have hlocation := congrArg (fun ts ↦ ts.map fun t ↦ t.location.first) ht
      exact (List.cons.inj hlocation).1.symm
    obtain ⟨a, -, b, -, ha, hb, hcover⟩ := cover_eq (List.cons_ne_nil t us)
    obtain rfl := Option.some.inj ha
    unfold EndsWith at hend
    rw [hb] at hend
    obtain ⟨piece', hlast, hl⟩ := hend
    have hall : at_.advance (spelling (qs ++ gaps ++ (Lexeme.Class.token t.kind, piece) :: rs')) =
        (at_.advance (spelling (qs ++ gaps))).advance
          (spelling ((Lexeme.Class.token t.kind, piece) :: rs')) := by
      rw [spelling_append (qs ++ gaps), Position.advance_append]
    refine ⟨qs ++ gaps, (.token t.kind, piece) :: rs', ss, by simp, ?_, hr', ?_, ?_,
      ⟨t, piece, rfl, rfl⟩, ⟨b, piece', hb, hlast⟩⟩
    · rw [laid_append, hgaps, List.append_nil, hq]
    · rw [hall, hs']
    · rw [hcover, hfirst, hl, hall]

/-! ### Texts -/

theorem laid_ofSource {source : List Char} {tokens : List Token}
    (h : Token.ofSource source = (tokens, none)) :
    ∃ ps, Spelled ps source ∧ tokens = laid .origin ps := by
  unfold Token.ofSource at h
  obtain ⟨htokens, hstray⟩ := Prod.mk.inj h
  obtain ⟨ps, hs, hls⟩ := Lexeme.ofSource_eq.mp
    (Prod.ext (x := Lexeme.ofSource source) rfl hstray)
  exact ⟨ps, hs, htokens.symm.trans (congrArg (List.filterMap Lexeme.token?) hls)⟩

theorem ofSource_of_spelled {source : List Char} (h : Spelled ps source) :
    Token.ofSource source = (laid .origin ps, none) := by
  unfold Token.ofSource
  rw [Lexeme.ofSource_eq.mpr ⟨ps, h, rfl⟩]
  rfl

/-- What the location of pieces of a text covers is their text. -/
theorem slice_of_spelling {qs rs ss : List Piece} {source : List Char}
    (h : source = spelling (qs ++ rs ++ ss)) {l : Location}
    (hl : l = ⟨Position.origin.advance (spelling qs), Position.origin.advance (spelling (qs ++ rs))⟩) :
    l.slice source = spelling rs := by
  subst h hl
  have horigin : Position.origin.offset = 0 := rfl
  simp only [Location.slice, Location.start, Location.stop, Position.offset_advance, horigin,
    spelling_append, List.length_append, Nat.zero_add, Nat.add_sub_cancel_left, List.append_assoc,
    List.drop_left, List.take_left]

end Token

end GuardLint.Syntax
