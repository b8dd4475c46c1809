import GuardLint.Proofs.Syntax.Language
import GuardLint.Proofs.Syntax.Order
import GuardLint.Proofs.Syntax.Relocation
import GuardLint.Proofs.Syntax.Segment

/-!
# Layout

Blanks, line breaks and comments only set where the tokens of a text stand. Two texts with the same
tokens but for their places are read as the same tree but for its locations: some relocation takes
every location of the one tree to that of the other.
-/

namespace GuardLint.Syntax

open Grammar

/-- Some tokens are others that a relocation moves, and what stands on some of them in a row moves
with them. -/
structure Relocation.Moves (g : Relocation) (ts ts' : List Token) : Prop where
  tokens : ts.map g.token = ts'
  cover : ∀ us, us <:+: ts → g (Token.cover us) = Token.cover (us.map g.token)

variable {g : Relocation} {ts ts' : List Token}

/-! ### Positions -/

/-- What stands in the second list where a position is in the first one. -/
private def shift (old new : List Position) (p : Position) : Position :=
  (new[old.idxOf p]?).getD p

private theorem shift_getElem {old : List Position} (hn : old.Nodup) (new : List Position) {i : Nat}
    (h : i < old.length) (h' : i < new.length) : shift old new old[i] = new[i] := by
  rw [shift, hn.idxOf_getElem i h, List.getElem?_eq_getElem h', Option.getD_some]

/-- The relocation that takes the places of some tokens to those of others. -/
private def between (ts ts' : List Token) : Relocation := fun l ↦
  if l = .empty then .empty
  else ⟨shift (ts.map (·.location.first)) (ts'.map (·.location.first)) l.first,
    shift (ts.map (·.location.last)) (ts'.map (·.location.last)) l.last⟩

private theorem ne_empty {l : Location} (h : l.start < l.stop) : l ≠ .empty := by
  rintro rfl
  exact absurd h (Nat.lt_irrefl _)

theorem Token.Ordered.firsts_nodup (ho : Token.Ordered ts) :
    (ts.map (·.location.first)).Nodup := by
  refine List.pairwise_map.mpr (ho.apart.imp_of_mem fun ha _ hab heq ↦ ?_)
  have hsolid := ho.solid _ ha
  have hstart := congrArg Position.offset heq
  unfold Location.start Location.stop at *
  omega

theorem Token.Ordered.lasts_nodup (ho : Token.Ordered ts) :
    (ts.map (·.location.last)).Nodup := by
  refine List.pairwise_map.mpr (ho.apart.imp_of_mem fun _ hb hab heq ↦ ?_)
  have hsolid := ho.solid _ hb
  have hstop := congrArg Position.offset heq
  unfold Location.start Location.stop at *
  omega

/-! ### Tokens -/

/-- Tokens that look the same are moved to each other. -/
theorem exists_relocation (ho : Token.Ordered ts) (hf : ts'.map Token.face = ts.map Token.face) :
    ∃ g : Relocation, g.Moves ts ts' := by
  have hlength : ts'.length = ts.length := by simpa using congrArg List.length hf
  have hsolid : ∀ t ∈ ts, between ts ts' t.location =
      ⟨shift (ts.map (·.location.first)) (ts'.map (·.location.first)) t.location.first,
        shift (ts.map (·.location.last)) (ts'.map (·.location.last)) t.location.last⟩ :=
    fun t ht ↦ if_neg (ne_empty (ho.solid t ht))
  refine ⟨between ts ts', ?_, fun us hus ↦ ?_⟩
  · refine List.ext_getElem (by rw [List.length_map, hlength]) fun i hi hi' ↦ ?_
    rw [List.length_map] at hi
    have hface : Token.face ts'[i] = Token.face ts[i] := by
      have h := congrArg (·[i]?) hf
      simpa [hi, hi'] using h
    have hfirst := shift_getElem (i := i) ho.firsts_nodup (ts'.map (·.location.first))
      (by rwa [List.length_map]) (by rwa [List.length_map])
    have hlast := shift_getElem (i := i) ho.lasts_nodup (ts'.map (·.location.last))
      (by rwa [List.length_map]) (by rwa [List.length_map])
    rw [List.getElem_map, List.getElem_map] at hfirst hlast
    rw [List.getElem_map, Relocation.token, hsolid _ (List.getElem_mem hi), hfirst, hlast]
    obtain ⟨hkind, htext⟩ := Prod.ext_iff.mp hface
    exact congrArg₂ (fun k s ↦ Token.mk k s ts'[i].location) hkind.symm htext.symm
  · by_cases hne : us = []
    · subst hne
      exact if_pos rfl
    · obtain ⟨a, ha, b, hb, hhead, hlast, hcover⟩ := Token.cover_eq hne
      have hou := ho.among hus
      have hwhole : (Token.cover us).start < (Token.cover us).stop := by
        rw [hcover]
        exact Nat.lt_of_le_of_lt (hou.first_le hhead hb) (hou.solid b hb)
      have hmoved : Token.cover (us.map (Relocation.token (between ts ts'))) =
          ⟨(between ts ts' a.location).first, (between ts ts' b.location).last⟩ := by
        rw [Token.cover, List.head?_map, List.getLast?_map, hhead, hlast]
        rfl
      rw [hmoved, hsolid a (hus.subset ha), hsolid b (hus.subset hb), between,
        if_neg (ne_empty hwhole), hcover]

/-! ### Trees -/

theorem Relocation.Moves.among (h : g.Moves ts ts') {us : List Token} (hus : us <:+: ts) :
    g.Moves us (us.map g.token) :=
  ⟨rfl, fun xs hx ↦ h.cover xs (hx.trans hus)⟩

/-- What is read from tokens is read from them wherever they are moved, with its locations moved. -/
theorem Relocation.Moves.reads (h : g.Moves ts ts') {s : Symbol Category}
    {v : s.Value Category.Value} (hr : Reads language s ts v) :
    Reads language s ts' (s.convert (category g) g.token v) := by
  rw [← h.tokens]
  exact (converts g).reads hr h.cover

/-- Two texts with the same tokens but for their places are read as the same tree but for its
locations. -/
theorem CompilationUnit.exists_moves {text text' : List Char} {unit unit' : CompilationUnit}
    (hp : CompilationUnit.parse text = .ok unit) (hp' : CompilationUnit.parse text' = .ok unit')
    (hf : (Token.ofSource text').1.map Token.face = (Token.ofSource text).1.map Token.face) :
    ∃ g : Relocation, g.Moves (Token.ofSource text).1 (Token.ofSource text').1 ∧
      unit' = g.unit unit := by
  obtain ⟨ts, hs, hr⟩ := CompilationUnit.parse_eq_ok.mp hp
  obtain ⟨ts', hs', hr'⟩ := CompilationUnit.parse_eq_ok.mp hp'
  rw [hs, hs'] at hf ⊢
  obtain ⟨g, hg⟩ := exists_relocation (Token.ordered_ofSource hs) hf
  exact ⟨g, hg, hr'.unique (hg.reads hr)⟩

end GuardLint.Syntax
