import GuardLint.Check.Facts
import GuardLint.Proofs.Scope.Placement
import GuardLint.Proofs.Syntax.Numbers

/-!
# Calls that another statement may replace

What a walk says of the `else` after a statement is what the tokens say, however statements are
nested and whichever `if` the `else` is bound to. So a call may be replaced exactly if it is the
whole of an expression statement that no `else` follows.
-/

namespace GuardLint

open Syntax Grammar

/-- Whether the first token at an offset or after it is `else`. -/
def Syntax.Token.elseFrom (tokens : List Token) (offset : Nat) : Bool :=
  match Token.next? tokens offset with
  | some t => t.kind == .word .else
  | none => false

/-- An expression statement of a tree stands at a location and consists of a call alone. -/
def Call.StatementAt (unit : CompilationUnit) (c : Call) (l : Location) : Prop :=
  ∃ o ∈ Occurrence.ofUnit unit, o.call = c ∧ o.statement = some l

/-- What follows the tokens of a statement in a source text is what follows its location. -/
private theorem elseFrom_of_stands {tokens : List Token} (ho : Token.Ordered tokens)
    {o : Occurrence} {l : Location} (h : Occurrence.Stands tokens [] o l) :
    Token.elseFrom tokens l.stop = o.beforeElse := by
  obtain ⟨front, us, rest, rfl, rfl, hr, he⟩ := h
  have hin : Inner language (.one .statement) := fun h ↦ by cases h
  have hne := hr.matches.ne_nil language_lawful fun h hs ↦ by cases hs; exact hin
  rw [Token.elseFrom, Token.next?_cover ho hne, he, List.append_nil]
  cases rest <;> rfl

/-- A call of a source text that is a statement by itself is marked exactly if the next token is
`else`, and the place where it may be replaced is that of the statement that it is, if no `else`
follows. -/
theorem CallSite.replacementSpan_eq_some {source : List Char} {unit : CompilationUnit}
    (hp : CompilationUnit.parse source = .ok unit) {skip : List String} {site : CallSite}
    (hs : site ∈ CallSite.ofUnit unit skip) :
    (∀ l, site.statement = some l →
      (site.beforeElse = true ↔ Token.elseFrom (Token.ofSource source).1 l.stop = true)) ∧
    ∀ path span, site.replacementSpan path = some span ↔
      ∃ l, site.call.StatementAt unit l ∧
        Token.elseFrom (Token.ofSource source).1 l.stop = false ∧ span = .ofLocation l path := by
  obtain ⟨tokens, htokens, hr⟩ := CompilationUnit.parse_eq_ok.mp hp
  have hfits := Occurrence.fits_ofUnit htokens hr
  have ho := Token.ordered_ofSource htokens
  have hmem := CallSite.occurrence_mem hs
  rw [htokens]
  have hmarked : ∀ l, site.statement = some l → Token.elseFrom tokens l.stop = site.beforeElse :=
    fun l hl ↦ elseFrom_of_stands ho (hfits.stands _ hmem l hl)
  refine ⟨fun l hl ↦ by rw [hmarked l hl], fun path span ↦ ?_⟩
  constructor
  · intro h
    unfold replacementSpan at h
    split at h
    · next l hl =>
      split at h
      · cases h
      · next hb =>
        cases h
        exact ⟨l, ⟨_, hmem, rfl, hl⟩, by rw [hmarked l hl]; simpa using hb, rfl⟩
    · cases h
  · rintro ⟨l, ⟨o, hom, hcall, hstmt⟩, he, rfl⟩
    -- No other call stands where this one does, so the statement is this call's.
    have hsame : o = site.occurrence :=
      List.inj_on_of_nodup_map hfits.distinct hom hmem (by rw [hcall]; rfl)
    subst hsame
    have hl : site.statement = some l := hstmt
    have hb : site.beforeElse = false := (hmarked l hl).symm.trans he
    simp only [replacementSpan, hl, hb, Bool.false_eq_true, if_false]

/-- A text with a call before an `else` and one after it. -/
private def branches : List Char := "class A\x7b\x7bif(b)f();else g();\x7d\x7d".toList

private theorem branches_sites :
    (match CompilationUnit.parse branches with
      | .ok unit => (CallSite.ofUnit unit []).map fun s ↦
          (s.statement, s.beforeElse, s.replacementSpan none)
      | .error _ => []) =
      [(some ⟨⟨14, 1, 15⟩, ⟨18, 1, 19⟩⟩, true, none),
       (some ⟨⟨23, 1, 24⟩, ⟨27, 1, 28⟩⟩, false,
        some ⟨none, some 1, some 24, some 1, some 28, some 23, some 27⟩)] := by
  have htext : branches = _ := String.toList_ofList
  rw [htext, CompilationUnit.parse_eq_parseNumbered]
  decide +kernel

/-- Of two calls, one before an `else` and one after it, only the second may be replaced. -/
theorem CallSite.replacementSpan_branches : ∃ unit f g,
    CompilationUnit.parse branches = .ok unit ∧ CallSite.ofUnit unit [] = [f, g] ∧
      Token.elseFrom (Token.ofSource branches).1 18 = true ∧
      ∃ l, g.call.StatementAt unit l ∧ Token.elseFrom (Token.ofSource branches).1 l.stop = false ∧
        l.start = 23 := by
  have hsites := branches_sites
  split at hsites
  · next unit hp =>
    obtain ⟨f, sites, hall, hf, hsites⟩ := List.map_eq_cons_iff.mp hsites
    obtain ⟨g, sites, rfl, hg, hsites⟩ := List.map_eq_cons_iff.mp hsites
    obtain rfl := List.map_eq_nil_iff.mp hsites
    simp only [Prod.mk.injEq] at hf hg
    obtain ⟨hfs, hfb, -⟩ := hf
    obtain ⟨-, -, hgr⟩ := hg
    have hfm : f ∈ CallSite.ofUnit unit [] := by rw [hall]; exact List.mem_cons_self
    have hgm : g ∈ CallSite.ofUnit unit [] := by
      rw [hall]
      exact List.mem_cons_of_mem _ List.mem_cons_self
    obtain ⟨l, hl, he, hspan⟩ := ((CallSite.replacementSpan_eq_some hp hgm).2 none _).mp hgr
    refine ⟨unit, f, g, hp, hall, ?_, l, hl, he, ?_⟩
    · exact ((CallSite.replacementSpan_eq_some hp hfm).1 _ hfs).mp hfb
    · have hstart := congrArg Span.start hspan
      exact (Int.ofNat.inj (Option.some.inj hstart)).symm
  · cases hsites

end GuardLint
