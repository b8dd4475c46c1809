import Mathlib.Data.List.Pairwise
import GuardLint.Proofs.Scope.Exchange
import GuardLint.Proofs.Syntax.Call

/-!
# How statements that are calls are nested

Two calls that are statements by themselves lie apart, or one lies strictly inside the other: a
statement inside another is part of the call that the other consists of, so it ends before the
semicolon, and it begins later, since the semicolons of the call all stand inside its brackets.
-/

namespace GuardLint

open Syntax Grammar

namespace Location

/-- A piece of a text lies strictly inside another. -/
def Inside (l m : Location) : Prop := m.start < l.start ∧ l.stop < m.stop

/-- A piece ends before another begins, or has it strictly inside. -/
def Leads (l m : Location) : Prop := l.stop ≤ m.start ∨ m.Inside l

end Location

namespace Occurrence

variable {ts us ws : List Token}

/-- Pieces that follow each other lie apart. -/
private theorem leads_of_cut (ho : Token.Ordered (us ++ ws)) {l m : Location}
    (hl : ∃ xs, xs <:+: us ∧ xs ≠ [] ∧ Token.cover xs = l)
    (hm : ∃ ys, ys <:+: ws ∧ ys ≠ [] ∧ Token.cover ys = m) : l.Leads m := by
  obtain ⟨xs, hxu, hx, rfl⟩ := hl
  obtain ⟨ys, hyw, hy, rfl⟩ := hm
  exact .inl (ho.cover_apart hxu hyw hx hy)

/-- A statement inside a call lies strictly inside the statement which the call is. -/
private theorem inside_of_stands {call : List Token} {semicolon : Token} {o : Occurrence}
    {m : Location} (ho : Token.Ordered (call ++ [semicolon]))
    (hcall : Matches language (.node (.one .statementExpr)) call)
    (hm : Stands call [] o m) : m.Inside (Token.cover (call ++ [semicolon])) := by
  obtain ⟨front, us, rest, rfl, rfl, hr, -⟩ := hm
  obtain ⟨inner, semicolon', rfl, hsemi, hinner, -⟩ := reads_callStmt hr
  have hfront : front ≠ [] := by
    rintro rfl
    have hin := fenced_of_matches (by decide) hcall inner semicolon'
      ⟨rest, by rw [List.nil_append]⟩ hsemi
    rw [(balanced_of_matches hinner).closed] at hin
    exact Int.lt_irrefl 0 hin
  obtain ⟨a, ha, b, hb, -, -, hcover⟩ :=
    Token.cover_eq (List.append_ne_nil_of_right_ne_nil inner (List.cons_ne_nil semicolon' []))
  obtain ⟨c, -, d, -, hc, hd, hwhole⟩ := Token.cover_eq
    (List.append_ne_nil_of_right_ne_nil (front ++ (inner ++ [semicolon']) ++ rest)
      (List.cons_ne_nil semicolon []))
  have hcf : c ∈ front := by
    rw [List.append_assoc, List.append_assoc, List.head?_append_of_ne_nil _ hfront] at hc
    exact List.mem_of_head? hc
  rw [List.getLast?_concat] at hd
  obtain rfl := Option.some.inj hd
  rw [hcover, hwhole]
  refine ⟨?_, ?_⟩
  · exact (ho.append.1.append.1).first_lt hcf ha
  · exact ho.last_lt (List.mem_append_left rest (List.mem_append_right front hb))
      (List.mem_singleton.mpr rfl)

/-- What is shown of everything that is read. -/
private def Layered (s : Symbol Category) (ts : List Token) (v : s.Value Category.Value) : Prop :=
  bare s = false → Token.Ordered ts → (places (ofSymbol false s v)).Pairwise Location.Leads

/-- The statements in elements side by side. -/
private theorem layered_elements {es : List (Element Category)} {vs : Values Category.Value es}
    (hb : ∀ e ∈ es, bare e.symbol = false) (ho : Token.Ordered ts)
    (hp : Parts (fun s us x ↦ Reads language s us x ∧ Layered s us x) es ts vs) :
    (places (ofElements false es vs)).Pairwise Location.Leads := by
  induction es generalizing ts with
  | nil => exact .nil
  | cons e es ih =>
    obtain ⟨v, vs⟩ := vs
    obtain ⟨hbe, hb⟩ := List.forall_mem_cons.mp hb
    rw [ofElements, places_append]
    rcases hp with ⟨us, ws, x, rfl, ⟨hr, hx⟩, rfl, hp⟩ | ⟨ha, hp⟩
    · obtain ⟨hou, how⟩ := ho.append
      rw [ofElement_present, List.pairwise_append]
      refine ⟨hx hbe hou, ih hb how hp, fun l hl m hm ↦ leads_of_cut ho ?_ ?_⟩
      · exact located hr hbe hou hl
      · exact located_all (hp.mono fun _ _ _ _ h ↦ h.1) hb how hm
    · rw [ofElement_absent ha]
      exact ih hb ho hp

/-- The statements in an expression statement. -/
private theorem layered_exprStmt {e : Expr} {call : List Token} {semicolon : Token}
    (ho : Token.Ordered (call ++ [semicolon]))
    (hr : Reads language (.node (.one .statementExpr)) call e)
    (hx : Layered (.node (.one .statementExpr)) call e) :
    (places (ofStmt false (.expr (Token.cover (call ++ [semicolon])) e))).Pairwise
      Location.Leads := by
  have hin : (places (ofExpr e)).Pairwise Location.Leads := hx rfl ho.append.1
  have hstands : ∀ m ∈ places (ofExpr e), m.Inside (Token.cover (call ++ [semicolon])) := by
    intro m hm
    obtain ⟨o, hom, hol⟩ := List.mem_filterMap.mp hm
    exact inside_of_stands ho hr.matches ((fits_of_reads hr rfl ho.append.1).stands o hom m hol)
  cases e with
  | call cl t n as =>
    rw [ofExpr, places_cons_none] at hin hstands
    rw [ofStmt, places_cons_some]
    exact List.pairwise_cons.mpr ⟨fun m hm ↦ .inr (hstands m hm), hin⟩
  | _ => rwa [ofStmt]; simp

/-- Of the statements that are calls in what is read, each ends before a later one begins or has it
strictly inside. -/
theorem layered_of_reads {s : Symbol Category} {v : s.Value Category.Value}
    (hr : Reads language s ts v) : bare s = false → Token.Ordered ts →
      (places (ofSymbol false s v)).Pairwise Location.Leads := by
  refine Reads.induction (M := Layered) (fun t _ _ ↦ .nil) (fun h p ts vs hp _ hv hb ho ↦ ?_) hr
  by_cases hexpr : h = .one .statement ∧ Rewrite.isExprStmt p.elements = true
  · obtain ⟨rfl, he⟩ := hexpr
    obtain ⟨us, ws, e, semicolon, rfl, ⟨hr, hx⟩, ⟨hsemi, -⟩, hvalue, -⟩ := parts_exprStmt hp he hv
    rw [hvalue]
    rw [hsemi.tok_eq] at ho ⊢
    exact layered_exprStmt ho hr hx
  · refine (layered_elements (bare_of_mem hb hp) ho hv).sublist (places_value hp (fun hh ↦ ?_) _ _)
    exact Bool.eq_false_iff.mpr fun he ↦ hexpr ⟨hh, he⟩

end Occurrence

/-! ### Call sites -/

variable {source : List Char} {unit : CompilationUnit} {skip : List String} {site other : CallSite}
  {l m : Location}

/-- Of the call sites of a source text that are statements by themselves, each ends before a later
one begins or has it strictly inside. -/
theorem CallSite.pairwise_leads (hp : CompilationUnit.parse source = .ok unit) :
    (CallSite.ofUnit unit skip).Pairwise fun s t ↦
      ∀ l, s.statement = some l → ∀ m, t.statement = some m → l.Leads m := by
  obtain ⟨tokens, hs, hr⟩ := CompilationUnit.parse_eq_ok.mp hp
  have hall := Occurrence.layered_of_reads hr rfl (Token.ordered_ofSource hs)
  have hsub := (CallSite.occurrences_sublist unit skip).filterMap Occurrence.statement
  rw [List.filterMap_map] at hsub
  exact List.pairwise_filterMap.mp (hall.sublist hsub)

/-- Two call sites of a source text that are statements by themselves lie apart, or one lies
strictly inside the other. -/
theorem CallSite.leads_or (hp : CompilationUnit.parse source = .ok unit)
    (hsite : site ∈ CallSite.ofUnit unit skip) (hother : other ∈ CallSite.ofUnit unit skip)
    (hne : site ≠ other) (hl : site.statement = some l) (hm : other.statement = some m) :
    l.Leads m ∨ m.Leads l := by
  let R := fun s t : CallSite ↦ ∀ l, s.statement = some l → ∀ m, t.statement = some m →
    l.Leads m ∨ m.Leads l
  have hpair : (CallSite.ofUnit unit skip).Pairwise R :=
    (pairwise_leads hp).imp fun h l hl m hm ↦ .inl (h l hl m hm)
  have : Std.Symm R := ⟨fun s t h l hl m hm ↦ (h m hm l hl).symm⟩
  exact hpair.forall hsite hother hne l hl m hm

end GuardLint
