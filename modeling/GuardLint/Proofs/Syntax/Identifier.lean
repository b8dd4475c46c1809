import GuardLint.Proofs.Scope.NameText
import GuardLint.Proofs.Syntax.Expression

/-!
# The identifiers of a source file

An identifier is a token of the text: it is not empty and has no dot. So the dots of a dotted name
are those that its tree tells, and the name of a package is not empty.
-/

namespace GuardLint.Syntax

open Grammar

/-- A name that is not put together with dots. -/
def Simple (name : String) : Prop := name ≠ "" ∧ '.' ∉ name.toList

/-- The identifiers along the left of an expression: those of a dotted name, and of a call behind
its target. -/
def Expr.identifiers : Expr → List String
  | .name _ n => [n]
  | .field _ e n => e.identifiers ++ [n]
  | .call _ (some e) n _ => e.identifiers ++ [n]
  | .call _ none n _ => [n]
  | _ => []

/-- A name of a text is an identifier. -/
def Kind.Identifies (kind : Kind) (t : Token) : Prop := kind = .name → Simple t.text

theorem Token.identifies_of_mem_laid {ps : List Piece} {text : List Char} (h : Spelled ps text)
    (at_ : Position) : ∀ t ∈ laid at_ ps, t.kind.Identifies t := by
  intro t ht hname
  refine ⟨text_ne_of_mem_laid h at_ t ht, ?_⟩
  refine forall_mem_laid (P := fun t ↦ t.kind = .name → '.' ∉ t.text.toList)
    (fun l hfirst hkind ↦ ?_) h at_ t ht hname
  have hkind : _ = Kind.name := hkind
  subst hkind
  rw [String.toList_ofList]
  simp only [Lexer.first?_eq_some, Lexeme.Class.token.injEq, reduceCtorEq, and_false, false_and,
    exists_false, false_or, or_false] at hfirst
  exact Lexer.notMem_name hfirst.2.2.1 (by decide) (by decide)

/-! ### Expressions -/

/-- The identifiers along the left of an expression are simple. -/
def Identified (c : Category) (v : c.Value) : Prop :=
  ∀ e ∈ c.expr? v, ∀ n ∈ e.identifiers, Simple n

private theorem identified_value (c : Category) : ∀ p ∈ c.rules, ∀ (l : Location)
    (vs : Values Category.Value p.elements),
      All Identified Kind.Identifies p.elements vs → Identified c (p.value l vs) := by
  cases c with
  | name =>
    refine List.forall_mem_singleton.mpr fun l vs h e he ↦ ?_
    cases he
    exact List.forall_mem_singleton.mpr (h.1 rfl)
  | fieldAccess =>
    refine List.forall_mem_singleton.mpr fun l vs h e he ↦ ?_
    cases he
    exact List.forall_mem_append.mpr ⟨h.1 _ rfl, List.forall_mem_singleton.mpr (h.2.2.1 rfl)⟩
  | methodCall =>
    refine List.forall_mem_cons.mpr ⟨fun l vs h e he ↦ ?_,
      List.forall_mem_singleton.mpr fun l vs h e he ↦ ?_⟩
    · cases he
      exact List.forall_mem_append.mpr
        ⟨h.1 _ rfl, List.forall_mem_singleton.mpr (h.2.2.2.1 rfl)⟩
    · cases he
      exact List.forall_mem_singleton.mpr (h.1 rfl)
  | _ =>
    repeat' refine List.forall_mem_cons.mpr ⟨fun l vs h e he ↦ ?_, ?_⟩
    all_goals
      first
      | exact List.forall_mem_nil _
      -- no expression, one handed on, or one that is not put together from identifiers
      | exact absurd he (Option.some_ne_none e).symm
      | exact h.1 e he
      | exact Option.some.inj he ▸ List.forall_mem_nil _

theorem identified_of_reads {c : Category} {ts : List Token} {v : c.Value}
    (hr : Reads language (.node (.one c)) ts v) (ht : ∀ t ∈ ts, t.kind.Identifies t) :
    Identified c v :=
  Reads.all (P := Identified) (fun c p hp l ↦ identified_value c p hp l) hr ht

/-! ### Packages -/

/-- The name of a package is not empty. -/
def PackageNamed : (c : Category) → c.Value → Prop
  | .compilationUnit => fun unit ↦ ∀ p ∈ unit.package, p ≠ ""
  | .packageDecl | .qualifiedName => fun n ↦ n ≠ ""
  | _ => fun _ ↦ True

theorem intercalate_cons_ne {first : String} (h : first ≠ "") (others : List String) :
    ".".intercalate (first :: others) ≠ "" := by
  cases others with
  | nil => exact h
  | cons second others =>
    intro heq
    rw [String.intercalate_cons_cons] at heq
    have hlist := congrArg String.toList heq
    simp only [String.toList_append, String.toList_empty, List.append_eq_nil_iff] at hlist
    exact h (String.toList_inj.mp hlist.1.1)

private theorem packageNamed_value (c : Category) : ∀ p ∈ c.rules, ∀ (l : Location)
    (vs : Values Category.Value p.elements),
      All PackageNamed Kind.Identifies p.elements vs → PackageNamed c (p.value l vs) := by
  cases c with
  | compilationUnit => exact List.forall_mem_singleton.mpr fun l vs h ↦ h.1
  | packageDecl => exact List.forall_mem_singleton.mpr fun l vs h ↦ h.2.2.1
  | qualifiedName =>
    exact List.forall_mem_singleton.mpr fun l vs h ↦ intercalate_cons_ne (h.1 rfl).1 _
  | _ => exact fun _ _ _ _ _ ↦ trivial

theorem CompilationUnit.package_ne_of_parse {source : List Char} {unit : CompilationUnit}
    (h : CompilationUnit.parse source = .ok unit) : ∀ p ∈ unit.package, p ≠ "" := by
  obtain ⟨tokens, htokens, hr⟩ := CompilationUnit.parse_eq_ok.mp h
  obtain ⟨ps, hs, rfl⟩ := Token.laid_ofSource htokens
  have hnamed : PackageNamed .compilationUnit unit := Reads.all (P := PackageNamed)
    (fun c p hp l ↦ packageNamed_value c p hp l) hr (Token.identifies_of_mem_laid hs _)
  exact hnamed

end GuardLint.Syntax
