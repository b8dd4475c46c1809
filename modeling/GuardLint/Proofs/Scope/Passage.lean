import GuardLint.Proofs.Scope.Course

/-!
# From a part to those inside it

What a walk does to its place when it goes from a part of a tree to one right inside it: it stays in
the class and may put variables in front, or it enters the body of an anonymous class or of a member
class. What holds of the places where a walk starts, and is kept by each such step, holds of all its
places.
-/

namespace GuardLint

open Syntax

namespace Place

theorem enclosing_after (p : Place) (s : Stmt) : (p.after s).enclosing = p.enclosing := by
  cases s <;> rfl

theorem enclosing_afterSetups (p : Place) (ss : List Setup) :
    (p.afterSetups ss).enclosing = p.enclosing := by
  induction ss generalizing p with
  | nil => rfl
  | cons s ss ih =>
    refine (ih (p.afterSetup s)).trans ?_
    cases s <;> rfl

end Place

namespace Part

/-- The members of the class around that are parts of a part. -/
def memberList : Part → List Member
  | .body _ ms | .members ms => ms
  | _ => []

/-- Whether a part is a class body. -/
def isBody : Part → Bool
  | .body .. => true
  | _ => false

/-- The places that a walk can have in the parts right inside a part, as long as it stays in the
class. Where it puts local variables in front, their declaration is a part itself. -/
inductive Moves (p : Place) (x : Part) : Place → Prop where
  | same : Moves p x p
  | noMethod : Moves p x { p with method := none }
  | inMethod (m : MethodDecl) : Moves p x (p.inMethod m)
  | params (ps : List Param) : Moves p x (p.bind (ps.map Variable.ofParam))
  | param (v : Param) : Moves p x (p.bind [Variable.ofParam v])
  | caught (c : CatchClause) : Moves p x (p.bind [Variable.ofCatch c])
  | locals (d : VarDecl) : (∀ k, (p.bind (Variable.ofLocals d), .locals d) ∈ x.inside k p) →
      Moves p x (p.bind (Variable.ofLocals d))
  | after (s : Stmt) : (∀ k, (p, .stmt s) ∈ x.inside k p) → Moves p x (p.after s)
  | afterSetups (ss : List Setup) : (∀ k, (p, .setups ss) ∈ x.inside k p) →
      Moves p x (p.afterSetups ss)

variable {k : Nat} {p q : Place} {x : Part} {a b : Place × Part}

theorem Moves.enclosing (h : Moves p x q) : q.enclosing = p.enclosing := by
  cases h with
  | after s => exact p.enclosing_after s
  | afterSetups ss => exact p.enclosing_afterSetups ss
  | _ => rfl

/-- A part right inside another is in the same class, or the body of an anonymous class or of a
member class. -/
theorem inside_cases (h : b ∈ x.inside k p) :
    (Moves p x b.1 ∧ b.2.isBody = false ∧ b.2.memberList ⊆ x.memberList) ∨
      (∃ l ms t, b = (p.anonymous l ms t k, .body [] ms)) ∨
      ∃ d ms, x = .members (.type d :: ms) ∧
        b = (.ofClass p.skip (p.enclosing.member d), .body d.constants d.members) := by
  cases x with
  | expr e =>
    cases e <;>
      simp only [inside, ofExpr, exprs, block, List.mem_append, List.mem_cons, List.mem_map,
        List.not_mem_nil, or_false] at h <;>
      grind [memberList, isBody, Moves]
  | stmt s =>
    cases s <;>
      simp only [inside, ofStmt, exprs, block, List.mem_append, List.mem_cons, List.mem_map,
        List.not_mem_nil, or_false] at h <;>
      grind [memberList, isBody, Moves, inside, ofStmt]
  | stmts ss =>
    cases ss with
    | nil => cases h
    | cons s ss =>
      simp only [inside, List.mem_cons, List.not_mem_nil, or_false] at h
      grind [memberList, isBody, Moves, inside]
  | locals d =>
    simp only [inside, inits, exprs, List.mem_map] at h
    grind [memberList, isBody, Moves]
  | setups ss =>
    rcases ss with _ | ⟨_ | _, _⟩ <;>
      simp only [inside, List.mem_cons, List.not_mem_nil, or_false] at h <;>
      grind [memberList, isBody, Moves, inside]
  | items is =>
    rcases is with _ | ⟨_ | _, _⟩ <;>
      simp only [inside, exprs, List.mem_append, List.mem_cons, List.mem_map, List.not_mem_nil,
        or_false] at h <;>
      grind [memberList, isBody, Moves, inside]
  | body cs ms =>
    simp only [inside, List.mem_cons, List.not_mem_nil, or_false] at h
    grind [memberList, isBody, Moves]
  | constants cs =>
    cases cs with
    | nil => cases h
    | cons c cs =>
      simp only [inside, exprs, List.mem_append, List.mem_cons, List.mem_map, List.not_mem_nil,
        or_false] at h
      grind [memberList, isBody, Moves]
  | members ms =>
    rcases ms with _ | ⟨_ | _ | _ | _, _⟩ <;>
      simp only [inside, ofMember, inits, exprs, block, List.mem_append, List.mem_cons,
        List.mem_map, List.not_mem_nil, or_false] at h <;>
      grind [memberList, isBody, Moves]

variable {unit : CompilationUnit} {skip : List String}

theorem Reached.inside (h : Reached unit skip (p, x)) (hb : b ∈ x.inside k p) :
    Reached unit skip b :=
  h.imp fun _ ⟨hd, hto⟩ ↦ ⟨hd, hto.tail ⟨k, hb⟩⟩

/-- What holds in the bodies of the classes that no class surrounds, and of each part right inside
another if of that one, holds wherever a walk has a place. -/
theorem Reached.induction {motive : (a : Place × Part) → Reached unit skip a → Prop}
    (start : ∀ d (hd : d ∈ unit.types), motive (.ofClass skip (UnitIndex.topLevel unit.package d),
      .body d.constants d.members) ⟨d, hd, .refl⟩)
    (step : ∀ k p x b (h : Reached unit skip (p, x)) (hb : b ∈ x.inside k p), motive (p, x) h →
      motive b (h.inside hb)) (h : Reached unit skip a) : motive a h := by
  obtain ⟨d, hd, hleads⟩ := h
  induction hleads with
  | refl => exact start d hd
  | tail hto hstep ih =>
    obtain ⟨k, hb⟩ := hstep
    exact step k _ _ _ ⟨d, hd, hto⟩ hb ih

end Part

end GuardLint
