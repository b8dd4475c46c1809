import GuardLint.Proofs.Scope.Passage

/-!
# Where the variables in scope are declared

Every variable that a walk has in scope comes from a place that the walk has passed: a local
variable from the initializers of its declaration or from a `catch` clause, a field from the body of
a class around. The scope at a declaration of local variables is the outer part of the scope later
on, since a walk only puts variables in front.
-/

namespace GuardLint

open Syntax

/-- A walk through a source file reads the initializer of a variable at some place: in the
declaration of local variables that declares it, or in the body of the class whose field it is. -/
def Variable.DeclaredAt (unit : CompilationUnit) (skip : List String) (v : Variable) (o : Place) :
    Prop :=
  (∃ d, Part.Reached unit skip (o, .locals d) ∧ v ∈ Variable.ofLocals d) ∨
    Part.Reached unit skip
      (o, .body o.enclosing.inner.decl.constants o.enclosing.inner.decl.members) ∧
        v ∈ o.enclosing.inner.fields

namespace Place

/-- Where the variables in scope at a place come from, if a walk has only places for which `R`
holds. -/
structure Rooted (R : Place × Part → Prop) (p : Place) : Prop where
  locals : ∀ v rest, v :: rest <:+ p.scope → v.kind = .localVar →
    (∃ c, v = Variable.ofCatch c) ∨ ∃ o d, R (o, .locals d) ∧ v ∈ Variable.ofLocals d ∧
      v :: rest <:+ o.scope ∧ o.scope <:+ p.scope ∧ o.enclosing.chain <:+ p.enclosing.chain
  fields : ∀ v ∈ p.scope, v.kind = .field → ∃ k ∈ p.enclosing.chain, v ∈ k.fields
  classes : ∀ k ks, k :: ks <:+ p.enclosing.chain →
    ∃ o s, R (o, .body k.decl.constants k.decl.members) ∧ o.enclosing = ⟨k, ks⟩ ∧
      o.scope = Scope.bind s k.fields

variable {R : Place × Part → Prop} {p : Place} {vars : List Variable}

private theorem suffix_bind {v : Variable} {rest : List Variable} {s : Scope}
    (h : v :: rest <:+ s.bind vars) : v :: rest <:+ s ∨ v ∈ vars := by
  obtain ⟨front, h⟩ := h
  rcases List.append_eq_append_iff.mp h with ⟨back, hback, hrest⟩ | ⟨front', -, hs⟩
  · cases back with
    | nil => exact .inl ⟨[], hrest⟩
    | cons w back =>
      obtain ⟨rfl, -⟩ := List.cons.inj hrest
      refine .inr (List.mem_reverse.mp ?_)
      rw [hback]
      exact List.mem_append_right front List.mem_cons_self
  · exact .inl ⟨front', hs.symm⟩

/-- Variables put in front that come from somewhere. -/
private theorem Rooted.bind_of (h : p.Rooted R) (hf : ∀ v ∈ vars, v.kind ≠ .field)
    (hv : ∀ v ∈ vars, v.kind = .localVar → (∃ c, v = Variable.ofCatch c) ∨
      ∃ d, R (p.bind vars, .locals d) ∧ v ∈ Variable.ofLocals d) : (p.bind vars).Rooted R where
  locals v rest hsuffix hkind := by
    rcases suffix_bind hsuffix with hs | hmem
    · refine (h.locals v rest hs hkind).imp_right ?_
      rintro ⟨o, d, ho, hd, hrest, hscope, hchain⟩
      exact ⟨o, d, ho, hd, hrest, hscope.trans (List.suffix_append _ _), hchain⟩
    · refine (hv v hmem hkind).imp_right ?_
      rintro ⟨d, ho, hd⟩
      exact ⟨_, d, ho, hd, hsuffix, List.suffix_rfl, List.suffix_rfl⟩
  fields v hmem hkind := by
    rcases List.mem_append.mp hmem with hmem | hmem
    · exact absurd hkind (hf v (List.mem_reverse.mp hmem))
    · exact h.fields v hmem hkind
  classes := h.classes

theorem Rooted.bind_params (h : p.Rooted R) (ps : List Param) :
    (p.bind (ps.map Variable.ofParam)).Rooted R := by
  have hkind : ∀ v ∈ ps.map Variable.ofParam, v.kind = .param := by
    simp [Variable.ofParam]
  exact h.bind_of (fun v hv ↦ by simp [hkind v hv]) fun v hv hl ↦ by simp [hkind v hv] at hl

theorem Rooted.bind_catch (h : p.Rooted R) (c : CatchClause) :
    (p.bind [Variable.ofCatch c]).Rooted R :=
  h.bind_of (by simp [Variable.ofCatch]) fun v hv _ ↦ .inl ⟨c, List.mem_singleton.mp hv⟩

theorem Rooted.bind_locals (h : p.Rooted R) {d : VarDecl}
    (hd : R (p.bind (Variable.ofLocals d), .locals d)) :
    (p.bind (Variable.ofLocals d)).Rooted R := by
  refine h.bind_of (fun v hv ↦ ?_) fun v hv _ ↦ .inr ⟨d, hd, hv⟩
  obtain ⟨_, -, rfl⟩ := List.mem_map.mp hv
  simp

theorem Rooted.inMethod (h : p.Rooted R) (m : MethodDecl) : (p.inMethod m).Rooted R :=
  let ⟨locals, fields, classes⟩ := h.bind_params m.params
  ⟨locals, fields, classes⟩

theorem Rooted.noMethod (h : p.Rooted R) : Rooted R { p with method := none } :=
  ⟨h.locals, h.fields, h.classes⟩

/-- In the body of an anonymous class its fields are in scope besides. -/
theorem Rooted.anonymous (h : p.Rooted R) {l : Location} {ms : List Member} {t : Option TypeRef}
    {k : Nat} (hb : R (p.anonymous l ms t k, .body [] ms)) : (p.anonymous l ms t k).Rooted R where
  locals v rest hsuffix hkind := by
    rcases suffix_bind hsuffix with hs | hmem
    · refine (h.locals v rest hs hkind).imp_right ?_
      rintro ⟨o, d, ho, hd, hrest, hscope, hchain⟩
      exact ⟨o, d, ho, hd, hrest, hscope.trans (List.suffix_append _ _),
        hchain.trans (List.suffix_cons _ _)⟩
    · rw [ClassInfo.kind_of_mem_fields hmem] at hkind
      cases hkind
  fields v hmem hkind := by
    rcases List.mem_append.mp hmem with hmem | hmem
    · exact ⟨_, List.mem_cons_self, List.mem_reverse.mp hmem⟩
    · obtain ⟨c, hc, hv⟩ := h.fields v hmem hkind
      exact ⟨c, List.mem_cons_of_mem _ hc, hv⟩
  classes c cs hsuffix := by
    rcases List.suffix_cons_iff.mp hsuffix with heq | hsuffix
    · obtain ⟨rfl, rfl⟩ := List.cons.inj heq
      exact ⟨_, p.scope, hb, rfl, rfl⟩
    · exact h.classes c cs hsuffix

/-- In the body of a declared class only the fields of the classes around are in scope. -/
theorem Rooted.ofClass {skip : List String} {n : Nest} {cs : List EnumConstant} {ms : List Member}
    (hn : n.inner.decl.constants = cs ∧ n.inner.decl.members = ms)
    (hb : R (.ofClass skip n, .body cs ms))
    (houter : ∀ k ks, k :: ks <:+ n.outer →
      ∃ o s, R (o, .body k.decl.constants k.decl.members) ∧ o.enclosing = ⟨k, ks⟩ ∧
        o.scope = Scope.bind s k.fields) : (Place.ofClass skip n).Rooted R := by
  have hfields : ∀ ks : List ClassInfo, ∀ v ∈ ks.foldr (fun k s ↦ Scope.bind s k.fields) [],
      ∃ k ∈ ks, v ∈ k.fields := by
    intro ks
    induction ks with
    | nil => exact List.forall_mem_nil _
    | cons k ks ih =>
      intro v hv
      rcases List.mem_append.mp hv with hv | hv
      · exact ⟨k, List.mem_cons_self, List.mem_reverse.mp hv⟩
      · obtain ⟨j, hj, hv⟩ := ih v hv
        exact ⟨j, List.mem_cons_of_mem _ hj, hv⟩
  refine ⟨fun v rest hsuffix hkind ↦ ?_, fun v hv _ ↦ hfields _ v hv, fun k ks hsuffix ↦ ?_⟩
  · obtain ⟨k, -, hv⟩ := hfields _ v (hsuffix.subset List.mem_cons_self)
    rw [ClassInfo.kind_of_mem_fields hv] at hkind
    cases hkind
  · rcases List.suffix_cons_iff.mp hsuffix with heq | hsuffix
    · obtain ⟨rfl, rfl⟩ := List.cons.inj heq
      obtain ⟨rfl, rfl⟩ := hn
      exact ⟨_, _, hb, rfl, rfl⟩
    · exact houter k ks hsuffix

end Place

namespace Part

variable {unit : CompilationUnit} {skip : List String} {p q : Place} {x : Part} {a : Place × Part}

theorem rooted_after (h : p.Rooted (Reached unit skip)) {s : Stmt}
    (hs : Reached unit skip (p, .stmt s)) : (p.after s).Rooted (Reached unit skip) := by
  cases s with
  | vars d => exact h.bind_locals (hs.inside (k := 0) (List.mem_singleton_self _))
  | _ => exact h

theorem rooted_afterSetups {ss : List Setup} (h : p.Rooted (Reached unit skip))
    (hs : Reached unit skip (p, .setups ss)) : (p.afterSetups ss).Rooted (Reached unit skip) := by
  induction ss generalizing p with
  | nil => exact h
  | cons s ss ih =>
    cases s with
    | vars d =>
      have hd : Reached unit skip (p.bind (Variable.ofLocals d), .locals d) :=
        hs.inside (k := 0) List.mem_cons_self
      have hrest : Reached unit skip (p.bind (Variable.ofLocals d), .setups ss) :=
        hs.inside (k := 0) (List.mem_cons_of_mem _ (List.mem_singleton_self _))
      exact ih (h.bind_locals hd) hrest
    | expr e =>
      have hrest : Reached unit skip (p, .setups ss) :=
        hs.inside (k := 0) (List.mem_cons_of_mem _ (List.mem_singleton_self _))
      exact ih h hrest

/-- A step inside a class keeps track of where variables come from. -/
theorem rooted_of_moves (hx : Reached unit skip (p, x)) (h : p.Rooted (Reached unit skip))
    (hq : Moves p x q) : q.Rooted (Reached unit skip) := by
  cases hq with
  | same => exact h
  | noMethod => exact h.noMethod
  | inMethod m => exact h.inMethod m
  | params ps => exact h.bind_params ps
  | param v => exact h.bind_params [v]
  | caught c => exact h.bind_catch c
  | locals d hd => exact h.bind_locals (hx.inside (hd 0))
  | after s hs => exact rooted_after h (hx.inside (hs 0))
  | afterSetups ss hs => exact rooted_afterSetups h (hx.inside (hs 0))

/-- Wherever a walk has a place, it has passed the declarations of the variables in scope. -/
theorem Reached.rooted (h : Reached unit skip a) : a.1.Rooted (Reached unit skip) := by
  induction h using Reached.induction with
  | start d hd =>
    refine Place.Rooted.ofClass ⟨rfl, rfl⟩ ⟨d, hd, .refl⟩ fun k ks hsuffix ↦ ?_
    exact absurd (List.suffix_nil.mp hsuffix) (List.cons_ne_nil k ks)
  | step j p x b hx hb ih =>
    have hreached := hx.inside hb
    rcases inside_cases hb with ⟨hq, -⟩ | ⟨l, ms, t, rfl⟩ | ⟨d, ms, rfl, rfl⟩
    · exact rooted_of_moves hx ih hq
    · exact ih.anonymous hreached
    · exact .ofClass ⟨rfl, rfl⟩ hreached ih.classes

end Part

/-- A variable in scope at a call is a field of a class around the call, or belongs to no class. -/
theorem CallSite.field_or_owner {unit : CompilationUnit} {skip : List String} {site : CallSite}
    (hs : site ∈ CallSite.ofUnit unit skip) {v : Variable} (hv : v ∈ site.scope)
    (hkind : v.kind ≠ .param) :
    (∃ k ∈ site.enclosing.chain, v ∈ k.fields) ∨ v.owner = none := by
  obtain ⟨q, hq, hsite⟩ := CallSite.reached hs
  rw [hsite] at hv ⊢
  cases hk : v.kind with
  | param => exact absurd hk hkind
  | field => exact .inl (hq.rooted.fields v hv hk)
  | localVar =>
    obtain ⟨front, rest, hsplit⟩ := List.append_of_mem hv
    refine .inr ?_
    rcases hq.rooted.locals v rest ⟨front, hsplit.symm⟩ hk with ⟨c, rfl⟩ | ⟨_, d, -, hd, -⟩
    · rfl
    · obtain ⟨_, -, rfl⟩ := List.mem_map.mp hd
      rfl

end GuardLint
