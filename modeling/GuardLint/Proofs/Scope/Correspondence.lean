import GuardLint.Proofs.Semantics.Naming
import GuardLint.Scope.CallSite

/-!
# Walks that correspond

Two walks through the same code, which may stand at other places, and where the second may pass over
more classes. What the second walk meets corresponds to what the first one meets, in order, and to
all of it if the second passes over no more classes. The classes without a name of their own may get
other numbers in the second walk, so full names only stand for the same.
-/

namespace GuardLint

open Syntax

/-! ### Lists that correspond -/

/-- The elements of the second list correspond to some of the first, in order, and to all of them if
`All`. -/
def Corresponds {α β : Type} (All : Prop) (R : α → β → Prop) (xs : List α) (ys : List β) : Prop :=
  ∃ zs, zs.Sublist xs ∧ List.Forall₂ R zs ys ∧ (All → zs = xs)

section

variable {α β : Type} {All : Prop} {R : α → β → Prop} {xs us : List α} {ys ws : List β}

theorem corresponds_nil : Corresponds All R [] [] := ⟨[], .slnil, .nil, fun _ ↦ rfl⟩

theorem corresponds_none (h : ¬ All) (xs : List α) : Corresponds All R xs [] :=
  ⟨[], List.nil_sublist xs, .nil, fun ha ↦ absurd ha h⟩

theorem Corresponds.append (h : Corresponds All R xs ys) (h' : Corresponds All R us ws) :
    Corresponds All R (xs ++ us) (ys ++ ws) := by
  obtain ⟨zs, hsub, hrel, hall⟩ := h
  obtain ⟨zs', hsub', hrel', hall'⟩ := h'
  exact ⟨zs ++ zs', hsub.append hsub', List.rel_append hrel hrel',
    fun ha ↦ by rw [hall ha, hall' ha]⟩

theorem Corresponds.forall₂ (h : Corresponds All R xs ys) (ha : All) : List.Forall₂ R xs ys := by
  obtain ⟨zs, -, hrel, hall⟩ := h
  rwa [hall ha] at hrel

end

/-! ### Places that correspond -/

/-- Families of namings for a walk through classes. `Admits` relates what the class around is called
in both walks. Classes inside that class may get any two numbers, the same if `All`, and what has
been called the same before is so still. -/
structure Naming.Family (x : UnitIndex) (Written : String → Prop) (All : Prop) where
  Admits : Naming x Written → String → String → Prop
  unnamed : Written ""
  same : ∀ {N a a'}, Admits N a a' → N.Same a a'
  member : ∀ {N a a'}, Admits N a a' → ∀ {n}, Written n → Admits N (a ++ "." ++ n) (a' ++ "." ++ n)
  anonymous : ∀ {N a a'}, Admits N a a' → ∀ {k k' : Nat}, (All → k = k') →
    ∃ N' : Naming x Written, N'.Extends N ∧
      Admits N' (a ++ "$" ++ toString k) (a' ++ "$" ++ toString k')

variable {x : UnitIndex} {Written : String → Prop} {All : Prop} {F : Naming.Family x Written All}
  {g : Relocation} {N : Naming x Written} {p p' : Place}

/-- Call sites alike. -/
structure Naming.OfSite (N : Naming x Written) (g : Relocation) (s s' : CallSite) : Prop where
  call : s'.call = g.call s.call
  statement : s'.statement = s.statement.map g
  beforeElse : s'.beforeElse = s.beforeElse
  setting : N.OfSetting g (s.setting x) (s'.setting (g.index x))
  target : ∀ e ∈ s.call.target, ∀ n ∈ TypeName.ofExpr e, Written n
  args : ∀ e ∈ s.call.args, ∀ n ∈ TypeName.ofExpr e, Written n

/-- Call sites alike under some naming. -/
def CallSite.Alike (x : UnitIndex) (Written : String → Prop) (g : Relocation)
    (s s' : CallSite) : Prop :=
  ∃ N : Naming x Written, N.OfSite g s s'

/-- Places that correspond. -/
structure Place.Corresponds (F : Naming.Family x Written All) (N : Naming x Written)
    (g : Relocation) (p p' : Place) : Prop where
  setting : N.OfSetting g ⟨x, p.scope, p.enclosing⟩ ⟨g.index x, p'.scope, p'.enclosing⟩
  admits : F.Admits N p.enclosing.inner.fullName p'.enclosing.inner.fullName
  skip : p.skip ⊆ p'.skip
  skip_eq : All → p.skip = p'.skip

namespace Place.Corresponds

variable (h : Place.Corresponds F N g p p')
include h

theorem bind {vs vs' : List Variable} (hv : List.Forall₂ (N.OfVariable g) vs vs') :
    Place.Corresponds F N g (p.bind vs) (p'.bind vs') where
  setting := ⟨h.setting.index, h.setting.index',
    List.rel_append (List.rel_reverse hv) h.setting.scope, h.setting.inner, h.setting.outer⟩
  admits := h.admits
  skip := h.skip
  skip_eq := h.skip_eq

theorem bindParams {ps : List Param} (hw : ∀ n ∈ ps.flatMap TypeName.ofParam, Written n) :
    Place.Corresponds F N g (p.bind (ps.map .ofParam)) (p'.bind ((g.params ps).map .ofParam)) :=
  h.bind (Naming.ofVariable_ofParams hw)

theorem bindLocals {d : VarDecl} (hw : ∀ n ∈ TypeName.ofVars d, Written n) :
    Place.Corresponds F N g (p.bind (Variable.ofLocals d))
      (p'.bind (Variable.ofLocals (g.varDecl d))) :=
  h.bind (Naming.ofVariable_ofLocals hw)

theorem inMethod {m : MethodDecl} (hw : ∀ n ∈ m.params.flatMap TypeName.ofParam, Written n) :
    Place.Corresponds F N g (p.inMethod m) (p'.inMethod (g.method m)) := by
  have hb := h.bindParams hw
  rw [Relocation.params_eq, ← Relocation.method_params] at hb
  exact ⟨hb.setting, hb.admits, hb.skip, hb.skip_eq⟩

theorem noMethod : Place.Corresponds F N g { p with method := none } { p' with method := none } :=
  ⟨h.setting, h.admits, h.skip, h.skip_eq⟩

theorem after {s : Stmt} (hw : ∀ n ∈ TypeName.ofStmt s, Written n) :
    Place.Corresponds F N g (p.after s) (p'.after (g.stmt s)) := by
  cases s with
  | vars d =>
    rw [TypeName.ofStmt] at hw
    rw [Relocation.stmt]
    exact h.bindLocals hw
  | ifElse l c t e =>
    rw [Relocation.stmt_ifElse]
    exact h
  | _ =>
    simp only [Relocation.stmt]
    exact h

theorem afterSetups {ss : List Setup} (hw : ∀ n ∈ TypeName.ofSetups ss, Written n) :
    Place.Corresponds F N g (p.afterSetups ss) (p'.afterSetups (g.setups ss)) := by
  induction ss generalizing p p' with
  | nil =>
    rw [Relocation.setups]
    exact h
  | cons s ss ih =>
    rw [Relocation.setups]
    cases s with
    | vars d =>
      rw [TypeName.ofSetups, List.forall_mem_append] at hw
      simp only [Relocation.setup]
      exact ih (h.bindLocals hw.1) hw.2
    | expr e =>
      rw [TypeName.ofSetups, List.forall_mem_append] at hw
      simp only [Relocation.setup]
      exact ih h hw.2

theorem site {l : Location} {t : Option Expr} {n : String} {as : List Expr}
    (ht : ∀ m ∈ TypeName.ofExpr? t, Written m) (has : ∀ m ∈ TypeName.ofExprs as, Written m)
    (statement : Option Location) (b : Bool) :
    CallSite.Alike x Written g (p.site ⟨l, t, n, as⟩ statement b)
      (p'.site ⟨g l, g.expr? t, n, g.exprs as⟩ (statement.map g) b) := by
  refine ⟨N, ⟨?_, rfl, rfl, h.setting, ?_, ?_⟩⟩
  · simp only [Place.site, Relocation.call, Relocation.expr?_eq, Relocation.exprs_eq]
  · intro e he
    have ht' : t = some e := he
    rw [ht'] at ht
    exact ht
  · intro e he m hm
    rw [TypeName.ofExprs_eq] at has
    exact has m (List.mem_flatMap.mpr ⟨e, he, hm⟩)

/-- Places in the bodies of classes without a name of their own, whatever their numbers. -/
theorem anonymous (l : Location) {ms : List Member} (t : Option TypeRef)
    (hw : ∀ n ∈ TypeName.ofMembers ms, Written n) {k k' : Nat} (hk : All → k = k') :
    ∃ N', Place.Corresponds F N' g (p.anonymous l ms t k)
      (p'.anonymous (g l) (g.members ms) (t.map g.type) k') := by
  obtain ⟨N', hle, hadmits⟩ := F.anonymous h.admits hk
  have hclass : N'.OfClass g
      (.anonymous l ms t (p.enclosing.inner.fullName ++ "$" ++ toString k))
      (.anonymous (g l) (g.members ms) (t.map g.type)
        (p'.enclosing.inner.fullName ++ "$" ++ toString k')) := by
    refine ⟨?_, F.same hadmits, ?_⟩
    · simp only [ClassInfo.anonymous, Relocation.typeDecl, Relocation.annotations,
        Relocation.constants, Relocation.types_eq]
      cases t <;> rfl
    · intro n hn
      rw [ClassInfo.anonymous, TypeName.ofType, TypeName.ofConstants, List.nil_append] at hn
      rcases List.mem_cons.mp hn with rfl | hn
      · exact F.unnamed
      · exact hw n hn
  have hsetting := h.setting.mono hle
  exact ⟨N', ⟨hsetting.index, hsetting.index',
    List.rel_append (List.rel_reverse hclass.fields) hsetting.scope, hclass,
    .cons hsetting.inner hsetting.outer⟩, hadmits, h.skip, h.skip_eq⟩

end Place.Corresponds

/-! ### Class bodies that correspond -/

/-- Class bodies with those around them that correspond. -/
structure Nest.Corresponds (F : Naming.Family x Written All) (N : Naming x Written)
    (g : Relocation) (n n' : Nest) : Prop where
  inner : N.OfClass g n.inner n'.inner
  outer : List.Forall₂ (N.OfClass g) n.outer n'.outer
  admits : F.Admits N n.inner.fullName n'.inner.fullName

theorem ClassInfo.annotatedWith_mono {k : ClassInfo} {names names' : List String}
    (h : names ⊆ names') (hk : k.annotatedWith names = true) : k.annotatedWith names' = true := by
  obtain ⟨a, ha, hname⟩ := List.any_eq_true.mp hk
  refine List.any_eq_true.mpr ⟨a, ha, ?_⟩
  rw [List.contains_iff_mem] at hname ⊢
  exact h hname

private theorem forall₂_fieldScope {ks ks' : List ClassInfo}
    (h : List.Forall₂ (N.OfClass g) ks ks') :
    List.Forall₂ (N.OfVariable g) (ks.foldr (fun k s ↦ Scope.bind s k.fields) [])
      (ks'.foldr (fun k s ↦ Scope.bind s k.fields) []) := by
  induction h with
  | nil => exact .nil
  | cons hk _ ih => exact List.rel_append (List.rel_reverse hk.fields) ih

theorem Nest.Corresponds.ofClass {n n' : Nest} (h : Nest.Corresponds F N g n n')
    {skip skip' : List String} (hskip : skip ⊆ skip') (hall : All → skip = skip') :
    Place.Corresponds F N g (.ofClass skip n) (.ofClass skip' n') :=
  ⟨⟨rfl, rfl, forall₂_fieldScope (.cons h.inner h.outer), h.inner, h.outer⟩, h.admits, hskip, hall⟩

theorem Place.Corresponds.member (h : Place.Corresponds F N g p p') {d : TypeDecl}
    (hw : ∀ n ∈ TypeName.ofType d, Written n) :
    Nest.Corresponds F N g (p.enclosing.member d) (p'.enclosing.member (g.typeDecl d)) := by
  have hname : (p'.enclosing.member (g.typeDecl d)).inner.fullName =
      p'.enclosing.inner.fullName ++ "." ++ d.name := by
    rw [Nest.member, Relocation.typeDecl_name]
    rfl
  have hadmits : F.Admits N (p.enclosing.member d).inner.fullName
      (p'.enclosing.member (g.typeDecl d)).inner.fullName := by
    rw [hname]
    exact F.member h.admits (hw d.name (TypeName.name_mem_ofType d))
  exact ⟨⟨rfl, F.same hadmits, hw⟩, .cons h.setting.inner h.setting.outer, hadmits⟩

namespace Walk

/-! ### Walks that correspond -/

/-- The calls that a walk records after some number of classes without a name of their own. -/
def sites (w : Walk) (n : Nat) : List CallSite := (w n).2.filterMap Encounter.site?

/-- The calls that the second walk records correspond to those of the first one, whatever numbers
the two begin with, the same if `All`; and then they also end with the same. -/
structure Mirrors (All : Prop) (R : CallSite → CallSite → Prop) (w w' : Walk) : Prop where
  number : All → ∀ n, (w n).1 = (w' n).1
  sites : ∀ n n', (All → n = n') → GuardLint.Corresponds All R (w.sites n) (w'.sites n')

variable {R : CallSite → CallSite → Prop} {a a' b b' : Walk}

theorem mirrors_nothing : Mirrors All R nothing nothing :=
  ⟨fun _ _ ↦ rfl, fun _ _ _ ↦ corresponds_nil⟩

theorem mirrors_call {s s' : CallSite} (h : R s s') :
    Mirrors All R (meet (.call s)) (meet (.call s')) :=
  ⟨fun _ _ ↦ rfl, fun _ _ _ ↦ ⟨[s], .refl _, .cons h .nil, fun _ ↦ rfl⟩⟩

theorem mirrors_skipped (n n' : String) :
    Mirrors All R (meet (.skipped n)) (meet (.skipped n')) :=
  ⟨fun _ _ ↦ rfl, fun _ _ _ ↦ corresponds_nil⟩

/-- The second walk passes over what the first one does not. -/
theorem mirrors_passed (h : ¬ All) (w : Walk) (n : String) : Mirrors All R w (meet (.skipped n)) :=
  ⟨fun ha ↦ absurd ha h, fun _ _ _ ↦ corresponds_none h _⟩

theorem sites_append (a b : Walk) (n : Nat) :
    (a ++ b).sites n = a.sites n ++ b.sites (a n).1 := List.filterMap_append ..

theorem Mirrors.append (ha : Mirrors All R a a') (hb : Mirrors All R b b') :
    Mirrors All R (a ++ b) (a' ++ b') where
  number hall n := by
    have hnumber := hb.number hall (a n).1
    rw [ha.number hall n] at hnumber
    exact (congrArg (fun m ↦ (b m).1) (ha.number hall n)).trans hnumber
  sites n n' hn := by
    rw [sites_append, sites_append]
    refine (ha.sites n n' hn).append (hb.sites _ _ fun hall ↦ ?_)
    rw [hn hall, ha.number hall]

theorem mirrors_numbered {f f' : Nat → Walk}
    (h : ∀ k k', (All → k = k') → Mirrors All R (f k) (f' k')) :
    Mirrors All R (numbered f) (numbered f') where
  number hall n := (h (n + 1) (n + 1) fun _ ↦ rfl).number hall (n + 1)
  sites n n' hn :=
    have hnext : All → n + 1 = n' + 1 := fun hall ↦ congrArg (· + 1) (hn hall)
    (h (n + 1) (n' + 1) hnext).sites (n + 1) (n' + 1) hnext

/-! ### The walk -/

mutual

/-- Walks through an expression record calls alike. -/
theorem mirrors_ofExpr {N : Naming x Written} {p p' : Place} (h : Place.Corresponds F N g p p') :
    (e : Expr) → (∀ n ∈ TypeName.ofExpr e, Written n) →
    Mirrors All (CallSite.Alike x Written g) (ofExpr p e) (ofExpr p' (g.expr e))
  | .literal .., _ | .name .., _ | .this _, _ | .super _, _ | .classLiteral .., _
  | .typeMethodRef .., _ => by
    simp only [Relocation.expr, ofExpr]
    exact mirrors_nothing
  | .paren _ e, hw | .field _ e _, hw | .methodRef _ e _, hw | .instanceOf _ e _, hw
  | .unary _ _ e, hw | .preStep _ _ e, hw | .postStep _ _ e, hw => by
    rw [TypeName.ofExpr] at hw
    rw [Relocation.expr, ofExpr, ofExpr]
    exact mirrors_ofExpr h e hw
  | .cast _ _ e, hw => by
    rw [TypeName.ofExpr, List.forall_mem_cons] at hw
    rw [Relocation.expr, ofExpr, ofExpr]
    exact mirrors_ofExpr h e hw.2
  | .call l t n as, hw => by
    rw [TypeName.ofExpr, List.forall_mem_append] at hw
    rw [Relocation.expr, ofExpr, ofExpr]
    exact ((mirrors_call (h.site hw.1 hw.2 none false)).append (mirrors_ofExpr? h t hw.1)).append
      (mirrors_ofExprs h as hw.2)
  | .index _ a b, hw | .binary _ _ a b, hw | .assign _ _ a b, hw => by
    rw [TypeName.ofExpr, List.forall_mem_append] at hw
    rw [Relocation.expr, ofExpr, ofExpr]
    exact (mirrors_ofExpr h a hw.1).append (mirrors_ofExpr h b hw.2)
  | .conditional _ c a b, hw => by
    rw [TypeName.ofExpr, List.forall_mem_append, List.forall_mem_append] at hw
    rw [Relocation.expr, ofExpr, ofExpr]
    exact ((mirrors_ofExpr h c hw.1.1).append (mirrors_ofExpr h a hw.1.2)).append
      (mirrors_ofExpr h b hw.2)
  | .newObject _ _ as none, hw => by
    rw [TypeName.ofExpr, List.forall_mem_cons] at hw
    rw [Relocation.expr, ofExpr, ofExpr]
    exact mirrors_ofExprs h as hw.2
  | .newObject l t as (some ms), hw => by
    rw [TypeName.ofExpr, List.forall_mem_cons, List.forall_mem_append] at hw
    rw [Relocation.expr, ofExpr, ofExpr]
    refine (mirrors_ofExprs h as hw.2.1).append (mirrors_numbered fun k k' hk ↦ ?_)
    obtain ⟨N', hbody⟩ := h.anonymous l (some t) hw.2.2 hk
    exact mirrors_ofMembers hbody ms hw.2.2
  | .newArray _ _ ds i, hw => by
    rw [TypeName.ofExpr, List.forall_mem_cons, List.forall_mem_append] at hw
    rw [Relocation.expr, ofExpr, ofExpr]
    exact (mirrors_ofExprs h ds hw.2.1).append (mirrors_ofExpr? h i hw.2.2)
  | .arrayInit _ es, hw => by
    rw [TypeName.ofExpr] at hw
    rw [Relocation.expr, ofExpr, ofExpr]
    exact mirrors_ofExprs h es hw
  | .lambda _ ps e, hw => by
    rw [TypeName.ofExpr, List.forall_mem_append] at hw
    rw [Relocation.expr, ofExpr, ofExpr]
    exact mirrors_ofExpr (h.bindParams hw.1) e hw.2
  | .lambdaBlock _ ps b, hw => by
    rw [TypeName.ofExpr, List.forall_mem_append] at hw
    rw [Relocation.expr, ofExpr, ofExpr]
    exact mirrors_ofBlock (h.bindParams hw.1) b hw.2

theorem mirrors_ofExpr? {N : Naming x Written} {p p' : Place} (h : Place.Corresponds F N g p p') :
    (e : Option Expr) → (∀ n ∈ TypeName.ofExpr? e, Written n) →
    Mirrors All (CallSite.Alike x Written g) (ofExpr? p e) (ofExpr? p' (g.expr? e))
  | none, _ => by
    rw [Relocation.expr?, ofExpr?, ofExpr?]
    exact mirrors_nothing
  | some e, hw => by
    rw [TypeName.ofExpr?] at hw
    rw [Relocation.expr?, ofExpr?, ofExpr?]
    exact mirrors_ofExpr h e hw

theorem mirrors_ofExprs {N : Naming x Written} {p p' : Place} (h : Place.Corresponds F N g p p') :
    (es : List Expr) → (∀ n ∈ TypeName.ofExprs es, Written n) →
    Mirrors All (CallSite.Alike x Written g) (ofExprs p es) (ofExprs p' (g.exprs es))
  | [], _ => by
    rw [Relocation.exprs, ofExprs, ofExprs]
    exact mirrors_nothing
  | e :: es, hw => by
    rw [TypeName.ofExprs, List.forall_mem_append] at hw
    rw [Relocation.exprs, ofExprs, ofExprs]
    exact (mirrors_ofExpr h e hw.1).append (mirrors_ofExprs h es hw.2)

/-- Walks through a statement record calls alike. -/
theorem mirrors_ofStmt {N : Naming x Written} {p p' : Place} (h : Place.Corresponds F N g p p')
    (b : Bool) : (s : Stmt) → (∀ n ∈ TypeName.ofStmt s, Written n) →
    Mirrors All (CallSite.Alike x Written g) (ofStmt p b s) (ofStmt p' b (g.stmt s))
  | .block b, hw => by
    rw [TypeName.ofStmt] at hw
    rw [Relocation.stmt, ofStmt, ofStmt]
    exact mirrors_ofBlock h b hw
  | .vars d, hw => by
    rw [TypeName.ofStmt] at hw
    rw [Relocation.stmt, ofStmt, ofStmt]
    exact mirrors_ofVars (h.bindLocals hw) d hw
  | .expr l (.call cl t n as), hw => by
    rw [TypeName.ofStmt, TypeName.ofExpr, List.forall_mem_append] at hw
    rw [Relocation.stmt, Relocation.expr, ofStmt, ofStmt]
    exact ((mirrors_call (h.site hw.1 hw.2 (some l) b)).append (mirrors_ofExpr? h t hw.1)).append
      (mirrors_ofExprs h as hw.2)
  | .expr l (.newObject cl t as body), hw => by
    rw [TypeName.ofStmt] at hw
    have hexpr := mirrors_ofExpr h (.newObject cl t as body) hw
    rw [Relocation.expr_newObject] at hexpr
    rw [Relocation.stmt, Relocation.expr_newObject, ofStmt, ofStmt]
    · exact hexpr
    · nofun
    · nofun
  | .expr _ (.literal ..), hw | .expr _ (.name ..), hw | .expr _ (.this _), hw
  | .expr _ (.super _), hw | .expr _ (.paren ..), hw | .expr _ (.field ..), hw
  | .expr _ (.index ..), hw | .expr _ (.newArray ..), hw | .expr _ (.arrayInit ..), hw
  | .expr _ (.classLiteral ..), hw | .expr _ (.methodRef ..), hw | .expr _ (.typeMethodRef ..), hw
  | .expr _ (.binary ..), hw | .expr _ (.instanceOf ..), hw | .expr _ (.unary ..), hw
  | .expr _ (.preStep ..), hw | .expr _ (.postStep ..), hw | .expr _ (.assign ..), hw
  | .expr _ (.conditional ..), hw | .expr _ (.cast ..), hw | .expr _ (.lambda ..), hw
  | .expr _ (.lambdaBlock ..), hw => by
    rw [TypeName.ofStmt] at hw
    have hexpr := mirrors_ofExpr h _ hw
    simp only [Relocation.stmt, Relocation.expr, ofStmt] at hexpr ⊢
    exact hexpr
  | .ifElse _ c s none, hw => by
    rw [TypeName.ofStmt, List.forall_mem_append] at hw
    rw [Relocation.stmt, ofStmt, ofStmt]
    exact (mirrors_ofExpr h c hw.1).append (mirrors_ofStmt h b s hw.2)
  | .ifElse _ c s (some e), hw => by
    rw [TypeName.ofStmt, List.forall_mem_append, List.forall_mem_append] at hw
    rw [Relocation.stmt, ofStmt, ofStmt]
    exact ((mirrors_ofExpr h c hw.1.1).append (mirrors_ofStmt h true s hw.1.2)).append
      (mirrors_ofStmt h b e hw.2)
  | .whileLoop _ c s, hw => by
    rw [TypeName.ofStmt, List.forall_mem_append] at hw
    rw [Relocation.stmt, ofStmt, ofStmt]
    exact (mirrors_ofExpr h c hw.1).append (mirrors_ofStmt h b s hw.2)
  | .doLoop _ s c, hw => by
    rw [TypeName.ofStmt, List.forall_mem_append] at hw
    rw [Relocation.stmt, ofStmt, ofStmt]
    exact (mirrors_ofStmt h false s hw.1).append (mirrors_ofExpr h c hw.2)
  | .forLoop _ i c u s, hw => by
    rw [TypeName.ofStmt, List.forall_mem_append, List.forall_mem_append,
      List.forall_mem_append] at hw
    rw [Relocation.stmt, ofStmt, ofStmt]
    have hbody := h.afterSetups hw.1.1.1
    exact (((mirrors_ofSetups h i hw.1.1.1).append (mirrors_ofExpr? hbody c hw.1.1.2)).append
      (mirrors_ofExprs hbody u hw.1.2)).append (mirrors_ofStmt hbody b s hw.2)
  | .forEach _ v e s, hw => by
    rw [TypeName.ofStmt, List.forall_mem_append, List.forall_mem_append] at hw
    rw [Relocation.stmt, ofStmt, ofStmt]
    have hv := h.bind (.cons (Naming.ofVariable_ofParam hw.1.1) .nil)
    exact (mirrors_ofExpr h e hw.1.2).append (mirrors_ofStmt hv b s hw.2)
  | .returnStmt _ e, hw => by
    rw [TypeName.ofStmt] at hw
    rw [Relocation.stmt, ofStmt, ofStmt]
    exact mirrors_ofExpr? h e hw
  | .throwStmt _ e, hw => by
    rw [TypeName.ofStmt] at hw
    rw [Relocation.stmt, ofStmt, ofStmt]
    exact mirrors_ofExpr h e hw
  | .breakStmt .., _ | .continueStmt .., _ | .empty _, _ => by
    rw [Relocation.stmt, ofStmt, ofStmt]
    exact mirrors_nothing
  | .tryStmt _ rs b cs f, hw => by
    rw [TypeName.ofStmt, List.forall_mem_append, List.forall_mem_append,
      List.forall_mem_append] at hw
    rw [Relocation.stmt, ofStmt, ofStmt]
    exact (((mirrors_ofSetups h rs hw.1.1.1).append
      (mirrors_ofBlock (h.afterSetups hw.1.1.1) b hw.1.1.2)).append
      (mirrors_ofCatches h cs hw.1.2)).append (mirrors_ofBlock? h f hw.2)
  | .synchronizedStmt _ e b, hw => by
    rw [TypeName.ofStmt, List.forall_mem_append] at hw
    rw [Relocation.stmt, ofStmt, ofStmt]
    exact (mirrors_ofExpr h e hw.1).append (mirrors_ofBlock h b hw.2)
  | .assertStmt _ c m, hw => by
    rw [TypeName.ofStmt, List.forall_mem_append] at hw
    rw [Relocation.stmt, ofStmt, ofStmt]
    exact (mirrors_ofExpr h c hw.1).append (mirrors_ofExpr? h m hw.2)
  | .switchStmt _ e is, hw => by
    rw [TypeName.ofStmt, List.forall_mem_append] at hw
    rw [Relocation.stmt, ofStmt, ofStmt]
    exact (mirrors_ofExpr h e hw.1).append (mirrors_ofItems h is hw.2)
  | .labeled _ _ s, hw => by
    rw [TypeName.ofStmt] at hw
    rw [Relocation.stmt, ofStmt, ofStmt]
    exact mirrors_ofStmt h b s hw

theorem mirrors_ofBlock {N : Naming x Written} {p p' : Place} (h : Place.Corresponds F N g p p') :
    (b : Block) → (∀ n ∈ TypeName.ofBlock b, Written n) →
    Mirrors All (CallSite.Alike x Written g) (ofBlock p b) (ofBlock p' (g.block b))
  | ⟨_, ss⟩, hw => by
    rw [TypeName.ofBlock] at hw
    rw [Relocation.block, ofBlock, ofBlock]
    exact mirrors_ofStmts h ss hw

theorem mirrors_ofBlock? {N : Naming x Written} {p p' : Place} (h : Place.Corresponds F N g p p') :
    (b : Option Block) → (∀ n ∈ TypeName.ofBlock? b, Written n) →
    Mirrors All (CallSite.Alike x Written g) (ofBlock? p b) (ofBlock? p' (g.block? b))
  | none, _ => by
    rw [Relocation.block?, ofBlock?, ofBlock?]
    exact mirrors_nothing
  | some b, hw => by
    rw [TypeName.ofBlock?] at hw
    rw [Relocation.block?, ofBlock?, ofBlock?]
    exact mirrors_ofBlock h b hw

theorem mirrors_ofStmts {N : Naming x Written} {p p' : Place} (h : Place.Corresponds F N g p p') :
    (ss : List Stmt) → (∀ n ∈ TypeName.ofStmts ss, Written n) →
    Mirrors All (CallSite.Alike x Written g) (ofStmts p ss) (ofStmts p' (g.stmts ss))
  | [], _ => by
    rw [Relocation.stmts, ofStmts, ofStmts]
    exact mirrors_nothing
  | s :: ss, hw => by
    rw [TypeName.ofStmts, List.forall_mem_append] at hw
    rw [Relocation.stmts, ofStmts, ofStmts]
    exact (mirrors_ofStmt h false s hw.1).append (mirrors_ofStmts (h.after hw.1) ss hw.2)

theorem mirrors_ofVars {N : Naming x Written} {p p' : Place} (h : Place.Corresponds F N g p p') :
    (d : VarDecl) → (∀ n ∈ TypeName.ofVars d, Written n) →
    Mirrors All (CallSite.Alike x Written g) (ofVars p d) (ofVars p' (g.varDecl d))
  | ⟨_, _, ds, _, _⟩, hw => by
    rw [TypeName.ofVars, List.forall_mem_cons] at hw
    rw [Relocation.varDecl, ofVars, ofVars]
    exact mirrors_ofDeclarators h ds hw.2

theorem mirrors_ofDeclarators {N : Naming x Written} {p p' : Place}
    (h : Place.Corresponds F N g p p') :
    (ds : List Declarator) → (∀ n ∈ TypeName.ofDeclarators ds, Written n) →
    Mirrors All (CallSite.Alike x Written g) (ofDeclarators p ds)
      (ofDeclarators p' (g.declarators ds))
  | [], _ => by
    rw [Relocation.declarators, ofDeclarators, ofDeclarators]
    exact mirrors_nothing
  | ⟨_, _, _, e⟩ :: ds, hw => by
    rw [TypeName.ofDeclarators, List.forall_mem_append] at hw
    rw [Relocation.declarators, Relocation.declarator, ofDeclarators, ofDeclarators]
    exact (mirrors_ofExpr? h e hw.1).append (mirrors_ofDeclarators h ds hw.2)

theorem mirrors_ofSetups {N : Naming x Written} {p p' : Place} (h : Place.Corresponds F N g p p') :
    (ss : List Setup) → (∀ n ∈ TypeName.ofSetups ss, Written n) →
    Mirrors All (CallSite.Alike x Written g) (ofSetups p ss) (ofSetups p' (g.setups ss))
  | [], _ => by
    rw [Relocation.setups, ofSetups, ofSetups]
    exact mirrors_nothing
  | .vars d :: ss, hw => by
    rw [TypeName.ofSetups, List.forall_mem_append] at hw
    rw [Relocation.setups, Relocation.setup, ofSetups, ofSetups]
    have hvars := h.bindLocals hw.1
    exact (mirrors_ofVars hvars d hw.1).append (mirrors_ofSetups hvars ss hw.2)
  | .expr e :: ss, hw => by
    rw [TypeName.ofSetups, List.forall_mem_append] at hw
    rw [Relocation.setups, Relocation.setup, ofSetups, ofSetups]
    exact (mirrors_ofExpr h e hw.1).append (mirrors_ofSetups h ss hw.2)

theorem mirrors_ofCatches {N : Naming x Written} {p p' : Place} (h : Place.Corresponds F N g p p') :
    (cs : List CatchClause) → (∀ n ∈ TypeName.ofCatches cs, Written n) →
    Mirrors All (CallSite.Alike x Written g) (ofCatches p cs) (ofCatches p' (g.catches cs))
  | [], _ => by
    rw [Relocation.catches, ofCatches, ofCatches]
    exact mirrors_nothing
  | ⟨l, ts, n, b⟩ :: cs, hw => by
    rw [TypeName.ofCatches, List.forall_mem_append, List.forall_mem_append] at hw
    rw [Relocation.catches, Relocation.catchClause, ofCatches, ofCatches]
    have hcaught : N.OfVariable g (.ofCatch ⟨l, ts, n, b⟩) _ := Naming.ofVariable_ofCatch hw.1.1
    rw [Relocation.catchClause] at hcaught
    exact (mirrors_ofBlock (h.bind (.cons hcaught .nil)) b hw.1.2).append
      (mirrors_ofCatches h cs hw.2)

theorem mirrors_ofItems {N : Naming x Written} {p p' : Place} (h : Place.Corresponds F N g p p') :
    (is : List SwitchItem) → (∀ n ∈ TypeName.ofItems is, Written n) →
    Mirrors All (CallSite.Alike x Written g) (ofItems p is) (ofItems p' (g.items is))
  | [], _ => by
    rw [Relocation.items, ofItems, ofItems]
    exact mirrors_nothing
  | .label e :: is, hw => by
    rw [TypeName.ofItems, List.forall_mem_append] at hw
    rw [Relocation.items, Relocation.item, ofItems, ofItems]
    exact (mirrors_ofExpr? h e hw.1).append (mirrors_ofItems h is hw.2)
  | .stmt s :: is, hw => by
    rw [TypeName.ofItems, List.forall_mem_append] at hw
    rw [Relocation.items, Relocation.item, ofItems, ofItems]
    exact (mirrors_ofStmt h false s hw.1).append (mirrors_ofItems (h.after hw.1) is hw.2)

theorem mirrors_ofMembers {N : Naming x Written} {p p' : Place} (h : Place.Corresponds F N g p p') :
    (ms : List Member) → (∀ n ∈ TypeName.ofMembers ms, Written n) →
    Mirrors All (CallSite.Alike x Written g) (ofMembers p ms) (ofMembers p' (g.members ms))
  | [], _ => by
    rw [Relocation.members, ofMembers, ofMembers]
    exact mirrors_nothing
  | .field d :: ms, hw => by
    rw [TypeName.ofMembers, TypeName.ofMember, List.forall_mem_append] at hw
    rw [Relocation.members, Relocation.member, ofMembers, ofMembers]
    exact (mirrors_ofVars h.noMethod d hw.1).append (mirrors_ofMembers h ms hw.2)
  | .method m :: ms, hw => by
    rw [TypeName.ofMembers, TypeName.ofMember, List.forall_mem_append] at hw
    rw [Relocation.members, Relocation.member, ofMembers, ofMembers]
    exact (mirrors_ofMethod h m hw.1).append (mirrors_ofMembers h ms hw.2)
  | .initializer _ b _ :: ms, hw => by
    rw [TypeName.ofMembers, TypeName.ofMember, List.forall_mem_append] at hw
    rw [Relocation.members, Relocation.member, ofMembers, ofMembers]
    exact (mirrors_ofBlock h.noMethod b hw.1).append (mirrors_ofMembers h ms hw.2)
  | .type d :: ms, hw => by
    rw [TypeName.ofMembers, TypeName.ofMember, List.forall_mem_append] at hw
    rw [Relocation.members, Relocation.member, ofMembers, ofMembers]
    exact (mirrors_ofType h.skip h.skip_eq (h.member hw.1) d hw.1).append
      (mirrors_ofMembers h ms hw.2)

theorem mirrors_ofMethod {N : Naming x Written} {p p' : Place} (h : Place.Corresponds F N g p p') :
    (m : MethodDecl) → (∀ n ∈ TypeName.ofMethod m, Written n) →
    Mirrors All (CallSite.Alike x Written g) (ofMethod p m) (ofMethod p' (g.method m))
  | ⟨l, n, t, ps, b, ms, as, c⟩, hw => by
    rw [TypeName.ofMethod, List.forall_mem_append, List.forall_mem_append] at hw
    have hmethod := h.inMethod (m := ⟨l, n, t, ps, b, ms, as, c⟩) hw.1.2
    rw [Relocation.method] at hmethod
    rw [Relocation.method, ofMethod, ofMethod]
    exact mirrors_ofBlock? hmethod b hw.2

theorem mirrors_ofConstants {N : Naming x Written} {p p' : Place}
    (h : Place.Corresponds F N g p p') :
    (cs : List EnumConstant) → (∀ n ∈ TypeName.ofConstants cs, Written n) →
    Mirrors All (CallSite.Alike x Written g) (ofConstants p cs) (ofConstants p' (g.constants cs))
  | [], _ => by
    rw [Relocation.constants, ofConstants, ofConstants]
    exact mirrors_nothing
  | ⟨_, _, as, none⟩ :: cs, hw => by
    rw [TypeName.ofConstants, TypeName.ofConstant, List.forall_mem_append] at hw
    rw [Relocation.constants, Relocation.constant, ofConstants, ofConstants]
    exact (mirrors_ofExprs h as hw.1).append (mirrors_ofConstants h cs hw.2)
  | ⟨l, _, as, some ms⟩ :: cs, hw => by
    rw [TypeName.ofConstants, TypeName.ofConstant, List.forall_mem_append,
      List.forall_mem_append] at hw
    rw [Relocation.constants, Relocation.constant, ofConstants, ofConstants]
    refine ((mirrors_ofExprs h as hw.1.1).append (mirrors_numbered fun k k' hk ↦ ?_)).append
      (mirrors_ofConstants h cs hw.2)
    obtain ⟨N', hbody⟩ := h.anonymous l none hw.1.2 hk
    exact mirrors_ofMembers hbody ms hw.1.2

/-- Walks through a class record calls alike, unless the second one alone passes over it. -/
theorem mirrors_ofType {N : Naming x Written} {skip skip' : List String} (hskip : skip ⊆ skip')
    (hall : All → skip = skip') {n n' : Nest} (h : Nest.Corresponds F N g n n') :
    (d : TypeDecl) → (∀ m ∈ TypeName.ofType d, Written m) →
    Mirrors All (CallSite.Alike x Written g) (ofType skip n d) (ofType skip' n' (g.typeDecl d))
  | ⟨_, _, _, ms, _, _, cs, _⟩, hw => by
    rw [TypeName.ofType, List.forall_mem_cons, List.forall_mem_append] at hw
    rw [Relocation.typeDecl, ofType, ofType, h.inner.annotatedWith]
    have hbody := h.ofClass hskip hall
    by_cases hpassed : n.inner.annotatedWith skip = true
    · rw [if_pos hpassed, if_pos (ClassInfo.annotatedWith_mono hskip hpassed)]
      exact mirrors_skipped _ _
    · rw [if_neg hpassed]
      split
      case isTrue hpassed' =>
        exact mirrors_passed (fun ha ↦ hpassed (hall ha ▸ hpassed')) _ _
      case isFalse =>
        exact (mirrors_ofConstants hbody cs hw.2.1).append (mirrors_ofMembers hbody ms hw.2.2)

end

end Walk

/-! ### Source files -/

namespace Syntax.Relocation

theorem nest_member (n : Nest) (d : TypeDecl) :
    g.nest (n.member d) = (g.nest n).member (g.typeDecl d) := by
  simp [Nest.member, Nest.push, Nest.chain, nest, classInfo]

theorem nest_topLevel (package : Option String) (d : TypeDecl) :
    g.nest (UnitIndex.topLevel package d) = UnitIndex.topLevel package (g.typeDecl d) := by
  simp only [UnitIndex.topLevel, nest, classInfo, typeDecl_name, List.map_nil]

mutual

theorem nested_typeDecl (n : Nest) : (d : TypeDecl) →
    UnitIndex.nested (g.nest n) (g.typeDecl d) = (UnitIndex.nested n d).map g.nest
  | ⟨_, _, _, ms, _, _, _, _⟩ => by
    rw [typeDecl, UnitIndex.nested, UnitIndex.nested, List.map_cons, nestedMembers_members n ms]

theorem nestedMembers_members (n : Nest) : (ms : List Member) →
    UnitIndex.nestedMembers (g.nest n) (g.members ms) =
      (UnitIndex.nestedMembers n ms).map g.nest
  | [] => by
    rw [members, UnitIndex.nestedMembers, UnitIndex.nestedMembers, List.map_nil]
  | .type d :: ms => by
    rw [members, member, UnitIndex.nestedMembers, UnitIndex.nestedMembers, List.map_append,
      ← nest_member, nested_typeDecl (n.member d) d, nestedMembers_members n ms]
  | .field _ :: ms | .method _ :: ms | .initializer .. :: ms => by
    simp only [members, member, UnitIndex.nestedMembers]
    exact nestedMembers_members n ms

end

/-- A relocated source file says the same about names. -/
theorem index_ofUnit (u : CompilationUnit) : .ofUnit (g.unit u) = g.index (.ofUnit u) := by
  have hnested : ∀ d, UnitIndex.nested (UnitIndex.topLevel u.package (g.typeDecl d)) (g.typeDecl d) =
      (UnitIndex.nested (UnitIndex.topLevel u.package d) d).map g.nest := by
    intro d
    rw [← nest_topLevel, nested_typeDecl]
  simp only [UnitIndex.ofUnit, unit, index, List.flatMap_map,
    List.map_flatMap, hnested]

end Syntax.Relocation

/-- The call sites of a source file correspond to those of the same file relocated, where more
classes may be passed over. -/
theorem CallSite.corresponds_ofUnit {unit : CompilationUnit} {skip skip' : List String}
    (hskip : skip ⊆ skip') (hall : All → skip = skip')
    (hadmits : ∀ d ∈ unit.types, F.Admits N (UnitIndex.topLevel unit.package d).inner.fullName
      (UnitIndex.topLevel unit.package d).inner.fullName)
    (hw : ∀ n ∈ unit.types.flatMap TypeName.ofType, Written n) :
    Corresponds All (CallSite.Alike x Written g) (ofUnit unit skip) (ofUnit (g.unit unit) skip') := by
  have key : ∀ ds : List TypeDecl, (∀ d ∈ ds, d ∈ unit.types) →
      Walk.Mirrors All (CallSite.Alike x Written g)
        ((ds.map fun d ↦ Walk.ofType skip (UnitIndex.topLevel unit.package d) d).foldr (· ++ ·)
          Walk.nothing)
        (((ds.map g.typeDecl).map fun d ↦
          Walk.ofType skip' (UnitIndex.topLevel unit.package d) d).foldr (· ++ ·)
          Walk.nothing) := by
    intro ds hds
    induction ds with
    | nil => exact Walk.mirrors_nothing
    | cons d ds ih =>
      obtain ⟨hd, hrest⟩ := List.forall_mem_cons.mp hds
      have hwritten : ∀ n ∈ TypeName.ofType d, Written n :=
        fun n hn ↦ hw n (List.mem_flatMap.mpr ⟨d, hd, hn⟩)
      have hnest : Nest.Corresponds F N g (UnitIndex.topLevel unit.package d)
          (UnitIndex.topLevel unit.package (g.typeDecl d)) := by
        rw [← Relocation.nest_topLevel]
        exact ⟨⟨rfl, F.same (hadmits d hd), hwritten⟩, .nil, hadmits d hd⟩
      exact (Walk.mirrors_ofType hskip hall hnest d hwritten).append (ih hrest)
  exact (key unit.types fun _ h ↦ h).sites 0 0 fun _ ↦ rfl

end GuardLint
