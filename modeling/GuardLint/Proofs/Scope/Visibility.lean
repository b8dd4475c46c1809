import GuardLint.Proofs.Scope.Shown
import GuardLint.Scope.CallSite

/-!
# What a walk has in scope

At every call that a walk records, the variables in scope are those of the declarations that are in
force there.

The walk through a part of a tree keeps to the stretch of text that the part takes: what is declared
in the part holds nowhere else, and its calls are nowhere else. So landmarks of other parts change
nothing at a call, and those around the call are the ones that the walk has passed on its way in.
-/

namespace GuardLint

open Syntax

/-! ### Places that show declarations -/

namespace Place

/-- The scope of a place shows some declarations, and the scope of the fields alone those that are
of fields. -/
def Sees (p : Place) (bs : List Binding) : Prop :=
  p.scope.Shows bs ∧ p.enclosing.fieldScope.Shows (bs.filter (·.declaration.isField))

variable {p : Place} {bs : List Binding}

private theorem filter_held {region : Location} {ds : List Declaration} {keep : Bool}
    (h : ∀ d ∈ ds, d.isField = keep) : (Scope.held region ds).filter (·.declaration.isField) =
      if keep then Scope.held region ds else [] := by
  have hall : ∀ b ∈ Scope.held region ds, b.declaration.isField = keep := by
    intro b hb
    obtain ⟨d, hd, rfl⟩ := List.mem_map.mp (List.mem_reverse.mp hb)
    exact h d hd
  cases keep with
  | true => exact List.filter_eq_self.mpr hall
  | false => exact List.filter_eq_nil_iff.mpr fun b hb ↦ by simp [hall b hb]

theorem Sees.bind (h : p.Sees bs) {ds : List Declaration} {vars : List Variable}
    (hd : List.Forall₂ Declaration.Declares ds vars) (hf : ∀ d ∈ ds, d.isField = false)
    (region : Location) : (p.bind vars).Sees (Scope.held region ds ++ bs) := by
  refine ⟨h.1.bind hd region, ?_⟩
  rw [List.filter_append, filter_held hf]
  exact h.2

theorem Sees.bind_params (h : p.Sees bs) (ps : List Param) (region : Location) :
    (p.bind (ps.map Variable.ofParam)).Sees (Scope.held region (ps.map .param) ++ bs) :=
  h.bind (Declaration.declares_ofParams ps) (fun d hd ↦ by
    obtain ⟨q, -, rfl⟩ := List.mem_map.mp hd
    rfl) region

theorem Sees.bind_locals (h : p.Sees bs) (d : VarDecl) (region : Location) :
    (p.bind (Variable.ofLocals d)).Sees (Scope.held region (Declaration.ofLocals d) ++ bs) :=
  h.bind (Declaration.declares_ofLocals d) (fun _ hd ↦ by
    obtain ⟨v, -, rfl⟩ := List.mem_map.mp hd
    rfl) region

theorem Sees.bind_catch (h : p.Sees bs) (c : CatchClause) (region : Location) :
    (p.bind [Variable.ofCatch c]).Sees (Scope.held region [.caught c] ++ bs) := by
  have hd : (Declaration.caught c).Declares (Variable.ofCatch c) := rfl
  exact h.bind (.cons hd .nil) (List.forall_mem_singleton.mpr rfl) region

/-- The body of an anonymous class has its fields in scope besides all that is around it. -/
theorem Sees.anonymous (h : p.Sees bs) (l : Location) (ms : List Member) (t : Option TypeRef)
    (k : Nat) (region : Location) : (p.anonymous l ms t k).Sees
      (Scope.held region (Declaration.ofBody .classType [] ms) ++ bs) := by
  let info := ClassInfo.anonymous l ms t (p.enclosing.inner.fullName ++ "$" ++ toString k)
  refine ⟨h.1.bind_fields info region, ?_⟩
  rw [List.filter_append, filter_held fun _ ↦ Declaration.isField_of_mem_ofBody]
  exact h.2.bind_fields info region

end Place

/-- Outside of a class body, some declarations are in force, all of fields: those of the classes
around it. -/
def Nest.Enters (n : Nest) (bs : List Binding) : Prop :=
  (∀ b ∈ bs, b.declaration.isField = true) ∧
    (n.outer.foldr (fun c s ↦ Scope.bind s c.fields) []).Shows bs

/-- The body of a declared class has its fields in scope besides those of the classes around it. -/
theorem Nest.Enters.ofClass {n : Nest} {bs : List Binding} (h : n.Enters bs) (skip : List String)
    (region : Location) :
    (Place.ofClass skip n).Sees (Scope.held region n.inner.declarations ++ bs) := by
  have hshows := h.2.bind_fields n.inner region
  refine ⟨hshows, ?_⟩
  have hall : (Scope.held region n.inner.declarations ++ bs).filter (·.declaration.isField) =
      Scope.held region n.inner.declarations ++ bs := by
    rw [List.filter_eq_self]
    intro b hb
    rcases List.mem_append.mp hb with hb | hb
    · obtain ⟨d, hd, rfl⟩ := List.mem_map.mp (List.mem_reverse.mp hb)
      exact Declaration.isField_of_mem_ofBody hd
    · exact h.1 b hb
  rw [hall]
  exact hshows

/-- Only the fields are in force in a member class. -/
theorem Place.Sees.member {p : Place} {bs : List Binding} (h : p.Sees bs) (d : TypeDecl) :
    (p.enclosing.member d).Enters (bs.filter (·.declaration.isField)) :=
  ⟨fun _ hb ↦ (List.mem_filter.mp hb).2, h.2⟩

/-- A declared class holds what its annotations hold, and what its body holds. -/
private theorem Syntax.Node.ofType_eq (d : TypeDecl) : Node.ofType d =
    Node.ofAnnotations d.annotations ++
      (Node.ofConstants d.constants ++ Node.ofMembers d.members) := by
  cases d
  rw [Node.ofType, List.append_assoc]

namespace Walk

/-! ### Calls that a walk records -/

/-- A walk records a call, whatever the number of anonymous classes before it. -/
def Meets (w : Walk) (site : CallSite) : Prop := ∃ n, Encounter.call site ∈ (w n).2

variable {a b w : Walk} {site : CallSite}

theorem not_meets_nothing : ¬ Meets nothing site := by
  rintro ⟨n, h⟩
  cases h

theorem not_meets_skipped {name : String} : ¬ Meets (meet (.skipped name)) site := by
  rintro ⟨n, h⟩
  cases List.mem_singleton.mp h

theorem eq_of_meets_call {other : CallSite} (h : Meets (meet (.call other)) site) :
    site = other := by
  obtain ⟨n, h⟩ := h
  cases List.mem_singleton.mp h
  rfl

theorem meets_append (h : Meets (a ++ b) site) : Meets a site ∨ Meets b site := by
  obtain ⟨n, h⟩ := h
  exact (List.mem_append.mp h).imp (⟨n, ·⟩) (⟨_, ·⟩)

theorem meets_numbered {f : Nat → Walk} (h : Meets (numbered f) site) :
    ∃ k, Meets (f k) site := by
  obtain ⟨n, h⟩ := h
  exact ⟨n + 1, n + 1, h⟩

theorem append_assoc (a b c : Walk) : a ++ b ++ c = a ++ (b ++ c) := by
  funext n
  exact Prod.ext rfl (List.append_assoc ..)

/-! ### Landmarks and calls of a stretch of text -/

/-- Landmarks that have any stretch of text keep to one between two offsets, and so do the calls
that a walk records. From declarations with some property, the landmarks lead to the declarations
that the scope of each call shows. -/
structure Surveyed (F : List Binding → Prop) (lo hi : Nat) (ls : List Landmark) (w : Walk) :
    Prop where
  bounds : ∀ l ∈ ls, l.region.start < l.region.stop → lo ≤ l.region.start ∧ l.region.stop ≤ hi
  solid : ∀ site, w.Meets site → site.call.location.start < site.call.location.stop
  inside : ∀ site, w.Meets site →
    lo ≤ site.call.location.start ∧ site.call.location.stop ≤ hi
  shows : ∀ site, w.Meets site → ∀ bs, F bs →
    site.scope.Shows (ls.foldl (Landmark.enter site.call.location) bs)

variable {F G : List Binding → Prop} {lo hi mid : Nat} {ls xs ys : List Landmark}
  {bs : List Binding} {place region : Location} {ds : List Declaration}

/-- Landmarks that a place is not in change nothing there. -/
private theorem foldl_enter_of_not_within (h : ∀ l ∈ ls, ¬ place.Within l.region) :
    ls.foldl (Landmark.enter place) bs = bs := by
  induction ls generalizing bs with
  | nil => rfl
  | cons l ls ih =>
    have hl := h l List.mem_cons_self
    have henter : Landmark.enter place bs l = bs := by
      cases l with
      | binding b => exact if_neg hl
      | memberClass body => exact if_neg hl
    rw [List.foldl_cons, henter]
    exact ih fun l hl ↦ h l (List.mem_cons_of_mem _ hl)

private theorem foldl_enter_bindings (h : place.Within region) :
    (Landmark.bindings region ds).foldl (Landmark.enter place) bs = Scope.held region ds ++ bs := by
  induction ds generalizing bs with
  | nil => rfl
  | cons d ds ih =>
    have henter : Landmark.enter place bs (.binding ⟨d, region⟩) = ⟨d, region⟩ :: bs := if_pos h
    rw [Landmark.bindings, List.map_cons, List.foldl_cons, henter]
    refine ih.trans ?_
    rw [Scope.held, Scope.held, List.map_cons, List.reverse_cons, List.append_assoc]
    rfl

private theorem Surveyed.not_within (h : Surveyed F lo hi ls w)
    (hsolid : place.start < place.stop) (hout : place.stop ≤ lo ∨ hi ≤ place.start) :
    ∀ l ∈ ls, ¬ place.Within l.region := by
  intro l hl hwithin
  have hbounds := h.bounds l hl
  unfold Location.Within at hwithin
  omega

theorem Surveyed.nothing : Surveyed F lo hi [] nothing where
  bounds _ h := absurd h List.not_mem_nil
  solid _ h := absurd h not_meets_nothing
  inside _ h := absurd h not_meets_nothing
  shows _ h := absurd h not_meets_nothing

theorem Surveyed.wider (h : Surveyed F lo hi ls w) {lo' hi' : Nat}
    (hw : lo < hi → lo' ≤ lo ∧ hi ≤ hi') : Surveyed F lo' hi' ls w where
  bounds l hl hs := by
    have := h.bounds l hl hs
    omega
  solid := h.solid
  inside site hm := by
    have := h.solid site hm
    have := h.inside site hm
    omega
  shows := h.shows

theorem Surveyed.append (ha : Surveyed F lo mid xs a) (hb : Surveyed F mid hi ys b)
    (hlo : lo ≤ mid) (hhi : mid ≤ hi) : Surveyed F lo hi (xs ++ ys) (a ++ b) where
  bounds l hl hs := by
    rcases List.mem_append.mp hl with hl | hl
    · have := ha.bounds l hl hs
      omega
    · have := hb.bounds l hl hs
      omega
  solid site hm := (meets_append hm).elim (ha.solid site) (hb.solid site)
  inside site hm := by
    rcases meets_append hm with hm | hm
    · have := ha.inside site hm
      omega
    · have := hb.inside site hm
      omega
  shows site hm bs hF := by
    rw [List.foldl_append]
    rcases meets_append hm with hm | hm
    · rw [foldl_enter_of_not_within
        (hb.not_within (ha.solid site hm) (.inl (ha.inside site hm).2))]
      exact ha.shows site hm bs hF
    · rw [foldl_enter_of_not_within
        (ha.not_within (hb.solid site hm) (.inr (hb.inside site hm).1))]
      exact hb.shows site hm bs hF

/-- What is declared in a stretch is in force in all of it. -/
theorem Surveyed.bind (h : Surveyed G lo hi ls w) (region : Location)
    (hlo : region.start ≤ lo) (hhi : hi ≤ region.stop) (hF : ∀ bs, F bs → G (Scope.held region ds ++ bs)) :
    Surveyed F region.start region.stop (Landmark.bindings region ds ++ ls) w where
  bounds l hl hs := by
    rcases List.mem_append.mp hl with hl | hl
    · obtain ⟨d, -, rfl⟩ := List.mem_map.mp hl
      exact ⟨Nat.le_refl _, Nat.le_refl _⟩
    · have := h.bounds l hl hs
      omega
  solid := h.solid
  inside site hm := by
    have := h.inside site hm
    omega
  shows site hm bs hbs := by
    have := h.inside site hm
    rw [List.foldl_append, foldl_enter_bindings ⟨by omega, by omega⟩]
    exact h.shows site hm _ (hF bs hbs)

/-- In the body of a member class only fields are in force from outside. -/
theorem Surveyed.inMember {body : Location} (h : Surveyed G body.start body.stop ls w)
    (hF : ∀ bs, F bs → G (bs.filter (·.declaration.isField))) :
    Surveyed F body.start body.stop (.memberClass body :: ls) w where
  bounds l hl hs := by
    rcases List.mem_cons.mp hl with rfl | hl
    · exact ⟨Nat.le_refl _, Nat.le_refl _⟩
    · exact h.bounds l hl hs
  solid := h.solid
  inside := h.inside
  shows site hm bs hbs := by
    have henter : Landmark.enter site.call.location bs (.memberClass body) =
        bs.filter (·.declaration.isField) := if_pos (h.inside site hm)
    rw [List.foldl_cons, henter]
    exact h.shows site hm _ (hF bs hbs)

/-- A walk that passes over a class records none of its calls. -/
theorem Surveyed.skipped (h : Surveyed F lo hi ls w) (name : String) :
    Surveyed F lo hi ls (meet (.skipped name)) where
  bounds := h.bounds
  solid _ hm := absurd hm not_meets_skipped
  inside _ hm := absurd hm not_meets_skipped
  shows _ hm := absurd hm not_meets_skipped

theorem Surveyed.numbered {f : Nat → Walk} (h : ∀ k, Surveyed F lo hi ls (f k)) :
    Surveyed F lo hi ls (numbered f) where
  bounds := (h 0).bounds
  solid site hm := by
    obtain ⟨k, hm⟩ := meets_numbered hm
    exact (h k).solid site hm
  inside site hm := by
    obtain ⟨k, hm⟩ := meets_numbered hm
    exact (h k).inside site hm
  shows site hm := by
    obtain ⟨k, hm⟩ := meets_numbered hm
    exact (h k).shows site hm

/-- No landmark in a call has the whole call in its region, so a call has in scope what is in scope
before it. -/
theorem Surveyed.call {l : Location} {c d : Nat} (hl : site.call.location = l)
    (hshows : ∀ bs, F bs → site.scope.Shows bs) (ha : Surveyed F l.start c xs a)
    (hb : Surveyed F d l.stop ys b) (hc : c < l.stop) (hd : l.start < d) (hlc : l.start ≤ c)
    (hcd : c ≤ d) (hds : d ≤ l.stop) :
    Surveyed F l.start l.stop (xs ++ ys) (meet (.call site) ++ a ++ b) := by
  have hfront : Surveyed F l.start d xs a := ha.wider fun _ ↦ ⟨Nat.le_refl _, hcd⟩
  have hparts : Surveyed F l.start l.stop (xs ++ ys) (a ++ b) :=
    hfront.append hb (by omega) hds
  have hmeets : ∀ other, Meets (meet (.call site) ++ a ++ b) other →
      other = site ∨ Meets (a ++ b) other := by
    intro other hm
    rw [append_assoc] at hm
    exact (meets_append hm).imp_left eq_of_meets_call
  refine ⟨hparts.bounds, fun other hm ↦ ?_, fun other hm ↦ ?_, fun other hm bs hbs ↦ ?_⟩
  · rcases hmeets other hm with rfl | hm
    · rw [hl]
      omega
    · exact hparts.solid other hm
  · rcases hmeets other hm with rfl | hm
    · rw [hl]
      exact ⟨Nat.le_refl _, Nat.le_refl _⟩
    · exact hparts.inside other hm
  · rcases hmeets other hm with rfl | hm
    · rw [foldl_enter_of_not_within]
      · exact hshows bs hbs
      · intro x hx hwithin
        rw [hl] at hwithin
        unfold Location.Within at hwithin
        rcases List.mem_append.mp hx with hx | hx
        · have := ha.bounds x hx
          omega
        · have := hb.bounds x hx
          omega
    · exact hparts.shows other hm bs hbs

/-! ### Landmarks and calls of some expressions and statements -/

/-- Landmarks and the calls that a walk records keep to where some expressions and statements are
laid out. -/
def Surveys (F : List Binding → Prop) (ns : List Node) (ls : List Landmark) (w : Walk) : Prop :=
  ∀ lo hi, Node.Laid lo hi ns → Surveyed F lo hi ls w

/-- Landmarks and the calls that a walk records keep to where some expressions and statements are
laid out that end at some place or before it. -/
def SurveysTo (F : List Binding → Prop) (stop : Position) (ns : List Node) (ls : List Landmark)
    (w : Walk) : Prop :=
  ∀ lo, Node.Laid lo stop.offset ns → Surveyed F lo stop.offset ls w

variable {ns ms : List Node} {n : Node} {stop : Position}

theorem surveys_nothing : Surveys F ns [] nothing := fun _ _ _ ↦ Surveyed.nothing

theorem Surveys.mono (h : Surveys G ns ls w) (hF : ∀ bs, F bs → G bs) : Surveys F ns ls w :=
  fun lo hi hlaid ↦
    let ⟨bounds, solid, inside, shows⟩ := h lo hi hlaid
    ⟨bounds, solid, inside, fun site hm bs hbs ↦ shows site hm bs (hF bs hbs)⟩

theorem Surveys.to (h : Surveys F ns ls w) : SurveysTo F stop ns ls w := fun lo ↦ h lo _

theorem Surveys.append (ha : Surveys F ns xs a) (hb : Surveys F ms ys b) :
    Surveys F (ns ++ ms) (xs ++ ys) (a ++ b) := by
  intro lo hi h
  obtain ⟨mid, hx, hy⟩ := h.exists_mid
  exact (ha lo mid hx).append (hb mid hi hy) hx.le hy.le

theorem Surveys.andThen (ha : Surveys F ns xs a) (hb : SurveysTo F stop ms ys b) :
    SurveysTo F stop (ns ++ ms) (xs ++ ys) (a ++ b) := by
  intro lo h
  obtain ⟨mid, hx, hy⟩ := h.exists_mid
  exact (ha lo mid hx).append (hb mid hy) hx.le hy.le

/-- A walk passes over expressions and statements. -/
theorem Surveys.past (h : Surveys F ns ls w) : Surveys F (ms ++ ns) ls w :=
  fun lo hi hlaid ↦ h lo hi (hlaid.sublist (List.sublist_append_right ms ns))

theorem Surveys.numbered {f : Nat → Walk} (h : ∀ k, Surveys F ns ls (f k)) :
    Surveys F ns ls (numbered f) :=
  fun lo hi hlaid ↦ Surveyed.numbered fun k ↦ h k lo hi hlaid

/-- What is directly in an expression or a statement keeps to where this stands. -/
theorem SurveysTo.node (h : SurveysTo F n.location.last n.parts ls w) : Surveys F [n] ls w := by
  rintro lo hi (_ | ⟨hlo, -, -, hparts, hrest⟩)
  exact (h n.location.start hparts).wider fun _ ↦ ⟨hlo, hrest.le⟩

theorem Surveys.node (h : Surveys F n.parts ls w) : Surveys F [n] ls w :=
  SurveysTo.node h.to

theorem SurveysTo.upto_last (h : SurveysTo F n.location.last (ns ++ [n]) ls w) :
    Surveys F (ns ++ [n]) ls w := by
  intro lo hi hlaid
  have hn := hlaid.of_mem (List.mem_append_right ns (List.mem_singleton.mpr rfl))
  exact (h lo hlaid.upto_last).wider fun _ ↦ ⟨Nat.le_refl lo, hn.2⟩

/-- What holds in an expression or a statement. -/
theorem Surveys.bind (h : Surveys G [n] ls w)
    (hF : ∀ bs, F bs → G (Scope.held n.location ds ++ bs)) :
    Surveys F [n] (Landmark.bindings n.location ds ++ ls) w := by
  rintro lo hi hlaid
  have hn := hlaid.of_mem (List.mem_singleton.mpr rfl)
  have hwhole : Node.Laid n.location.start hi ([] ++ [n]) := hlaid.from_head
  have htight : Node.Laid n.location.start n.location.stop [n] := hwhole.upto_last
  exact ((h _ _ htight).bind _ (Nat.le_refl _) (Nat.le_refl _) hF).wider fun _ ↦ hn

/-- What holds in all of some expressions and statements. -/
theorem Surveys.bind_all (h : Surveys G ns ls w)
    (hF : ∀ bs, F bs → G (Scope.held (Node.extent ns) ds ++ bs)) :
    Surveys F ns (Landmark.bindings (Node.extent ns) ds ++ ls) w := by
  intro lo hi hlaid
  obtain ⟨htight, hbounds⟩ := hlaid.on_extent
  exact ((h _ _ htight).bind _ (Nat.le_refl _) (Nat.le_refl _) hF).wider hbounds

theorem Surveys.inMember (h : Surveys G ns ls w)
    (hF : ∀ bs, F bs → G (bs.filter (·.declaration.isField))) :
    Surveys F ns (.memberClass (Node.extent ns) :: ls) w := by
  intro lo hi hlaid
  obtain ⟨htight, hbounds⟩ := hlaid.on_extent
  exact ((h _ _ htight).inMember hF).wider hbounds

/-- What holds from its declaration on. -/
theorem SurveysTo.fromDecl {d : VarDecl} (ha : Surveys G (Node.ofVars d) xs a)
    (hb : SurveysTo G stop ms ys b)
    (hF : ∀ bs, F bs →
      G (Scope.held (Landmark.fromDecl d stop) (Declaration.ofLocals d) ++ bs)) :
    SurveysTo F stop (.stmt (.vars d) :: ms)
      (Landmark.bindings (Landmark.fromDecl d stop) (Declaration.ofLocals d) ++ (xs ++ ys))
      (a ++ b) := by
  rintro lo (_ | ⟨hlo, hsolid, -, hparts, hrest⟩)
  have hall := (ha _ _ hparts).append (hb _ hrest) (Nat.le_of_lt hsolid) hrest.le
  exact (hall.bind (Landmark.fromDecl d stop) (Nat.le_refl _) (Nat.le_refl _) hF).wider
    fun _ ↦ ⟨hlo, Nat.le_refl _⟩

theorem surveys_call {l : Location} {t : Option Expr} {name : String} {as : List Expr}
    (hl : site.call.location = l) (hshows : ∀ bs, F bs → site.scope.Shows bs)
    (ha : Surveys F (t.toList.map .expr) xs a) (hb : Surveys F (as.map .expr) ys b) :
    Surveys F [.expr (.call l t name as)] (xs ++ ys) (meet (.call site) ++ a ++ b) := by
  rintro lo hi (_ | ⟨hlo, hsolid, ⟨htarget, hargs⟩, hparts, hrest⟩)
  obtain ⟨mid, hx, hy⟩ := hparts.exists_mid
  have hmid := hx.le
  have hmid' := hy.le
  simp only [Node.location, Expr.location] at hsolid hmid hmid' hx hy hlo hrest
  have hx' : Node.Laid l.start (min mid (l.stop - 1)) (t.toList.map .expr) := by
    refine hx.upto (by omega) fun n hn ↦ ?_
    obtain ⟨e, he, rfl⟩ := List.mem_map.mp hn
    have := htarget e (Option.mem_toList.mp he)
    have := (hx.of_mem hn).2
    simp only [Node.location] at this ⊢
    omega
  have hy' : Node.Laid (max mid (l.start + 1)) l.stop (as.map .expr) := by
    refine hy.from (by omega) fun n hn ↦ ?_
    obtain ⟨e, he, rfl⟩ := List.mem_map.mp hn
    have := hargs e he
    have := (hy.of_mem hn).1
    simp only [Node.location] at this ⊢
    omega
  exact ((ha _ _ hx').call hl hshows (hb _ _ hy') (by omega) (by omega) (by omega) (by omega)
    (by omega)).wider fun _ ↦ ⟨hlo, hrest.le⟩

/-- The fields of an anonymous class hold in all of its body. -/
theorem surveys_anonymous {p : Place} {l : Location} {ms : List Member} {t : Option TypeRef}
    {f : Nat → Walk}
    (h : ∀ k, Surveys (p.anonymous l ms t k).Sees (Node.ofMembers ms) ls (f k)) :
    Surveys p.Sees (Node.ofMembers ms) (Landmark.fields .classType [] ms ++ ls)
      (Walk.numbered f) := by
  rw [Landmark.fields, Landmark.body, Node.ofConstants, List.nil_append]
  exact Surveys.numbered fun k ↦ (h k).bind_all fun _ h ↦ h.anonymous l ms t k _

/-! ### The walk -/

mutual

/-- The scopes in an expression show what is in force. -/
theorem surveys_ofExpr (p : Place) :
    (e : Expr) → Surveys p.Sees [.expr e] (Landmark.ofExpr e) (ofExpr p e)
  | .literal .. | .name .. | .this _ | .super _ | .classLiteral .. | .typeMethodRef .. => by
    unfold ofExpr Landmark.ofExpr
    exact surveys_nothing
  | .paren _ e | .field _ e _ | .methodRef _ e _ | .instanceOf _ e _ | .unary _ _ e
  | .preStep _ _ e | .postStep _ _ e | .cast _ _ e => by
    unfold ofExpr Landmark.ofExpr
    exact Surveys.node (surveys_ofExpr p e)
  | .call l t n as => by
    unfold ofExpr Landmark.ofExpr
    exact surveys_call rfl (fun _ h ↦ h.1) (surveys_ofExpr? p t) (surveys_ofExprs p as)
  | .index _ a b | .binary _ _ a b | .assign _ _ a b => by
    unfold ofExpr Landmark.ofExpr
    exact Surveys.node ((surveys_ofExpr p a).append (surveys_ofExpr p b))
  | .conditional _ c a b => by
    unfold ofExpr Landmark.ofExpr
    exact Surveys.node (((surveys_ofExpr p c).append (surveys_ofExpr p a)).append
      (surveys_ofExpr p b))
  | .newObject _ _ as none => by
    unfold ofExpr Landmark.ofExpr
    refine Surveys.node ?_
    rw [Node.parts, Node.ofExpr, Option.toList_none, List.flatMap_nil, List.append_nil]
    exact surveys_ofExprs p as
  | .newObject l t as (some ms) => by
    unfold ofExpr Landmark.ofExpr
    refine Surveys.node ?_
    rw [Node.parts, Node.ofExpr, Option.toList_some, List.flatMap_singleton]
    exact (surveys_ofExprs p as).append
      (surveys_anonymous fun k ↦ surveys_ofMembers (p.anonymous l ms (some t) k) ms)
  | .newArray _ _ ds i => by
    unfold ofExpr Landmark.ofExpr
    exact Surveys.node ((surveys_ofExprs p ds).append (surveys_ofExpr? p i))
  | .arrayInit _ es => by
    unfold ofExpr Landmark.ofExpr
    exact Surveys.node (surveys_ofExprs p es)
  | .lambda _ ps e => by
    unfold ofExpr Landmark.ofExpr
    exact Surveys.node (Surveys.past ((surveys_ofExpr _ e).bind fun _ h ↦ h.bind_params ps _))
  | .lambdaBlock _ ps b => by
    unfold ofExpr Landmark.ofExpr
    exact Surveys.node (Surveys.past ((surveys_ofBlock _ b).bind fun _ h ↦ h.bind_params ps _))

theorem surveys_ofExpr? (p : Place) : (e : Option Expr) →
    Surveys p.Sees (e.toList.map .expr) (Landmark.ofExpr? e) (ofExpr? p e)
  | none => by
    unfold ofExpr? Landmark.ofExpr?
    exact surveys_nothing
  | some e => by
    unfold ofExpr? Landmark.ofExpr?
    exact surveys_ofExpr p e

theorem surveys_ofExprs (p : Place) : (es : List Expr) →
    Surveys p.Sees (es.map .expr) (Landmark.ofExprs es) (ofExprs p es)
  | [] => by
    unfold ofExprs Landmark.ofExprs
    exact surveys_nothing
  | e :: es => by
    unfold ofExprs Landmark.ofExprs
    exact (surveys_ofExpr p e).append (surveys_ofExprs p es)

/-- The scopes in a statement show what is in force. -/
theorem surveys_ofStmt (p : Place) (b : Bool) :
    (s : Stmt) → Surveys p.Sees [.stmt s] (Landmark.ofStmt s) (ofStmt p b s)
  | .block b => by
    unfold ofStmt Landmark.ofStmt
    exact surveys_ofBlock p b
  | .vars d => by
    unfold ofStmt Landmark.ofStmt
    exact Surveys.bind (n := .stmt (.vars d)) (Surveys.node (surveys_ofVars _ d))
      fun _ h ↦ h.bind_locals d _
  | .expr l (.call cl t n as) => by
    unfold ofStmt Landmark.ofStmt Landmark.ofExpr
    exact Surveys.node (surveys_call rfl (fun _ h ↦ h.1) (surveys_ofExpr? p t)
      (surveys_ofExprs p as))
  | .expr _ (.literal ..) | .expr _ (.name ..) | .expr _ (.this _) | .expr _ (.super _)
  | .expr _ (.paren ..) | .expr _ (.field ..) | .expr _ (.index ..) | .expr _ (.newObject ..)
  | .expr _ (.newArray ..) | .expr _ (.arrayInit ..) | .expr _ (.classLiteral ..)
  | .expr _ (.methodRef ..) | .expr _ (.typeMethodRef ..) | .expr _ (.binary ..)
  | .expr _ (.instanceOf ..) | .expr _ (.unary ..) | .expr _ (.preStep ..)
  | .expr _ (.postStep ..) | .expr _ (.assign ..) | .expr _ (.conditional ..)
  | .expr _ (.cast ..) | .expr _ (.lambda ..) | .expr _ (.lambdaBlock ..) => by
    unfold ofStmt Landmark.ofStmt
    exact Surveys.node (surveys_ofExpr p _)
  | .ifElse _ c s none => by
    unfold ofStmt Landmark.ofStmt
    exact Surveys.node ((surveys_ofExpr p c).append (surveys_ofStmt p b s))
  | .ifElse _ c s (some e) => by
    unfold ofStmt Landmark.ofStmt
    exact Surveys.node (((surveys_ofExpr p c).append (surveys_ofStmt p true s)).append
      (surveys_ofStmt p b e))
  | .whileLoop _ c s => by
    unfold ofStmt Landmark.ofStmt
    exact Surveys.node ((surveys_ofExpr p c).append (surveys_ofStmt p b s))
  | .doLoop _ s c => by
    unfold ofStmt Landmark.ofStmt
    exact Surveys.node ((surveys_ofStmt p false s).append (surveys_ofExpr p c))
  | .forLoop _ i c u s => by
    unfold ofStmt Landmark.ofStmt
    refine SurveysTo.node ?_
    rw [Node.parts, Node.ofStmt, List.append_assoc, List.append_assoc, append_assoc, append_assoc,
      List.append_assoc]
    exact surveysTo_ofSetups p _ i ((surveys_ofExpr? _ c).append
      ((surveys_ofExprs _ u).append (surveys_ofStmt _ b s))).to
  | .forEach _ v e s => by
    unfold ofStmt Landmark.ofStmt
    exact Surveys.node (Surveys.past ((surveys_ofExpr p e).append
      ((surveys_ofStmt _ b s).bind fun _ h ↦ h.bind_params [v] _)))
  | .returnStmt _ e => by
    unfold ofStmt Landmark.ofStmt
    exact Surveys.node (surveys_ofExpr? p e)
  | .throwStmt _ e => by
    unfold ofStmt Landmark.ofStmt
    exact Surveys.node (surveys_ofExpr p e)
  | .breakStmt .. | .continueStmt .. | .empty _ => by
    unfold ofStmt Landmark.ofStmt
    exact surveys_nothing
  | .tryStmt _ rs b cs f => by
    unfold ofStmt Landmark.ofStmt
    refine Surveys.node ?_
    rw [Node.parts, Node.ofStmt, List.append_cons, ← List.append_assoc]
    exact ((surveysTo_ofSetups p _ rs (surveys_ofBlock _ b).to).upto_last.append
      (surveys_ofCatches p cs)).append (surveys_ofBlock? p f)
  | .synchronizedStmt _ e b => by
    unfold ofStmt Landmark.ofStmt
    exact Surveys.node ((surveys_ofExpr p e).append (surveys_ofBlock p b))
  | .assertStmt _ c m => by
    unfold ofStmt Landmark.ofStmt
    exact Surveys.node ((surveys_ofExpr p c).append (surveys_ofExpr? p m))
  | .switchStmt _ e is => by
    unfold ofStmt Landmark.ofStmt
    exact SurveysTo.node ((surveys_ofExpr p e).andThen (surveysTo_ofItems p _ is))
  | .labeled _ _ s => by
    unfold ofStmt Landmark.ofStmt
    exact Surveys.node (surveys_ofStmt p b s)

theorem surveys_ofBlock (p : Place) :
    (b : Block) → Surveys p.Sees [Node.block b] (Landmark.ofBlock b) (ofBlock p b)
  | ⟨_, stmts⟩ => by
    unfold ofBlock Landmark.ofBlock
    exact SurveysTo.node (surveysTo_ofStmts p _ stmts)

theorem surveys_ofBlock? (p : Place) : (b : Option Block) →
    Surveys p.Sees (b.toList.map Node.block) (Landmark.ofBlock? b) (ofBlock? p b)
  | none => by
    unfold ofBlock? Landmark.ofBlock?
    exact surveys_nothing
  | some b => by
    unfold ofBlock? Landmark.ofBlock?
    exact surveys_ofBlock p b

/-- Only a declaration extends the scope of the statements after it. -/
theorem surveysTo_ofStmts (p : Place) (stop : Position) : (ss : List Stmt) →
    SurveysTo p.Sees stop (ss.map .stmt) (Landmark.ofStmts stop ss) (ofStmts p ss)
  | [] => by
    unfold ofStmts Landmark.ofStmts
    exact surveys_nothing.to
  | .vars d :: ss => by
    unfold ofStmts Landmark.ofStmts ofStmt
    exact SurveysTo.fromDecl (surveys_ofVars _ d) (surveysTo_ofStmts _ stop ss)
      fun _ h ↦ h.bind_locals d _
  | .block _ :: ss | .expr .. :: ss | .ifElse .. :: ss | .whileLoop .. :: ss
  | .doLoop .. :: ss | .forLoop .. :: ss | .forEach .. :: ss | .returnStmt .. :: ss
  | .throwStmt .. :: ss | .breakStmt .. :: ss | .continueStmt .. :: ss | .tryStmt .. :: ss
  | .synchronizedStmt .. :: ss | .assertStmt .. :: ss | .switchStmt .. :: ss
  | .labeled .. :: ss | .empty _ :: ss => by
    unfold ofStmts Landmark.ofStmts
    exact (surveys_ofStmt p false _).andThen (surveysTo_ofStmts p stop ss)

theorem surveys_ofVars (p : Place) :
    (d : VarDecl) → Surveys p.Sees (Node.ofVars d) (Landmark.ofVars d) (ofVars p d)
  | ⟨_, _, ds, _, _⟩ => by
    unfold ofVars Landmark.ofVars
    exact Surveys.past (surveys_ofDeclarators p ds)

theorem surveys_ofDeclarators (p : Place) : (ds : List Declarator) →
    Surveys p.Sees (ds.flatMap Node.ofDeclarator) (Landmark.ofDeclarators ds) (ofDeclarators p ds)
  | [] => by
    unfold ofDeclarators Landmark.ofDeclarators
    exact surveys_nothing
  | ⟨_, _, _, e⟩ :: ds => by
    unfold ofDeclarators Landmark.ofDeclarators
    exact (surveys_ofExpr? p e).append (surveys_ofDeclarators p ds)

/-- What is declared before the body of a `for` or `try` extends the scope of what follows. -/
theorem surveysTo_ofSetups (p : Place) (stop : Position) {ms : List Node} {ys : List Landmark}
    {w : Walk} : (ss : List Setup) → SurveysTo (p.afterSetups ss).Sees stop ms ys w →
    SurveysTo p.Sees stop (ss.map Node.ofSetup ++ ms) (Landmark.ofSetups stop ss ++ ys)
      (ofSetups p ss ++ w)
  | [], h => by
    unfold ofSetups Landmark.ofSetups
    exact h
  | .vars d :: ss, h => by
    unfold ofSetups Landmark.ofSetups
    rw [append_assoc, List.append_assoc, List.append_assoc]
    exact SurveysTo.fromDecl (surveys_ofVars _ d) (surveysTo_ofSetups _ stop ss h)
      fun _ h ↦ h.bind_locals d _
  | .expr e :: ss, h => by
    unfold ofSetups Landmark.ofSetups
    rw [append_assoc, List.append_assoc]
    exact (surveys_ofExpr p e).andThen (surveysTo_ofSetups p stop ss h)

theorem surveys_ofCatches (p : Place) : (cs : List CatchClause) →
    Surveys p.Sees (cs.map Node.ofCatch) (Landmark.ofCatches cs) (ofCatches p cs)
  | [] => by
    unfold ofCatches Landmark.ofCatches
    exact surveys_nothing
  | ⟨l, ts, n, b⟩ :: cs => by
    unfold ofCatches Landmark.ofCatches
    exact ((surveys_ofBlock _ b).bind fun _ h ↦ h.bind_catch ⟨l, ts, n, b⟩ _).append
      (surveys_ofCatches p cs)

theorem surveysTo_ofItems (p : Place) (stop : Position) : (is : List SwitchItem) →
    SurveysTo p.Sees stop (is.flatMap Node.ofItem) (Landmark.ofItems stop is) (ofItems p is)
  | [] => by
    unfold ofItems Landmark.ofItems
    exact surveys_nothing.to
  | .label e :: is => by
    unfold ofItems Landmark.ofItems
    exact (surveys_ofExpr? p e).andThen (surveysTo_ofItems p stop is)
  | .stmt (.vars d) :: is => by
    unfold ofItems Landmark.ofItems ofStmt
    exact SurveysTo.fromDecl (surveys_ofVars _ d) (surveysTo_ofItems _ stop is)
      fun _ h ↦ h.bind_locals d _
  | .stmt (.block _) :: is | .stmt (.expr ..) :: is | .stmt (.ifElse ..) :: is
  | .stmt (.whileLoop ..) :: is | .stmt (.doLoop ..) :: is | .stmt (.forLoop ..) :: is
  | .stmt (.forEach ..) :: is | .stmt (.returnStmt ..) :: is | .stmt (.throwStmt ..) :: is
  | .stmt (.breakStmt ..) :: is | .stmt (.continueStmt ..) :: is | .stmt (.tryStmt ..) :: is
  | .stmt (.synchronizedStmt ..) :: is | .stmt (.assertStmt ..) :: is
  | .stmt (.switchStmt ..) :: is | .stmt (.labeled ..) :: is | .stmt (.empty _) :: is => by
    unfold ofItems Landmark.ofItems
    exact (surveys_ofStmt p false _).andThen (surveysTo_ofItems p stop is)

theorem surveys_ofMembers (p : Place) : (ms : List Member) →
    Surveys p.Sees (Node.ofMembers ms) (Landmark.ofMembers ms) (ofMembers p ms)
  | [] => by
    unfold ofMembers Landmark.ofMembers
    exact surveys_nothing
  | .field d :: ms => by
    unfold ofMembers Landmark.ofMembers Node.ofMembers Node.ofMember
    exact Surveys.append (surveys_ofVars { p with method := none } d) (surveys_ofMembers p ms)
  | .method m :: ms => by
    unfold ofMembers Landmark.ofMembers Node.ofMembers Node.ofMember
    exact (surveys_ofMethod p m).append (surveys_ofMembers p ms)
  | .initializer _ b _ :: ms => by
    unfold ofMembers Landmark.ofMembers Node.ofMembers Node.ofMember
    exact Surveys.append (surveys_ofBlock { p with method := none } b) (surveys_ofMembers p ms)
  | .type d :: ms => by
    unfold ofMembers Landmark.ofMembers Node.ofMembers Node.ofMember
    have hclass := (surveys_ofType p.skip (p.enclosing.member d) d rfl).inMember
      fun _ (h : p.Sees _) ↦ h.member d
    rw [Node.ofType_eq]
    exact hclass.past.append (surveys_ofMembers p ms)

theorem surveys_ofMethod (p : Place) : (m : MethodDecl) →
    Surveys p.Sees (Node.ofMethod m) (Landmark.ofMethod m) (ofMethod p m)
  | ⟨_, _, _, _, none, _, _, _⟩ => by
    unfold ofMethod Landmark.ofMethod ofBlock?
    exact surveys_nothing
  | ⟨_, _, _, ps, some b, _, _, _⟩ => by
    unfold ofMethod Landmark.ofMethod ofBlock?
    exact Surveys.past ((surveys_ofBlock _ b).bind fun _ h ↦ h.bind_params ps _)

theorem surveys_ofConstants (p : Place) : (cs : List EnumConstant) →
    Surveys p.Sees (Node.ofConstants cs) (Landmark.ofConstants cs) (ofConstants p cs)
  | [] => by
    unfold ofConstants Landmark.ofConstants
    exact surveys_nothing
  | ⟨_, _, as, none⟩ :: cs => by
    unfold ofConstants Landmark.ofConstants Node.ofConstants Node.ofConstant
    exact (surveys_ofExprs p as).append (surveys_ofConstants p cs)
  | ⟨l, _, as, some ms⟩ :: cs => by
    unfold ofConstants Landmark.ofConstants Node.ofConstants Node.ofConstant
    exact ((surveys_ofExprs p as).append
      (surveys_anonymous fun k ↦ surveys_ofMembers (p.anonymous l ms none k) ms)).append
      (surveys_ofConstants p cs)

theorem surveys_ofType (skip : List String) (n : Nest) : (d : TypeDecl) → n.inner.decl = d →
    Surveys n.Enters (Node.ofConstants d.constants ++ Node.ofMembers d.members)
      (Landmark.ofType d) (ofType skip n d)
  | ⟨_, _, _, ms, _, _, cs, _⟩, hd => by
    unfold ofType Landmark.ofType
    have hbody := ((surveys_ofConstants (.ofClass skip n) cs).append
      (surveys_ofMembers (.ofClass skip n) ms)).bind_all
      fun _ (h : n.Enters _) ↦ h.ofClass skip _
    rw [ClassInfo.declarations, hd] at hbody
    split
    · exact fun lo hi hlaid ↦ (hbody lo hi hlaid).skipped _
    · exact hbody

end

end Walk

/-- At a call site of a source text, the scope shows the declarations that are in force there. -/
theorem CallSite.shows_inForce {source : List Char} {unit : CompilationUnit}
    {skip : List String} {site : CallSite} (hp : CompilationUnit.parse source = .ok unit)
    (hs : site ∈ CallSite.ofUnit unit skip) :
    site.scope.Shows (Landmark.inForce site.call.location (Landmark.ofUnit unit)) := by
  have key : ∀ types : List TypeDecl, Walk.Surveys (· = []) (types.flatMap Node.ofType)
      (types.flatMap Landmark.ofType)
      ((types.map fun d ↦ Walk.ofType skip (UnitIndex.topLevel unit.package d) d).foldr (· ++ ·)
        Walk.nothing) := by
    intro types
    induction types with
    | nil => exact Walk.surveys_nothing
    | cons d ds ih =>
      have hd := Walk.surveys_ofType skip (UnitIndex.topLevel unit.package d) d rfl
      rw [List.flatMap_cons, Node.ofType_eq]
      refine Walk.Surveys.append (hd.mono ?_).past ih
      rintro bs rfl
      exact ⟨fun b hb ↦ absurd hb List.not_mem_nil, Scope.shows_nil⟩
  obtain ⟨encounter, hmem, hsite⟩ := List.mem_filterMap.mp hs
  cases encounter with
  | skipped name => cases hsite
  | call other =>
    cases hsite
    exact (key unit.types 0 source.length (CompilationUnit.nodes_laid hp)).shows site ⟨0, hmem⟩ [] rfl

end GuardLint
