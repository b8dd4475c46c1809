import GuardLint.Proofs.Scope.ClassName
import GuardLint.Proofs.Scope.StaticImport
import GuardLint.Proofs.Syntax.Numbers
import GuardLint.Semantics.Setting
import GuardLint.Syntax.Parse

/-!
# The class of an inherited method

The class of a call without a target is looked for among the classes around it and those that they
inherit from. The search enters no class twice, so hierarchies may be cyclic: if it finds nothing,
the classes that it has entered are closed under the clauses that name types to inherit from, and
so they are all there are.
-/

namespace GuardLint

open Syntax

namespace Setting

/-- The class that a clause of a class declaration inherits from, if the file declares it. -/
def superclass? (c : Setting) (t : TypeRef) : Option ClassInfo :=
  match c.index.resolveType t.name with
  | .ok name => (c.index.classNamed? name).map Nest.inner
  | .error _ => none

/-- One class inherits from another directly. -/
def Extends (c : Setting) (k k' : ClassInfo) : Prop :=
  ∃ t ∈ k.decl.supertypes, c.superclass? t = some k'

/-- A class is the other, or inherits from it. -/
def Inherits (c : Setting) : ClassInfo → ClassInfo → Prop := Relation.ReflTransGen c.Extends

/-- Some clause of a class names no class that the file declares. -/
def Foreign (c : Setting) (k : ClassInfo) : Prop :=
  ∃ t ∈ k.decl.supertypes, c.superclass? t = none

/-- A class, or one that it inherits from, declares a method of some name or inherits from a class
that the file does not declare. -/
def Settles (c : Setting) (method : String) (k : ClassInfo) : Prop :=
  ∃ k', c.Inherits k k' ∧ (k'.declares method = true ∨ c.Foreign k')

/-- A class goes by its name. -/
def Known (c : Setting) (k : ClassInfo) : Prop :=
  ∀ n, c.index.classNamed? k.fullName = some n → n.inner = k

variable {c : Setting} {method : String} {root k k' : ClassInfo} {seen seen' : List String}

theorem superclass?_eq_some {t : TypeRef} : c.superclass? t = some k ↔ ∃ name n,
    c.index.resolveType t.name = .ok name ∧ c.index.classNamed? name = some n ∧ n.inner = k := by
  unfold superclass?
  split
  · next name hname =>
    rw [hname, Option.map_eq_some_iff]
    constructor
    · rintro ⟨n, hn⟩
      exact ⟨name, n, rfl, hn⟩
    · rintro ⟨_, n, ⟨⟩, hn⟩
      exact ⟨n, hn⟩
  · next e he => simp [he]

/-- A class that a clause names is the one that goes by its name. -/
theorem Extends.named (h : c.Extends k k') :
    ∃ n ∈ c.index.classes, c.index.classNamed? k'.fullName = some n ∧ n.inner = k' := by
  obtain ⟨t, -, ht⟩ := h
  obtain ⟨name, n, -, hn, rfl⟩ := superclass?_eq_some.mp ht
  obtain rfl : n.inner.fullName = name := by simpa using List.find?_some hn
  exact ⟨n, List.mem_of_find?_eq_some hn, hn, rfl⟩

/-- Among a class that goes by its name and those that it inherits from, each has its own name. -/
theorem Known.eq_of_inherits (hroot : c.Known root) (h : c.Inherits root k)
    (h' : c.Inherits root k') (hname : k.fullName = k'.fullName) : k = k' := by
  rcases Relation.ReflTransGen.cases_tail h with rfl | ⟨_, -, hk⟩
  · rcases Relation.ReflTransGen.cases_tail h' with rfl | ⟨_, -, hk'⟩
    · rfl
    · obtain ⟨n, -, hn, rfl⟩ := hk'.named
      exact (hroot n (hname ▸ hn)).symm
  · obtain ⟨n, -, hn, rfl⟩ := hk.named
    rcases Relation.ReflTransGen.cases_tail h' with rfl | ⟨_, -, hk'⟩
    · exact hroot n (hname ▸ hn)
    · obtain ⟨m, -, hm, rfl⟩ := hk'.named
      rw [hname, hm] at hn
      rw [Option.some.inj hn]

/-! ### What the search has entered -/

/-- A search that came to no answer has entered classes that do not declare the method and whose
clauses all name classes that it has entered. -/
structure Searched (c : Setting) (method : String) (root : ClassInfo) (seen seen' : List String) :
    Prop where
  kept : seen ⊆ seen'
  closed : ∀ name ∈ seen', name ∉ seen → ∃ k, c.Inherits root k ∧ k.fullName = name ∧
    k.declares method = false ∧ ∀ t ∈ k.decl.supertypes, ∃ k' ∈ c.superclass? t, k'.fullName ∈ seen'

theorem Searched.refl : c.Searched method root seen seen :=
  ⟨List.Subset.refl _, fun _ h hno ↦ absurd h hno⟩

theorem Searched.trans {mid : List String} (h : c.Searched method root seen mid)
    (h' : c.Searched method root mid seen') : c.Searched method root seen seen' where
  kept := List.Subset.trans h.kept h'.kept
  closed name hname hno := by
    by_cases hmid : name ∈ mid
    · obtain ⟨k, hk, hn, hm, hsupers⟩ := h.closed name hmid hno
      refine ⟨k, hk, hn, hm, fun t ht ↦ ?_⟩
      obtain ⟨k', hk', hin⟩ := hsupers t ht
      exact ⟨k', hk', h'.kept hin⟩
    · exact h'.closed name hname hmid

/-- A search that enters a class and from there those that its clauses name. -/
theorem Searched.enter (hk : c.Inherits root k) (hm : k.declares method = false)
    (h : c.Searched method root (k.fullName :: seen) seen')
    (hsupers : ∀ t ∈ k.decl.supertypes, ∃ k' ∈ c.superclass? t, k'.fullName ∈ seen') :
    c.Searched method root seen seen' where
  kept := List.Subset.trans (List.subset_cons_self _ _) h.kept
  closed name hname hno := by
    by_cases heq : k.fullName = name
    · exact ⟨k, hk, heq, hm, hsupers⟩
    · exact h.closed name hname fun hin ↦ (List.mem_cons.mp hin).elim (heq ·.symm) hno

/-- Once a class that goes by its name is searched to no avail, nothing it inherits from is left. -/
theorem Searched.not_settles (hroot : c.Known root) (h : c.Searched method root [] seen)
    (hin : root.fullName ∈ seen) : ¬ c.Settles method root := by
  have hall : ∀ k, c.Inherits root k → k.fullName ∈ seen := by
    intro k hk
    induction hk with
    | refl => exact hin
    | @tail k k' hk hstep ih =>
      obtain ⟨t, ht, hsuper⟩ := hstep
      obtain ⟨j, hj, hname, -, hsupers⟩ := h.closed _ ih List.not_mem_nil
      obtain rfl := hroot.eq_of_inherits hj hk hname
      obtain ⟨k'', hk'', hin⟩ := hsupers t ht
      rw [hsuper] at hk''
      cases hk''
      exact hin
  rintro ⟨k, hk, hsettles⟩
  obtain ⟨j, hj, hname, hdeclares, hsupers⟩ := h.closed _ (hall k hk) List.not_mem_nil
  obtain rfl := hroot.eq_of_inherits hj hk hname
  rcases hsettles with hm | ⟨t, ht, hnone⟩
  · rw [hdeclares] at hm
    cases hm
  · obtain ⟨k', hk', -⟩ := hsupers t ht
    rw [hnone] at hk'
    cases hk'

/-! ### What the search answers -/

/-- An answer of a search: a class inherited from that declares the method, an error for one that
inherits from a class not declared here, or no answer, and then some classes are entered. -/
def Answers (c : Setting) (method : String) (root : ClassInfo) (seen : List String)
    (entered : List String → Prop) : Except Unresolved (Option String × List String) → Prop
  | .ok (some owner, _) =>
    ∃ k, c.Inherits root k ∧ k.declares method = true ∧ k.fullName = owner
  | .ok (none, seen') => c.Searched method root seen seen' ∧ entered seen'
  | .error _ => ∃ k, c.Inherits root k ∧ c.Foreign k

variable {search search' : ClassInfo → List String → Except Unresolved (Option String × List String)}

/-- A search that goes on from one that came to no answer. -/
theorem Answers.after {p q : List String → Prop}
    {x : Except Unresolved (Option String × List String)} (h : c.Answers method root seen' p x)
    (hs : c.Searched method root seen seen')
    (hpq : ∀ s, c.Searched method root seen' s → p s → q s) : c.Answers method root seen q x := by
  rcases x with e | ⟨_ | owner, s⟩
  · exact h
  · exact ⟨hs.trans h.1, hpq s h.1 h.2⟩
  · exact h

/-- A search through the classes that clauses of a class name. -/
theorem answers_searchTypes (hk : c.Inherits root k) {ts : List TypeRef}
    (hts : ts ⊆ k.decl.supertypes) (hsearch : ∀ t ∈ ts, ∀ k' ∈ c.superclass? t, ∀ s, seen ⊆ s →
      c.Answers method root s (k'.fullName ∈ ·) (search k' s)) :
    c.Answers method root seen (fun s ↦ ∀ t ∈ ts, ∃ k' ∈ c.superclass? t, k'.fullName ∈ s)
      (c.searchTypes k.fullName search ts seen) := by
  induction ts generalizing seen with
  | nil => exact ⟨.refl, List.forall_mem_nil _⟩
  | cons t ts ih =>
    have hforeign : c.superclass? t = none → ∃ k, c.Inherits root k ∧ c.Foreign k :=
      fun hnone ↦ ⟨k, hk, t, hts List.mem_cons_self, hnone⟩
    unfold searchTypes
    cases hr : c.index.resolveType t.name with
    | error e => exact hforeign (by simp [superclass?, hr])
    | ok name =>
      cases hn : c.index.classNamed? name with
      | none =>
        simp only [bind, Except.bind, hn]
        exact hforeign (by simp [superclass?, hr, hn])
      | some n =>
        simp only [bind, Except.bind, hn]
        have hsuper : c.superclass? t = some n.inner := superclass?_eq_some.mpr ⟨name, n, hr, hn, rfl⟩
        have hfirst := hsearch t List.mem_cons_self n.inner hsuper seen (List.Subset.refl _)
        rcases hx : search n.inner seen with e | ⟨_ | owner, s⟩
        · rw [hx] at hfirst
          exact hfirst
        · rw [hx] at hfirst
          obtain ⟨hs, hin⟩ := hfirst
          have hrest := ih (fun t ht ↦ hts (List.mem_cons_of_mem _ ht)) fun t ht k' hk' s' hs' ↦
            hsearch t (List.mem_cons_of_mem _ ht) k' hk' s' (List.Subset.trans hs.kept hs')
          refine hrest.after hs fun s' hs' hall ↦ List.forall_mem_cons.mpr ⟨?_, hall⟩
          exact ⟨n.inner, hsuper, hs'.kept hin⟩
        · rw [hx] at hfirst
          exact hfirst

/-- The names of listed classes that a search has not entered. -/
def unentered (c : Setting) (seen : List String) : List String :=
  (c.index.classes.map (·.inner.fullName)).filter fun name ↦ !seen.contains name

theorem length_unentered_le (h : seen ⊆ seen') :
    (c.unentered seen').length ≤ (c.unentered seen).length := by
  refine (List.monotone_filter_right _ fun name hname ↦ ?_).length_le
  simp only [Bool.not_eq_true', List.contains_eq_mem, decide_eq_false_iff_not] at hname ⊢
  exact fun hin ↦ hname (h hin)

theorem length_unentered_cons_lt (hk : ∃ n ∈ c.index.classes, n.inner = k)
    (h : k.fullName ∉ seen) :
    (c.unentered (k.fullName :: seen)).length < (c.unentered seen).length := by
  have heq : c.unentered (k.fullName :: seen) =
      (c.unentered seen).filter fun name ↦ !(name == k.fullName) := by
    rw [unentered, unentered, List.filter_filter]
    refine List.filter_congr fun name _ ↦ ?_
    rw [List.contains_cons, Bool.not_or]
  obtain ⟨n, hn, rfl⟩ := hk
  rw [heq, List.length_filter_lt_length_iff_exists]
  exact ⟨_, List.mem_filter.mpr ⟨List.mem_map_of_mem hn, by simpa using h⟩, by simp⟩

/-- A search has room to enter a class and all listed classes besides. -/
def Room (c : Setting) (fuel : Nat) (k : ClassInfo) (seen : List String) : Prop :=
  0 < fuel ∧ (k.fullName ∉ seen → (c.unentered (k.fullName :: seen)).length + 1 < fuel)

/-- Inside a class a search has room for those that its clauses name. -/
theorem Room.inside {fuel : Nat} (h : c.Room (fuel + 1) k seen) (hk : k.fullName ∉ seen)
    (hext : c.Extends k k') (hs : k.fullName :: seen ⊆ seen') : c.Room fuel k' seen' := by
  have hroom := h.2 hk
  refine ⟨by omega, fun hk' ↦ ?_⟩
  obtain ⟨n, hn, -, hinner⟩ := hext.named
  have hlt := length_unentered_cons_lt ⟨n, hn, hinner⟩ hk'
  have hle := length_unentered_le (c := c) hs
  omega

theorem room_start (c : Setting) (k : ClassInfo) : c.Room (c.index.classes.length + 2) k [] := by
  refine ⟨Nat.succ_pos _, fun _ ↦ ?_⟩
  have hle : (c.unentered [k.fullName]).length ≤ c.index.classes.length :=
    (List.length_filter_le _ _).trans_eq (List.length_map _)
  omega

/-- With enough room the search answers. -/
theorem answers_inheritedFrom {fuel : Nat} (hk : c.Inherits root k) (hroom : c.Room fuel k seen) :
    c.Answers method root seen (k.fullName ∈ ·) (c.inheritedFrom method fuel k seen) := by
  induction fuel generalizing k seen with
  | zero => exact absurd hroom.1 (Nat.lt_irrefl 0)
  | succ fuel ih =>
    unfold inheritedFrom
    split
    · next hin => exact ⟨.refl, List.contains_iff_mem.mp hin⟩
    · next hout =>
      rw [List.contains_iff_mem] at hout
      split
      · next hm => exact ⟨k, hk, hm, rfl⟩
      · next hm =>
        have hsearch : c.Answers method root (k.fullName :: seen) _
            (c.searchTypes k.fullName (c.inheritedFrom method fuel) k.decl.supertypes
              (k.fullName :: seen)) :=
          answers_searchTypes hk (List.Subset.refl _) fun t ht k' hk' s hs ↦
            ih (hk.tail ⟨t, ht, hk'⟩) (hroom.inside hout ⟨t, ht, hk'⟩ hs)
        rcases hx : c.searchTypes k.fullName (c.inheritedFrom method fuel) k.decl.supertypes
            (k.fullName :: seen) with e | ⟨_ | owner, s⟩ <;> rw [hx] at hsearch
        · exact hsearch
        · obtain ⟨hs, hsupers⟩ := hsearch
          exact ⟨hs.enter hk (Bool.eq_false_iff.mpr hm) hsupers, hs.kept List.mem_cons_self⟩
        · exact hsearch

/-! ### How deep the search goes -/

/-- Two searches that agree on the classes that clauses name, as far as they come to them. -/
private theorem searchTypes_eq (className : String) {ts : List TypeRef}
    (hsearch : ∀ t ∈ ts, ∀ k' ∈ c.superclass? t, ∀ s, seen ⊆ s → search k' s = search' k' s ∧
      ∀ s', search k' s = .ok (none, s') → s ⊆ s') :
    c.searchTypes className search ts seen = c.searchTypes className search' ts seen := by
  induction ts generalizing seen with
  | nil => rfl
  | cons t ts ih =>
    unfold searchTypes
    cases hr : c.index.resolveType t.name with
    | error e => rfl
    | ok name =>
      cases hn : c.index.classNamed? name with
      | none => simp only [bind, Except.bind, hn]
      | some n =>
        simp only [bind, Except.bind, hn]
        have hsuper : c.superclass? t = some n.inner := superclass?_eq_some.mpr ⟨name, n, hr, hn, rfl⟩
        obtain ⟨heq, hkept⟩ :=
          hsearch t List.mem_cons_self n.inner hsuper seen (List.Subset.refl _)
        rw [← heq]
        rcases hx : search n.inner seen with e | ⟨_ | owner, s⟩
        · rfl
        · exact ih fun t ht k' hk' s' hs' ↦
            hsearch t (List.mem_cons_of_mem _ ht) k' hk' s' (List.Subset.trans (hkept s hx) hs')
        · rfl

private theorem inheritedFrom_succ {fuel : Nat} (hk : c.Inherits root k)
    (hroom : c.Room fuel k seen) :
    c.inheritedFrom method fuel k seen = c.inheritedFrom method (fuel + 1) k seen := by
  induction fuel generalizing k seen with
  | zero => exact absurd hroom.1 (Nat.lt_irrefl 0)
  | succ fuel ih =>
    rw [inheritedFrom, inheritedFrom]
    split
    · rfl
    · next hout =>
      rw [List.contains_iff_mem] at hout
      split
      · rfl
      · refine searchTypes_eq k.fullName fun t ht k' hk' s hs ↦ ?_
        have hk'' := hk.tail ⟨t, ht, hk'⟩
        have hroom' := hroom.inside hout ⟨t, ht, hk'⟩ hs
        refine ⟨ih hk'' hroom', fun s' hs' ↦ ?_⟩
        have hanswer : c.Answers method root s _ (c.inheritedFrom method fuel k' s) :=
          answers_inheritedFrom hk'' hroom'
        rw [hs'] at hanswer
        exact hanswer.1.kept

/-- A search that may go deeper finds the same: no search goes deeper than there are classes. -/
theorem inheritedFrom_eq_of_le (method : String) (k : ClassInfo) {fuel : Nat}
    (h : c.index.classes.length + 2 ≤ fuel) :
    c.inheritedFrom method fuel k [] =
      c.inheritedFrom method (c.index.classes.length + 2) k [] := by
  induction fuel, h using Nat.le_induction with
  | base => rfl
  | succ fuel hle ih =>
    have hroom : c.Room fuel k [] := by
      obtain ⟨-, hroom⟩ := c.room_start k
      exact ⟨by omega, fun h ↦ (hroom h).trans_le hle⟩
    rw [← inheritedFrom_succ .refl hroom, ih]

/-! ### The class of a call -/

/-- What a search from a class tells of the class. -/
theorem inheritedFrom_cases (hk : c.Known k) (method : String) :
    (∃ seen, c.inheritedFrom method (c.index.classes.length + 2) k [] = .ok (none, seen) ∧
      ¬ c.Settles method k) ∨
    (∃ k' seen, c.inheritedFrom method (c.index.classes.length + 2) k [] =
      .ok (some k'.fullName, seen) ∧ c.Inherits k k' ∧ k'.declares method = true) ∨
    ∃ e, c.inheritedFrom method (c.index.classes.length + 2) k [] = .error e ∧
      ∃ k', c.Inherits k k' ∧ c.Foreign k' := by
  have h : c.Answers method k [] (k.fullName ∈ ·) _ :=
    answers_inheritedFrom .refl (c.room_start k)
  rcases hx : c.inheritedFrom method (c.index.classes.length + 2) k [] with e | ⟨_ | owner, seen⟩ <;>
    rw [hx] at h
  · exact .inr (.inr ⟨e, rfl, h⟩)
  · exact .inl ⟨seen, rfl, h.1.not_settles hk h.2⟩
  · obtain ⟨k', hk', hm, rfl⟩ := h
    exact .inr (.inl ⟨k', seen, rfl, hk', hm⟩)

/-- Classes that settle nothing are passed over. -/
theorem memberOwner_append {inner outer : List ClassInfo} (hknown : ∀ k ∈ inner, c.Known k)
    (h : ∀ k ∈ inner, ¬ c.Settles method k) :
    c.memberOwner method (inner ++ outer) = c.memberOwner method outer := by
  induction inner with
  | nil => rfl
  | cons k inner ih =>
    obtain ⟨hk, hknown⟩ := List.forall_mem_cons.mp hknown
    obtain ⟨hno, h⟩ := List.forall_mem_cons.mp h
    rw [List.cons_append, memberOwner]
    rcases inheritedFrom_cases hk method with ⟨seen, hx, -⟩ | ⟨k', -, -, hk', hm⟩ | ⟨-, -, k', hk', hf⟩
    · rw [hx]
      exact ih hknown h
    · exact absurd ⟨k', hk', .inl hm⟩ hno
    · exact absurd ⟨k', hk', .inr hf⟩ hno

/-- The first class that settles a method gives its owner or an error. -/
theorem memberOwner_cons (hk : c.Known k) (h : c.Settles method k) (outer : List ClassInfo) :
    (∃ k', c.Inherits k k' ∧ k'.declares method = true ∧
      c.memberOwner method (k :: outer) = .ok (some k'.fullName)) ∨
    (∃ k', c.Inherits k k' ∧ c.Foreign k') ∧
      ∃ e, c.memberOwner method (k :: outer) = .error e := by
  rw [memberOwner]
  rcases inheritedFrom_cases hk method with ⟨-, -, hno⟩ | ⟨k', seen, hx, hk', hm⟩ | ⟨e, hx, hf⟩
  · exact absurd h hno
  · exact .inl ⟨k', hk', hm, by rw [hx]; rfl⟩
  · exact .inr ⟨hf, e, by rw [hx]; rfl⟩

end Setting

open Setting

/-- The classes around a call go by their names if all names are apart. -/
theorem CallSite.known {unit : CompilationUnit} {skip : List String}
    (hnames : unit.NamesApart skip) {site : CallSite} (hs : site ∈ CallSite.ofUnit unit skip)
    {k : ClassInfo} (hk : k ∈ site.enclosing.chain) :
    (site.setting (UnitIndex.ofUnit unit)).Known k := by
  intro n hn
  refine hnames n.inner (List.mem_append_left _ (List.mem_map_of_mem ?_)) k
    (List.mem_append_right _ (List.mem_flatMap.mpr ⟨site, hs, hk⟩)) ?_
  · exact List.mem_of_find?_eq_some hn
  · simpa using List.find?_some hn

/-- The class of a call without target is settled by the innermost class around it that declares or
inherits the method or inherits from a class that the file does not declare: it is a class that this
one inherits the method from, unless the call cannot be resolved. If no class settles it, it is the
one class that the static imports give. The search for inherited methods ends by itself: it is no
deeper than there are classes, also where classes inherit from each other in a circle. -/
theorem CallSite.bareOwner_cases {unit : CompilationUnit} {skip : List String}
    (hnames : unit.NamesApart skip) {site : CallSite} (hs : site ∈ CallSite.ofUnit unit skip)
    (method : String) : let c := site.setting (UnitIndex.ofUnit unit)
    (∀ k ∈ site.enclosing.chain, ∀ fuel, c.index.classes.length + 2 ≤ fuel →
      c.inheritedFrom method fuel k [] =
        c.inheritedFrom method (c.index.classes.length + 2) k []) ∧
    (∀ inner k outer, site.enclosing.chain = inner ++ k :: outer →
      (∀ k' ∈ inner, ¬ c.Settles method k') → c.Settles method k →
        (∃ k', c.Inherits k k' ∧ k'.declares method = true ∧ c.bareOwner method = .ok k'.fullName) ∨
        (∃ k', c.Inherits k k' ∧ c.Foreign k') ∧ ∃ e, c.bareOwner method = .error e) ∧
    ((∀ k ∈ site.enclosing.chain, ¬ c.Settles method k) →
      (∀ owner, c.index.ImportsFrom method owner →
        (∀ other, c.index.ImportsFrom method other → other = owner) →
          c.bareOwner method = .ok owner) ∧
      ((∀ owner, ¬ c.index.ImportsFrom method owner) →
        c.bareOwner method = .error (.unknownMethod method)) ∧
      ∀ owner other, c.index.ImportsFrom method owner → c.index.ImportsFrom method other →
        owner ≠ other → ∃ owners, c.bareOwner method = .error (.ambiguousImport method owners)) := by
  intro c
  have hknown : ∀ k ∈ site.enclosing.chain, c.Known k := fun k hk ↦ site.known hnames hs hk
  refine ⟨fun k _ fuel h ↦ inheritedFrom_eq_of_le method k h, ?_, ?_⟩
  · intro inner k outer hchain hinner hk
    have hchain' : c.enclosing.chain = inner ++ k :: outer := hchain
    rw [hchain, List.forall_mem_append, List.forall_mem_cons] at hknown
    rw [bareOwner, hchain', memberOwner_append hknown.1 hinner]
    rcases memberOwner_cons hknown.2.1 hk outer with ⟨k', hk', hm, hx⟩ | ⟨hf, e, hx⟩
    · exact .inl ⟨k', hk', hm, by rw [hx]; rfl⟩
    · exact .inr ⟨hf, e, by rw [hx]; rfl⟩
  · intro hno
    have hnone : c.memberOwner method c.enclosing.chain = .ok none := by
      have happend : c.memberOwner method (c.enclosing.chain ++ []) = c.memberOwner method [] :=
        memberOwner_append hknown hno
      rwa [List.append_nil] at happend
    have hmem : ∀ owner, owner ∈ c.index.staticOwners method ↔ c.index.ImportsFrom method owner :=
      fun owner ↦ UnitIndex.mem_staticOwners
    have hnodup := c.index.nodup_staticOwners method
    rw [bareOwner, hnone]
    simp only [← hmem, bind, Except.bind]
    generalize c.index.staticOwners method = owners at hnodup
    refine ⟨fun owner howner honly ↦ ?_, fun hnone ↦ ?_, fun owner other howner hother hne ↦ ?_⟩
    · obtain rfl : owners = [owner] := by
        rw [← List.perm_singleton, List.perm_ext_iff_of_nodup hnodup (List.pairwise_singleton _ _)]
        exact fun other ↦ ⟨fun h ↦ List.mem_singleton.mpr (honly other h),
          fun h ↦ List.mem_singleton.mp h ▸ howner⟩
      rfl
    · rw [List.eq_nil_iff_forall_not_mem.mpr hnone]
    · rcases owners with _ | ⟨first, _ | ⟨second, rest⟩⟩
      · cases howner
      · rw [List.mem_singleton] at howner hother
        exact absurd (howner.trans hother.symm) hne
      · exact ⟨_, rfl⟩

/-- A text with two classes that inherit from each other, one calling a method of the other. -/
private def circularText : List Char :=
  "class A extends B\x7bvoid f()\x7bm();\x7d\x7dclass B extends A\x7bvoid m()\x7b\x7d\x7d".toList

private theorem circularText_reads :
    (match CompilationUnit.parse circularText with
      | .ok unit => (unit.imports.isEmpty,
          (UnitIndex.ofUnit unit).classes.map fun n ↦ n.inner.fullName,
          (CallSite.ofUnit unit []).map fun s ↦ (s.enclosing.chain.map fun k ↦ k.fullName,
            ((s.setting (UnitIndex.ofUnit unit)).bareOwner "m").toOption))
      | .error _ => (false, [], [])) = (true, ["A", "B"], [(["A"], some "B")]) := by
  have htext : circularText = _ := String.toList_ofList
  rw [htext, CompilationUnit.parse_eq_parseNumbered]
  decide +kernel

/-- Of two classes that inherit from each other, one inherits a method from the other. -/
theorem CallSite.bareOwner_circular : ∃ unit, ∃ site ∈ CallSite.ofUnit unit [],
    CompilationUnit.parse circularText = .ok unit ∧ unit.NamesApart [] ∧
      let c := site.setting (UnitIndex.ofUnit unit)
      ∃ k ∈ site.enclosing.chain, ∃ k', c.Inherits k k' ∧ k'.declares "m" = true ∧
        k'.fullName = "B" ∧ c.bareOwner "m" = .ok "B" := by
  have hreads := circularText_reads
  split at hreads
  · next unit hp =>
    obtain ⟨himports, hreads⟩ := Prod.mk.inj hreads
    obtain ⟨hclasses, hsites⟩ := Prod.mk.inj hreads
    obtain ⟨site, rest, hall, hsite, hrest⟩ := List.map_eq_cons_iff.mp hsites
    obtain rfl := List.map_eq_nil_iff.mp hrest
    obtain ⟨hchain, hok⟩ := Prod.mk.inj hsite
    obtain ⟨k, outer, hk, hname, houter⟩ := List.map_eq_cons_iff.mp hchain
    obtain rfl := List.map_eq_nil_iff.mp houter
    have hs : site ∈ CallSite.ofUnit unit [] := hall ▸ List.mem_singleton_self _
    have hnames : unit.NamesApart [] := by
      refine CompilationUnit.namesApart_of_nodup (by rw [hclasses]; decide) fun other ho j hj ↦ ?_
      rw [hall, List.mem_singleton] at ho
      rw [ho, hk, List.mem_singleton] at hj
      rw [hj, hname]
      decide
    obtain ⟨-, hsettled, hunsettled⟩ := CallSite.bareOwner_cases hnames hs "m"
    have hsettles : (site.setting (UnitIndex.ofUnit unit)).Settles "m" k := by
      by_contra hno
      have hnone := (hunsettled (by rw [hk]; simpa using hno)).2.1 fun owner howner ↦ by
        rcases howner with ⟨i, hi, -⟩ | ⟨-, i, hi, -⟩ <;>
          exact absurd hi (by simp [CallSite.setting, UnitIndex.ofUnit, List.isEmpty_iff.mp himports])
      rw [hnone] at hok
      cases hok
    rcases hsettled [] k [] hk (List.forall_mem_nil _) hsettles with ⟨k', hk', hm, hx⟩ | ⟨-, e, hx⟩
    · rw [hx] at hok
      have hB : k'.fullName = "B" := Option.some.inj hok
      exact ⟨unit, site, hs, hp, hnames, k, by rw [hk]; exact List.mem_singleton_self _, k', hk',
        hm, hB, hB ▸ hx⟩
    · rw [hx] at hok
      cases hok
  · cases hreads

end GuardLint
