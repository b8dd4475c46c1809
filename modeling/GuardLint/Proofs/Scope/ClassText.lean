import GuardLint.Proofs.Scope.ClassName
import GuardLint.Proofs.Scope.NameText
import GuardLint.Proofs.Semantics.Numbering
import GuardLint.Proofs.Syntax.Order

/-!
# The characters in the names of classes

The full names of the classes around a place are made of names in the text, dots, dollar signs and
numbers. So they have no character that sets off a variable from its class, and none is empty.
-/

namespace GuardLint

open Syntax Grammar

/-! ### The names of top level classes -/

/-- The classes in a value of a category have names that are not empty, as far as the category is
that of class declarations or of source files. -/
def Titled : (c : Category) → c.Value → Prop
  | .compilationUnit => fun unit ↦ ∀ d ∈ unit.types, d.name ≠ ""
  | .typeDecl => fun d ↦ ∀ e ∈ d, e.name ≠ ""
  | .classDecl | .interfaceDecl | .enumDecl => fun d ↦ d.name ≠ ""
  | _ => fun _ ↦ True

private theorem titled_value (c : Category) : ∀ p ∈ c.rules, ∀ (l : Location)
    (vs : Values Category.Value p.elements),
      All Titled (fun _ t ↦ t.text ≠ "") p.elements vs → Titled c (p.value l vs) := by
  cases c with
  | compilationUnit =>
    refine List.forall_mem_singleton.mpr fun l vs h d hd ↦ ?_
    obtain ⟨o, ho, hd⟩ := List.mem_filterMap.mp hd
    exact h.2.2.1 o ho d hd
  | typeDecl | classDecl | interfaceDecl | enumDecl =>
    repeat' refine List.forall_mem_cons.mpr ⟨fun l vs h ↦ ?_, ?_⟩
    all_goals
      first
      | exact List.forall_mem_nil _
      -- one declaration handed on, none, or one made with the name that is its third part
      | exact fun _ he ↦ Option.some.inj he ▸ h.1
      | exact fun _ he ↦ nomatch he
      | exact h.2.2.1
  | _ => exact fun _ _ _ _ _ ↦ trivial

theorem titled_of_parse {source : List Char} {unit : CompilationUnit}
    (h : CompilationUnit.parse source = .ok unit) : ∀ d ∈ unit.types, d.name ≠ "" := by
  obtain ⟨tokens, htokens, hr⟩ := CompilationUnit.parse_eq_ok.mp h
  obtain ⟨ps, hs, rfl⟩ := Token.laid_ofSource htokens
  have htitled : Titled .compilationUnit unit := Reads.all (P := Titled)
    (fun c p hp l ↦ titled_value c p hp l) hr (Token.text_ne_of_mem_laid hs _)
  exact htitled

/-! ### The names of types inside a part -/

namespace Syntax.TypeName

/-- The names of types in a part of a tree. -/
def ofPart : Part → List String
  | .expr e => ofExpr e
  | .stmt s => ofStmt s
  | .stmts ss => ofStmts ss
  | .locals d => ofVars d
  | .setups ss => ofSetups ss
  | .items is => ofItems is
  | .body cs ms => ofConstants cs ++ ofMembers ms
  | .constants cs => ofConstants cs
  | .members ms => ofMembers ms

variable {k : Nat} {p : Place} {x : Part} {b : Place × Part}

private theorem ofBlock_eq (b : Block) : ofBlock b = ofStmts b.statements := by
  cases b
  rfl

private theorem ofVars_eq (d : VarDecl) :
    ofVars d = d.type.name :: d.declarators.flatMap fun v ↦ ofExpr? v.init := by
  obtain ⟨_, _, _, _, _⟩ := d
  rw [ofVars, ofDeclarators_eq]

private theorem ofMethod_eq (m : MethodDecl) : ofMethod m =
    m.returnType.toList.map TypeRef.name ++ m.params.flatMap ofParam ++ ofBlock? m.body := by
  cases m
  rfl

theorem ofType_eq (d : TypeDecl) :
    ofType d = d.name :: (ofConstants d.constants ++ ofMembers d.members) := by
  cases d
  rfl

/-- The names of types inside a part are names of types in it. -/
theorem ofPart_inside (h : b ∈ x.inside k p) : ofPart b.2 ⊆ ofPart x := by
  intro n hn
  cases x with
  | expr e =>
    cases e <;>
      simp only [Part.inside, Part.ofExpr, Part.exprs, Part.block, List.mem_append, List.mem_cons,
        List.mem_map, List.not_mem_nil, or_false] at h <;>
      grind [ofPart, ofExpr, ofExpr?_eq, ofExprs_eq, ofExpr_newObject, ofConstants,
        ofBlock_eq]
  | stmt s =>
    cases s <;>
      simp only [Part.inside, Part.ofStmt, Part.exprs, Part.block, List.mem_append, List.mem_cons,
        List.mem_map, List.not_mem_nil, or_false] at h <;>
      grind [ofPart, ofStmt, ofExpr?_eq, ofExprs_eq, ofStmt_ifElse, ofBlock_eq, ofBlock?_eq,
        ofCatches_eq, ofCatch]
  | stmts ss =>
    cases ss with
    | nil => cases h
    | cons s ss =>
      simp only [Part.inside, List.mem_cons, List.not_mem_nil, or_false] at h
      grind [ofPart, ofStmts]
  | locals d =>
    simp only [Part.inside, Part.inits, Part.exprs, List.mem_map, List.mem_filterMap] at h
    grind [ofPart, ofVars_eq, ofExpr?]
  | setups ss =>
    rcases ss with _ | ⟨_ | _, _⟩ <;>
      simp only [Part.inside, List.mem_cons, List.not_mem_nil, or_false] at h <;>
      grind [ofPart, ofSetups]
  | items is =>
    rcases is with _ | ⟨_ | _, _⟩ <;>
      simp only [Part.inside, Part.exprs, List.mem_append, List.mem_cons, List.mem_map,
        List.not_mem_nil, or_false] at h <;>
      grind [ofPart, ofItems, ofExpr?_eq]
  | body cs ms =>
    simp only [Part.inside, List.mem_cons, List.not_mem_nil, or_false] at h
    grind [ofPart]
  | constants cs =>
    cases cs with
    | nil => cases h
    | cons c cs =>
      simp only [Part.inside, Part.exprs, List.mem_append, List.mem_cons, List.mem_map,
        List.not_mem_nil, or_false] at h
      obtain ⟨l, name, as, body⟩ := c
      grind [ofPart, ofConstants, ofConstant_mk, ofExprs_eq]
  | members ms =>
    rcases ms with _ | ⟨_ | _ | _ | _, _⟩ <;>
      simp only [Part.inside, Part.ofMember, Part.inits, Part.exprs, Part.block, List.mem_append,
        List.mem_cons, List.mem_map, List.mem_filterMap, List.not_mem_nil, or_false] at h <;>
      grind [ofPart, ofMembers, ofMember, ofVars_eq, ofExpr?, ofMethod_eq, ofBlock?_eq, ofBlock_eq,
        ofType_eq]

end Syntax.TypeName

/-! ### The names of classes around a place -/

/-- A class has a name that is not empty and has no character that sets off a variable. -/
def ClassInfo.Keyable (k : ClassInfo) : Prop := Unkeyed k.fullName ∧ k.fullName ≠ ""

private theorem keyable_concat {a b c : String} (ha : Unkeyed a) (hb : Unkeyed b) (hne : b ≠ "")
    (hc : Unkeyed c) : Unkeyed (a ++ b ++ c) ∧ a ++ b ++ c ≠ "" := by
  refine ⟨unkeyed_append.mpr ⟨unkeyed_append.mpr ⟨ha, hb⟩, hc⟩, fun h ↦ hne ?_⟩
  have hlist := congrArg String.toList h
  simp only [String.toList_append, String.toList_empty, List.append_eq_nil_iff] at hlist
  exact String.toList_inj.mp hlist.1.2

private theorem keyable_topLevel {package : Option String} {d : TypeDecl}
    (hp : ∀ p ∈ package, Unkeyed p) (hd : Unkeyed d.name) (hne : d.name ≠ "") :
    (UnitIndex.topLevel package d).inner.Keyable := by
  unfold UnitIndex.topLevel
  cases package with
  | none => exact ⟨hd, hne⟩
  | some p =>
    dsimp only
    split
    · exact ⟨hd, hne⟩
    · exact keyable_concat (hp p rfl) (by simp [Unkeyed]) (by decide) hd

namespace Part

variable {source : List Char} {unit : CompilationUnit} {skip : List String} {a : Place × Part}

/-- The classes around a place have such names, and so will those declared in the part there. -/
private theorem Reached.named (hp : CompilationUnit.parse source = .ok unit)
    (h : Reached unit skip a) :
    (∀ n ∈ TypeName.ofPart a.2, Unkeyed n) ∧ ∀ k ∈ a.1.enclosing.chain, k.Keyable := by
  have hunkeyed := CompilationUnit.unkeyed_of_parse hp
  induction h using Reached.induction with
  | start d hd =>
    have hnames : ∀ n ∈ TypeName.ofType d, Unkeyed n := fun n hn ↦ hunkeyed n
      (List.mem_append_right _ (List.mem_flatMap.mpr ⟨d, hd, hn⟩))
    refine ⟨fun n hn ↦ hnames n ?_, fun k hk ↦ ?_⟩
    · rw [TypeName.ofType_eq]
      exact List.mem_cons_of_mem _ hn
    · obtain rfl : k = (UnitIndex.topLevel unit.package d).inner := List.mem_singleton.mp hk
      refine keyable_topLevel (fun p hp ↦ hunkeyed p ?_) (hnames _ (TypeName.name_mem_ofType d))
        (titled_of_parse hp d hd)
      exact List.mem_append_left _ (List.mem_append_left _ (Option.mem_toList.mpr hp))
  | step j p x b _ hb ih =>
    obtain ⟨hnames, hchain⟩ := ih
    refine ⟨fun n hn ↦ hnames n (TypeName.ofPart_inside hb hn), ?_⟩
    have hinner := hchain _ List.mem_cons_self
    rcases inside_cases hb with ⟨hq, -⟩ | ⟨l, ms, t, rfl⟩ | ⟨d, ms, rfl, rfl⟩
    · rwa [hq.enclosing]
    · refine List.forall_mem_cons.mpr ⟨keyable_concat hinner.1 (by simp [Unkeyed]) (by decide) ?_, hchain⟩
      exact (unmarked_digits j).2
    · refine List.forall_mem_cons.mpr ⟨keyable_concat hinner.1 (by simp [Unkeyed]) (by decide) ?_, hchain⟩
      refine hnames _ ?_
      rw [TypeName.ofPart, TypeName.ofMembers, TypeName.ofMember]
      exact List.mem_append_left _ (TypeName.name_mem_ofType d)

mutual

private theorem reached_nested (n : Nest) (d : TypeDecl) (heq : n.inner.decl = d)
    (h : Reached unit skip (.ofClass skip n, .body d.constants d.members)) :
    ∀ m ∈ UnitIndex.nested n d, Reached unit skip
      (.ofClass skip m, .body m.inner.decl.constants m.inner.decl.members) := by
  obtain ⟨_, _, _, members, _, _, _, _⟩ := d
  rw [UnitIndex.nested]
  refine List.forall_mem_cons.mpr ⟨by rw [heq]; exact h, ?_⟩
  refine reached_nestedMembers n members (h.inside (k := 0) ?_)
  exact List.mem_cons_of_mem _ List.mem_cons_self

private theorem reached_nestedMembers (n : Nest) (ms : List Member)
    (h : Reached unit skip (.ofClass skip n, .members ms)) :
    ∀ m ∈ UnitIndex.nestedMembers n ms, Reached unit skip
      (.ofClass skip m, .body m.inner.decl.constants m.inner.decl.members) := by
  match ms with
  | [] =>
    rw [UnitIndex.nestedMembers]
    exact List.forall_mem_nil _
  | m :: ms =>
    have hrest : Reached unit skip (.ofClass skip n, .members ms) :=
      h.inside (k := 0) (List.mem_append_right _ List.mem_cons_self)
    have ih := reached_nestedMembers n ms hrest
    cases m with
    | type d =>
      rw [UnitIndex.nestedMembers]
      refine List.forall_mem_append.mpr ⟨reached_nested (n.member d) d rfl ?_, ih⟩
      exact h.inside (k := 0) (List.mem_append_left _ List.mem_cons_self)
    | field | method | initializer =>
      rw [UnitIndex.nestedMembers]
      · exact ih
      · exact fun _ h ↦ nomatch h

end

end Part

/-- The classes that matter to the calls of a source text have names that keys can be made with. -/
theorem Syntax.CompilationUnit.keyable_of_mem_bodies {source : List Char} {unit : CompilationUnit}
    {skip : List String} (hp : CompilationUnit.parse source = .ok unit) {k : ClassInfo}
    (hk : k ∈ unit.bodies skip) : k.Keyable := by
  rcases List.mem_append.mp hk with hk | hk
  · obtain ⟨n, hn, rfl⟩ := List.mem_map.mp hk
    obtain ⟨d, hd, hn⟩ := List.mem_flatMap.mp hn
    have hreached : Part.Reached unit skip (.ofClass skip n,
        .body n.inner.decl.constants n.inner.decl.members) :=
      Part.reached_nested _ d rfl ⟨d, hd, .refl⟩ n hn
    exact (hreached.named hp).2 n.inner List.mem_cons_self
  · obtain ⟨site, hs, hk⟩ := List.mem_flatMap.mp hk
    obtain ⟨q, hq, hsite⟩ := CallSite.reached hs
    rw [hsite] at hk
    exact (hq.named hp).2 k hk

end GuardLint
