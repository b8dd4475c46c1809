import GuardLint.Proofs.Scope.Passage
import GuardLint.Proofs.Syntax.Extent
import GuardLint.Proofs.Syntax.Numbers
import GuardLint.Semantics.TestCode

/-!
# The class bodies around a call

From the bodies of its outermost classes one way leads down the tree of a source text to each call:
parts side by side take stretches of text one behind the other, so no call is in two of them. The
classes around a call site are those whose bodies are on this way, the innermost first, however deep
it is and whatever lies in between. So a call belongs to test code if one of the bodies around it
declares a test.
-/

namespace GuardLint

open Syntax

namespace Part

/-! ### Parts of parts -/

/-- A block as a part. -/
def ofBlock (b : Block) : Part := .stmts b.statements

/-- The initializers of a declaration. -/
def initializers (d : VarDecl) : List Part := (d.declarators.filterMap Declarator.init).map .expr

/-- The parts right inside an expression, in the order of the text. -/
def exprParts : Expr → List Part
  | .literal .. | .name .. | .this _ | .super _ | .classLiteral .. | .typeMethodRef .. => []
  | .paren _ e | .field _ e _ | .methodRef _ e _ | .instanceOf _ e _ | .unary _ _ e
  | .preStep _ _ e | .postStep _ _ e | .cast _ _ e | .lambda _ _ e => [.expr e]
  | .call _ t _ as => t.toList.map .expr ++ as.map .expr
  | .index _ a b | .binary _ _ a b | .assign _ _ a b => [.expr a, .expr b]
  | .conditional _ c a b => [.expr c, .expr a, .expr b]
  | .newObject _ _ as b => as.map .expr ++ b.toList.map (.body [])
  | .newArray _ _ ds i => ds.map .expr ++ i.toList.map .expr
  | .arrayInit _ es => es.map .expr
  | .lambdaBlock _ _ b => [ofBlock b]

/-- The parts right inside a statement, in the order of the text. -/
def stmtParts : Stmt → List Part
  | .block b => [ofBlock b]
  | .vars d => [.locals d]
  | .expr _ e | .throwStmt _ e => [.expr e]
  | .ifElse _ c s e => [.expr c, .stmt s] ++ e.toList.map .stmt
  | .whileLoop _ c s => [.expr c, .stmt s]
  | .doLoop _ s c => [.stmt s, .expr c]
  | .forLoop _ i c u s => [.setups i] ++ c.toList.map .expr ++ u.map .expr ++ [.stmt s]
  | .forEach _ _ e s => [.expr e, .stmt s]
  | .returnStmt _ e => e.toList.map .expr
  | .breakStmt .. | .continueStmt .. | .empty _ => []
  | .tryStmt _ rs b cs f =>
    [.setups rs, ofBlock b] ++ (cs.map fun c ↦ ofBlock c.body) ++ f.toList.map ofBlock
  | .synchronizedStmt _ e b => [.expr e, ofBlock b]
  | .assertStmt _ c m => [.expr c] ++ m.toList.map .expr
  | .switchStmt _ e is => [.expr e, .items is]
  | .labeled _ _ s => [.stmt s]

/-- The parts right inside a member of a class body, in the order of the text. -/
def memberParts : Member → List Part
  | .field d => initializers d
  | .method m => m.body.toList.map ofBlock
  | .initializer _ b _ => [ofBlock b]
  | .type d => [.body d.constants d.members]

/-- The parts right inside a part, in the order of the text. -/
def parts : Part → List Part
  | .expr e => exprParts e
  | .stmt s => stmtParts s
  | .stmts [] | .setups [] | .items [] | .constants [] | .members [] => []
  | .stmts (s :: ss) => [.stmt s, .stmts ss]
  | .locals d => initializers d
  | .setups (.vars d :: ss) => [.locals d, .setups ss]
  | .setups (.expr e :: ss) => [.expr e, .setups ss]
  | .items (.label e :: is) => e.toList.map .expr ++ [.items is]
  | .items (.stmt s :: is) => [.stmt s, .items is]
  | .body cs ms => [.constants cs, .members ms]
  | .constants (c :: cs) => c.args.map .expr ++ c.body.toList.map (.body []) ++ [.constants cs]
  | .members (m :: ms) => memberParts m ++ [.members ms]

/-- A walk goes through all parts, in their order. -/
theorem map_inside (k : Nat) (p : Place) (x : Part) : (x.inside k p).map Prod.snd = x.parts := by
  have hexprs : ∀ (p : Place) es, (exprs p es).map Prod.snd = es.map Part.expr := by
    simp [exprs]
  have hinits : ∀ (p : Place) d, (inits p d).map Prod.snd = initializers d := by
    simp [inits, exprs, initializers]
  cases x with
  | expr e => cases e <;> simp [inside, ofExpr, parts, exprParts, hexprs, block, ofBlock]
  | stmt s =>
    cases s <;> simp [inside, ofStmt, parts, stmtParts, hexprs, block, ofBlock, Function.comp_def]
  | stmts ss => cases ss <;> rfl
  | locals d => exact hinits p d
  | setups ss => rcases ss with _ | ⟨_ | _, _⟩ <;> rfl
  | items is => rcases is with _ | ⟨_ | _, _⟩ <;> simp [inside, parts, hexprs]
  | body cs ms => rfl
  | constants cs => cases cs <;> simp [inside, parts, hexprs]
  | members ms =>
    rcases ms with _ | ⟨_ | _ | _ | _, _⟩ <;>
      simp [inside, ofMember, parts, memberParts, hinits, block, ofBlock, Function.comp_def]

/-! ### Where parts stand -/

end Part

namespace Syntax.Node

/-- Wherever the first of two lists of expressions and statements is laid out, the second is. -/
def Carries (xs ys : List Node) : Prop := ∀ lo hi, Laid lo hi xs → Laid lo hi ys

variable {lo hi : Nat} {n : Node} {xs ys xs' ys' zs : List Node}

theorem carries_refl (xs : List Node) : Carries xs xs := fun _ _ h ↦ h

theorem carries_of_sublist (h : ys.Sublist xs) : Carries xs ys := fun _ _ hx ↦ hx.sublist h

theorem Carries.trans (h : Carries xs ys) (h' : Carries ys zs) : Carries xs zs :=
  fun lo hi hx ↦ h' lo hi (h lo hi hx)

theorem Carries.append (h : Carries xs ys) (h' : Carries xs' ys') :
    Carries (xs ++ xs') (ys ++ ys') := by
  intro lo hi hx
  obtain ⟨mid, hfront, hback⟩ := hx.exists_mid
  exact (h lo mid hfront).append (h' mid hi hback)

theorem Carries.cons (h : Carries [n] ys) (h' : Carries xs' ys') :
    Carries (n :: xs') (ys ++ ys') := by
  change Carries ([n] ++ xs') (ys ++ ys')
  exact h.append h'

theorem carries_flatMap {α : Type} {f g : α → List Node} {as : List α}
    (h : ∀ a ∈ as, Carries (f a) (g a)) : Carries (as.flatMap f) (as.flatMap g) := by
  induction as with
  | nil => exact carries_refl []
  | cons a as ih =>
    obtain ⟨ha, has⟩ := List.forall_mem_cons.mp h
    rw [List.flatMap_cons, List.flatMap_cons]
    exact ha.append (ih has)

/-- What is directly in an expression or a statement stands where that stands. -/
theorem carries_parts (n : Node) : Carries [n] n.parts := by
  intro lo hi h
  cases h with
  | cons hlo hsolid hgap hparts hrest => exact hparts.wider hlo hrest.le

theorem carries_block (b : Block) : Carries [block b] (b.statements.map .stmt) :=
  carries_parts (block b)

/-- An expression or a statement stands between where it begins and where it ends. -/
theorem Laid.tight (h : Laid lo hi [n]) : Laid n.location.start n.location.stop [n] := by
  cases h with
  | cons _ hsolid hgap hparts _ =>
    exact .cons (Nat.le_refl _) hsolid hgap hparts (.nil (Nat.le_refl _))

theorem carries_ofType (d : TypeDecl) :
    Carries (ofType d) (ofConstants d.constants ++ ofMembers d.members) := by
  obtain ⟨_, _, _, ms, _, as, cs, _⟩ := d
  rw [ofType, List.append_assoc]
  exact carries_of_sublist (List.sublist_append_right _ _)

end Syntax.Node

namespace Part

open Syntax.Node

/-- The outermost expressions and statements of a part. -/
def nodes : Part → List Node
  | .expr e => [.expr e]
  | .stmt s => [.stmt s]
  | .stmts ss => ss.map .stmt
  | .locals d => d.declarators.flatMap ofDeclarator
  | .setups ss => ss.map ofSetup
  | .items is => is.flatMap ofItem
  | .body cs ms => ofConstants cs ++ ofMembers ms
  | .constants cs => ofConstants cs
  | .members ms => ofMembers ms

private theorem nodes_exprs (es : List Expr) :
    (es.map Part.expr).flatMap nodes = es.map Node.expr := by
  rw [List.flatMap_map, List.map_eq_flatMap]
  rfl

private theorem nodes_stmts (ss : List Stmt) :
    (ss.map Part.stmt).flatMap nodes = ss.map Node.stmt := by
  rw [List.flatMap_map, List.map_eq_flatMap]
  rfl

private theorem nodes_initializers (d : VarDecl) :
    (initializers d).flatMap nodes = d.declarators.flatMap ofDeclarator := by
  rw [initializers, nodes_exprs, List.filterMap_eq_flatMap_toList, List.map_flatMap]
  rfl

private theorem nodes_bodies (b : Option (List Member)) :
    (b.toList.map (Part.body [])).flatMap nodes = b.toList.flatMap ofMembers := by
  cases b <;> simp [nodes, ofConstants]

/-- Blocks stand where they stand as statements. -/
private theorem carries_blocks (bs : List Block) :
    Carries (bs.map Node.block) ((bs.map ofBlock).flatMap nodes) := by
  rw [List.map_eq_flatMap, List.flatMap_map]
  exact carries_flatMap fun b _ ↦ carries_block b

/-- The parts of an expression stand where it stands: what is left out are annotations of the
parameters of a lambda expression. -/
private theorem carries_expr (e : Expr) : Carries [.expr e] ((exprParts e).flatMap nodes) := by
  refine (carries_parts (.expr e)).trans ?_
  cases e with
  | lambda l ps e => exact carries_of_sublist (List.sublist_append_right _ _)
  | lambdaBlock l ps b =>
    rw [exprParts, List.flatMap_singleton]
    exact (carries_of_sublist (List.sublist_append_right _ _)).trans (carries_block b)
  | _ =>
    simp [exprParts, nodes_exprs, nodes_bodies, Node.parts, Node.ofExpr, nodes, carries_refl]

/-- The parts of a statement stand where it stands: blocks in it are opened. -/
private theorem carries_stmt (s : Stmt) : Carries [.stmt s] ((stmtParts s).flatMap nodes) := by
  refine (carries_parts (.stmt s)).trans ?_
  cases s with
  | block b =>
    rw [stmtParts, List.flatMap_singleton]
    exact carries_refl _
  | vars d =>
    rw [stmtParts, List.flatMap_singleton]
    exact carries_of_sublist (List.sublist_append_right _ _)
  | forEach l v e s => exact carries_of_sublist (List.sublist_append_right _ _)
  | tryStmt l rs b cs f =>
    have hcatches : Carries (cs.map ofCatch)
        ((cs.map fun c ↦ Part.ofBlock c.body).flatMap nodes) := by
      have h := carries_blocks (cs.map CatchClause.body)
      rwa [List.map_map, List.map_map] at h
    rw [stmtParts, List.flatMap_append, List.flatMap_append, List.append_assoc]
    simp only [List.flatMap_cons, List.flatMap_nil, List.append_nil, List.append_assoc]
    exact (carries_refl _).append
      ((carries_block b).cons (hcatches.append (carries_blocks f.toList)))
  | synchronizedStmt l e b =>
    exact (carries_refl [.expr e]).append ((carries_block b).cons (carries_refl []))
  | switchStmt l e is =>
    rw [stmtParts, List.flatMap_cons, List.flatMap_singleton]
    exact carries_refl _
  | _ =>
    simp [stmtParts, nodes_exprs, nodes_stmts, Node.parts, Node.ofStmt, nodes, carries_refl]

/-- The parts of a member stand where it stands: annotations are left out. -/
private theorem carries_member (m : Member) :
    Carries (Node.ofMember m) ((memberParts m).flatMap nodes) := by
  cases m with
  | field d =>
    rw [memberParts, nodes_initializers, Node.ofMember]
    exact carries_of_sublist (List.sublist_append_right _ _)
  | method m =>
    rw [memberParts, Node.ofMember]
    exact (carries_of_sublist (List.sublist_append_right _ _)).trans (carries_blocks m.body.toList)
  | initializer l b s =>
    rw [memberParts, Node.ofMember]
    exact carries_blocks [b]
  | type d =>
    rw [memberParts, Node.ofMember, List.flatMap_singleton]
    exact carries_ofType d

/-- The parts of a part stand where it stands. -/
theorem carries_inside (x : Part) : Carries x.nodes (x.parts.flatMap nodes) := by
  cases x with
  | expr e => exact carries_expr e
  | stmt s => exact carries_stmt s
  | stmts ss =>
    cases ss with
    | nil => exact carries_refl []
    | cons s ss => exact carries_of_sublist (by simp [parts, nodes])
  | locals d =>
    rw [parts, nodes_initializers]
    exact carries_refl _
  | setups ss =>
    rcases ss with _ | ⟨d | e, ss⟩
    · exact carries_refl []
    · have hvars := (carries_parts (.stmt (.vars d))).trans
        (carries_of_sublist (List.sublist_append_right (ofAnnotations d.annotations) _))
      simpa [parts, nodes, ofSetup] using hvars.cons (carries_refl (ss.map ofSetup))
    · simpa [parts, nodes, ofSetup] using carries_refl _
  | items is =>
    rcases is with _ | ⟨e | s, is⟩
    · exact carries_refl []
    · simpa [parts, nodes, nodes_exprs, ofItem] using carries_refl _
    · simpa [parts, nodes, ofItem] using carries_refl _
  | body cs ms => simpa [parts, nodes] using carries_refl _
  | constants cs =>
    cases cs with
    | nil => exact carries_refl []
    | cons c cs =>
      obtain ⟨l, n, as, b⟩ := c
      simpa [parts, nodes, nodes_exprs, nodes_bodies, ofConstants, ofConstant_mk] using
        carries_refl _
  | members ms =>
    cases ms with
    | nil => exact carries_refl []
    | cons m ms =>
      rw [parts, List.flatMap_append, List.flatMap_singleton, nodes, ofMembers]
      exact (carries_member m).append (carries_refl _)

/-! ### The way to a call -/

/-- The parts on the way from a part down to another, both included. -/
inductive Way (z : Part) : Part → List Part → Prop where
  | here : Way z z [z]
  | down {x y : Part} {xs : List Part} : y ∈ x.parts → Way z y xs → Way z x (x :: xs)

variable {x y y' z : Part} {xs ys : List Part} {e : Expr} {c : Call} {lo hi : Nat}

theorem Way.concat (h : Way y x xs) (hz : z ∈ y.parts) : Way z x (xs ++ [z]) := by
  induction h with
  | here => exact .down hz .here
  | down hy _ ih => exact .down hy ih

private theorem laid_of_mem (hl : Laid lo hi (ys.flatMap nodes)) (hy : y ∈ ys) :
    Laid lo hi y.nodes := by
  obtain ⟨front, back, rfl⟩ := List.append_of_mem hy
  rw [List.flatMap_append, List.flatMap_cons] at hl
  exact hl.sublist ((List.sublist_append_left _ _).trans (List.sublist_append_right _ _))

/-- An expression stands where the parts on the way to it stand. -/
private theorem Way.within (h : Way (.expr e) x xs) (hl : Laid lo hi x.nodes) :
    lo ≤ e.location.start ∧ e.location.start < e.location.stop ∧ e.location.stop ≤ hi := by
  induction h with
  | here =>
    cases hl with
    | cons hlo hsolid _ _ hrest => exact ⟨hlo, hsolid, hrest.le⟩
  | down hy _ ih => exact ih (laid_of_mem (carries_inside _ lo hi hl) hy)

/-- No expression is in two parts that stand side by side. -/
private theorem eq_of_ways (hl : Laid lo hi (ys.flatMap nodes)) (hy : y ∈ ys) (hy' : y' ∈ ys)
    (h : Way (.expr e) y xs) {xs' : List Part} (h' : Way (.expr e) y' xs') : y = y' := by
  induction ys generalizing lo with
  | nil => cases hy
  | cons x ys ih =>
    rw [List.flatMap_cons] at hl
    obtain ⟨mid, hx, hys⟩ := hl.exists_mid
    rcases List.mem_cons.mp hy with rfl | hrest
    · rcases List.mem_cons.mp hy' with rfl | hrest'
      · rfl
      · have hfront := h.within hx
        have hback := h'.within (laid_of_mem hys hrest')
        omega
    · rcases List.mem_cons.mp hy' with rfl | hrest'
      · have hfront := h'.within hx
        have hback := h.within (laid_of_mem hys hrest)
        omega
      · exact ih hys hrest hrest'

/-- No call is inside itself: what is before its dot ends before it does, and its arguments begin
after it does. -/
private theorem not_way_inside (hl : Laid lo hi (nodes (.expr c.expr)))
    (hy : y ∈ parts (.expr c.expr)) : ¬ Way (.expr c.expr) y xs := by
  intro h
  have hinside : ∀ e : Expr, y = .expr e →
      e.location.start ≤ c.location.start ∧ c.location.stop ≤ e.location.stop := by
    rintro e rfl
    have hwithin := h.within (laid_of_mem (carries_inside _ lo hi hl) hy).tight
    exact ⟨hwithin.1, hwithin.2.2⟩
  obtain ⟨htarget, hargs⟩ : Gapped (.expr c.expr) := by
    cases hl with
    | cons _ _ hgap _ _ => exact hgap
  rcases List.mem_append.mp hy with hy | hy
  · obtain ⟨e, he, rfl⟩ := List.mem_map.mp hy
    have hout := htarget e (Option.mem_toList.mp he)
    have hin := hinside e rfl
    omega
  · obtain ⟨e, he, rfl⟩ := List.mem_map.mp hy
    have hout := hargs e he
    have hin := hinside e rfl
    omega

/-- One way at most leads from a part to a call. -/
theorem Way.unique (hl : Laid lo hi x.nodes) (h : Way (.expr c.expr) x xs)
    (h' : Way (.expr c.expr) x ys) : xs = ys := by
  induction h generalizing ys with
  | here =>
    cases h' with
    | here => rfl
    | down hy hrest => exact absurd hrest (not_way_inside hl hy)
  | down hy hrest ih =>
    cases h' with
    | here => exact absurd hrest (not_way_inside hl hy)
    | down hy' hrest' =>
      have hparts := carries_inside _ lo hi hl
      obtain rfl := eq_of_ways hparts hy hy' hrest hrest'
      rw [ih (laid_of_mem hparts hy) hrest']

end Part

/-- The parts on a way from the body of a class that no class surrounds down to a part. -/
def Syntax.CompilationUnit.Way (unit : CompilationUnit) (z : Part) (xs : List Part) : Prop :=
  ∃ d ∈ unit.types, Part.Way z (.body d.constants d.members) xs

variable {source : List Char} {unit : CompilationUnit} {skip : List String} {site : CallSite}

/-- One way at most leads to a call of a source text. -/
theorem Syntax.CompilationUnit.Way.unique (hp : CompilationUnit.parse source = .ok unit) {c : Call}
    {xs ys : List Part} (h : unit.Way (.expr c.expr) xs) (h' : unit.Way (.expr c.expr) ys) :
    xs = ys := by
  obtain ⟨d, hd, hway⟩ := h
  obtain ⟨d', hd', hway'⟩ := h'
  have hroots : Node.Laid 0 source.length
      ((unit.types.map fun d ↦ Part.body d.constants d.members).flatMap Part.nodes) := by
    rw [List.flatMap_map]
    exact Node.carries_flatMap (fun d _ ↦ Node.carries_ofType d) 0 source.length
      (CompilationUnit.nodes_laid hp)
  have hbody := List.mem_map_of_mem (f := fun d ↦ Part.body d.constants d.members) hd
  have hbody' := List.mem_map_of_mem (f := fun d ↦ Part.body d.constants d.members) hd'
  have heq := Part.eq_of_ways hroots hbody hbody' hway hway'
  rw [← heq] at hway'
  exact hway.unique (Part.laid_of_mem hroots hbody) hway'

/-- The body of a class as a part. -/
def ClassInfo.body (c : ClassInfo) : Part := .body c.decl.constants c.decl.members

/-- A walk has come to its place by some way, and the classes around the place are those whose
bodies are on it. -/
theorem Part.Reached.exists_way {a : Place × Part} (h : Part.Reached unit skip a) :
    ∃ xs, unit.Way a.2 xs ∧
      a.1.enclosing.chain.map ClassInfo.body = (xs.filter Part.isBody).reverse := by
  induction h using Part.Reached.induction with
  | start d hd => exact ⟨_, ⟨d, hd, .here⟩, rfl⟩
  | step k p x b _ hb ih =>
    obtain ⟨xs, ⟨d, hd, hway⟩, hchain⟩ := ih
    have hmem : b.2 ∈ x.parts := by
      rw [← Part.map_inside k p x]
      exact List.mem_map_of_mem hb
    refine ⟨xs ++ [b.2], ⟨d, hd, hway.concat hmem⟩, ?_⟩
    rw [List.filter_append, List.reverse_append, ← hchain]
    rcases Part.inside_cases hb with ⟨hmoves, hbody, -⟩ | ⟨l, ms, t, rfl⟩ | ⟨d, ms, rfl, rfl⟩
    · rw [hmoves.enclosing, List.filter_singleton, hbody]
      rfl
    · rfl
    · rfl

/-- A way leads to every call that is recorded, and the classes around it are those whose bodies are
on this way. -/
theorem CallSite.exists_way (hs : site ∈ CallSite.ofUnit unit skip) :
    ∃ xs, unit.Way (.expr site.call.expr) xs ∧
      site.enclosing.chain.map ClassInfo.body = (xs.filter Part.isBody).reverse := by
  obtain ⟨q, hq, hsite⟩ := CallSite.reached hs
  rw [hsite]
  exact hq.exists_way

theorem TestCode.declaresTest_iff {c : ClassInfo} : declaresTest c = true ↔
    ∃ m, .method m ∈ c.decl.members ∧ ∃ a ∈ m.annotations, a.simpleName ∈ annotationNames := by
  rw [declaresTest, List.any_eq_true]
  constructor
  · rintro ⟨member, hmem, htest⟩
    cases member with
    | method m =>
      obtain ⟨a, ha, hname⟩ := List.any_eq_true.mp htest
      exact ⟨m, hmem, a, ha, List.contains_iff_mem.mp hname⟩
    | _ => cases htest
  · rintro ⟨m, hmem, a, ha, hname⟩
    exact ⟨.method m, hmem, List.any_eq_true.mpr ⟨a, ha, List.contains_iff_mem.mpr hname⟩⟩

/-- One way leads down the source text to a call site, and the classes around the site are those
whose bodies are on this way, the innermost first. The call belongs to test code exactly if the
whole run does, the file fits a pattern for tests, or one of these bodies declares a method, or a
constructor, with the annotation of a test. -/
theorem CallSite.isTestCode_iff (hp : CompilationUnit.parse source = .ok unit)
    (hs : site ∈ CallSite.ofUnit unit skip) (path : Option String) (globs : List String)
    (testOnly : Bool) :
    ∃ xs, unit.Way (.expr site.call.expr) xs ∧
      (∀ ys, unit.Way (.expr site.call.expr) ys → ys = xs) ∧
      site.enclosing.chain.map ClassInfo.body = (xs.filter Part.isBody).reverse ∧
      (site.isTestCode path globs testOnly = true ↔
        testOnly = true ∨ Glob.matchesAny path globs = true ∨
          ∃ cs ms, .body cs ms ∈ xs ∧ ∃ m, .method m ∈ ms ∧
            ∃ a ∈ m.annotations, a.simpleName ∈ TestCode.annotationNames) := by
  obtain ⟨xs, hway, hchain⟩ := CallSite.exists_way hs
  have hbody : ∀ cs ms,
      .body cs ms ∈ site.enclosing.chain.map ClassInfo.body ↔ .body cs ms ∈ xs := by
    intro cs ms
    rw [hchain, List.mem_reverse, List.mem_filter]
    exact and_iff_left rfl
  refine ⟨xs, hway, fun ys hys ↦ hys.unique hp hway, hchain, ?_⟩
  rw [CallSite.isTestCode, Bool.or_eq_true, Bool.or_eq_true, or_assoc, List.any_eq_true]
  refine or_congr_right (or_congr_right ⟨?_, ?_⟩)
  · rintro ⟨k, hk, htest⟩
    exact ⟨_, _, (hbody _ _).mp (List.mem_map_of_mem hk), TestCode.declaresTest_iff.mp htest⟩
  · rintro ⟨cs, ms, hmem, htest⟩
    obtain ⟨k, hk, heq⟩ := List.mem_map.mp ((hbody cs ms).mpr hmem)
    cases heq
    exact ⟨k, hk, TestCode.declaresTest_iff.mpr htest⟩

/-- A text with a call in a lambda expression, in a field of an anonymous class in a field of a
class with a test. -/
private def testedText : List Char :=
  "class A\x7b@Test void t();B b=new B()\x7bC c=()->g();\x7d;\x7d".toList

private theorem testedText_site :
    (match CompilationUnit.parse testedText with
      | .ok unit =>
        match CallSite.ofUnit unit [] with
        | [g] => g.enclosing.chain.length == 2 && g.isTestCode none [] false
        | _ => false
      | .error _ => false) = true := by
  have htext : testedText = _ := String.toList_ofList
  rw [htext, CompilationUnit.parse_eq_parseNumbered]
  decide +kernel

/-- The test of a class makes test code of what is in an anonymous class in it. -/
theorem CallSite.isTestCode_testedText : ∃ unit, ∃ site ∈ CallSite.ofUnit unit [],
    CompilationUnit.parse testedText = .ok unit ∧ site.enclosing.chain.length = 2 ∧
    ∃ xs, unit.Way (.expr site.call.expr) xs ∧
      (∀ ys, unit.Way (.expr site.call.expr) ys → ys = xs) ∧
      site.enclosing.chain.map ClassInfo.body = (xs.filter Part.isBody).reverse ∧
      ∃ cs ms, .body cs ms ∈ xs ∧ ∃ m, .method m ∈ ms ∧
        ∃ a ∈ m.annotations, a.simpleName ∈ TestCode.annotationNames := by
  have h := testedText_site
  split at h
  · next unit hp =>
    split at h
    · next g hsites =>
      obtain ⟨hlength, htest⟩ := Bool.and_eq_true_iff.mp h
      have hg : g ∈ CallSite.ofUnit unit [] := by simp [hsites]
      obtain ⟨xs, hway, hunique, hchain, hiff⟩ := CallSite.isTestCode_iff hp hg none [] false
      refine ⟨unit, g, hg, hp, beq_iff_eq.mp hlength, xs, hway, hunique, hchain, ?_⟩
      rcases hiff.mp htest with hall | hpath | hbody
      · cases hall
      · cases hpath
      · exact hbody
    · cases h
  · cases h

end GuardLint
