import GuardLint.Proofs.Scope.ClassText
import GuardLint.Proofs.Scope.Origin
import GuardLint.Proofs.Semantics.Constancy
import GuardLint.Proofs.Syntax.Numbers

/-!
# The constant expressions of a setting

The constant expressions are the least set of expressions with the literals other than `null` in it
that has what parentheses, operators and casts make of its members, and the names and field accesses
that denote a constant variable: a parameter that only takes constants, or a final variable of a
primitive type or `String` whose initializer is a member.

To find out whether an expression is constant, each variable is remembered while its initializer is
looked at. This computes the least set: variables that lead to themselves are not constant anyway,
and no constant is mistaken for another one as long as the names of classes are apart.
-/

namespace GuardLint

open Syntax

namespace Setting

mutual

/-- The constant expressions of a setting. -/
inductive ConstantExpr (c : Setting) : Expr → Prop where
  | literal (l : Location) {k : LiteralKind} (text : String) : k ≠ .null →
      ConstantExpr c (.literal l k text)
  | paren (l : Location) {e : Expr} : ConstantExpr c e → ConstantExpr c (.paren l e)
  | cast (l : Location) {t : TypeRef} {type : String} {e : Expr} : c.typeOfRef t = .ok type →
      Constant.isConstantType type = true → ConstantExpr c e → ConstantExpr c (.cast l t e)
  | unary (l : Location) (op : UnaryOp) {e : Expr} : ConstantExpr c e →
      ConstantExpr c (.unary l op e)
  | binary (l : Location) (op : BinaryOp) {a b : Expr} : ConstantExpr c a → ConstantExpr c b →
      ConstantExpr c (.binary l op a b)
  | conditional (l : Location) {q a b : Expr} : ConstantExpr c q → ConstantExpr c a →
      ConstantExpr c b → ConstantExpr c (.conditional l q a b)
  | name (l : Location) {n : String} {v : Variable} : c.scope.lookup n = some v →
      ConstantVar c v → ConstantExpr c (.name l n)
  | field (l : Location) {e : Expr} {n : String} {v : Variable} : c.typeField? e n = some v →
      ConstantVar c v → ConstantExpr c (.field l e n)

/-- The constant variables of a setting. -/
inductive ConstantVar (c : Setting) : Variable → Prop where
  | param {v : Variable} : v.kind = .param →
      v.annotations.any Constant.annotationNames.contains = true → ConstantVar c v
  | final {v : Variable} {e : Expr} {type : String} : v.kind ≠ .param → v.isFinal = true →
      v.init = some e → c.variableType v = .ok type → Constant.isConstantType type = true →
      ConstantExpr c e → ConstantVar c v

end

/-- The initializer of a variable that is no parameter names another variable where it may depend on
it whether the first is constant. -/
def Uses (c : Setting) (v w : Variable) : Prop :=
  v.kind ≠ .param ∧ ∃ e ∈ v.init, w ∈ c.constantNamed e

/-- Of the variables that expressions name where it may depend on them whether they are constant,
parameters aside, no two have the same key. -/
def Keyed (c : Setting) : Prop :=
  ∀ ⦃e e' v w⦄, v ∈ c.constantNamed e → w ∈ c.constantNamed e' → v.kind ≠ .param →
    w.kind ≠ .param → Constant.key v = Constant.key w → v = w

variable {c : Setting} {v w : Variable}

mutual

/-- The variables that a constant expression names are constant, and from none of them variables use
each other without end. -/
private theorem ConstantExpr.named_acc {e : Expr} : c.ConstantExpr e →
    ∀ w ∈ c.constantNamed e, c.ConstantVar w ∧ Acc (fun w v ↦ c.Uses v w) w
  | .literal .. => by
    unfold constantNamed
    exact List.forall_mem_nil _
  | .paren _ h | .cast _ _ _ h | .unary _ _ h => by
    unfold constantNamed
    exact h.named_acc
  | .binary _ _ ha hb => by
    unfold constantNamed
    exact List.forall_mem_append.mpr ⟨ha.named_acc, hb.named_acc⟩
  | .conditional _ hq ha hb => by
    unfold constantNamed
    exact List.forall_mem_append.mpr
      ⟨List.forall_mem_append.mpr ⟨hq.named_acc, ha.named_acc⟩, hb.named_acc⟩
  | .name _ hl hv => by
    unfold constantNamed
    rw [hl]
    exact List.forall_mem_singleton.mpr ⟨hv, hv.acc⟩
  | .field _ hf hv => by
    unfold constantNamed
    rw [hf]
    exact List.forall_mem_singleton.mpr ⟨hv, hv.acc⟩

private theorem ConstantVar.acc {v : Variable} :
    c.ConstantVar v → Acc (fun w v ↦ c.Uses v w) v
  | .param hkind _ => .intro _ fun _ h ↦ absurd hkind h.1
  | .final _ _ hinit _ _ he => .intro _ fun w ⟨_, e, hinit', hw⟩ ↦ by
    obtain rfl := Option.some.inj (hinit.symm.trans hinit')
    exact (he.named_acc w hw).2

end

theorem ConstantExpr.named {e : Expr} (h : c.ConstantExpr e) (hw : w ∈ c.constantNamed e) :
    c.ConstantVar w := (h.named_acc w hw).1

/-- Variables that lead to themselves are not constant. -/
theorem ConstantVar.not_circular (h : c.ConstantVar v) : ¬ Relation.TransGen c.Uses v v := by
  have hacc := h.acc
  clear h
  induction hacc with
  | intro v _ ih =>
    intro hcircle
    obtain ⟨w, hvw, hwv⟩ := Relation.TransGen.head'_iff.mp hcircle
    exact ih w hvw (Relation.TransGen.tail' hwv hvw)

end Setting

namespace Constant

variable {c : Setting} {ofVar : Variable → Except Failure Bool} {v : Variable}

private theorem bind_eq_ok {α β : Type} {x : Except Failure α} {k : α → Except Failure β} {b : β} :
    x >>= k = .ok b ↔ ∃ a, x = .ok a ∧ k a = .ok b := by
  cases x <;> simp [bind, Except.bind]

/-! ### What is found constant is constant -/

/-- An expression that is found constant is, if the variables found constant are. -/
theorem constantExpr_of_isConstantWith (h : ∀ v, ofVar v = .ok true → c.ConstantVar v) :
    (e : Expr) → isConstantWith c ofVar e = .ok true → c.ConstantExpr e
  | .literal l k text, he => by
    unfold isConstantWith at he
    exact .literal l text (by simpa using he)
  | .paren l e, he => by
    unfold isConstantWith at he
    exact .paren l (constantExpr_of_isConstantWith h e he)
  | .unary l op e, he => by
    unfold isConstantWith at he
    exact .unary l op (constantExpr_of_isConstantWith h e he)
  | .cast l t e, he => by
    unfold isConstantWith at he
    obtain ⟨type, ht, he⟩ := bind_eq_ok.mp he
    split at he
    · next htype =>
      exact .cast l (Failure.lift_eq_ok.mp ht) htype (constantExpr_of_isConstantWith h e he)
    · cases he
  | .binary l op a b, he => by
    unfold isConstantWith at he
    obtain ⟨x, ha, he⟩ := bind_eq_ok.mp he
    split at he
    · next hx =>
      rw [hx] at ha
      exact .binary l op (constantExpr_of_isConstantWith h a ha)
        (constantExpr_of_isConstantWith h b he)
    · cases he
  | .conditional l q a b, he => by
    unfold isConstantWith at he
    obtain ⟨x, hq, he⟩ := bind_eq_ok.mp he
    split at he
    · next hx =>
      obtain ⟨y, ha, he⟩ := bind_eq_ok.mp he
      split at he
      · next hy =>
        rw [hx] at hq
        rw [hy] at ha
        exact .conditional l (constantExpr_of_isConstantWith h q hq)
          (constantExpr_of_isConstantWith h a ha) (constantExpr_of_isConstantWith h b he)
      · cases he
    · cases he
  | .name l n, he => by
    unfold isConstantWith at he
    split at he
    · next v hv => exact .name l hv (h v he)
    · cases he
  | .field l e n, he => by
    unfold isConstantWith at he
    obtain ⟨type?, ht, he⟩ := bind_eq_ok.mp he
    split at he
    · cases he
    · next type =>
      obtain ⟨fullName, hr, he⟩ := bind_eq_ok.mp he
      dsimp only at he
      split at he
      · next v hv =>
        refine .field l ?_ (h v he)
        simp only [Setting.typeField?, Failure.lift_eq_ok.mp ht, Failure.lift_eq_ok.mp hr, hv]
      · cases he
  | .this _, he | .super _, he | .call .., he | .index .., he | .newObject .., he
  | .newArray .., he | .arrayInit .., he | .classLiteral .., he | .methodRef .., he
  | .typeMethodRef .., he | .instanceOf .., he | .preStep .., he | .postStep .., he
  | .assign .., he | .lambda .., he | .lambdaBlock .., he => by
    unfold isConstantWith at he
    cases he

/-- A variable that is found constant is. -/
theorem constantVar_of_isConstantVar {fuel : Nat} {seen : List String}
    (h : isConstantVar c fuel seen v = .ok true) : c.ConstantVar v := by
  induction fuel generalizing seen v with
  | zero => cases h
  | succ fuel ih =>
    unfold isConstantVar at h
    split at h
    · next hkind => exact .param hkind (Except.ok.inj h)
    · next hkind =>
      split at h
      · cases h
      · next e hinit =>
        split at h
        · cases h
        · next hfinal =>
          rw [Bool.or_eq_true, not_or, Bool.not_eq_true', Bool.not_eq_false] at hfinal
          split at h
          · cases h
          · cases h
          · next type ht =>
            split at h
            · next htype =>
              exact .final hkind hfinal.1 hinit ht htype
                (constantExpr_of_isConstantWith (fun w hw ↦ ih hw) e h)
            · cases h

/-! ### What is constant is found constant -/

/-- A constant expression is found constant, if the variables that it names are. -/
theorem isConstantWith_of_constantExpr {e : Expr} (h : c.ConstantExpr e)
    (hvars : ∀ w ∈ c.constantNamed e, ofVar w = .ok true) :
    isConstantWith c ofVar e = .ok true := by
  cases h with
  | literal l text hk =>
    unfold isConstantWith
    simpa using hk
  | paren _ h =>
    unfold isConstantWith
    exact isConstantWith_of_constantExpr h hvars
  | unary _ _ h =>
    unfold isConstantWith
    exact isConstantWith_of_constantExpr h hvars
  | cast _ ht htype h =>
    unfold isConstantWith
    refine bind_eq_ok.mpr ⟨_, Failure.lift_eq_ok.mpr ht, ?_⟩
    rw [if_pos htype]
    exact isConstantWith_of_constantExpr h hvars
  | binary _ _ ha hb =>
    unfold Setting.constantNamed at hvars
    obtain ⟨hva, hvb⟩ := List.forall_mem_append.mp hvars
    unfold isConstantWith
    exact bind_eq_ok.mpr ⟨_, isConstantWith_of_constantExpr ha hva,
      isConstantWith_of_constantExpr hb hvb⟩
  | conditional _ hq ha hb =>
    unfold Setting.constantNamed at hvars
    obtain ⟨hvars, hvb⟩ := List.forall_mem_append.mp hvars
    obtain ⟨hvq, hva⟩ := List.forall_mem_append.mp hvars
    unfold isConstantWith
    exact bind_eq_ok.mpr ⟨_, isConstantWith_of_constantExpr hq hvq,
      bind_eq_ok.mpr ⟨_, isConstantWith_of_constantExpr ha hva,
        isConstantWith_of_constantExpr hb hvb⟩⟩
  | name _ hl _ =>
    unfold isConstantWith
    rw [hl]
    exact hvars _ (Option.mem_toList.mpr hl)
  | field l hf _ =>
    rw [isConstantWith_field l hf]
    exact hvars _ (Option.mem_toList.mpr hf)

/-- A constant variable is found constant while variables that lead to it are being looked at, if the
variables named have keys of their own. -/
theorem isConstantVar_of_constantVar (hkeys : c.Keyed) {fuel : Nat} {seen : List String}
    (h : c.ConstantVar v) {e : Expr} (hv : v ∈ c.constantNamed e)
    (hroom : (unseen c seen).length < fuel)
    (hseen : ∀ s ∈ seen, ∃ u, u.kind ≠ .param ∧ (∃ e, u ∈ c.constantNamed e) ∧ key u = s ∧
      Relation.TransGen c.Uses u v) : isConstantVar c fuel seen v = .ok true := by
  induction fuel generalizing seen v e with
  | zero => exact absurd hroom (Nat.not_lt_zero _)
  | succ fuel ih =>
    have hcircle := h.not_circular
    have hmem := Setting.constantNamed_subset e hv
    cases h with
    | param hkind hannotated => simp only [isConstantVar, hkind, if_true, hannotated]
    | @final _ init type hkind hfinal hinit ht htype he =>
      have hunseen : key v ∉ seen := fun hin ↦ by
        obtain ⟨u, hu, ⟨e', hu'⟩, hkey, huses⟩ := hseen _ hin
        obtain rfl := hkeys hu' hv hu hkind hkey
        exact hcircle huses
      have hvars : ∀ w ∈ c.constantNamed init,
          isConstantVar c fuel (key v :: seen) w = .ok true := by
        intro w hw
        have huse : c.Uses v w := ⟨hkind, init, hinit, hw⟩
        have hlt := length_unseen_cons_lt hmem hunseen
        refine ih (he.named hw) hw (by omega) (List.forall_mem_cons.mpr ⟨?_, fun s hs ↦ ?_⟩)
        · exact ⟨v, hkind, ⟨e, hv⟩, rfl, .single huse⟩
        · obtain ⟨u, hu, hu', hkey, huses⟩ := hseen s hs
          exact ⟨u, hu, hu', hkey, huses.tail huse⟩
      simp only [isConstantVar, hkind, if_false, hinit, hfinal, List.contains_iff_mem.not.mpr hunseen,
        ht, htype, if_true, Bool.not_true, Bool.or_self]
      rw [if_neg Bool.false_ne_true]
      exact isConstantWith_of_constantExpr he hvars

end Constant

namespace Setting

variable {c : Setting}

/-- An expression is found constant exactly if it is, if the variables named have keys of their
own. -/
theorem isConstant_iff (hkeys : c.Keyed) (e : Expr) :
    c.isConstant e = .ok true ↔ c.ConstantExpr e := by
  refine ⟨Constant.constantExpr_of_isConstantWith
    (fun v hv ↦ Constant.constantVar_of_isConstantVar hv) e, fun h ↦ ?_⟩
  refine Constant.isConstantWith_of_constantExpr h fun w hw ↦ ?_
  refine Constant.isConstantVar_of_constantVar hkeys (h.named hw) hw ?_ (List.forall_mem_nil _)
  refine Nat.lt_succ_of_le ((List.length_filter_le ..).trans_eq (length_nameable c))

end Setting

namespace CallSite

variable {source : List Char} {unit : CompilationUnit} {skip : List String} {site : CallSite}

/-- A variable named at a call, parameters aside, is a field of one of the classes that matter, or it
belongs to no class and its name denotes it. -/
private theorem field_or_lookup (hs : site ∈ CallSite.ofUnit unit skip) {e : Expr} {v : Variable}
    (hv : v ∈ (site.setting (.ofUnit unit)).constantNamed e) (hkind : v.kind ≠ .param) :
    (∃ k ∈ unit.bodies skip, v ∈ k.fields) ∨ v.owner = none ∧ site.scope.lookup v.name = some v := by
  rcases Setting.constantNamed_cases e hv with ⟨n, hn⟩ | ⟨k, hk, hv⟩
  · have hlookup : site.scope.lookup n = some v := hn
    obtain rfl : v.name = n := by simpa using List.find?_some hlookup
    refine (site.field_or_owner hs (List.mem_of_find?_eq_some hlookup) hkind).imp ?_ (⟨·, hlookup⟩)
    rintro ⟨k, hk, hv⟩
    exact ⟨k, List.mem_append_right _ (List.mem_flatMap.mpr ⟨site, hs, hk⟩), hv⟩
  · exact .inl ⟨k.inner, List.mem_append_left _ (List.mem_map_of_mem hk), hv⟩

/-- If the names of classes are apart, the variables named at a call have keys of their own. -/
theorem keyed (hp : CompilationUnit.parse source = .ok unit) (hnames : unit.NamesApart skip)
    (hs : site ∈ CallSite.ofUnit unit skip) : (site.setting (.ofUnit unit)).Keyed := by
  intro e e' v w hv hw hvkind hwkind hkey
  unfold Constant.key at hkey
  rcases field_or_lookup hs hv hvkind with ⟨k, hk, hv⟩ | ⟨hv, hvl⟩ <;>
    rcases field_or_lookup hs hw hwkind with ⟨j, hj, hw⟩ | ⟨hw, hwl⟩
  · have hkn := CompilationUnit.keyable_of_mem_bodies hp hk
    have hjn := CompilationUnit.keyable_of_mem_bodies hp hj
    rw [ClassInfo.owner_of_mem_fields hv, ClassInfo.owner_of_mem_fields hw, Option.getD_some,
      Option.getD_some, key_eq_iff hkn.1 hjn.1] at hkey
    obtain rfl := hnames k hk j hj hkey.1
    have hfield := ClassInfo.field?_name hv
    rw [hkey.2, ClassInfo.field?_name hw] at hfield
    exact (Option.some.inj hfield).symm
  · have hkn := CompilationUnit.keyable_of_mem_bodies hp hk
    rw [ClassInfo.owner_of_mem_fields hv, hw, Option.getD_some, Option.getD_none,
      key_eq_iff hkn.1 (by decide)] at hkey
    exact absurd hkey.1 hkn.2
  · have hjn := CompilationUnit.keyable_of_mem_bodies hp hj
    rw [ClassInfo.owner_of_mem_fields hw, hv, Option.getD_some, Option.getD_none,
      key_eq_iff (by decide) hjn.1] at hkey
    exact absurd hkey.1.symm hjn.2
  · rw [hv, hw, key_eq_iff (by decide) (by decide)] at hkey
    rw [hkey.2, hwl] at hvl
    exact (Option.some.inj hvl).symm

/-- An expression at a call is found to be a compile-time constant exactly if it is one, and
variables that use themselves, directly or through others, are none. -/
theorem isConstant_iff_constantExpr (hp : CompilationUnit.parse source = .ok unit)
    (hnames : unit.NamesApart skip) (hs : site ∈ CallSite.ofUnit unit skip) :
    let c := site.setting (.ofUnit unit)
    (∀ e, c.isConstant e = .ok true ↔ c.ConstantExpr e) ∧
      ∀ v, Relation.TransGen c.Uses v v → ¬ c.ConstantVar v :=
  ⟨Setting.isConstant_iff (site.keyed hp hnames hs), fun _ hcircle h ↦ h.not_circular hcircle⟩

/-- A text with a call whose arguments are a constant that is used twice and one that is declared by
itself. -/
private def sharedText : List Char :=
  "class A\x7bfinal int x=1,z=z;\x7bf(x+x,z);\x7d\x7d".toList

private theorem sharedText_reads :
    (match CompilationUnit.parse sharedText with
      | .ok unit => ((UnitIndex.ofUnit unit).classes.map fun n ↦ n.inner.fullName,
          (CallSite.ofUnit unit []).map fun s ↦ (s.enclosing.chain.map fun k ↦ k.fullName,
            s.call.args.map fun e ↦ ((s.setting (.ofUnit unit)).isConstant e).toOption))
      | .error _ => ([], [])) = (["A"], [(["A"], [some true, some false])]) := by
  have htext : sharedText = _ := String.toList_ofList
  rw [htext, CompilationUnit.parse_eq_parseNumbered]
  decide +kernel

/-- A constant that is used twice is one, and one that is declared by itself is none. -/
theorem isConstant_sharedText : ∃ unit, ∃ site ∈ CallSite.ofUnit unit [],
    CompilationUnit.parse sharedText = .ok unit ∧ unit.NamesApart [] ∧
      let c := site.setting (.ofUnit unit)
      ∃ shared circular, site.call.args = [shared, circular] ∧ c.ConstantExpr shared ∧
        ¬ c.ConstantExpr circular := by
  have hreads := sharedText_reads
  split at hreads
  · next unit hp =>
    obtain ⟨hclasses, hsites⟩ := Prod.mk.inj hreads
    obtain ⟨site, rest, hall, hsite, hrest⟩ := List.map_eq_cons_iff.mp hsites
    obtain rfl := List.map_eq_nil_iff.mp hrest
    obtain ⟨hchain, hargs⟩ := Prod.mk.inj hsite
    obtain ⟨shared, _, hargs', hshared, hrest⟩ := List.map_eq_cons_iff.mp hargs
    obtain ⟨circular, _, rfl, hcircular, hnil⟩ := List.map_eq_cons_iff.mp hrest
    obtain rfl := List.map_eq_nil_iff.mp hnil
    have hs : site ∈ CallSite.ofUnit unit [] := hall ▸ List.mem_singleton_self _
    have hnames : unit.NamesApart [] := by
      refine CompilationUnit.namesApart_of_nodup (by rw [hclasses]; decide) fun other ho k hk ↦ ?_
      rw [hall, List.mem_singleton] at ho
      have hname : k.fullName ∈ site.enclosing.chain.map fun k ↦ k.fullName :=
        List.mem_map_of_mem (ho ▸ hk)
      rw [hchain, List.mem_singleton] at hname
      rw [hname]
      decide
    obtain ⟨hconstant, -⟩ := isConstant_iff_constantExpr hp hnames hs
    refine ⟨unit, site, hs, hp, hnames, shared, circular, hargs', ?_, fun h ↦ ?_⟩
    · rw [← hconstant]
      cases hx : (site.setting (.ofUnit unit)).isConstant shared with
      | error e => rw [hx] at hshared; cases hshared
      | ok b => rw [hx] at hshared; rw [show b = true from Option.some.inj hshared]
    · rw [← hconstant] at h
      rw [h] at hcircular
      cases hcircular
  · cases hreads

end CallSite

end GuardLint
