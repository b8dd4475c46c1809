import GuardLint.Proofs.Scope.Correspondence

/-!
# The numbers of classes without a name of their own

A class without a name of its own is called by the class around it, a dollar sign and a number. In a
source file that writes no dollar sign in the name of a type, no such name is that of another type,
and so the numbers have no part in what is known about types: other numbers are as good.
-/

namespace GuardLint

open Syntax

/-! ### Plain names -/

section

variable {cs ds : List Char} {a b : String}

theorem unmarked_append : Unmarked (cs ++ ds) ↔ Unmarked cs ∧ Unmarked ds := by
  simp only [Unmarked, List.mem_append, not_or]
  tauto

theorem plain_append : Plain (a ++ b) ↔ Plain a ∧ Plain b := by
  rw [Plain, String.toList_append, unmarked_append]
  rfl

theorem plain_ofList : Plain (String.ofList cs) ↔ Unmarked cs := by
  rw [Plain, String.toList_ofList]

theorem Unmarked.of_subset (h : Unmarked cs) (hs : ds ⊆ cs) : Unmarked ds :=
  ⟨fun hm ↦ h.1 (hs hm), fun hm ↦ h.2 (hs hm)⟩

theorem plain_dims (dims : Nat) : Plain (String.join (List.replicate dims "[]")) := by
  induction dims with
  | zero => decide
  | succ dims ih =>
    rw [List.replicate_succ, String.join_cons]
    exact plain_append.mpr ⟨by decide, ih⟩

theorem isDigit_of_mem {k : Nat} {c : Char} (h : c ∈ (toString k).toList) : c.isDigit = true := by
  rw [Nat.toString_eq_repr, Nat.toList_repr] at h
  exact Nat.isDigit_of_mem_toDigits (b := 10) (by decide) (by decide) h

theorem unmarked_digits (k : Nat) : Unmarked (toString k).toList :=
  ⟨fun h ↦ absurd (isDigit_of_mem h) (by decide), fun h ↦ absurd (isDigit_of_mem h) (by decide)⟩

/-- A list is cut at the first place where some element is. -/
theorem cut_inj {c : Char} {xs ys us ws : List Char} (hx : c ∉ xs) (hy : c ∉ ys) :
    xs ++ c :: us = ys ++ c :: ws ↔ xs = ys ∧ us = ws := by
  constructor
  · intro h
    rcases List.append_eq_append_iff.mp h with ⟨_ | ⟨d, zs⟩, hys, hus⟩ | ⟨_ | ⟨d, zs⟩, hxs, hws⟩
    · exact ⟨by rw [hys, List.append_nil], (List.cons.inj hus).2⟩
    · obtain ⟨rfl, -⟩ := List.cons.inj hus
      exact absurd (hys ▸ List.mem_append_right xs List.mem_cons_self) hy
    · exact ⟨by rw [hxs, List.append_nil], (List.cons.inj hws).2.symm⟩
    · obtain ⟨rfl, -⟩ := List.cons.inj hws
      exact absurd (hxs ▸ List.mem_append_right ys List.mem_cons_self) hx
  · rintro ⟨rfl, rfl⟩
    rfl

/-- A key is cut where it was put together. -/
theorem key_eq_iff (ha : '#' ∉ a.toList) (hb : '#' ∉ b.toList) (m n : String) :
    a ++ "#" ++ m = b ++ "#" ++ n ↔ a = b ∧ m = n := by
  have hcut : a.toList ++ '#' :: m.toList = b.toList ++ '#' :: n.toList ↔
      a.toList = b.toList ∧ m.toList = n.toList := cut_inj ha hb
  rw [String.toList_inj, String.toList_inj] at hcut
  rw [← hcut, ← String.toList_inj]
  simp only [String.toList_append, List.append_assoc]
  rfl

end

/-! ### Numbers exchanged -/

/-- The part of a name from the first number of a class in it to some later one. -/
structure Numbered (us : List Char) : Prop where
  head : ∃ vs, us = '$' :: vs
  last : ∃ vs d, us = vs ++ [d] ∧ d.isDigit = true
  unkeyed : '#' ∉ us

/-- The mark and the number of a class. -/
def number (k : Nat) : List Char := '$' :: (toString k).toList

theorem toList_number (a : String) (k : Nat) :
    (a ++ "$" ++ toString k).toList = a.toList ++ number k := by
  rw [String.toList_append, String.toList_append, List.append_assoc]
  rfl

theorem numbered_number (k : Nat) : Numbered (number k) where
  head := ⟨_, rfl⟩
  last := by
    have hne : (toString k).toList ≠ [] := by
      rw [Nat.toString_eq_repr, Nat.toList_repr]
      exact Nat.toDigits_ne_nil
    have hlast := List.dropLast_append_getLast hne
    exact ⟨'$' :: (toString k).toList.dropLast, _, by rw [List.cons_append, hlast]; rfl,
      isDigit_of_mem (List.getLast_mem hne)⟩
  unkeyed h := by
    rcases List.mem_cons.mp h with h | h
    · cases h
    · exact (unmarked_digits k).2 h

theorem Numbered.next {us back : List Char} (h : Numbered us) (hb : Unmarked back) (k : Nat) :
    Numbered (us ++ back ++ number k) where
  head := by
    obtain ⟨vs, rfl⟩ := h.head
    exact ⟨_, rfl⟩
  last := by
    obtain ⟨vs, d, heq, hd⟩ := (numbered_number k).last
    exact ⟨us ++ back ++ vs, d, by rw [heq, ← List.append_assoc], hd⟩
  unkeyed := by
    simp only [List.mem_append, not_or]
    exact ⟨⟨h.unkeyed, hb.2⟩, (numbered_number k).unkeyed⟩

private theorem count_number (k : Nat) : (number k).count '$' = 1 := by
  rw [number, List.count_cons_self, List.count_eq_zero.mpr (unmarked_digits k).1]

private theorem dot_notMem_number (k : Nat) : '.' ∉ number k := by
  intro h
  rcases List.mem_cons.mp h with h | h
  · cases h
  · exact absurd (isDigit_of_mem h) (by decide)

/-- How a class is called in one numbering and in another one, from the first number on. -/
structure Renumbering where
  old : List Char
  new : List Char
  isOld : Numbered old
  isNew : Numbered new
  count : new.count '$' = old.count '$'
  dotted : '.' ∈ new ↔ '.' ∈ old

namespace Renumbering

/-- A class in one that has a name of its own. -/
def first (k k' : Nat) : Renumbering where
  old := number k
  new := number k'
  isOld := numbered_number k
  isNew := numbered_number k'
  count := by rw [count_number, count_number]
  dotted := iff_of_false (dot_notMem_number k') (dot_notMem_number k)

/-- A class in a member of another one. -/
def next (q : Renumbering) {back : List Char} (hb : Unmarked back) (k k' : Nat) : Renumbering where
  old := q.old ++ back ++ number k
  new := q.new ++ back ++ number k'
  isOld := q.isOld.next hb k
  isNew := q.isNew.next hb k'
  count := by simp only [List.count_append, q.count, count_number]
  dotted := by
    simp only [List.mem_append, q.dotted, dot_notMem_number]

/-- Two names are the same but for the number. -/
def Renames (q : Renumbering) (a a' : String) : Prop :=
  ∃ front back, Unmarked front ∧ Unmarked back ∧ a.toList = front ++ q.old ++ back ∧
    a'.toList = front ++ q.new ++ back

variable {q r : Renumbering} {a a' b b' : String}

theorem old_lt_next {back : List Char} (hb : Unmarked back) (k k' : Nat) :
    q.old.count '$' < (q.next hb k k').old.count '$' := by
  simp only [next, List.count_append, count_number]
  omega

theorem Renames.marked (h : q.Renames a a') : '$' ∈ a.toList ∧ '$' ∈ a'.toList := by
  obtain ⟨front, back, -, -, ha, ha'⟩ := h
  obtain ⟨_, hold⟩ := q.isOld.head
  obtain ⟨_, hnew⟩ := q.isNew.head
  simp [ha, ha', hold, hnew]

theorem Renames.unkeyed (h : q.Renames a a') : '#' ∉ a.toList ∧ '#' ∉ a'.toList := by
  obtain ⟨front, back, hf, hb, ha, ha'⟩ := h
  simp [ha, ha', hf.2, hb.2, q.isOld.unkeyed, q.isNew.unkeyed]

theorem Renames.count (h : q.Renames a a') :
    a.toList.count '$' = q.old.count '$' ∧ a'.toList.count '$' = q.old.count '$' := by
  obtain ⟨front, back, hf, hb, ha, ha'⟩ := h
  simp [ha, ha', List.count_eq_zero.mpr hf.1, List.count_eq_zero.mpr hb.1, q.count]

private theorem parts_inj {us front front' back back' : List Char} (hu : Numbered us)
    (hf : Unmarked front) (hf' : Unmarked front') :
    front ++ us ++ back = front' ++ us ++ back' ↔ front = front' ∧ back = back' := by
  obtain ⟨vs, rfl⟩ := hu.head
  simp only [List.append_assoc, List.cons_append]
  rw [cut_inj hf.1 hf'.1, List.append_cancel_left_eq]

/-- Names that are renamed in one way are equal if they are renamed to equal names. -/
theorem Renames.eq_iff (ha : q.Renames a a') (hb : q.Renames b b') : a = b ↔ a' = b' := by
  obtain ⟨front, back, hf, -, ha, ha'⟩ := ha
  obtain ⟨front', back', hf', -, hb, hb'⟩ := hb
  have hold : a.toList = b.toList ↔ front = front' ∧ back = back' := by
    rw [ha, hb, parts_inj q.isOld hf hf']
  have hnew : a'.toList = b'.toList ↔ front = front' ∧ back = back' := by
    rw [ha', hb', parts_inj q.isNew hf hf']
  rw [← String.toList_inj, hold, ← hnew, String.toList_inj]

/-- Only what follows a number tells whether a name is that of an array. -/
private theorem elementType?_numbered {us front back : List Char} (hu : Numbered us) {a : String}
    (ha : a.toList = front ++ us ++ back) : Typing.elementType? a =
      match back.reverse with
      | ']' :: '[' :: rest => some (String.ofList (front ++ us ++ rest.reverse))
      | _ => none := by
  obtain ⟨vs, d, rfl, hd⟩ := hu.last
  have hclose : d ≠ ']' := fun h ↦ absurd hd (by rw [h]; decide)
  have hopen : d ≠ '[' := fun h ↦ absurd hd (by rw [h]; decide)
  unfold Typing.elementType?
  rw [ha]
  simp only [List.reverse_append, List.reverse_singleton, List.singleton_append]
  rcases back.reverse with _ | ⟨c, _ | ⟨b, rest⟩⟩
  · split
    · next heq => exact absurd (List.cons.inj heq).1 hclose
    · rfl
  · split
    · next heq => exact absurd (List.cons.inj (List.cons.inj heq).2).1 hopen
    · split
      · next heq => cases heq
      · rfl
  · simp only [List.cons_append]
    split
    · next heq =>
      simp only [List.cons.injEq] at heq
      obtain ⟨rfl, rfl, rfl⟩ := heq
      simp
    · next hne =>
      split
      · next heq =>
        simp only [List.cons.injEq] at heq
        obtain ⟨rfl, rfl, rfl⟩ := heq
        exact absurd rfl (hne _)
      · rfl

/-- An array is renamed with its elements. -/
theorem Renames.elementType? (h : q.Renames a a') :
    Option.Rel q.Renames (Typing.elementType? a) (Typing.elementType? a') := by
  obtain ⟨front, back, hf, hb, ha, ha'⟩ := h
  rw [elementType?_numbered q.isOld ha, elementType?_numbered q.isNew ha']
  split
  · next rest heq =>
    have hrest : Unmarked rest.reverse := hb.of_subset fun c hc ↦ by
      rw [← List.reverse_reverse back, heq]
      simp [List.mem_reverse.mp hc]
    exact .some ⟨front, rest.reverse, hf, hrest, String.toList_ofList, String.toList_ofList⟩
  · exact .none

end Renumbering

/-! ### Names in a source file without dollar signs -/

/-- No name of a type that a source file gives sets off a number. -/
structure UnitIndex.PlainNames (x : UnitIndex) : Prop where
  package : ∀ p ∈ x.package, Plain p
  imports : ∀ r ∈ x.singleImports, Plain r.1 ∧ Plain r.2
  declared : ∀ k ∈ x.classes, Plain k.inner.fullName ∧ ∀ n ∈ TypeName.ofType k.inner.decl, Plain n

namespace UnitIndex

theorem plain_core {t : String} (ht : t ∈ coreTypes) : Plain t ∧ Plain ("java.lang." ++ t) := by
  have hall : ∀ t ∈ coreTypes, Plain t := by decide +kernel
  exact ⟨hall t ht, plain_append.mpr ⟨by decide, hall t ht⟩⟩

/-- The names that are known without a source file are plain. -/
theorem plain_of_isWellKnown {n : String} (h : isWellKnown n = true) : Plain n := by
  have hlibrary : ∀ t ∈ libraryTypes, Plain t := by decide +kernel
  rcases Bool.or_eq_true_iff.mp h with h | h
  · exact hlibrary n (List.contains_iff_mem.mp h)
  · obtain ⟨t, ht, heq⟩ := List.any_eq_true.mp h
    exact beq_iff_eq.mp heq ▸ (plain_core ht).2

theorem plain_of_primitive {n : String} (h : primitiveNames.contains n = true) : Plain n := by
  have hall : ∀ t ∈ primitiveNames, Plain t := by decide
  exact hall n (List.contains_iff_mem.mp h)

/-- The full name of a simple name that nothing else tells. -/
def inPackage (x : UnitIndex) (n : String) : String :=
  match x.package with
  | some p => if p.isEmpty then n else p ++ "." ++ n
  | none => n

section

variable {x : UnitIndex} {n : String} {head rest : List Char}

theorem resolveType_primitive (h : primitiveNames.contains n = true) :
    x.resolveType n = .ok n := if_pos h

theorem resolveType_dotted (hn : n.toList = head ++ '.' :: rest) (hd : '.' ∉ head) :
    x.resolveType n = (do
      match ← x.resolveSimple? (String.ofList head) with
      | some full => .ok (full ++ "." ++ String.ofList rest)
      | none => .ok n) := by
  have hundotted : ∀ t ∈ primitiveNames, '.' ∉ t.toList := by decide
  have hprimitive : ¬ primitiveNames.contains n = true :=
    fun hp ↦ hundotted n (List.contains_iff_mem.mp hp) (by simp [hn])
  have hpos : ∀ c ∈ head, (c != '.') = true :=
    fun c hc ↦ bne_iff_ne.mpr fun hdot ↦ hd (hdot ▸ hc)
  have htake : n.toList.takeWhile (· != '.') = head := by
    rw [hn, List.takeWhile_append_of_pos hpos, List.takeWhile_cons_of_neg (by decide),
      List.append_nil]
  have hdrop : n.toList.dropWhile (· != '.') = '.' :: rest := by
    rw [hn, List.dropWhile_append_of_pos hpos, List.dropWhile_cons_of_neg (by decide)]
  unfold resolveType
  rw [if_neg hprimitive]
  dsimp only
  rw [htake, hdrop]
  rfl

theorem resolveType_simple (hp : primitiveNames.contains n = false) (hd : '.' ∉ n.toList) :
    x.resolveType n = (do
      match ← x.resolveSimple? n with
      | some full => .ok full
      | none => .ok (x.inPackage n)) := by
  have hpos : ∀ c ∈ n.toList, (c != '.') = true :=
    fun c hc ↦ bne_iff_ne.mpr fun hdot ↦ hd (hdot ▸ hc)
  have hdrop : n.toList.dropWhile (· != '.') = [] := by
    rw [← List.append_nil n.toList, List.dropWhile_append_of_pos hpos, List.dropWhile_nil]
  unfold resolveType
  rw [hp, if_neg Bool.false_ne_true]
  dsimp only
  rw [hdrop]
  dsimp only
  congr 1
  funext full
  cases full with
  | some full => rfl
  | none =>
    unfold inPackage
    cases x.package <;> rfl

end

namespace PlainNames

variable {x : UnitIndex} (h : x.PlainNames) {n r : String}
include h

theorem classNamed?_marked (hn : '$' ∈ n.toList) : x.classNamed? n = none := by
  refine List.find?_eq_none.mpr fun k hk heq ↦ (h.declared k hk).1.1 ?_
  rw [beq_iff_eq.mp heq]
  exact hn

/-- Nothing tells the full name of a simple name with a number in it. -/
theorem resolveSimple?_marked (hn : '$' ∈ n.toList) : x.resolveSimple? n = .ok none := by
  have hclass : x.classSimplyNamed? n = none := by
    refine List.find?_eq_none.mpr fun k hk heq ↦
      ((h.declared k hk).2 _ (TypeName.name_mem_ofType _)).1 ?_
    rw [beq_iff_eq.mp heq]
    exact hn
  have himport : x.singleImports.lookup n = none := by
    refine List.lookup_eq_none_iff.mpr fun r hr ↦ bne_iff_ne.mpr ?_
    rintro rfl
    exact (h.imports r hr).1.1 hn
  have hknown : (x.onDemandImports.map (· ++ "." ++ n)).filter isWellKnown = [] := by
    refine List.filter_eq_nil_iff.mpr fun t ht hw ↦ ?_
    obtain ⟨p, -, rfl⟩ := List.mem_map.mp ht
    exact (plain_append.mp (plain_of_isWellKnown hw)).2.1 hn
  have hcore : coreTypes.contains n = false := by
    rw [Bool.eq_false_iff, ne_eq, List.contains_iff_mem]
    exact fun hc ↦ (plain_core hc).1.1 hn
  rw [resolveSimple?, hclass, himport, hknown]
  simp only [hcore, Bool.false_eq_true, if_false]

theorem plain_of_resolveSimple? (hr : x.resolveSimple? n = .ok (some r)) : Plain r := by
  unfold resolveSimple? at hr
  split at hr
  · next k hk =>
    cases hr
    exact (h.declared k (List.mem_of_find?_eq_some hk)).1
  · split at hr
    · next full hfull =>
      cases hr
      obtain ⟨front, back, hrows, -⟩ := List.lookup_eq_some_iff.mp hfull
      exact (h.imports _ (hrows ▸ List.mem_append_right front List.mem_cons_self)).2
    · split at hr
      · next candidate hcandidate =>
        have hplain : Plain candidate := by
          have hmem : candidate ∈ (x.onDemandImports.map (· ++ "." ++ n)).filter isWellKnown :=
            hcandidate ▸ List.mem_singleton_self _
          exact plain_of_isWellKnown (List.mem_filter.mp hmem).2
        split at hr
        · split at hr
          · cases hr
            exact hplain
          · cases hr
        · cases hr
          exact hplain
      · split at hr
        · next hcore =>
          cases hr
          exact (plain_core (List.contains_iff_mem.mp hcore)).2
        · cases hr

/-- A plain name is resolved to a plain name. -/
theorem plain_of_resolveType (hn : Plain n) (hr : x.resolveType n = .ok r) : Plain r := by
  by_cases hd : '.' ∈ n.toList
  · obtain ⟨head, rest, heq, hhead⟩ := List.eq_append_cons_of_mem hd
    rw [resolveType_dotted heq hhead] at hr
    have hrest : Plain (String.ofList rest) :=
      plain_ofList.mpr (hn.of_subset fun c hc ↦ by simp [heq, hc])
    cases hs : x.resolveSimple? (String.ofList head) with
    | error e =>
      rw [hs] at hr
      cases hr
    | ok full =>
      rw [hs] at hr
      cases full with
      | none =>
        cases hr
        exact hn
      | some full =>
        cases hr
        have hfull := h.plain_of_resolveSimple? hs
        exact plain_append.mpr ⟨plain_append.mpr ⟨hfull, by decide⟩, hrest⟩
  · cases hp : primitiveNames.contains n with
    | true =>
      rw [resolveType_primitive hp] at hr
      cases hr
      exact hn
    | false =>
      rw [resolveType_simple hp hd] at hr
      cases hs : x.resolveSimple? n with
      | error e =>
        rw [hs] at hr
        cases hr
      | ok full =>
        rw [hs] at hr
        cases full with
        | some full =>
          cases hr
          exact h.plain_of_resolveSimple? hs
        | none =>
          cases hr
          unfold inPackage
          split
          · next p hpackage =>
            split
            · exact hn
            · exact plain_append.mpr ⟨plain_append.mpr ⟨h.package p hpackage, by decide⟩, hn⟩
          · exact hn

/-- A name with a number before its first dot is full if it is dotted, and else it is one of the
package. -/
private theorem resolveType_marked {front us back : List Char} (hu : Numbered us)
    (hn : n.toList = front ++ us ++ back) (hf : '.' ∉ front) :
    x.resolveType n = .ok (if '.' ∈ us ++ back then n else x.inPackage n) := by
  obtain ⟨vs, rfl⟩ := hu.head
  have hmarked : '$' ∈ n.toList := by simp [hn]
  by_cases hd : '.' ∈ '$' :: vs ++ back
  · obtain ⟨head, rest, heq, hhead⟩ := List.eq_append_cons_of_mem hd
    obtain ⟨head, rfl⟩ : ∃ cs, head = '$' :: cs := by
      cases head with
      | nil => cases (List.cons.inj heq).1
      | cons c head => exact ⟨head, by rw [(List.cons.inj heq).1]⟩
    have hdotted : n.toList = (front ++ '$' :: head) ++ '.' :: rest := by
      rw [hn, List.append_assoc, heq, List.append_assoc]
    have hnone : x.resolveSimple? (String.ofList (front ++ '$' :: head)) = .ok none :=
      h.resolveSimple?_marked (by simp)
    rw [resolveType_dotted hdotted (by simp [hf, hhead]), hnone, if_pos hd]
    rfl
  · have hprimitive : primitiveNames.contains n = false :=
      Bool.eq_false_iff.mpr fun hp ↦ (plain_of_primitive hp).1 hmarked
    have hundotted : '.' ∉ n.toList := by
      rw [hn, List.append_assoc, List.mem_append, not_or]
      exact ⟨hf, hd⟩
    rw [resolveType_simple hprimitive hundotted, h.resolveSimple?_marked hmarked, if_neg hd]
    rfl

/-- A name with a number is resolved as it is with another number. -/
theorem resolveType_renames {q : Renumbering} {a a' : String} (hr : q.Renames a a') :
    Resolve q.Renames (x.resolveType a) (x.resolveType a') := by
  obtain ⟨front, back, hf, hb, ha, ha'⟩ := id hr
  by_cases hd : '.' ∈ front
  · obtain ⟨head, rest, rfl, hhead⟩ := List.eq_append_cons_of_mem hd
    have hdotted : a.toList = head ++ '.' :: (rest ++ q.old ++ back) := by rw [ha]; simp
    have hdotted' : a'.toList = head ++ '.' :: (rest ++ q.new ++ back) := by rw [ha']; simp
    rw [resolveType_dotted hdotted hhead, resolveType_dotted hdotted' hhead]
    cases hs : x.resolveSimple? (String.ofList head) with
    | error e => exact .error trivial
    | ok full =>
      cases full with
      | none => exact .ok hr
      | some full =>
        have hfull : Plain (full ++ ".") :=
          plain_append.mpr ⟨h.plain_of_resolveSimple? hs, by decide⟩
        have hrest : Unmarked rest := hf.of_subset fun c hc ↦ by simp [hc]
        refine .ok ⟨(full ++ ".").toList ++ rest, back, unmarked_append.mpr ⟨hfull, hrest⟩, hb, ?_,
          ?_⟩
        · simp
        · simp
  · have hdots : '.' ∈ q.new ++ back ↔ '.' ∈ q.old ++ back := by
      rw [List.mem_append, List.mem_append, q.dotted]
    rw [h.resolveType_marked q.isOld ha hd, h.resolveType_marked q.isNew ha' hd]
    refine .ok ?_
    by_cases hdot : '.' ∈ q.old ++ back
    · rw [if_pos hdot, if_pos (hdots.mpr hdot)]
      exact hr
    · rw [if_neg hdot, if_neg (mt hdots.mp hdot)]
      unfold inPackage
      split
      · next p hp =>
        split
        · exact hr
        · have hpackage : Plain (p ++ ".") := plain_append.mpr ⟨h.package p hp, by decide⟩
          refine ⟨(p ++ ".").toList ++ front, back, unmarked_append.mpr ⟨hpackage, hf⟩, hb, ?_, ?_⟩
          · simp [ha]
          · simp [ha']
      · exact hr

end PlainNames

end UnitIndex

/-! ### Namings -/

/-- The classes without a name of their own around a place, the innermost first: each has more
numbers in its name than those around it. -/
def Ranked (qs : List Renumbering) : Prop :=
  qs.Pairwise fun q r ↦ r.old.count '$' < q.old.count '$'

/-- Names are the same if they are plain and equal, or the same but for the number of a class around
a place. -/
def SameIn (qs : List Renumbering) (a a' : String) : Prop :=
  Plain a ∧ a = a' ∨ ∃ q ∈ qs, q.Renames a a'

section

variable {qs : List Renumbering} {a a' b b' : String}

private theorem Ranked.eq_of_count (h : Ranked qs) {q r : Renumbering} (hq : q ∈ qs) (hr : r ∈ qs)
    (heq : q.old.count '$' = r.old.count '$') : q = r := by
  induction h with
  | nil => cases hq
  | cons hfirst _ ih =>
    rcases List.mem_cons.mp hq with rfl | hq'
    · rcases List.mem_cons.mp hr with rfl | hr'
      · rfl
      · exact absurd heq (Nat.ne_of_gt (hfirst r hr'))
    · rcases List.mem_cons.mp hr with rfl | hr'
      · exact absurd heq (Nat.ne_of_lt (hfirst q hq'))
      · exact ih hq' hr'

private theorem SameIn.unkeyed (h : SameIn qs a a') : '#' ∉ a.toList ∧ '#' ∉ a'.toList := by
  rcases h with ⟨ha, rfl⟩ | ⟨q, -, hq⟩
  · exact ⟨ha.2, ha.2⟩
  · exact hq.unkeyed

private theorem SameIn.eq_iff (hqs : Ranked qs) (ha : SameIn qs a a') (hb : SameIn qs b b') :
    a = b ↔ a' = b' := by
  rcases ha with ⟨ha, rfl⟩ | ⟨q, hq, ha⟩ <;> rcases hb with ⟨hb, rfl⟩ | ⟨r, hr, hb⟩
  · rfl
  · exact iff_of_false (fun h ↦ ha.1 (h ▸ hb.marked.1)) (fun h ↦ ha.1 (h ▸ hb.marked.2))
  · exact iff_of_false (fun h ↦ hb.1 (h ▸ ha.marked.1)) (fun h ↦ hb.1 (h ▸ ha.marked.2))
  · by_cases hcount : q.old.count '$' = r.old.count '$'
    · cases hqs.eq_of_count hq hr hcount
      exact ha.eq_iff hb
    · rw [← ha.count.1, ← hb.count.1] at hcount
      refine iff_of_false (fun h ↦ hcount (by rw [h])) fun h ↦ hcount ?_
      rw [ha.count.1, hb.count.1, ← ha.count.2, ← hb.count.2, h]

/-- The elements of an array of a plain name have a plain name. -/
private theorem rel_elementType? (ha : Plain a) :
    Option.Rel (SameIn qs) (Typing.elementType? a) (Typing.elementType? a) := by
  unfold Typing.elementType?
  split
  · next rest heq =>
    refine .some (.inl ⟨plain_ofList.mpr (ha.of_subset fun c hc ↦ ?_), rfl⟩)
    rw [← List.mem_reverse, heq]
    simp [List.mem_reverse.mp hc]
  · exact .none

end

/-- Some classes around a place get other numbers. -/
def Naming.renumbered {x : UnitIndex} (hx : x.PlainNames) {qs : List Renumbering}
    (hqs : Ranked qs) : Naming x Plain where
  Same := SameIn qs
  plain h := .inl ⟨h, rfl⟩
  same_iff ha hb := SameIn.eq_iff hqs ha hb
  strange h := h.imp And.right fun ⟨_, _, hq⟩ ↦ hq.marked
  key_iff ha hb m n := by
    rw [key_eq_iff ha.unkeyed.1 hb.unkeyed.1, key_eq_iff ha.unkeyed.2 hb.unkeyed.2,
      SameIn.eq_iff hqs ha hb]
  element h := by
    rcases h with ⟨ha, rfl⟩ | ⟨q, hq, ha⟩
    · exact rel_elementType? ha
    · obtain ⟨he, he'⟩ | ⟨_, _, he, he', hee⟩ := rel_cases ha.elementType?
      · rw [he, he']
        exact .none
      · rw [he, he']
        exact .some (.inr ⟨q, hq, hee⟩)
  classNamed h := by
    rcases h with ⟨-, rfl⟩ | ⟨q, -, ha⟩
    · rfl
    · rw [hx.classNamed?_marked ha.marked.1, hx.classNamed?_marked ha.marked.2]
  resolve {a _} h := by
    rcases h with ⟨ha, rfl⟩ | ⟨q, hq, ha⟩
    · cases hr : x.resolveType a with
      | error e => exact .error trivial
      | ok r => exact .ok (.inl ⟨hx.plain_of_resolveType ha hr, rfl⟩)
    · exact (hx.resolveType_renames ha).imp fun _ _ h ↦ .inr ⟨q, hq, h⟩
  written hn hr dims := .inl ⟨plain_append.mpr ⟨hx.plain_of_resolveType hn hr, plain_dims dims⟩, rfl⟩
  declared k hk := ⟨.inl ⟨(hx.declared k hk).1, rfl⟩, (hx.declared k hk).2⟩

/-- The name of a class and its name in another numbering, and the classes without a name of their
own that it is in. -/
inductive Placed : List Renumbering → String → String → Prop
  | plain {a : String} : Plain a → Placed [] a a
  | inside {q : Renumbering} {qs : List Renumbering} {a a' : String} :
      Ranked (q :: qs) → q.Renames a a' → Placed (q :: qs) a a'

namespace Placed

variable {qs : List Renumbering} {a a' : String}

theorem ranked (h : Placed qs a a') : Ranked qs := by
  cases h with
  | plain => exact .nil
  | inside hqs => exact hqs

theorem same (h : Placed qs a a') : SameIn qs a a' := by
  cases h with
  | plain ha => exact .inl ⟨ha, rfl⟩
  | inside _ ha => exact .inr ⟨_, List.mem_cons_self, ha⟩

/-- A member class is in the same classes. -/
theorem member (h : Placed qs a a') {n : String} (hn : Plain n) :
    Placed qs (a ++ "." ++ n) (a' ++ "." ++ n) := by
  cases h with
  | plain ha => exact .plain (plain_append.mpr ⟨plain_append.mpr ⟨ha, by decide⟩, hn⟩)
  | inside hqs ha =>
    obtain ⟨front, back, hf, hb, ha, ha'⟩ := ha
    have hdot : Unmarked ['.'] := by decide
    refine .inside hqs ⟨front, back ++ (['.'] ++ n.toList), hf,
      unmarked_append.mpr ⟨hb, unmarked_append.mpr ⟨hdot, hn⟩⟩, ?_, ?_⟩
    · simp [ha]
    · simp [ha']

/-- A class without a name of its own is in one class more, whatever its numbers. -/
theorem anonymous (h : Placed qs a a') (k k' : Nat) : ∃ q : Renumbering,
    Placed (q :: qs) (a ++ "$" ++ toString k) (a' ++ "$" ++ toString k') := by
  cases h with
  | plain ha =>
    refine ⟨.first k k', .inside (List.pairwise_singleton _ _) ⟨a.toList, [], ha, ?_, ?_, ?_⟩⟩
    · decide
    · rw [toList_number, List.append_nil]
      rfl
    · rw [toList_number, List.append_nil]
      rfl
  | @inside q qs _ _ hqs ha =>
    obtain ⟨front, back, hf, hb, ha, ha'⟩ := ha
    refine ⟨q.next hb k k', .inside (hqs.cons fun r hr ↦ ?_) ⟨front, [], hf, ?_, ?_, ?_⟩⟩
    · have hlt := q.old_lt_next hb k k'
      rcases List.mem_cons.mp hr with rfl | hr
      · exact hlt
      · exact Nat.lt_trans (List.rel_of_pairwise_cons hqs hr) hlt
    · decide
    · rw [toList_number, ha]
      simp [Renumbering.next]
    · rw [toList_number, ha']
      simp [Renumbering.next]

end Placed

/-- Classes without a name of their own may get any numbers. -/
def Naming.Family.renumbered {x : UnitIndex} (hx : x.PlainNames) (All : Prop) :
    Naming.Family x Plain All where
  Admits N a a' := ∃ (qs : List Renumbering) (h : Placed qs a a'), N = .renumbered hx h.ranked
  unnamed := by decide
  same := by
    rintro _ a a' ⟨qs, h, rfl⟩
    exact h.same
  member := by
    rintro _ a a' ⟨qs, h, rfl⟩ n hn
    exact ⟨qs, h.member hn, rfl⟩
  anonymous := by
    rintro _ a a' ⟨qs, h, rfl⟩ k k' -
    obtain ⟨q, hq⟩ := h.anonymous k k'
    refine ⟨.renumbered hx hq.ranked, fun hsame ↦ ?_, q :: qs, hq, rfl⟩
    exact Or.imp_right (fun ⟨r, hr, hrenames⟩ ↦ ⟨r, List.mem_cons_of_mem q hr, hrenames⟩) hsame

end GuardLint
