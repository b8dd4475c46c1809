import GuardLint.Proofs.Syntax.Numbers
import Mathlib.Data.List.Induction
import GuardLint.Proofs.Syntax.Language
import GuardLint.Proofs.Syntax.Node
import GuardLint.Proofs.Syntax.Seam
import GuardLint.Proofs.Syntax.Segment

/-!
# How expressions and statements are nested

Every expression and every statement of a tree stands on tokens that follow each other, from the
first of them to the last. Those directly in it stand on parts of these tokens, one behind the
other. So the ranges of a tree are nested as the tree is, and each begins and ends with a token.
-/

namespace GuardLint

/-- The position before a character of a text, found by counting the line feeds before it and the
characters since the last of them. -/
def Position.counted (text : List Char) (offset : Nat) : Position :=
  ⟨offset, 1 + (text.take offset).count '\n',
    1 + ((text.take offset).reverse.takeWhile (· != '\n')).length⟩

/-- The position after the characters of a text is found by counting. -/
theorem Position.advance_origin (pre post : List Char) :
    Position.origin.advance pre = Position.counted (pre ++ post) pre.length := by
  rw [counted, List.take_left]
  induction pre using List.reverseRecOn with
  | nil => rfl
  | append_singleton pre c ih =>
    rw [advance_append, ih]
    by_cases hc : c = '\n'
    · simp [advance, step, hc]
      omega
    · simp [advance, step, hc]
      omega

namespace Syntax

open Grammar

/-- A token of a text stands where its text is, at positions found by counting. -/
theorem Token.counted_of_mem {source : List Char} {tokens : List Token} {t : Token}
    (hs : Token.ofSource source = (tokens, none)) (ht : t ∈ tokens) :
    t.location.slice source = t.text.toList ∧ t.location.stop ≤ source.length ∧
      t.location.first = Position.counted source t.location.start ∧
      t.location.last = Position.counted source t.location.stop := by
  obtain ⟨ps, hspelled, rfl⟩ := Token.laid_ofSource hs
  obtain ⟨pre, post, htext, hlocation⟩ := Token.exists_piece_of_mem ht
  rw [← hspelled.text_eq] at htext
  have hstart : t.location.start = pre.length := by
    simp [hlocation, Location.start, Position.offset_advance, Position.origin]
  have hstop : t.location.stop = (pre ++ t.text.toList).length := by
    simp [hlocation, Location.stop, Position.offset_advance, Position.origin]
  refine ⟨?_, ?_, ?_, ?_⟩
  · simp [Location.slice, hstart, hstop, htext]
  · simp [hstop, htext]
  · rw [hstart, htext, List.append_assoc, ← Position.advance_origin, hlocation]
  · rw [hstop, htext, ← Position.advance_origin, hlocation]

namespace Node

/-- One expression or statement ends before another begins. -/
def Precedes (m n : Node) : Prop := m.location.stop ≤ n.location.start

/-- Expressions and statements stand on parts of some tokens, one behind the other, and those
directly in each stand so on its part. -/
inductive Nested : List Token → List Node → Prop where
  | nil (ts : List Token) : Nested ts []
  | cons {front us rest : List Token} {n : Node} {ns : List Node} :
      us ≠ [] → n.location = Token.cover us → Nested us n.parts → Nested rest ns →
      Nested (front ++ us ++ rest) (n :: ns)

/-- An expression or a statement stands on some of the tokens, and what is in it stands on these. -/
def Stands (ts : List Token) (n : Node) : Prop :=
  ∃ us, us <:+: ts ∧ us ≠ [] ∧ n.location = Token.cover us ∧ Nested us n.parts

variable {ts us ws : List Token} {ms ns xs ys : List Node} {m n : Node}

/-! ### Side by side -/

theorem Nested.wider (h : Nested ws ns) : Nested (us ++ ws) ns := by
  cases h with
  | nil => exact .nil _
  | @cons front vs rest n ns hne hlocation hparts hrest =>
    have : Nested (us ++ front ++ vs ++ rest) (n :: ns) := .cons hne hlocation hparts hrest
    simpa only [List.append_assoc] using this

/-- What stands on tokens side by side. -/
theorem Nested.append (hx : Nested us xs) (hy : Nested ws ys) : Nested (us ++ ws) (xs ++ ys) := by
  induction hx with
  | nil ts => exact hy.wider
  | @cons front us rest n ns hne hlocation hparts hrest _ ih =>
    have : Nested (front ++ us ++ (rest ++ ws)) (n :: (ns ++ ys)) := .cons hne hlocation hparts ih
    simpa only [List.append_assoc, List.cons_append] using this

theorem Nested.sublist (h : Nested ts ns) (hs : ms.Sublist ns) : Nested ts ms := by
  induction h generalizing ms with
  | nil =>
    rw [List.sublist_nil.mp hs]
    exact .nil _
  | cons hne hlocation hparts _ _ ih =>
    cases hs with
    | cons _ hs => exact (ih hs).wider
    | cons_cons _ hs => exact .cons hne hlocation hparts (ih hs)

theorem Nested.single (hne : us ≠ []) (hlocation : n.location = Token.cover us)
    (hparts : Nested us n.parts) : Nested us [n] := by
  have : Nested ([] ++ us ++ []) [n] := .cons hne hlocation hparts (.nil [])
  rwa [List.nil_append, List.append_nil] at this

/-- What is read from some tokens holds expressions and statements that are nested on them. -/
theorem nested_of_reads {s : Symbol Category} {v : s.Value Category.Value}
    (hr : Reads language s ts v) : Nested ts (s.gather ofCategory v) := by
  refine hr.gather .nil Nested.append fun c p us vs hp hm hinner ↦ ?_
  have hmade := made_value c p hp (Token.cover us) vs
  generalize ofCategory c (p.value (Token.cover us) vs) = ns at hmade
  cases hmade with
  | held hs => exact hinner.sublist hs
  | one hc _ _ hlocation hs =>
    have hne := hm.ne_nil language_lawful fun h hh ↦ by
      cases hh
      exact inner_of_ne hc
    exact .single hne hlocation (hinner.sublist hs)

/-! ### Nested ranges -/

theorem Stands.wider (h : Stands us n) (hpart : us <:+: ts) : Stands ts n := by
  obtain ⟨vs, hvs, h⟩ := h
  exact ⟨vs, hvs.trans hpart, h⟩

theorem Nested.stands_of_mem (h : Nested ts ns) (hn : n ∈ ns) : Stands ts n := by
  induction h with
  | nil => cases hn
  | @cons front us rest m ns hne hlocation hparts _ _ ih =>
    rcases List.mem_cons.mp hn with rfl | hn
    · exact ⟨us, ⟨front, rest, rfl⟩, hne, hlocation, hparts⟩
    · exact (ih hn).wider (List.suffix_append (front ++ us) rest).isInfix

/-- What is inside an expression or a statement, however deep, stands on tokens of it. -/
theorem Nested.stands_of_below (h : Nested ts n.parts) (hm : m.Below n) : Stands ts m := by
  induction hm generalizing ts with
  | single hpart => exact h.stands_of_mem hpart
  | tail _ hpart ih =>
    obtain ⟨us, hpart, -, -, hparts⟩ := h.stands_of_mem hpart
    exact (ih hparts).wider hpart

/-- What stands on tokens in order is in order. -/
theorem Nested.pairwise (ho : Token.Ordered ts) (h : Nested ts ns) : ns.Pairwise Precedes := by
  induction h with
  | nil => exact .nil
  | @cons front us rest n ns hne hlocation _ hrest _ ih =>
    refine List.pairwise_cons.mpr ⟨fun m hm ↦ ?_, ih ho.append.2⟩
    obtain ⟨vs, hpart, hvs, hm, -⟩ := hrest.stands_of_mem hm
    rw [Precedes, hlocation, hm]
    exact ho.cover_apart (List.suffix_append front us).isInfix hpart hne hvs

/-- Every expression and every statement of a source file stands on tokens of it. -/
theorem stands_of {tokens : List Token} {unit : CompilationUnit}
    (h : Nested tokens (ofUnit unit)) (hn : Of unit n) : Stands tokens n := by
  obtain ⟨m, hm, rfl | hbelow⟩ := hn
  · exact h.stands_of_mem hm
  · obtain ⟨us, hpart, -, -, hparts⟩ := h.stands_of_mem hm
    exact (hparts.stands_of_below hbelow).wider hpart

end Node

/-- The outermost expressions and statements of a text that parses follow each other. Each
expression and each statement begins where some token does and ends, later, where some token does.
What is inside of it, however deep, lies in its range, and what is directly in it follows each other
there. The lines and columns of its range are those found by counting. -/
theorem CompilationUnit.nodes_nested {source : List Char} {unit : CompilationUnit}
    (hparse : CompilationUnit.parse source = .ok unit) :
    (Node.ofUnit unit).Pairwise Node.Precedes ∧ ∀ n, Node.Of unit n →
      n.location.start < n.location.stop ∧ n.location.stop ≤ source.length ∧
      (∃ a ∈ (Token.ofSource source).1, a.location.slice source = a.text.toList ∧
        n.location.first = a.location.first) ∧
      (∃ b ∈ (Token.ofSource source).1, b.location.slice source = b.text.toList ∧
        n.location.last = b.location.last) ∧
      (∀ m : Node, m.Below n →
        n.location.start ≤ m.location.start ∧ m.location.stop ≤ n.location.stop) ∧
      n.parts.Pairwise Node.Precedes ∧
      n.location.first = Position.counted source n.location.start ∧
      n.location.last = Position.counted source n.location.stop := by
  obtain ⟨tokens, hs, hr⟩ := CompilationUnit.parse_eq_ok.mp hparse
  have ho := Token.ordered_ofSource hs
  have hnested : Node.Nested tokens (Node.ofUnit unit) := Node.nested_of_reads hr
  refine ⟨hnested.pairwise ho, fun n hn ↦ ?_⟩
  obtain ⟨us, hpart, hne, hlocation, hparts⟩ := Node.stands_of hnested hn
  have hou := ho.among hpart
  obtain ⟨a, ha, b, hb, hhead, hlast, hcover⟩ := Token.cover_eq hne
  obtain ⟨hatext, -, hafirst, -⟩ := Token.counted_of_mem hs (hpart.subset ha)
  obtain ⟨hbtext, hbstop, -, hblast⟩ := Token.counted_of_mem hs (hpart.subset hb)
  rw [hs, hlocation, hcover]
  refine ⟨Nat.lt_of_lt_of_le (hou.solid a ha) (hou.le_last hlast ha), hbstop,
    ⟨a, hpart.subset ha, hatext, rfl⟩, ⟨b, hpart.subset hb, hbtext, rfl⟩, fun m hm ↦ ?_,
    hparts.pairwise hou, hafirst, hblast⟩
  obtain ⟨vs, hvs, hne', hlocation', -⟩ := hparts.stands_of_below hm
  rw [← hcover, hlocation']
  exact hou.cover_inside hvs hne'

/-- A text in which a field is initialized with a call. -/
private def fieldText : List Char := "class A\x7b\nint x=f(1);\x7d".toList

private theorem fieldText_nodes :
    (match CompilationUnit.parse fieldText with
      | .ok unit =>
        match Node.ofUnit unit with
        | [n] => n.location.slice fieldText == "f(1)".toList && n.parts.length == 1
        | _ => false
      | .error _ => false) = true := by
  have htext : fieldText = _ := String.toList_ofList
  rw [htext, CompilationUnit.parse_eq_parseNumbered]
  decide +kernel

/-- The argument of a call lies in the range of the call, which begins where counting finds it. -/
theorem CompilationUnit.nodes_nested_field : ∃ unit, ∃ n m : Node,
    CompilationUnit.parse fieldText = .ok unit ∧ Node.Of unit n ∧
    n.location.slice fieldText = "f(1)".toList ∧ m.Below n ∧
    n.location.start ≤ m.location.start ∧ m.location.stop ≤ n.location.stop ∧
    n.location.first = Position.counted fieldText n.location.start := by
  have hnodes := fieldText_nodes
  split at hnodes
  · rename_i unit hparse
    split at hnodes
    · rename_i n hn
      simp only [Bool.and_eq_true, beq_iff_eq] at hnodes
      obtain ⟨m, hm⟩ := List.length_eq_one_iff.mp hnodes.2
      have hof : Node.Of unit n := ⟨n, by simp [hn], .inl rfl⟩
      have hbelow : m.Below n := .single (by simp [hm])
      obtain ⟨-, -, -, -, hinside, -, hfirst, -⟩ := (nodes_nested hparse).2 n hof
      exact ⟨unit, n, m, hparse, hof, hnodes.1, hbelow, (hinside m hbelow).1, (hinside m hbelow).2,
        hfirst⟩
    · cases hnodes
  · cases hnodes

end Syntax

end GuardLint
