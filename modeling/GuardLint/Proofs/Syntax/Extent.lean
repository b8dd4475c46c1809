import GuardLint.Proofs.Syntax.Nesting

/-!
# The stretch of text that expressions and statements take

Expressions and statements side by side take stretches of text one behind the other, and what is
directly in each takes stretches inside its own. The part before the dot of a call ends before the
call does, and its arguments begin after it does, so no part of a call takes all of its stretch.
-/

namespace GuardLint.Syntax

open Grammar

namespace Node

/-- What stands before the dot of a call ends before the call, and its arguments begin after it. -/
def Gapped : Node → Prop
  | .expr (.call l t _ as) =>
    (∀ e ∈ t, e.location.stop < l.stop) ∧ ∀ e ∈ as, l.start < e.location.start
  | _ => True

/-- Expressions and statements take stretches of text between two offsets, one behind the other, and
what is directly in each takes stretches inside its own. -/
inductive Laid : Nat → Nat → List Node → Prop where
  | nil {lo hi : Nat} : lo ≤ hi → Laid lo hi []
  | cons {lo hi : Nat} {n : Node} {ns : List Node} :
      lo ≤ n.location.start → n.location.start < n.location.stop → n.Gapped →
      Laid n.location.start n.location.stop n.parts → Laid n.location.stop hi ns →
      Laid lo hi (n :: ns)

variable {lo hi mid a b : Nat} {ns xs ys : List Node} {n : Node}

/-! ### Bounds -/

theorem Laid.le (h : Laid lo hi ns) : lo ≤ hi := by
  induction h with
  | nil h => exact h
  | cons hlo hsolid _ _ _ _ ih => omega

theorem Laid.wider (h : Laid lo hi ns) (ha : a ≤ lo) (hb : hi ≤ b) : Laid a b ns := by
  induction h generalizing a with
  | nil h => exact .nil (by omega)
  | cons hlo hsolid hgap hparts _ _ ih =>
    exact .cons (by omega) hsolid hgap hparts (ih (Nat.le_refl _) hb)

/-- Stretches begin no earlier than the first of them. -/
theorem Laid.from (h : Laid lo hi ns) (ha : a ≤ hi) (hns : ∀ n ∈ ns, a ≤ n.location.start) :
    Laid a hi ns := by
  cases h with
  | nil h => exact .nil ha
  | cons hlo hsolid hgap hparts hrest =>
    exact .cons (hns _ List.mem_cons_self) hsolid hgap hparts hrest

/-- Stretches end no later than the last of them. -/
theorem Laid.upto (h : Laid lo hi ns) (hb : lo ≤ b) (hns : ∀ n ∈ ns, n.location.stop ≤ b) :
    Laid lo b ns := by
  induction h with
  | nil h => exact .nil hb
  | cons hlo hsolid hgap hparts _ _ ih =>
    exact .cons hlo hsolid hgap hparts
      (ih (hns _ List.mem_cons_self) fun n hn ↦ hns n (List.mem_cons_of_mem _ hn))

/-- Each takes a stretch between the bounds. -/
theorem Laid.of_mem (h : Laid lo hi ns) (hn : n ∈ ns) :
    lo ≤ n.location.start ∧ n.location.stop ≤ hi := by
  induction h with
  | nil => cases hn
  | cons hlo hsolid _ _ hrest _ ih =>
    rcases List.mem_cons.mp hn with rfl | hn
    · exact ⟨hlo, hrest.le⟩
    · have := ih hn
      omega

/-! ### Side by side -/

theorem Laid.append (hx : Laid lo mid xs) (hy : Laid mid hi ys) : Laid lo hi (xs ++ ys) := by
  induction hx with
  | nil h => exact hy.wider h (Nat.le_refl hi)
  | cons hlo hsolid hgap hparts _ _ ih => exact .cons hlo hsolid hgap hparts (ih hy)

theorem Laid.exists_mid (h : Laid lo hi (xs ++ ys)) : ∃ mid, Laid lo mid xs ∧ Laid mid hi ys := by
  induction xs generalizing lo with
  | nil => exact ⟨lo, .nil (Nat.le_refl lo), h⟩
  | cons n xs ih =>
    cases h with
    | cons hlo hsolid hgap hparts hrest =>
      obtain ⟨mid, hx, hy⟩ := ih hrest
      exact ⟨mid, .cons hlo hsolid hgap hparts hx, hy⟩

theorem Laid.sublist (h : Laid lo hi ns) (hs : xs.Sublist ns) : Laid lo hi xs := by
  induction h generalizing xs with
  | nil h =>
    rw [List.sublist_nil.mp hs]
    exact .nil h
  | cons hlo hsolid hgap hparts _ _ ih =>
    cases hs with
    | cons _ hs => exact (ih hs).wider (by omega) (Nat.le_refl _)
    | cons_cons _ hs => exact .cons hlo hsolid hgap hparts (ih hs)

/-- The stretch from the first of some expressions and statements to the last of them. -/
def extent (ns : List Node) : Location :=
  match ns.head?, ns.getLast? with
  | some m, some n => ⟨m.location.first, n.location.last⟩
  | _, _ => .empty

theorem Laid.from_head (h : Laid lo hi (n :: ns)) : Laid n.location.start hi (n :: ns) := by
  cases h with
  | cons _ hsolid hgap hparts hrest => exact .cons (Nat.le_refl _) hsolid hgap hparts hrest

theorem Laid.upto_last (h : Laid lo hi (xs ++ [n])) :
    Laid lo n.location.stop (xs ++ [n]) := by
  obtain ⟨mid, hx, hn⟩ := h.exists_mid
  cases hn with
  | cons hlo hsolid hgap hparts _ =>
    exact hx.append (.cons hlo hsolid hgap hparts (.nil (Nat.le_refl _)))

/-- Expressions and statements stand between where the first begins and the last ends. -/
theorem Laid.on_extent (h : Laid lo hi ns) : Laid (extent ns).start (extent ns).stop ns ∧
    ((extent ns).start < (extent ns).stop → lo ≤ (extent ns).start ∧ (extent ns).stop ≤ hi) := by
  cases hm : ns.head? with
  | none =>
    rw [List.head?_eq_none_iff.mp hm]
    exact ⟨.nil (Nat.le_refl _), fun h ↦ absurd h (Nat.lt_irrefl _)⟩
  | some m =>
    obtain ⟨n, hn⟩ : ∃ n, ns.getLast? = some n := by
      cases ns with
      | nil => cases hm
      | cons => exact ⟨_, List.getLast?_eq_some_getLast (List.cons_ne_nil _ _)⟩
    have hextent : extent ns = ⟨m.location.first, n.location.last⟩ := by
      rw [extent, hm, hn]
    rw [hextent]
    refine ⟨?_, fun _ ↦
      ⟨(h.of_mem (List.mem_of_head? hm)).1, (h.of_mem (List.mem_of_getLast? hn)).2⟩⟩
    obtain ⟨xs, rfl⟩ := List.getLast?_eq_some_iff.mp hn
    have hlast := h.upto_last
    obtain ⟨ys, hys⟩ := List.head?_eq_some_iff.mp hm
    rw [hys] at hlast ⊢
    exact hlast.from_head

/-! ### On tokens -/

/-- Tokens in order that stand between two offsets. -/
structure Spread (ts : List Token) (lo hi : Nat) : Prop where
  ordered : Token.Ordered ts
  le : lo ≤ hi
  bounds : ∀ t ∈ ts, lo ≤ t.location.start ∧ t.location.stop ≤ hi

variable {ts us ws : List Token}

/-- Tokens side by side stand on both sides of some offset. -/
theorem Spread.exists_mid (h : Spread (us ++ ws) lo hi) :
    ∃ mid, Spread us lo mid ∧ Spread ws mid hi := by
  obtain ⟨hu, hw⟩ := h.ordered.append
  have hbu := fun t ht ↦ h.bounds t (List.mem_append_left ws ht)
  have hbw := fun t ht ↦ h.bounds t (List.mem_append_right us ht)
  cases hlast : us.getLast? with
  | none =>
    rw [List.getLast?_eq_none_iff.mp hlast] at hu ⊢
    exact ⟨lo, ⟨hu, Nat.le_refl lo, fun t ht ↦ absurd ht List.not_mem_nil⟩, ⟨hw, h.le, hbw⟩⟩
  | some b =>
    have hb := List.mem_of_getLast? hlast
    have hmid := hbu b hb
    have hsolid := hu.solid b hb
    refine ⟨b.location.stop, ⟨hu, by omega, fun t ht ↦ ⟨(hbu t ht).1, hu.le_last hlast ht⟩⟩,
      ⟨hw, hmid.2, fun t ht ↦ ⟨?_, (hbw t ht).2⟩⟩⟩
    exact (List.pairwise_append.mp h.ordered.apart).2.2 b hb t ht

/-- Tokens in order stand in the stretch that they take. -/
theorem spread_cover (ho : Token.Ordered ts) (hne : ts ≠ []) :
    (Token.cover ts).start < (Token.cover ts).stop ∧
      Spread ts (Token.cover ts).start (Token.cover ts).stop := by
  obtain ⟨a, ha, b, -, hhead, hlast, hcover⟩ := Token.cover_eq hne
  rw [hcover]
  have hsolid := ho.solid a ha
  have hle := ho.le_last hlast ha
  exact ⟨Nat.lt_of_lt_of_le hsolid hle, ho, Nat.le_trans (Nat.le_of_lt hsolid) hle,
    fun t ht ↦ ⟨ho.first_le hhead ht, ho.le_last hlast ht⟩⟩

/-- The stretch of some tokens lies between the bounds of these. -/
theorem Spread.cover (h : Spread ts lo hi) (hne : ts ≠ []) :
    lo ≤ (Token.cover ts).start ∧ (Token.cover ts).stop ≤ hi := by
  obtain ⟨a, ha, b, hb, -, -, hcover⟩ := Token.cover_eq hne
  rw [hcover]
  exact ⟨(h.bounds a ha).1, (h.bounds b hb).2⟩

/-- What is held on some tokens is laid out wherever these stand. -/
private def LaidOn (ts : List Token) (ns : List Node) : Prop :=
  ∀ lo hi, Spread ts lo hi → Laid lo hi ns

private theorem laidOn_nil (ts : List Token) : LaidOn ts [] := fun _ _ h ↦ .nil h.le

private theorem LaidOn.append (hx : LaidOn us xs) (hy : LaidOn ws ys) :
    LaidOn (us ++ ws) (xs ++ ys) := by
  intro lo hi h
  obtain ⟨mid, hu, hw⟩ := h.exists_mid
  exact (hx lo mid hu).append (hy mid hi hw)

private abbrev LaidParts :=
  Parts fun s us (x : s.Value Category.Value) ↦
    Reads language s us x ∧ LaidOn us (s.gather ofCategory x)

private theorem laidOn_parts {es : List (Element Category)} {vs : Values Category.Value es}
    (hp : LaidParts es ts vs) : LaidOn ts (gather ofCategory es vs) :=
  (hp.mono fun _ _ _ _ h ↦ h.2).gather (laidOn_nil []) LaidOn.append

/-- A call whose parts stand on both sides of a cut. -/
private theorem gapped_call (ho : Token.Ordered (us ++ ws)) (hu : us ≠ []) (hw : ws ≠ [])
    {t : Option Expr} {as : List Expr} (hx : LaidOn us (t.toList.map .expr))
    (hy : LaidOn ws (as.map .expr)) (name : String) :
    Gapped (.expr (.call (Token.cover (us ++ ws)) t name as)) := by
  obtain ⟨hou, how⟩ := ho.append
  obtain ⟨husolid, hus⟩ := spread_cover hou hu
  obtain ⟨hwsolid, hws⟩ := spread_cover how hw
  have happ := List.append_ne_nil_of_left_ne_nil hu ws
  have hcut := ho.cover_apart (List.infix_refl us) (List.infix_refl ws) hu hw
  have hfront := ho.cover_inside (List.prefix_append us ws).isInfix hu
  have hback := ho.cover_inside (List.suffix_append us ws).isInfix hw
  refine ⟨fun e he ↦ ?_, fun e he ↦ ?_⟩
  · have hbounds := (hx _ _ hus).of_mem (n := .expr e)
      (List.mem_map_of_mem (Option.mem_toList.mpr he))
    simp only [Node.location] at hbounds
    omega
  · have hbounds := (hy _ _ hws).of_mem (n := .expr e) (List.mem_map_of_mem he)
    simp only [Node.location] at hbounds
    omega

private theorem gapped_methodCall {p : Production Category.Value Expr}
    (hp : p ∈ Category.rules .methodCall) {vs : Values Category.Value p.elements}
    (hv : LaidParts p.elements ts vs) (ho : Token.Ordered ts) :
    Gapped (.expr (p.value (Token.cover ts) vs)) := by
  simp only [Category.rules, List.mem_cons, List.not_mem_nil, or_false] at hp
  rcases hp with rfl | rfl
  · obtain ⟨e, dot, targs, name, args, _⟩ := vs
    obtain ⟨us, ws, rfl, ⟨hr, hx⟩, hv⟩ := parts_need.mp hv
    have hus := hr.matches.ne_nil language_lawful fun h hh ↦ by
      cases hh
      exact inner_of_ne (by decide)
    have hargs : LaidOn ws (args.map .expr) := by
      simpa [gather, Element.gather, Symbol.gather, ofCategory.eq_def, flatMap_none] using
        laidOn_parts hv
    obtain ⟨vs, zs, rfl, ⟨hdot, -⟩, -⟩ := parts_need.mp hv
    rw [hdot.tok_eq] at hargs ho ⊢
    exact gapped_call ho hus (List.cons_ne_nil dot zs) (t := some e) hx hargs name.text
  · obtain ⟨name, args, _⟩ := vs
    obtain ⟨us, ws, rfl, ⟨hname, -⟩, hv⟩ := parts_need.mp hv
    have hargs : LaidOn ws (args.map .expr) := by
      simpa [gather, Element.gather, Symbol.gather, ofCategory.eq_def] using laidOn_parts hv
    obtain ⟨vs, zs, rfl, ⟨hr, -⟩, -⟩ := parts_need.mp hv
    have hvs := hr.matches.ne_nil language_lawful fun h hh ↦ by
      cases hh
      exact inner_of_ne (by decide)
    rw [hname.tok_eq] at ho ⊢
    exact gapped_call ho (List.cons_ne_nil name []) (List.append_ne_nil_of_left_ne_nil hvs zs)
      (t := none) (laidOn_nil [name]) hargs name.text

private theorem gapped_of_not_call (h : n.isCall = false) : n.Gapped := by
  unfold isCall at h
  unfold Gapped
  split
  · cases h
  · trivial

/-- What is read from some tokens is laid out wherever these stand. -/
theorem laid_of_reads {s : Symbol Category} {v : s.Value Category.Value}
    (hr : Reads language s ts v) (h : Spread ts lo hi) : Laid lo hi (s.gather ofCategory v) := by
  refine Reads.induction (M := fun s ts v ↦ LaidOn ts (s.gather ofCategory v))
    (fun t ↦ laidOn_nil [t]) (fun h p ts vs hp hr hv ↦ ?_) hr lo hi h
  have hinner := laidOn_parts hv
  cases h with
  | run c =>
    rw [← gather_run hp (Token.cover ts) vs] at hinner
    exact hinner
  | one c =>
    intro lo hi hspread
    have hmade := made_value c p hp (Token.cover ts) vs
    have hgap : c = .methodCall → ∀ n, ofCategory c (p.value (Token.cover ts) vs) = [n] →
        n.Gapped := by
      rintro rfl n hn
      cases hn
      exact gapped_methodCall hp hv hspread.ordered
    change Laid lo hi (ofCategory c (p.value (Token.cover ts) vs))
    generalize ofCategory c (p.value (Token.cover ts) vs) = ns at hmade hgap ⊢
    cases hmade with
    | held hs => exact (hinner lo hi hspread).sublist hs
    | @one n hc hcall _ hlocation hs =>
      have hne := hr.matches.ne_nil language_lawful fun h hh ↦ by
        cases hh
        exact inner_of_ne hc
      obtain ⟨hsolid, hspread'⟩ := spread_cover hspread.ordered hne
      obtain ⟨hlo, hhi⟩ := hspread.cover hne
      have hgapped : n.Gapped := by
        by_cases hm : c = .methodCall
        · exact hgap hm n rfl
        · exact gapped_of_not_call (hcall.trans (decide_eq_false hm))
      rw [← hlocation] at hsolid hspread' hlo hhi
      exact .cons hlo hsolid hgapped ((hinner _ _ hspread').sublist hs) (.nil hhi)

end Node

/-- The outermost expressions and statements of a text that parses, and all in them, are laid out in
the text. -/
theorem CompilationUnit.nodes_laid {source : List Char} {unit : CompilationUnit}
    (hparse : CompilationUnit.parse source = .ok unit) :
    Node.Laid 0 source.length (Node.ofUnit unit) := by
  obtain ⟨tokens, hs, hr⟩ := CompilationUnit.parse_eq_ok.mp hparse
  exact Node.laid_of_reads hr ⟨Token.ordered_ofSource hs, Nat.zero_le _, fun t ht ↦
    ⟨Nat.zero_le _, (Token.counted_of_mem hs ht).2.1⟩⟩

end GuardLint.Syntax
