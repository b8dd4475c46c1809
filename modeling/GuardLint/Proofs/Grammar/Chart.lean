import GuardLint.Proofs.Grammar.Column
import Mathlib.Data.List.Nodup

/-!
# What columns hold

An item is in the column of a place only if the elements that it has done belong to the tokens
since it was begun, and it is there if they do and its head was waited for where it was begun.
Every token of a sentence is waited for, so sentences have charts.
-/

namespace GuardLint.Grammar

open Syntax (Kind Token)

variable {γ : Type} {Sem : γ → Type} {g : Grammar Sem}

/-! ### The next element of an item -/

/-- What is left of an item, given its production. -/
theorem Item.rest_eq {x : Item γ} {p : Production Sem (x.head.Value Sem)}
    (hp : (g.productions x.head)[x.choice]? = some p) : x.rest g = p.elements.drop x.done := by
  rw [Item.rest, hp]

theorem Item.exists_of_rest {x : Item γ} {e : Element γ} {es : List (Element γ)}
    (hr : x.rest g = e :: es) : ∃ p, (g.productions x.head)[x.choice]? = some p ∧
      x.done < p.elements.length ∧ p.elements.take (x.done + 1) = p.elements.take x.done ++ [e] ∧
      x.next.rest g = es := by
  cases hp : (g.productions x.head)[x.choice]? with
  | none =>
    rw [Item.rest, hp] at hr
    cases hr
  | some p =>
    rw [Item.rest_eq hp] at hr
    have hd : x.done < p.elements.length := by
      apply Nat.lt_of_not_le
      intro hle
      rw [List.drop_eq_nil_of_le hle] at hr
      cases hr
    rw [List.drop_eq_getElem_cons hd] at hr
    obtain ⟨rfl, hes⟩ := List.cons.inj hr
    refine ⟨p, rfl, hd, (List.take_append_getElem hd).symm, ?_⟩
    rw [Item.rest_eq (x := x.next) hp]
    exact hes

/-! ### Soundness -/

/-- An item whose elements done belong to the tokens since it was begun. -/
structure Genuine (g : Grammar Sem) (tokens : List Token) (n : Nat) (x : Item γ) : Prop where
  origin_le : x.origin ≤ n
  spans : ∃ p, (g.productions x.head)[x.choice]? = some p ∧ x.done ≤ p.elements.length ∧
    Spans g (p.elements.take x.done) (stretch tokens x.origin n)

variable {tokens : List Token}

private theorem Genuine.next {n m : Nat} {x : Item γ} (hx : Genuine g tokens n x) {e : Element γ}
    {es : List (Element γ)} (hr : x.rest g = e :: es) (hnm : n ≤ m)
    (he : Spans g [e] (stretch tokens n m)) : Genuine g tokens m x.next := by
  obtain ⟨ho, p, hp, -, hs⟩ := hx
  obtain ⟨p', hp', hlt, htake, -⟩ := Item.exists_of_rest hr
  obtain rfl : p = p' := Option.some.inj (hp.symm.trans hp')
  refine ⟨Nat.le_trans ho hnm, p, hp, hlt, ?_⟩
  change Spans g (p.elements.take (x.done + 1)) (stretch tokens x.origin m)
  rw [htake]
  exact spans_append.mpr ⟨_, _, (stretch_append ho hnm).symm, hs, he⟩

private theorem spans_one {e : Element γ} {ts : List Token} (hm : Matches g e.symbol ts) :
    Spans g [e] ts :=
  spans_cons.mpr (.inl ⟨ts, [], (List.append_nil ts).symm, hm, spans_nil.mpr rfl⟩)

private theorem genuine_begun {n : Nat} {h : Head γ} {choice : Nat}
    {p : Production Sem (h.Value Sem)} (hp : (g.productions h)[choice]? = some p) :
    Genuine g tokens n ⟨h, choice, 0, n⟩ := by
  refine ⟨Nat.le_refl n, p, hp, Nat.zero_le _, ?_⟩
  rw [stretch_self]
  exact spans_nil.mpr rfl

/-- A finished item shows that its tokens belong to its head. -/
theorem Genuine.matches {n : Nat} {x : Item γ} (hx : Genuine g tokens n x)
    (hr : x.rest g = []) : Matches g (.node x.head) (stretch tokens x.origin n) := by
  obtain ⟨-, p, hp, -, hs⟩ := hx
  rw [Item.rest_eq hp, List.drop_eq_nil_iff] at hr
  rw [List.take_of_length_le hr] at hs
  exact matches_node.mpr ⟨p, List.mem_of_getElem? hp, hs⟩

private theorem mem_begun {place : Nat} {k : Kind} {h : Head γ} {y : Item γ} :
    y ∈ begun g place k h ↔ ∃ choice p, (g.productions h)[choice]? = some p ∧
      g.elementsMayStart k p.elements = true ∧ y = ⟨h, choice, 0, place⟩ := by
  unfold begun
  rw [List.mem_filterMap]
  constructor
  · rintro ⟨⟨p, choice⟩, hm, hy⟩
    simp only [Option.ite_none_right_eq_some, Option.some.injEq] at hy
    exact ⟨choice, p, List.mem_zipIdx_iff_getElem?.mp hm, hy.1, hy.2.symm⟩
  · rintro ⟨choice, p, hp, hk, rfl⟩
    exact ⟨(p, choice), List.mem_zipIdx_iff_getElem?.mpr hp, if_pos hk⟩

private theorem nodup_startItems : (startItems g).Nodup := by
  apply List.Nodup.of_map Item.choice
  unfold startItems
  rw [List.map_map]
  have h : (Item.choice ∘ fun q : Production Sem (Sem g.start) × Nat ↦
      (⟨.one g.start, q.2, 0, 0⟩ : Item γ)) = Prod.snd := rfl
  rw [h, List.zipIdx_map_snd]
  exact List.nodup_range'

variable [DecidableEq γ]

theorem Item.awaits_iff {s : Symbol γ} {x : Item γ} :
    x.awaits g s = true ↔ ∃ e es, x.rest g = e :: es ∧ e.symbol = s := by
  unfold Item.awaits
  cases x.rest g with
  | nil => simp
  | cons e es => simp

/-- What arises from an item. -/
private theorem mem_offspring {earlier : Chart γ} {place : Nat} {next : Option Kind}
    {x y : Item γ} :
    y ∈ offspring g earlier place next x ↔
      (x.rest g = [] ∧ ∃ z ∈ earlier.at_ x.origin, z.awaits g (.node x.head) = true ∧ y = z.next) ∨
      ∃ e es, x.rest g = e :: es ∧ (e.optional = true ∧ y = x.next ∨
        ∃ h k, e.symbol = .node h ∧ next = some k ∧ y ∈ begun g place k h) := by
  unfold offspring
  cases hr : x.rest g with
  | nil =>
    simp only [List.mem_map, List.mem_filter]
    constructor
    · rintro ⟨z, ⟨hz, ha⟩, rfl⟩
      exact .inl ⟨trivial, z, hz, ha, rfl⟩
    · rintro (⟨-, z, hz, ha, rfl⟩ | ⟨e, es, h, -⟩)
      · exact ⟨z, ⟨hz, ha⟩, rfl⟩
      · cases h
  | cons e es =>
    simp only [List.mem_append, List.cons.injEq, reduceCtorEq, false_and, false_or]
    constructor
    · rintro (h | h)
      · by_cases ho : e.optional = true
        · rw [if_pos ho] at h
          exact ⟨e, es, ⟨rfl, rfl⟩, .inl ⟨ho, List.mem_singleton.mp h⟩⟩
        · rw [if_neg ho] at h
          cases h
      · split at h
        · next h' k hs =>
          exact ⟨e, es, ⟨rfl, rfl⟩, .inr ⟨h', k, hs, rfl, h⟩⟩
        · cases h
    · rintro ⟨e', es', ⟨rfl, rfl⟩, ⟨ho, rfl⟩ | ⟨h, k, hs, rfl, hy⟩⟩
      · rw [if_pos ho]
        exact .inl (List.mem_singleton.mpr rfl)
      · rw [hs]
        exact .inr hy

private theorem nodup_shift {k : Kind} {items : List (Item γ)} (h : items.Nodup) :
    (shift g k items).Nodup := by
  refine (h.filter _).map ?_
  rintro ⟨h, c, d, o⟩ ⟨h', c', d', o'⟩ hxy
  simpa [Item.next] using hxy

/-- A property that the items have with which a text begins, and that is kept when a token is taken,
an element is left out, a production is begun or an item completed. -/
structure Kept (g : Grammar Sem) (tokens : List Token) (P : Nat → Item γ → Prop) : Prop where
  start : ∀ choice p, (g.rules g.start)[choice]? = some p → P 0 ⟨.one g.start, choice, 0, 0⟩
  take : ∀ n t x e es, tokens[n]? = some t → x.rest g = e :: es → e.symbol = .tok t.kind →
    P n x → P (n + 1) x.next
  skip : ∀ n x e es, x.rest g = e :: es → e.optional = true → P n x → P n x.next
  begin : ∀ n x h e es choice p, x.rest g = e :: es → e.symbol = .node h →
    (g.productions h)[choice]? = some p → P n x → P n ⟨h, choice, 0, n⟩
  complete : ∀ n x z e es, Genuine g tokens n x → x.rest g = [] → z.rest g = e :: es →
    e.symbol = .node x.head → P x.origin z → P n z.next

/-- The column of a place holds all that arises from what the tokens before lead to, and its items
are genuine and have every property that is kept. -/
theorem column_saturated_of (hg : Lawful g) {P : Nat → Item γ → Prop} (hP : Kept g tokens P)
    (n : Nat) :
    Saturated (offspring g (columns g tokens n) n (tokens[n]?.map Token.kind))
      (fun x ↦ Genuine g tokens n x ∧ P n x) (seedsAt g tokens n) (column g tokens n) := by
  induction n using Nat.strongRecOn with
  | ind n ih =>
    have hseeds : (seedsAt g tokens n).Nodup ∧
        ∀ x ∈ seedsAt g tokens n, Genuine g tokens n x ∧ P n x := by
      cases n with
      | zero =>
        rw [seedsAt]
        refine ⟨nodup_startItems, fun x hx ↦ ?_⟩
        obtain ⟨⟨p, choice⟩, hm, rfl⟩ := List.mem_map.mp hx
        have hp := List.mem_zipIdx_iff_getElem?.mp hm
        exact ⟨genuine_begun (h := .one g.start) hp, hP.start choice p hp⟩
      | succ n =>
        rw [seedsAt]
        cases ht : tokens[n]? with
        | none => exact ⟨List.nodup_nil, fun x hx ↦ absurd hx List.not_mem_nil⟩
        | some t =>
          have hcol := ih n (Nat.lt_succ_self n)
          rw [column, ht] at hcol
          refine ⟨nodup_shift hcol.nodup, fun x hx ↦ ?_⟩
          obtain ⟨z, hz, rfl⟩ := List.mem_map.mp hx
          obtain ⟨hz, ha⟩ := List.mem_filter.mp hz
          obtain ⟨e, es, hr, he⟩ := Item.awaits_iff.mp ha
          obtain ⟨hgenuine, hPz⟩ := hcol.sound z hz
          refine ⟨hgenuine.next hr (Nat.le_succ n) (spans_one ?_), hP.take n t z e es ht hr he hPz⟩
          rw [stretch_succ ht, he]
          exact ⟨t, .tok t⟩
    refine itemsAt_saturated hg hseeds.1 (fun x hx ↦ ?_) hseeds.2 fun x hx y hy ↦ ?_
    · obtain ⟨p, hp, hd, -⟩ := hx.1.spans
      exact ⟨⟨p, hp, hd⟩, hx.1.origin_le⟩
    · obtain ⟨hx, hPx⟩ := hx
      rcases mem_offspring.mp hy with ⟨hr, z, hz, ha, rfl⟩ | ⟨e, es, hr, ⟨ho, rfl⟩ | ⟨h, k, he, -, hb⟩⟩
      · -- A finished item begun earlier takes the items that waited for it along.
        rw [at_columns] at hz
        split at hz
        · next hlt =>
          obtain ⟨e, es, hrz, he⟩ := Item.awaits_iff.mp ha
          obtain ⟨hgenuine, hPz⟩ := (ih x.origin hlt).sound z hz
          refine ⟨hgenuine.next hrz hx.origin_le (spans_one ?_), hP.complete n x z e es hx hr hrz he hPz⟩
          rw [he]
          exact hx.matches hr
        · cases hz
      · refine ⟨hx.next hr (Nat.le_refl n) ?_, hP.skip n x e es hr ho hPx⟩
        rw [stretch_self]
        exact spans_cons.mpr (.inr ⟨ho, spans_nil.mpr rfl⟩)
      · obtain ⟨choice, p, hp, -, rfl⟩ := mem_begun.mp hb
        exact ⟨genuine_begun hp, hP.begin n x h e es choice p hr he hp hPx⟩

/-- The column of a place holds all that arises from what the tokens before lead to, and its items
are genuine. -/
theorem column_saturated (hg : Lawful g) (n : Nat) :
    Saturated (offspring g (columns g tokens n) n (tokens[n]?.map Token.kind)) (Genuine g tokens n)
      (seedsAt g tokens n) (column g tokens n) := by
  have hkept : Kept g tokens fun _ _ ↦ True := by constructor <;> intros <;> trivial
  obtain ⟨hnodup, hsound, hseeded, hclosed⟩ := column_saturated_of hg hkept n
  exact ⟨hnodup, fun x hx ↦ (hsound x hx).1, hseeded, hclosed⟩

/-! ### Completeness -/

private theorem column_skip (hg : Lawful g) {n : Nat} {x : Item γ} (hx : x ∈ column g tokens n)
    {e : Element γ} {es : List (Element γ)} (hr : x.rest g = e :: es) (ho : e.optional = true) :
    x.next ∈ column g tokens n :=
  (column_saturated hg n).closed x hx _ (mem_offspring.mpr (.inr ⟨e, es, hr, .inl ⟨ho, rfl⟩⟩))

/-- The productions that an item waits for and the next token may begin are begun. -/
theorem column_begin (hg : Lawful g) {n : Nat} {x : Item γ} (hx : x ∈ column g tokens n)
    {h : Head γ} (ha : x.awaits g (.node h) = true) {t : Token} (ht : tokens[n]? = some t)
    {choice : Nat} {p : Production Sem (h.Value Sem)} (hp : (g.productions h)[choice]? = some p)
    (hk : g.elementsMayStart t.kind p.elements = true) :
    ⟨h, choice, 0, n⟩ ∈ column g tokens n := by
  obtain ⟨e, es, hr, he⟩ := Item.awaits_iff.mp ha
  refine (column_saturated hg n).closed x hx _ (mem_offspring.mpr (.inr ⟨e, es, hr, .inr ?_⟩))
  exact ⟨h, t.kind, he, by rw [ht]; rfl, mem_begun.mpr ⟨choice, p, hp, hk, rfl⟩⟩

private theorem column_complete (hg : Lawful g) {n : Nat} {x z : Item γ}
    (hx : x ∈ column g tokens n) (hr : x.rest g = []) (ho : x.origin < n)
    (hz : z ∈ column g tokens x.origin) (ha : z.awaits g (.node x.head) = true) :
    z.next ∈ column g tokens n := by
  refine (column_saturated hg n).closed x hx _ (mem_offspring.mpr (.inl ⟨hr, z, ?_, ha, rfl⟩))
  rw [at_columns, if_pos ho]
  exact hz

private theorem mem_seedsAt {n : Nat} {x : Item γ} {t : Token} (hx : x ∈ column g tokens n)
    (ht : tokens[n]? = some t) (ha : x.awaits g (.tok t.kind) = true) :
    x.next ∈ seedsAt g tokens (n + 1) := by
  rw [column, ht] at hx
  rw [seedsAt, ht]
  exact List.mem_map.mpr ⟨x, List.mem_filter.mpr ⟨hx, ha⟩, rfl⟩

/-- An item that waits for a symbol goes on past its tokens, each of which can be taken. -/
private def Advances (g : Grammar Sem) (tokens : List Token) (s : Symbol γ) (ts : List Token) :
    Prop :=
  ∀ i k, i ≤ k → k ≤ tokens.length → stretch tokens i k = ts → ∀ x ∈ column g tokens i,
    x.awaits g s = true →
      x.next ∈ column g tokens k ∧ ∀ n, i ≤ n → n < k → seedsAt g tokens (n + 1) ≠ []

private theorem advances_all (hg : Lawful g) {es fs : List (Element γ)} {ts : List Token}
    (hc : Covers (Advances g tokens) es ts) {i k : Nat} (hik : i ≤ k) (hk : k ≤ tokens.length)
    (hts : stretch tokens i k = ts) {x : Item γ} (hx : x ∈ column g tokens i)
    (hr : x.rest g = es ++ fs) :
    ⟨x.head, x.choice, x.done + es.length, x.origin⟩ ∈ column g tokens k ∧
      ∀ n, i ≤ n → n < k → seedsAt g tokens (n + 1) ≠ [] := by
  induction es generalizing i ts x with
  | nil =>
    cases (hc : ts = [])
    have hlen := length_stretch (i := i) hk
    rw [hts, List.length_nil] at hlen
    obtain rfl : i = k := by omega
    exact ⟨hx, fun n hn hn' ↦ absurd hn (by omega)⟩
  | cons e es ih =>
    have hnext := Item.exists_of_rest hr
    obtain ⟨-, -, -, -, hnext⟩ := hnext
    have hdone : x.done + (e :: es).length = x.next.done + es.length := by
      rw [List.length_cons, Nat.add_comm es.length, ← Nat.add_assoc]
      rfl
    rw [hdone]
    rcases hc with ⟨us, ws, rfl, ha, hc⟩ | ⟨ho, hc⟩
    · obtain ⟨j, hij, hjk, rfl, rfl⟩ := stretch_eq_append hik hk hts
      obtain ⟨hxj, hseeds⟩ := ha i j hij (Nat.le_trans hjk hk) rfl x hx
        (Item.awaits_iff.mpr ⟨e, _, hr, rfl⟩)
      obtain ⟨hxk, hseeds'⟩ := ih hc hjk rfl hxj hnext
      refine ⟨hxk, fun n hn hn' ↦ ?_⟩
      by_cases hnj : n < j
      · exact hseeds n hn hnj
      · exact hseeds' n (by omega) hn'
    · exact ih hc hik hts (column_skip hg hx hr ho) hnext

private theorem Matches.advances (hg : Lawful g) {s : Symbol γ} {ts : List Token}
    (hm : Matches g s ts) (hs : ∀ h, s = .node h → Inner g h) : Advances g tokens s ts := by
  refine Matches.induction (P := fun s ts ↦ (∀ h, s = .node h → Inner g h) →
    Advances g tokens s ts) ?_ ?_ hm hs
  · intro t _ i k hik hk hts x hx ha
    have hlen := length_stretch (i := i) hk
    rw [hts, List.length_singleton] at hlen
    obtain rfl : k = i + 1 := by omega
    obtain ⟨t', ht', h⟩ := stretch_eq_cons (Nat.lt_succ_self i) hk
    obtain ⟨rfl, -⟩ := List.cons.inj (hts.symm.trans h)
    have hseed := mem_seedsAt hx ht' ha
    refine ⟨(column_saturated hg (i + 1)).seeded _ hseed, fun n hn hn' ↦ ?_⟩
    obtain rfl : n = i := by omega
    exact List.ne_nil_of_mem hseed
  · intro h p ts hp hc hin i k hik hk hts x hx ha
    have hes : ∀ e ∈ p.elements, ∀ h', e.symbol = .node h' → Inner g h' :=
      fun e he h' hs ↦ hg.inner (.inr (hin h rfl)) hp he hs
    have hmp : Spans g p.elements ts :=
      spans_iff_covers.mpr (hc.mono fun e _ us h ↦ h.1)
    have hm : Matches g (.node h) ts := matches_node.mpr ⟨p, hp, hmp⟩
    have hne : i ≠ k := by
      rintro rfl
      rw [stretch_self] at hts
      exact hm.ne_nil hg hin hts.symm
    have hlt : i < k := Nat.lt_of_le_of_ne hik hne
    obtain ⟨t, ht, hcons⟩ := stretch_eq_cons hlt hk
    rw [← hts, hcons] at hmp
    obtain ⟨choice, hchoice⟩ := List.getElem?_of_mem hp
    have hbegin := column_begin hg hx ha ht hchoice (hmp.elementsMayStart hg hes)
    have hrest : (⟨h, choice, 0, i⟩ : Item γ).rest g = p.elements ++ [] := by
      rw [Item.rest_eq hchoice, List.append_nil]
      rfl
    have hall := advances_all hg (hc.mono fun e he us h ↦ h.2 (hes e he)) hik hk hts hbegin hrest
    refine ⟨column_complete hg hall.1 ?_ hlt hx ha, hall.2⟩
    rw [Item.rest_eq (x := ⟨h, choice, 0 + p.elements.length, i⟩) hchoice, Nat.zero_add]
    exact List.drop_length

/-- From where an item waits for a head, the items of its productions follow the tokens. -/
theorem mem_column_of_spans (hg : Lawful g) {h : Head γ} {choice : Nat}
    {p : Production Sem (h.Value Sem)} (hp : (g.productions h)[choice]? = some p)
    (hes : ∀ e ∈ p.elements, ∀ h', e.symbol = .node h' → Inner g h') {i k : Nat} (hik : i ≤ k)
    (hk : k ≤ tokens.length) (hb : ⟨h, choice, 0, i⟩ ∈ column g tokens i) {done : Nat}
    (hd : done ≤ p.elements.length)
    (hs : Spans g (p.elements.take done) (stretch tokens i k)) :
    ⟨h, choice, done, i⟩ ∈ column g tokens k ∧
      ∀ n, i ≤ n → n < k → seedsAt g tokens (n + 1) ≠ [] := by
  have hc : Covers (Advances g tokens) (p.elements.take done) (stretch tokens i k) :=
    (spans_iff_covers.mp hs).mono fun e he us hm ↦ hm.advances hg (hes e (List.mem_of_mem_take he))
  have hrest : (⟨h, choice, 0, i⟩ : Item γ).rest g =
      p.elements.take done ++ p.elements.drop done := by
    rw [Item.rest_eq hp, List.take_append_drop]
    rfl
  have hall := advances_all hg hc hik hk rfl hb hrest
  rwa [List.length_take, Nat.min_eq_left hd, Nat.zero_add] at hall

/-- An item in a column says that its elements done belong to the tokens since it was begun. -/
theorem spans_of_mem_column (hg : Lawful g) {n : Nat} {h : Head γ} {choice done i : Nat}
    (hx : ⟨h, choice, done, i⟩ ∈ column g tokens n) {p : Production Sem (h.Value Sem)}
    (hp : (g.productions h)[choice]? = some p) :
    i ≤ n ∧ Spans g (p.elements.take done) (stretch tokens i n) := by
  obtain ⟨ho, p', hp', -, hs⟩ := (column_saturated hg n).sound _ hx
  obtain rfl : p = p' := Option.some.inj (hp.symm.trans hp')
  exact ⟨ho, hs⟩

/-- The productions of the start are begun at the start of a text. -/
theorem start_begun (hg : Lawful g) {choice : Nat} {p : Production Sem (Sem g.start)}
    (hp : (g.rules g.start)[choice]? = some p) :
    ⟨.one g.start, choice, 0, 0⟩ ∈ column g tokens 0 := by
  refine (column_saturated hg 0).seeded _ ?_
  rw [seedsAt]
  exact List.mem_map.mpr ⟨(p, choice), List.mem_zipIdx_iff_getElem?.mpr hp, rfl⟩

/-- Every sentence has a chart. -/
theorem chart_of_sentence (hg : Lawful g) (hs : Sentence g tokens) :
    chart g tokens = .ok (columns g tokens (tokens.length + 1)) := by
  obtain ⟨p, hp, hspan⟩ := matches_node.mp hs
  obtain ⟨choice, hchoice⟩ := List.getElem?_of_mem hp
  have hall : Spans g (p.elements.take p.elements.length) (stretch tokens 0 tokens.length) := by
    rwa [List.take_length, stretch_all]
  have h := mem_column_of_spans hg hchoice
    (fun e he h' hs' ↦ hg.inner (.inl rfl) hp he hs') (Nat.zero_le _) (Nat.le_refl _)
    (start_begun hg hchoice) (Nat.le_refl _) hall
  exact chart_eq_ok.mpr ⟨rfl, fun n hn ↦ h.2 n (Nat.zero_le n) hn⟩

end GuardLint.Grammar
