import GuardLint.Grammar.Reading
import GuardLint.Proofs.Grammar.Chart
import GuardLint.Proofs.Grammar.Preference

/-!
# The reading of a chart

What is read off the chart of a token list is the value of its preferred derivation, and something
is read exactly if the tokens are a sentence. The items that a reading looks up are those of
productions that were begun, so a missing item means that the tokens do not fit.
-/

namespace GuardLint.Grammar

open Syntax (Kind Token)

variable {γ : Type} [DecidableEq γ] {Sem : γ → Type} {g : Grammar Sem} {tokens : List Token}

/-! ### Looking items up -/

/-- The chart of all places holds their columns. -/
private theorem mem_chart {n : Nat} (hn : n ≤ tokens.length) {x : Item γ} :
    x ∈ (columns g tokens (tokens.length + 1)).at_ n ↔ x ∈ column g tokens n := by
  rw [at_columns, if_pos (Nat.lt_succ_of_le hn)]

private theorem has_chart {n : Nat} (hn : n ≤ tokens.length) {x : Item γ} :
    (columns g tokens (tokens.length + 1)).has n x = true ↔ x ∈ column g tokens n := by
  rw [Chart.has_iff, mem_chart hn]

/-- The productions of a head that fit somewhere after a place were begun there. -/
def Begun (g : Grammar Sem) (tokens : List Token) (h : Head γ) (i : Nat) : Prop :=
  ∀ choice p, (g.productions h)[choice]? = some p → ∀ k, i ≤ k → k ≤ tokens.length →
    Spans g p.elements (stretch tokens i k) → ⟨h, choice, 0, i⟩ ∈ column g tokens i

theorem begun_start (hg : Lawful g) : Begun g tokens (.one g.start) 0 :=
  fun _ _ hp _ _ _ _ ↦ start_begun hg hp

/-- A head that an item waits for was begun. -/
theorem begun_of_awaits (hg : Lawful g) {h : Head γ} (hh : Inner g h) {i : Nat} {x : Item γ}
    (hx : x ∈ column g tokens i) (ha : x.awaits g (.node h) = true) : Begun g tokens h i := by
  intro choice p hp k hik hk hs
  have hmem := List.mem_of_getElem? hp
  have hne : stretch tokens i k ≠ [] :=
    Matches.ne_nil hg (fun h' he ↦ by cases he; exact hh) (matches_node.mpr ⟨p, hmem, hs⟩)
  have hlt : i < k := by
    refine Nat.lt_of_le_of_ne hik ?_
    rintro rfl
    exact hne (stretch_self tokens i)
  obtain ⟨t, ht, hcons⟩ := stretch_eq_cons hlt hk
  rw [hcons] at hs
  exact column_begin hg hx ha ht hp
    (hs.elementsMayStart hg fun e he h' hs' ↦ hg.inner (.inr hh) hmem he hs')

/-- The items of a production that was begun are in the columns where their elements end. -/
theorem mem_column_iff (hg : Lawful g) {h : Head γ} (hh : h = .one g.start ∨ Inner g h)
    {choice : Nat} {p : Production Sem (h.Value Sem)} (hp : (g.productions h)[choice]? = some p)
    {i j done : Nat} (hb : ⟨h, choice, 0, i⟩ ∈ column g tokens i) (hj : j ≤ tokens.length)
    (hd : done ≤ p.elements.length) :
    ⟨h, choice, done, i⟩ ∈ column g tokens j ↔
      i ≤ j ∧ Spans g (p.elements.take done) (stretch tokens i j) := by
  constructor
  · exact fun hx ↦ spans_of_mem_column hg hx hp
  · rintro ⟨hij, hs⟩
    exact (mem_column_of_spans hg hp (fun e he h' hs' ↦
      hg.inner hh (List.mem_of_getElem? hp) he hs') hij hj hb hd hs).1

/-- The origins of a head that was begun are the places from where the tokens belong to it. -/
private theorem mem_origins (hg : Lawful g) {h : Head γ} (hh : Inner g h) {i k : Nat}
    (hk : k ≤ tokens.length) (hb : Begun g tokens h i) :
    i ∈ origins g (columns g tokens (tokens.length + 1)) h k ↔
      i ≤ k ∧ Matches g (.node h) (stretch tokens i k) := by
  unfold origins
  simp only [List.mem_map, List.mem_filter, mem_chart hk, Bool.and_eq_true, beq_iff_eq,
    List.isEmpty_iff]
  constructor
  · rintro ⟨x, ⟨hx, rfl, hr⟩, rfl⟩
    have hgen := (column_saturated hg k).sound x hx
    exact ⟨hgen.origin_le, hgen.matches hr⟩
  · rintro ⟨hik, hm⟩
    obtain ⟨p, hp, hs⟩ := matches_node.mp hm
    obtain ⟨choice, hc⟩ := List.getElem?_of_mem hp
    have hbegin := hb choice p hc k hik hk hs
    refine ⟨⟨h, choice, p.elements.length, i⟩, ⟨?_, rfl, ?_⟩, rfl⟩
    · refine (mem_column_iff hg (.inr hh) hc hbegin hk (Nat.le_refl _)).mpr ⟨hik, ?_⟩
      rwa [List.take_length]
    · rw [Item.rest_eq (x := ⟨h, choice, p.elements.length, i⟩) hc]
      exact List.drop_length

private theorem le_of_mem_origins (hg : Lawful g) {h : Head γ} {i k : Nat}
    (hk : k ≤ tokens.length)
    (hi : i ∈ origins g (columns g tokens (tokens.length + 1)) h k) : i ≤ k := by
  unfold origins at hi
  obtain ⟨x, hx, rfl⟩ := List.mem_map.mp hi
  exact ((column_saturated hg k).sound x ((mem_chart hk).mp (List.mem_filter.mp hx).1)).origin_le

/-! ### Locations -/

private theorem head?_stretch {i k : Nat} (hik : i < k) (hk : k ≤ tokens.length) :
    (stretch tokens i k).head? = tokens[i]? := by
  obtain ⟨t, ht, hcons⟩ := stretch_eq_cons hik hk
  rw [hcons, ht]
  rfl

private theorem getLast?_stretch {i k : Nat} (hik : i < k) (hk : k ≤ tokens.length) :
    (stretch tokens i k).getLast? = tokens[k - 1]? := by
  have hlast : k - 1 + 1 = k := by omega
  have ht : tokens[k - 1]? = some tokens[k - 1] := List.getElem?_eq_getElem (by omega)
  rw [← stretch_append (j := k - 1) (by omega) (Nat.sub_le k 1)]
  have h1 := stretch_succ ht
  rw [hlast] at h1
  rw [h1, List.getLast?_concat, ht]

/-- The extent of a stretch is the location of its tokens. -/
private theorem extent_eq {i k : Nat} (hik : i ≤ k) (hk : k ≤ tokens.length) :
    extent tokens.toArray i k = Token.cover (stretch tokens i k) := by
  unfold extent Token.cover
  simp only [List.getElem?_toArray]
  rcases Nat.lt_or_eq_of_le hik with hlt | rfl
  · rw [head?_stretch hlt hk, getLast?_stretch hlt hk, List.getElem?_eq_getElem (by omega),
      List.getElem?_eq_getElem (by omega)]
    simp only
    rw [if_pos hlt]
  · rw [stretch_self]
    split
    · rw [if_neg (Nat.lt_irrefl i)]
      rfl
    · rfl

/-! ### Elements -/

private theorem readSymbol_tok {read : (h : Head γ) → Nat → Nat → Option (h.Value Sem)}
    {fits : Nat → Bool} {chart : Chart γ} {i k : Nat} {kind : Kind} {t : Token}
    (hk : k ≤ tokens.length) (hik : i ≤ k) (hfits : fits i = true)
    (hr : Reads g (.tok kind) (stretch tokens i k) t) :
    readSymbol g tokens.toArray chart read fits k (.tok kind) = some (i, t) := by
  have hts := hr.tok_eq
  have hlen := length_stretch (i := i) hk
  rw [hts, List.length_singleton] at hlen
  obtain rfl : k = i + 1 := by omega
  obtain ⟨t', ht', hcons⟩ := stretch_eq_cons (Nat.lt_succ_self i) hk
  obtain ⟨rfl, -⟩ := List.cons.inj (hts.symm.trans hcons)
  obtain ⟨u, rfl, hu⟩ := matches_tok.mp hr.matches
  obtain ⟨rfl, -⟩ := List.cons.inj (hts.symm.trans hu)
  simp only [readSymbol, List.getElem?_toArray, ht']
  rw [if_pos (by rw [hfits, Bool.and_true]; exact beq_self_eq_true _)]

private theorem readSymbol_node (hg : Lawful g)
    {read : (h : Head γ) → Nat → Nat → Option (h.Value Sem)} {fits : Nat → Bool} {i k : Nat}
    {h : Head γ} (hh : Inner g h) {v : h.Value Sem} (hk : k ≤ tokens.length) (hik : i ≤ k)
    (hbegun : ∀ j ≤ k, fits j = true → Begun g tokens h j) (hfits : fits i = true)
    (hm : Matches g (.node h) (stretch tokens i k))
    (hlast : ∀ j, i < j → j ≤ k → fits j = true → ¬ Matches g (.node h) (stretch tokens j k))
    (hread : read h i k = some v) :
    readSymbol g tokens.toArray (columns g tokens (tokens.length + 1)) read fits k (.node h) =
      some (i, v) := by
  have hmax : ((origins g (columns g tokens (tokens.length + 1)) h k).filter fits).max? =
      some i := by
    rw [List.max?_eq_some_iff]
    refine ⟨List.mem_filter.mpr ⟨(mem_origins hg hh hk (hbegun i hik hfits)).mpr ⟨hik, hm⟩, hfits⟩,
      fun j hj ↦ ?_⟩
    obtain ⟨hj, hfj⟩ := List.mem_filter.mp hj
    have hjk := le_of_mem_origins hg hk hj
    obtain ⟨-, hmj⟩ := (mem_origins hg hh hk (hbegun j hjk hfj)).mp hj
    exact Nat.le_of_not_lt fun hij ↦ hlast j hij hjk hfj hmj
  simp only [readSymbol, hmax, hread]
  rfl

/-- A symbol is read from the last place where it may begin. -/
private theorem readSymbol_some (hg : Lawful g)
    {read : (h : Head γ) → Nat → Nat → Option (h.Value Sem)} {fits : Nat → Bool} {i k : Nat}
    {s : Symbol γ} (hs : ∀ h, s = .node h → Inner g h) {v : s.Value Sem}
    (hk : k ≤ tokens.length) (hik : i ≤ k)
    (hbegun : ∀ h, s = .node h → ∀ j ≤ k, fits j = true → Begun g tokens h j)
    (hfits : fits i = true) (hr : Reads g s (stretch tokens i k) v)
    (hlast : ∀ j, i < j → j ≤ k → fits j = true → ¬ Matches g s (stretch tokens j k))
    (hread : ∀ h, s = .node h → ∀ v, Reads g (.node h) (stretch tokens i k) v →
      read h i k = some v) :
    readSymbol g tokens.toArray (columns g tokens (tokens.length + 1)) read fits k s =
      some (i, v) := by
  cases s with
  | tok kind => exact readSymbol_tok hk hik hfits hr
  | node h =>
    exact readSymbol_node hg (hs h rfl) hk hik (hbegun h rfl) hfits hr.matches hlast
      (hread h rfl v hr)

private theorem readSymbol_none (hg : Lawful g)
    {read : (h : Head γ) → Nat → Nat → Option (h.Value Sem)} {fits : Nat → Bool} {k : Nat}
    {s : Symbol γ} (hs : ∀ h, s = .node h → Inner g h) (hk : k ≤ tokens.length)
    (hbegun : ∀ h, s = .node h → ∀ j ≤ k, fits j = true → Begun g tokens h j)
    (hnone : ∀ j ≤ k, fits j = true → ¬ Matches g s (stretch tokens j k)) :
    readSymbol g tokens.toArray (columns g tokens (tokens.length + 1)) read fits k s = none := by
  cases s with
  | tok kind =>
    cases k with
    | zero => rfl
    | succ i =>
      have ht : tokens[i]? = some tokens[i] := List.getElem?_eq_getElem hk
      simp only [readSymbol, List.getElem?_toArray, ht]
      refine if_neg fun h ↦ ?_
      obtain ⟨hkind, hfits⟩ := Bool.and_eq_true_iff.mp h
      refine hnone i (Nat.le_succ i) hfits ?_
      rw [stretch_succ ht]
      exact matches_tok.mpr ⟨_, beq_iff_eq.mp hkind, rfl⟩
  | node h =>
    have hmax : ((origins g (columns g tokens (tokens.length + 1)) h k).filter fits).max? =
        none := by
      rw [List.max?_eq_none_iff, List.filter_eq_nil_iff]
      intro j hj hfj
      have hjk := le_of_mem_origins hg hk hj
      obtain ⟨-, hm⟩ := (mem_origins hg (hs h rfl) hk (hbegun h rfl j hjk hfj)).mp hj
      exact hnone j hjk hfj hm
    simp only [readSymbol, hmax]

/-- The elements of a production that was begun are read as the preferred derivation divides
them, if each part is. -/
private theorem readElements_eq (hg : Lawful g)
    {read : (h : Head γ) → Nat → Nat → Option (h.Value Sem)} {h : Head γ}
    (hh : h = .one g.start ∨ Inner g h) {choice : Nat} {p : Production Sem (h.Value Sem)}
    (hp : (g.productions h)[choice]? = some p) {i k : Nat} (hik : i ≤ k) (hk : k ≤ tokens.length)
    (hb : ⟨h, choice, 0, i⟩ ∈ column g tokens i)
    (hread : ∀ front e back, p.elements = front ++ e :: back → ∀ h', e.symbol = .node h' →
      ∀ j l, i ≤ j → j ≤ l → l ≤ k → Spans g front (stretch tokens i j) →
        Spans g back (stretch tokens l k) → Begun g tokens h' j →
        ∀ v, Reads g (.node h') (stretch tokens j l) v → read h' j l = some v)
    {front es : List (Element γ)} (hes : p.elements = front ++ es) {j : Nat} (hij : i ≤ j)
    (hjk : j ≤ k) {vs : Values Sem es}
    (hr : ReadsAll g front es (stretch tokens i j) (stretch tokens j k) vs) :
    readElements g tokens.toArray (columns g tokens (tokens.length + 1)) read
      (fun done ↦ ⟨h, choice, done, i⟩) k front.length es = some (j, vs) := by
  induction es generalizing front j with
  | nil =>
    have hts : stretch tokens j k = [] := by
      generalize stretch tokens j k = ts at hr
      cases hr
      rfl
    have hlen := length_stretch (i := j) hk
    rw [hts, List.length_nil] at hlen
    obtain rfl : j = k := by omega
    rfl
  | cons e es ih =>
    obtain ⟨v, vs⟩ := vs
    have hmem : e ∈ p.elements := hes ▸ List.mem_append_right front List.mem_cons_self
    have hinner : ∀ h', e.symbol = .node h' → Inner g h' :=
      fun h' hs ↦ hg.inner hh (List.mem_of_getElem? hp) hmem hs
    have hfront : front.length ≤ p.elements.length := by
      rw [hes, List.length_append]
      omega
    have hes' : p.elements = (front ++ [e]) ++ es := by rw [hes, List.append_assoc]; rfl
    have hlen : (front ++ [e]).length = front.length + 1 := by rw [List.length_append]; rfl
    -- The element may begin where the elements before it may end, and only there.
    have hfits : ∀ l ≤ k, (columns g tokens (tokens.length + 1)).has l
        ⟨h, choice, front.length, i⟩ = true ↔ i ≤ l ∧ Spans g front (stretch tokens i l) := by
      intro l hlk
      rw [has_chart (Nat.le_trans hlk hk), mem_column_iff hg hh hp hb (Nat.le_trans hlk hk) hfront,
        hes, List.take_left' rfl]
    have hbegun : ∀ h', e.symbol = .node h' → ∀ l ≤ k,
        (columns g tokens (tokens.length + 1)).has l ⟨h, choice, front.length, i⟩ = true →
        Begun g tokens h' l := by
      intro h' hs l hlk hl
      have hx := (has_chart (Nat.le_trans hlk hk)).mp hl
      refine begun_of_awaits hg (hinner h' hs) hx (Item.awaits_iff.mpr ⟨e, es, ?_, hs⟩)
      rw [Item.rest_eq (x := ⟨h, choice, front.length, i⟩) hp, hes]
      exact List.drop_left' rfl
    rw [readElements]
    rcases hr.cons_inv with ⟨us, ws, x, hts, rfl, hf, hx, hlast, hr'⟩ | ⟨ha, hf, hnone, hr'⟩
    · obtain ⟨l, hjl, hlk, rfl, rfl⟩ := stretch_eq_append hjk hk hts
      rw [stretch_append hij hjl] at hr'
      have hrest := ih hes' (Nat.le_trans hij hjl) hlk hr'
      rw [hlen] at hrest
      have hsym : readSymbol g tokens.toArray (columns g tokens (tokens.length + 1)) read
          (fun l ↦ (columns g tokens (tokens.length + 1)).has l ⟨h, choice, front.length, i⟩) l
          e.symbol = some (j, x) := by
        refine readSymbol_some hg hinner (Nat.le_trans hlk hk) hjl
          (fun h' hs m hm ↦ hbegun h' hs m (Nat.le_trans hm hlk)) ((hfits j hjk).mpr ⟨hij, hf⟩) hx
          (fun m hjm hml hfm hmm ↦ ?_) fun h' hs v hv ↦ ?_
        · obtain ⟨-, hsm⟩ := (hfits m (Nat.le_trans hml hlk)).mp hfm
          have hxs := hlast (stretch tokens j m) (stretch tokens m l)
            (stretch_append (Nat.le_of_lt hjm) hml).symm
            (by rwa [stretch_append hij (Nat.le_of_lt hjm)]) hmm
          have hlen := length_stretch (i := j) (Nat.le_trans hml (Nat.le_trans hlk hk))
          rw [hxs, List.length_nil] at hlen
          omega
        · exact hread front e es hes h' hs j l hij hjl hlk hf ⟨_, hr'.derivesAll⟩
            (hbegun h' hs j hjk ((hfits j hjk).mpr ⟨hij, hf⟩)) v hv
      simp only [hrest, hsym]
    · have hrest := ih hes' hij hjk hr'
      rw [hlen] at hrest
      have hsym : readSymbol g tokens.toArray (columns g tokens (tokens.length + 1)) read
          (fun l ↦ (columns g tokens (tokens.length + 1)).has l ⟨h, choice, front.length, i⟩) j
          e.symbol = none := by
        refine readSymbol_none hg hinner (Nat.le_trans hjk hk)
          (fun h' hs m hm ↦ hbegun h' hs m (Nat.le_trans hm hjk)) fun m hmj hfm hmm ↦ ?_
        obtain ⟨him, hsm⟩ := (hfits m (Nat.le_trans hmj hjk)).mp hfm
        exact hnone _ _ (stretch_append him hmj).symm hsm hmm
      simp only [hrest, hsym, ha]
      rw [if_pos ((hfits j hjk).mpr ⟨hij, hf⟩)]

/-! ### Heads -/

/-- The first production that fits is read. -/
private theorem readFirst_eq {read : (h : Head γ) → Nat → Nat → Option (h.Value Sem)}
    {chart : Chart γ} {h : Head γ} {i k : Nat} {ps : List (Production Sem (h.Value Sem))}
    {first choice : Nat} {p : Production Sem (h.Value Sem)} (hp : ps[choice]? = some p)
    (hno : ∀ c q, c < choice → ps[c]? = some q →
      ¬ chart.has k ⟨h, first + c, q.elements.length, i⟩ = true)
    (hyes : chart.has k ⟨h, first + choice, p.elements.length, i⟩ = true) :
    readFirst g tokens.toArray chart read h i k first ps =
      (readElements g tokens.toArray chart read (fun done ↦ ⟨h, first + choice, done, i⟩) k 0
        p.elements).map fun r ↦ p.value (extent tokens.toArray i k) r.2 := by
  induction ps generalizing first choice with
  | nil => cases hp
  | cons q ps ih =>
    rw [readFirst]
    cases choice with
    | zero =>
      obtain rfl := Option.some.inj hp
      exact if_pos hyes
    | succ choice =>
      have hadd (c : Nat) : first + 1 + c = first + (c + 1) := by omega
      have hskip := hno 0 q (Nat.succ_pos _) rfl
      rw [Nat.add_zero] at hskip
      simp only
      rw [if_neg hskip, ih hp
        (fun c r hc hr ↦ by rw [hadd]; exact hno (c + 1) r (by omega) hr) (by rwa [hadd])]
      simp only [hadd]

/-- A head that was begun is read as its preferred derivation says. -/
private theorem readHead_eq (hg : Lawful g) {rank : γ → Nat} (hrank : Ranked g rank) {fuel : Nat}
    {h : Head γ} (hh : h = .one g.start ∨ Inner g h) {i k : Nat} (hik : i ≤ k)
    (hk : k ≤ tokens.length) (hfuel : weight g rank h (k - i) < fuel) (hb : Begun g tokens h i)
    {v : h.Value Sem} (hr : Reads g (.node h) (stretch tokens i k) v) :
    readHead g tokens.toArray (columns g tokens (tokens.length + 1)) fuel h i k = some v := by
  induction fuel generalizing h i k with
  | zero => exact absurd hfuel (Nat.not_lt_zero _)
  | succ fuel ih =>
    rw [readHead]
    generalize hts : stretch tokens i k = ts at hr
    cases hr with
    | @node _ choice p _ vs hp hfirst hall =>
      subst hts
      have hspan : Spans g p.elements (stretch tokens i k) := ⟨vs, hall.derivesAll⟩
      have hbegin := hb choice p hp k hik hk hspan
      have hread : readElements g tokens.toArray (columns g tokens (tokens.length + 1))
          (readHead g tokens.toArray (columns g tokens (tokens.length + 1)) fuel)
          (fun done ↦ ⟨h, choice, done, i⟩) k 0 p.elements = some (i, vs) := by
        refine readElements_eq hg hh hp hik hk hbegin ?_ (List.nil_append _).symm (Nat.le_refl i)
          hik (by rwa [stretch_self])
        intro front e back hes h' hs j l hij hjl hlk hf hback hbj w hw
        have hmem : e ∈ p.elements := hes ▸ List.mem_append_right front List.mem_cons_self
        have hlt := hrank.weight_lt hg hh (List.mem_of_getElem? hp) hes (stretch tokens j l)
          hf hback hs
        rw [stretch_append hij hjl, stretch_append (Nat.le_trans hij hjl) hlk, length_stretch hk,
          length_stretch (Nat.le_trans hlk hk)] at hlt
        exact ih (.inr (hg.inner hh (List.mem_of_getElem? hp) hmem hs)) hjl (Nat.le_trans hlk hk)
          (by omega) hbj hw
      rw [readFirst_eq hp ?_ ?_]
      · simp only [Nat.zero_add, hread, Option.map_some, extent_eq hik hk]
      · intro c q hc hq hx
        rw [Nat.zero_add, has_chart hk] at hx
        have hs := (spans_of_mem_column hg hx hq).2
        rw [List.take_length] at hs
        exact hfirst q (List.mem_of_getElem? (by rwa [List.getElem?_take_of_lt hc])) hs
      · rw [Nat.zero_add, has_chart hk]
        refine (mem_column_iff hg hh hp hbegin hk (Nat.le_refl _)).mpr ⟨hik, ?_⟩
        rwa [List.take_length]

/-! ### Whole texts -/

/-- What is read off the chart of a sentence is the value of its preferred derivation. -/
theorem reading_eq_some (hg : Lawful g) {v : Sem g.start}
    (hr : Reads g (.node (.one g.start)) tokens v) :
    reading g tokens (columns g tokens (tokens.length + 1)) = some v := by
  obtain ⟨rank, hrank⟩ := hg.ranked
  refine readHead_eq hg hrank (.inl rfl) (Nat.zero_le _) (Nat.le_refl _) ?_ (begun_start hg)
    (by rwa [stretch_all])
  have := hrank.lt_states g.start
  rw [Nat.mul_comm, Nat.add_mul, Nat.one_mul, weight, Nat.sub_zero]
  omega

/-- Something is read off a chart only if the tokens are a sentence. -/
theorem sentence_of_reading (hg : Lawful g) {v : Sem g.start}
    (h : reading g tokens (columns g tokens (tokens.length + 1)) = some v) :
    Sentence g tokens := by
  unfold reading at h
  cases hf : g.states * (tokens.length + 1) with
  | zero =>
    rw [hf] at h
    cases h
  | succ fuel =>
    rw [hf, readHead] at h
    have key : ∀ (ps : List (Production Sem (Sem g.start))) (first : Nat),
        (∀ c q, ps[c]? = some q → (g.rules g.start)[first + c]? = some q) →
        readFirst g tokens.toArray (columns g tokens (tokens.length + 1))
          (readHead g tokens.toArray (columns g tokens (tokens.length + 1)) fuel)
          (.one g.start) 0 tokens.length first ps = some v → Sentence g tokens := by
      intro ps
      induction ps with
      | nil =>
        intro first _ h
        cases h
      | cons q ps ih =>
        intro first hps h
        rw [readFirst] at h
        simp only at h
        split at h
        · next hx =>
          rw [has_chart (Nat.le_refl _)] at hx
          have hq := hps 0 q rfl
          have hs := (spans_of_mem_column hg hx hq).2
          rw [List.take_length, stretch_all] at hs
          exact matches_node.mpr ⟨q, List.mem_of_getElem? hq, hs⟩
        · refine ih (first + 1) (fun c r hr ↦ ?_) h
          have hadd : first + 1 + c = first + (c + 1) := by omega
          rw [hadd]
          exact hps (c + 1) r hr
    exact key _ 0 (fun c q hq ↦ by rwa [Nat.zero_add]) h

/-- A value is read off a token list exactly if its preferred derivation has it. -/
theorem chart_reading_iff (hg : Lawful g) {v : Sem g.start} :
    (∃ c, chart g tokens = .ok c ∧ reading g tokens c = some v) ↔
      Reads g (.node (.one g.start)) tokens v := by
  constructor
  · rintro ⟨c, hc, h⟩
    obtain ⟨rfl, -⟩ := chart_eq_ok.mp hc
    obtain ⟨w, hw⟩ := Matches.exists_reads hg (fun h hs ↦ .inl (by cases hs; rfl))
      (sentence_of_reading hg h)
    rw [reading_eq_some hg hw, Option.some.injEq] at h
    rwa [← h]
  · intro hr
    exact ⟨_, chart_of_sentence hg hr.matches, reading_eq_some hg hr⟩

end GuardLint.Grammar
