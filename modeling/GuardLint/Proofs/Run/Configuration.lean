import GuardLint.Proofs.Data.Table
import GuardLint.Proofs.Text.Order
import GuardLint.Run.Config

/-!
# Settings and the values that give them

Settings are told by their fields. What an object gives are the settings whose fields are those of
the object, and the defaults for all others; there are such settings exactly if each field of the
object is a setting and has a value that the setting takes. Changes to settings work in the same
way, with the settings that they are made to in the place of the defaults. So changes made one after
the other are one change, in which the later ones take precedence.
-/

namespace GuardLint

variable {v : Value} {texts : List String}

theorem Value.strings?_eq_some : v.strings? = some texts ↔ v = .ofStrings texts := by
  have hitems : ∀ items : List Value,
      items.mapM string? = some texts ↔ items = texts.map .string := by
    intro items
    induction items generalizing texts with
    | nil => cases texts <;> simp
    | cons item items ih =>
      cases item with
      | string s => cases texts <;> simp [string?, Option.bind_eq_some_iff, ih, and_comm]
      | _ => cases texts <;> simp [string?]
  cases v with
  | array items => simp [strings?, ofStrings, hitems]
  | _ => simp [strings?, ofStrings]

theorem Severity.ofText?_eq_some {text : String} {s : Severity} :
    ofText? text = some s ↔ text = s.text := by
  constructor
  · intro h
    have hs := List.find?_some h
    exact (beq_iff_eq.mp hs).symm
  · rintro rfl
    cases s <;> rfl

/-- Whether a value is there to say that there is none. -/
def Value.isNull : Value → Bool
  | .null => true
  | _ => false

namespace Config

/-- The settings that are on or off. -/
def switches : List String := ["enabled", "skip_generated", "test_only"]

/-- The settings that are lists of patterns. -/
def patternLists : List String := ["test_globs", "generated_globs", "exclude"]

/-- What the settings take for a value. -/
inductive Admits : String → Value → Prop where
  | switch {key : String} : key ∈ switches → (b : Bool) → Admits key (.bool b)
  | patterns {key : String} : key ∈ patternLists → (texts : List String) →
      Admits key (.ofStrings texts)
  | severity (s : Severity) : Admits "severity" (.string s.text)

variable {fields others changes later : List (String × Value)} {c d e : Config} {key : String}

theorem Admits.mem_keys (h : Admits key v) : key ∈ keys := by
  cases h with
  | switch hk b => exact (by decide : ∀ k ∈ switches, k ∈ keys) key hk
  | patterns hk texts => exact (by decide : ∀ k ∈ patternLists, k ∈ keys) key hk
  | severity s => decide

theorem Admits.exists_bool (h : Admits key v) (hk : key ∈ switches) : ∃ b, v = .bool b := by
  cases h with
  | switch _ b => exact ⟨b, rfl⟩
  | patterns hp texts =>
    exact absurd hp ((by decide : ∀ k ∈ switches, k ∉ patternLists) key hk)
  | severity s => exact absurd hk (by decide)

theorem Admits.exists_patterns (h : Admits key v) (hk : key ∈ patternLists) :
    ∃ texts, v = .ofStrings texts := by
  cases h with
  | switch hs b => exact absurd hk ((by decide : ∀ k ∈ switches, k ∉ patternLists) key hs)
  | patterns _ texts => exact ⟨texts, rfl⟩
  | severity s => exact absurd hk (by decide)

theorem Admits.exists_severity (h : Admits "severity" v) : ∃ s : Severity, v = .string s.text := by
  cases h with
  | switch hs b => exact absurd hs (by decide)
  | patterns hp texts => exact absurd hp (by decide)
  | severity s => exact ⟨s, rfl⟩

/-! ### The fields of settings -/

theorem admits_fields (h : c.fields.lookup key = some v) : Admits key v := by
  have hrows : ∀ r ∈ c.fields, Admits r.1 r.2 := by
    simp only [fields, List.forall_mem_cons]
    exact ⟨.switch (by decide) _, .severity _, .patterns (by decide) _, .patterns (by decide) _,
      .switch (by decide) _, .switch (by decide) _, .patterns (by decide) _, List.forall_mem_nil _⟩
  exact hrows (key, v) (mem_of_lookup h)

theorem lookup_fields_eq_none : c.fields.lookup key = none ↔ key ∉ keys := by
  rw [List.lookup_eq_none_iff]
  simp [fields, keys]

/-- All settings have the same names. -/
theorem or_fields (c d : Config) (key : String) :
    (c.fields.lookup key).or (d.fields.lookup key) = c.fields.lookup key := by
  cases h : c.fields.lookup key with
  | some v => rfl
  | none => exact lookup_fields_eq_none.mpr (lookup_fields_eq_none.mp h)

/-- Names have the values that the fields of some settings give if each setting has its own and no
other name has any. -/
theorem lookup_fields_eq_iff {f : String → Option Value} : (∀ key, c.fields.lookup key = f key) ↔
    (∀ key, key ∉ keys → f key = none) ∧
      f "enabled" = some (.bool c.enabled) ∧
      f "skip_generated" = some (.bool c.skipGenerated) ∧
      f "test_only" = some (.bool c.testOnly) ∧
      f "test_globs" = some (.ofStrings c.testGlobs) ∧
      f "generated_globs" = some (.ofStrings c.generatedGlobs) ∧
      f "exclude" = some (.ofStrings c.exclude) ∧
      f "severity" = some (.string c.severity.text) := by
  constructor
  · intro h
    refine ⟨fun key hk ↦ ?_, (h _).symm, (h _).symm, (h _).symm, (h _).symm, (h _).symm,
      (h _).symm, (h _).symm⟩
    rw [← h key]
    exact lookup_fields_eq_none.mpr hk
  · rintro ⟨hnone, enabled, skip, testOnly, tests, generated, exclude, severity⟩ key
    by_cases hk : key ∈ keys
    · simp only [keys, List.mem_cons, List.not_mem_nil, or_false] at hk
      rcases hk with rfl | rfl | rfl | rfl | rfl | rfl | rfl
      · exact enabled.symm
      · exact severity.symm
      · exact tests.symm
      · exact generated.symm
      · exact skip.symm
      · exact testOnly.symm
      · exact exclude.symm
    · rw [hnone key hk]
      exact lookup_fields_eq_none.mpr hk

/-- There are settings with any values that are admitted in the place of those of others. -/
theorem exists_config {f : String → Option Value} (h : ∀ key v, f key = some v → Admits key v)
    (c : Config) : ∃ d : Config, ∀ key, d.fields.lookup key = (f key).or (c.fields.lookup key) := by
  have switch : ∀ key ∈ switches, ∀ b, ∃ b', (f key).or (some (.bool b)) = some (.bool b') := by
    intro key hk b
    cases hf : f key with
    | none => exact ⟨b, rfl⟩
    | some v =>
      obtain ⟨b', rfl⟩ := (h key v hf).exists_bool hk
      exact ⟨b', rfl⟩
  have patterns : ∀ key ∈ patternLists, ∀ texts, ∃ texts',
      (f key).or (some (.ofStrings texts)) = some (.ofStrings texts') := by
    intro key hk texts
    cases hf : f key with
    | none => exact ⟨texts, rfl⟩
    | some v =>
      obtain ⟨texts', rfl⟩ := (h key v hf).exists_patterns hk
      exact ⟨texts', rfl⟩
  have severity : ∀ s : Severity, ∃ s' : Severity,
      (f "severity").or (some (.string s.text)) = some (.string s'.text) := by
    intro s
    cases hf : f "severity" with
    | none => exact ⟨s, rfl⟩
    | some v =>
      obtain ⟨s', rfl⟩ := (h "severity" v hf).exists_severity
      exact ⟨s', rfl⟩
  have none_of_not_mem : ∀ key, key ∉ keys → (f key).or (c.fields.lookup key) = none := by
    intro key hk
    rw [lookup_fields_eq_none.mpr hk, Option.or_none]
    by_contra hsome
    obtain ⟨v, hv⟩ := Option.ne_none_iff_exists'.mp hsome
    exact hk (h key v hv).mem_keys
  obtain ⟨enabled, henabled⟩ := switch "enabled" (by decide) c.enabled
  obtain ⟨skipGenerated, hskip⟩ := switch "skip_generated" (by decide) c.skipGenerated
  obtain ⟨testOnly, htestOnly⟩ := switch "test_only" (by decide) c.testOnly
  obtain ⟨testGlobs, htests⟩ := patterns "test_globs" (by decide) c.testGlobs
  obtain ⟨generatedGlobs, hgenerated⟩ := patterns "generated_globs" (by decide) c.generatedGlobs
  obtain ⟨exclude, hexclude⟩ := patterns "exclude" (by decide) c.exclude
  obtain ⟨grade, hgrade⟩ := severity c.severity
  exact ⟨⟨enabled, grade, testGlobs, generatedGlobs, skipGenerated, testOnly, exclude⟩,
    lookup_fields_eq_iff.mpr ⟨none_of_not_mem, henabled, hskip, htestOnly, htests, hgenerated,
      hexclude, hgrade⟩⟩

/-! ### What an object gives -/

theorem switch_eq_ok {b b' : Bool} : switch fields key b = .ok b' ↔
    (fields.lookup key).or (some (.bool b)) = some (.bool b') := by
  unfold switch
  split
  · next h => simp [h]
  · next h => simp [h]
  · next v hne h =>
    rw [h]
    constructor
    · intro hb
      cases hb
    · intro hb
      exact absurd (Option.some.inj hb) (hne b')

theorem globs_eq_ok {texts' : List String} : globs fields key texts = .ok texts' ↔
    (fields.lookup key).or (some (.ofStrings texts)) = some (.ofStrings texts') := by
  have hinj : Value.ofStrings texts = .ofStrings texts' ↔ texts = texts' := by
    rw [← Value.strings?_eq_some, Value.strings?_eq_some.mpr rfl, Option.some_inj]
  unfold globs
  split
  · next h => simp [h, hinj]
  · next v h =>
    rw [h, Option.some_or, Option.some_inj, ← Value.strings?_eq_some]
    split
    · next ts hts => simp [hts]
    · next hts => simp [hts]

theorem severityOf_eq_ok {s s' : Severity} : severityOf fields s = .ok s' ↔
    (fields.lookup "severity").or (some (.string s.text)) = some (.string s'.text) := by
  have hname : ∀ v : Value, v.string?.bind Severity.ofText? = some s' ↔ v = .string s'.text := by
    intro v
    cases v <;> simp [Value.string?, Severity.ofText?_eq_some]
  have hinj : Value.string s.text = .string s'.text ↔ s = s' := by
    rw [← hname, Value.string?, Option.bind_some, Severity.ofText?_eq_some.mpr rfl, Option.some_inj]
  unfold severityOf
  split
  · next h => simp [h, hinj]
  · next v h =>
    rw [h, Option.some_or, Option.some_inj, ← hname]
    split
    · next t ht => simp [ht]
    · next ht => simp [ht]

private theorem bind_eq_ok {α β : Type} {x : Except ConfigError α} {k : α → Except ConfigError β}
    {b : β} : x >>= k = .ok b ↔ ∃ a, x = .ok a ∧ k a = .ok b := by
  cases x with
  | error e => simp [bind, Except.bind]
  | ok a => simp [bind, Except.bind]

/-- An object gives settings if all its names are those of settings and each setting can be taken
from it. -/
private theorem ofFields_steps : ofFields fields = .ok c ↔
    (∀ key ∈ fields.map Prod.fst, key ∈ keys) ∧
      switch fields "enabled" default.enabled = .ok c.enabled ∧
      switch fields "skip_generated" default.skipGenerated = .ok c.skipGenerated ∧
      switch fields "test_only" default.testOnly = .ok c.testOnly ∧
      globs fields "test_globs" default.testGlobs = .ok c.testGlobs ∧
      globs fields "generated_globs" default.generatedGlobs = .ok c.generatedGlobs ∧
      globs fields "exclude" default.exclude = .ok c.exclude ∧
      severityOf fields default.severity = .ok c.severity := by
  have hunknown : (!((fields.map Prod.fst).filter fun k ↦ !keys.contains k).isEmpty) = true ↔
      ¬ ∀ key ∈ fields.map Prod.fst, key ∈ keys := by
    rw [Bool.not_eq_true', ← Bool.not_eq_true, List.isEmpty_iff, List.filter_eq_nil_iff]
    simp only [Bool.not_eq_true', Bool.not_eq_false, List.contains_iff_mem]
  unfold ofFields
  by_cases hkeys : ∀ key ∈ fields.map Prod.fst, key ∈ keys
  · simp only [if_neg (mt hunknown.mp (not_not.mpr hkeys)), bind_eq_ok]
    constructor
    · rintro ⟨_, h₁, _, h₂, _, h₃, _, h₄, _, h₅, _, h₆, _, h₇, hc⟩
      cases hc
      exact ⟨hkeys, h₁, h₂, h₃, h₄, h₅, h₆, h₇⟩
    · rintro ⟨-, h₁, h₂, h₃, h₄, h₅, h₆, h₇⟩
      exact ⟨_, h₁, _, h₂, _, h₃, _, h₄, _, h₅, _, h₆, _, h₇, rfl⟩
  · simp only [if_pos (hunknown.mpr hkeys)]
    constructor
    · intro h
      cases h
    · intro h
      exact absurd h.1 hkeys

/-- The settings that an object gives are those whose fields are its own, and the defaults. -/
theorem ofFields_eq_ok : ofFields fields = .ok c ↔
    ∀ key, c.fields.lookup key = (fields.lookup key).or (default.fields.lookup key) := by
  have hknown : (∀ key ∈ fields.map Prod.fst, key ∈ keys) ↔
      ∀ key, key ∉ keys → (fields.lookup key).or (default.fields.lookup key) = none := by
    refine forall_congr' fun key ↦ ⟨fun h hk ↦ ?_, fun h hmem ↦ ?_⟩
    · rw [lookup_fields_eq_none.mpr hk, Option.or_none, List.lookup_eq_none_iff]
      exact fun r hr ↦ bne_iff_ne.mpr fun heq ↦ hk (h (heq ▸ List.mem_map_of_mem hr))
    · by_contra hk
      obtain ⟨hnone, -⟩ := Option.or_eq_none_iff.mp (h hk)
      obtain ⟨r, hr, rfl⟩ := List.mem_map.mp hmem
      exact absurd rfl (bne_iff_ne.mp (List.lookup_eq_none_iff.mp hnone r hr))
  rw [ofFields_steps, lookup_fields_eq_iff, hknown]
  simp only [switch_eq_ok, globs_eq_ok, severityOf_eq_ok]
  exact Iff.rfl

/-- An object gives settings if each of its fields is a setting and has a value that it takes. -/
theorem exists_ofFields_eq_ok : (∃ c, ofFields fields = .ok c) ↔
    ∀ key v, fields.lookup key = some v → Admits key v := by
  constructor
  · rintro ⟨c, hc⟩ key v hv
    apply admits_fields (c := c)
    rw [ofFields_eq_ok.mp hc key, hv, Option.some_or]
  · intro h
    obtain ⟨c, hc⟩ := exists_config h default
    exact ⟨c, ofFields_eq_ok.mpr hc⟩

theorem ofFields_fields (c : Config) : ofFields c.fields = .ok c :=
  ofFields_eq_ok.mpr fun key ↦ (or_fields c default key).symm

/-- The order of the fields of an object does not matter, neither to the settings that it gives nor
to what is wrong with it. -/
theorem ofFields_perm (h : (fields.map Prod.fst).Nodup) (hp : fields.Perm others) :
    ofFields fields = ofFields others := by
  have hlookup : ∀ key, fields.lookup key = others.lookup key := lookup_of_perm h hp
  have hunknown := (hp.map Prod.fst).filter fun k ↦ !keys.contains k
  have hswitch : switch fields = switch others := by
    funext key b
    rw [switch, switch, hlookup]
  have hglobs : globs fields = globs others := by
    funext key texts
    rw [globs, globs, hlookup]
  have hseverity : severityOf fields = severityOf others := by
    funext s
    rw [severityOf, severityOf, hlookup]
  unfold ofFields
  dsimp only
  rw [hswitch, hglobs, hseverity, Text.sortedSet_congr fun _ ↦ hunknown.mem_iff,
    hunknown.isEmpty_eq]

/-! ### Changes -/

/-- The changes that are made: those with a value. -/
def given (changes : List (String × Value)) : List (String × Value) :=
  changes.filter fun
    | (_, .null) => false
    | _ => true

/-- Changes that can be made to any settings: each setting once, with a value that it takes. Where
the value is `null` there is no change. -/
structure Valid (changes : List (String × Value)) : Prop where
  nodup : (changes.map Prod.fst).Nodup
  admits : ∀ key v, (given changes).lookup key = some v → Admits key v

/-- Changes with others put over them, as far as these are made. -/
def overlay (changes later : List (String × Value)) : List (String × Value) :=
  (given later).foldl (fun table r ↦ setValue table r.1 r.2) changes

theorem nodup_given (h : (changes.map Prod.fst).Nodup) : ((given changes).map Prod.fst).Nodup :=
  nodup_filter h _

theorem lookup_given (h : (changes.map Prod.fst).Nodup) (key : String) :
    (given changes).lookup key = (changes.lookup key).filter (!·.isNull) := by
  have hgiven : given changes = changes.filter fun r ↦ !r.2.isNull := by
    unfold given
    congr 1
    funext r
    obtain ⟨key, v⟩ := r
    cases v <;> rfl
  rw [hgiven]
  exact lookup_filter h (!·.isNull) key

theorem override_eq (c : Config) (changes : List (String × Value)) :
    c.override changes =
      ofFields ((given changes).foldl (fun table r ↦ setValue table r.1 r.2) c.fields) := by
  change (if (given changes).isEmpty then .ok c else ofFields _) = _
  split
  · next hempty => rw [List.isEmpty_iff.mp hempty, List.foldl_nil, ofFields_fields]
  · rfl

/-- Changes that name each setting once are made to the settings that they name and to no others. -/
theorem override_eq_ok (h : (changes.map Prod.fst).Nodup) : c.override changes = .ok d ↔
    ∀ key, d.fields.lookup key = ((given changes).lookup key).or (c.fields.lookup key) := by
  rw [override_eq, ofFields_eq_ok]
  refine forall_congr' fun key ↦ ?_
  rw [lookup_foldl_setValue (nodup_given h), Option.or_assoc, or_fields]

theorem exists_override_eq_ok (h : (changes.map Prod.fst).Nodup) :
    (∃ d, c.override changes = .ok d) ↔ Valid changes := by
  constructor
  · rintro ⟨d, hd⟩
    refine ⟨h, fun key v hv ↦ admits_fields (c := d) ?_⟩
    rw [(override_eq_ok h).mp hd key, hv, Option.some_or]
  · intro hvalid
    obtain ⟨d, hd⟩ := exists_config hvalid.admits c
    exact ⟨d, (override_eq_ok h).mpr hd⟩

theorem nodup_overlay (h : (changes.map Prod.fst).Nodup) :
    ((overlay changes later).map Prod.fst).Nodup :=
  nodup_foldl_setValue h _

theorem lookup_given_overlay (h : (changes.map Prod.fst).Nodup)
    (hlater : (later.map Prod.fst).Nodup) (key : String) :
    (given (overlay changes later)).lookup key =
      ((given later).lookup key).or ((given changes).lookup key) := by
  rw [lookup_given (nodup_overlay h), lookup_given h, overlay,
    lookup_foldl_setValue (nodup_given hlater)]
  cases hv : (given later).lookup key with
  | none => rfl
  | some v =>
    rw [lookup_given hlater] at hv
    have hnull := (Option.filter_eq_some_iff.mp hv).2
    exact Option.filter_some_pos hnull

/-- An object gives settings exactly if its fields are settings, with values that these take: the
switches a truth value, the lists of patterns a list of texts and the severity one of the four. Then
the settings named have these values and the others their defaults. The order of the fields does not
matter, nor does it to the error otherwise. Settings are given back by their own fields. Changes
made one after the other are one change, in which the later ones take precedence, and settings that
are in neither stay as they are. -/
theorem ofValue_override :
    (∀ value, (∃ c, ofValue value = .ok c) ↔
      ∃ fields, value = .object fields ∧ ∀ key v, fields.lookup key = some v → Admits key v) ∧
    (∀ fields c, ofValue (.object fields) = .ok c ↔
      ∀ key, c.fields.lookup key = (fields.lookup key).or (default.fields.lookup key)) ∧
    (∀ fields others : List (String × Value), (fields.map Prod.fst).Nodup → fields.Perm others →
      ofValue (.object fields) = ofValue (.object others)) ∧
    (∀ c, ofValue (.object c.fields) = .ok c) ∧
    (∀ (c : Config) (changes : List (String × Value)), (changes.map Prod.fst).Nodup →
      ((∃ d, c.override changes = .ok d) ↔ Valid changes)) ∧
    ∀ (c : Config) (changes later : List (String × Value)), Valid changes → Valid later →
      ∃ d e, c.override changes = .ok d ∧ d.override later = .ok e ∧
        c.override (overlay changes later) = .ok e ∧
        ∀ key, e.fields.lookup key = (((given later).lookup key).or
          ((given changes).lookup key)).or (c.fields.lookup key) := by
  refine ⟨fun value ↦ ?_, fun fields c ↦ ofFields_eq_ok, fun fields others ↦ ofFields_perm,
    ofFields_fields, fun c changes ↦ exists_override_eq_ok, fun c changes later h hlater ↦ ?_⟩
  · constructor
    · rintro ⟨c, hc⟩
      cases value with
      | object fields => exact ⟨fields, rfl, exists_ofFields_eq_ok.mp ⟨c, hc⟩⟩
      | _ => cases hc
    · rintro ⟨fields, rfl, h⟩
      exact exists_ofFields_eq_ok.mpr h
  · obtain ⟨d, hd⟩ := (exists_override_eq_ok (c := c) h.nodup).mpr h
    obtain ⟨e, he⟩ := (exists_override_eq_ok (c := d) hlater.nodup).mpr hlater
    have hkeys : ∀ key, e.fields.lookup key = (((given later).lookup key).or
        ((given changes).lookup key)).or (c.fields.lookup key) := by
      intro key
      rw [(override_eq_ok hlater.nodup).mp he, (override_eq_ok h.nodup).mp hd, Option.or_assoc]
    refine ⟨d, e, hd, he, (override_eq_ok (nodup_overlay h.nodup)).mpr fun key ↦ ?_, hkeys⟩
    rw [hkeys, lookup_given_overlay h.nodup hlater.nodup]

theorem ofValue_override_severity :
    ofValue (.object [("severity", .null), ("enabled", .null)]) =
        ofValue (.object [("enabled", .null), ("severity", .null)]) ∧
      ∃ d e, default.override [("severity", .string "error"), ("exclude", .null)] = .ok d ∧
        d.override [("severity", .null), ("test_only", .bool true)] = .ok e ∧
        default.override (overlay [("severity", .string "error"), ("exclude", .null)]
          [("severity", .null), ("test_only", .bool true)]) = .ok e ∧
        e.fields.lookup "severity" = some (.string "error") := by
  obtain ⟨-, -, perm, -, valid, override⟩ := ofValue_override
  refine ⟨perm _ _ (by decide) (.swap _ _ _), ?_⟩
  obtain ⟨d, e, hd, he, hboth, hkeys⟩ := override default
    [("severity", .string "error"), ("exclude", .null)]
    [("severity", .null), ("test_only", .bool true)]
    ((valid default _ (by decide)).mp ⟨_, rfl⟩) ((valid default _ (by decide)).mp ⟨_, rfl⟩)
  exact ⟨d, e, hd, he, hboth, hkeys "severity"⟩

end Config

end GuardLint
