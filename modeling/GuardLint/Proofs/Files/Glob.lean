import GuardLint.Glob

/-!
# What glob patterns match

A pattern is a row of pieces, and a text fits it if it falls into parts, one for each piece. The
matcher keeps the ends of the text that may be left. They are ends of each other, so after a star the
ends of the longest are all of them. A pattern that begins with two stars and a slash matches from
any directory on, the first included.
-/

namespace GuardLint.Glob

/-- A text fits a row of pieces: any text a star, and one character every other piece. -/
inductive Fits : List Piece → List Char → Prop where
  | nil : Fits [] []
  | anyText {ps : List Piece} {rest : List Char} (taken : List Char) :
      Fits ps rest → Fits (.anyText :: ps) (taken ++ rest)
  | one {p : Piece} {c : Char} {ps : List Piece} {rest : List Char} :
      p.fits c = true → Fits ps rest → Fits (p :: ps) (c :: rest)

/-- The pieces of a whole pattern. -/
def parts (pattern : String) : List Piece := pieces pattern.toList.length pattern.toList

variable {ps : List Piece} {p : Piece} {text rest : List Char} {left : List (List Char)}

theorem fits_nil_iff : Fits [] text ↔ text = [] :=
  ⟨fun h ↦ by cases h; rfl, fun h ↦ h ▸ .nil⟩

theorem fits_anyText_iff : Fits (.anyText :: ps) text ↔
    ∃ taken rest, text = taken ++ rest ∧ Fits ps rest := by
  constructor
  · intro h
    cases h with
    | anyText taken h => exact ⟨taken, _, rfl, h⟩
    | one hc _ => cases hc
  · rintro ⟨taken, rest, rfl, h⟩
    exact .anyText taken h

theorem fits_one_iff (hp : p ≠ .anyText) : Fits (p :: ps) text ↔
    ∃ c rest, text = c :: rest ∧ p.fits c = true ∧ Fits ps rest := by
  constructor
  · intro h
    cases h with
    | anyText => exact absurd rfl hp
    | one hc h => exact ⟨_, _, rfl, hc, h⟩
  · rintro ⟨c, rest, rfl, hc, h⟩
    exact .one hc h

/-! ### The ends that are left -/

theorem mem_suffixes : rest ∈ suffixes text ↔ rest <:+ text := by
  induction text with
  | nil => rw [suffixes, List.mem_singleton, List.suffix_nil]
  | cons c text ih => rw [suffixes, List.mem_cons, ih, List.suffix_cons_iff]

/-- Texts each of which is an end of those before it. -/
def Ends (left : List (List Char)) : Prop := left.Pairwise fun longer shorter ↦ shorter <:+ longer

theorem ends_suffixes (text : List Char) : Ends (suffixes text) := by
  induction text with
  | nil => exact List.pairwise_singleton _ _
  | cons c text ih =>
    refine List.pairwise_cons.mpr ⟨fun rest hrest ↦ ?_, ih⟩
    exact (mem_suffixes.mp hrest).trans (List.suffix_cons c text)

/-- What is left of a text behind its first character, if that fits a piece. -/
private def behind (p : Piece) : List Char → Option (List Char)
  | c :: text => if p.fits c then some text else none
  | [] => none

private theorem behind_eq_some : behind p text = some rest ↔
    ∃ c, text = c :: rest ∧ p.fits c = true := by
  cases text with
  | nil => simp [behind]
  | cons c text =>
    simp only [behind, Option.ite_none_right_eq_some, Option.some.injEq, List.cons.injEq]
    constructor
    · rintro ⟨hc, rfl⟩
      exact ⟨c, ⟨rfl, rfl⟩, hc⟩
    · rintro ⟨_, ⟨rfl, rfl⟩, hc⟩
      exact ⟨hc, rfl⟩

private theorem leftAfter_one (hp : p ≠ .anyText) :
    leftAfter (p :: ps) left = leftAfter ps (left.filterMap (behind p)) := by
  rw [leftAfter]
  · congr 2
  · exact hp

private theorem Ends.behind (h : Ends left) (p : Piece) : Ends (left.filterMap (behind p)) := by
  refine List.Pairwise.filterMap (Glob.behind p) (fun longer shorter hend rest hrest rest' hrest' ↦ ?_) h
  obtain ⟨c, rfl, -⟩ := behind_eq_some.mp hrest
  obtain ⟨d, rfl, -⟩ := behind_eq_some.mp hrest'
  have hlength := hend.length_le
  simp only [List.length_cons] at hlength
  exact List.suffix_of_suffix_length_le ((List.suffix_cons d rest').trans hend)
    (List.suffix_cons c rest) (by omega)

/-- What may be left of texts that are ends of each other is what is left of one of them behind a
start that fits. -/
theorem mem_leftAfter (h : Ends left) : rest ∈ leftAfter ps left ↔
    ∃ text ∈ left, ∃ taken, text = taken ++ rest ∧ Fits ps taken := by
  induction ps generalizing left with
  | nil =>
    rw [leftAfter]
    constructor
    · exact fun hrest ↦ ⟨rest, hrest, [], rfl, .nil⟩
    · rintro ⟨text, htext, taken, rfl, hfits⟩
      rwa [fits_nil_iff.mp hfits] at htext
  | cons p ps ih =>
    by_cases hp : p = .anyText
    · subst hp
      cases left with
      | nil => simp [leftAfter]
      | cons longest left =>
        rw [leftAfter, ih (ends_suffixes longest)]
        constructor
        · rintro ⟨text, htext, taken, rfl, hfits⟩
          obtain ⟨skipped, hskipped⟩ := mem_suffixes.mp htext
          exact ⟨longest, List.mem_cons_self, skipped ++ taken,
            by rw [← hskipped, List.append_assoc], .anyText skipped hfits⟩
        · rintro ⟨text, htext, whole, rfl, hwhole⟩
          obtain ⟨skipped, taken, rfl, hfits⟩ := fits_anyText_iff.mp hwhole
          refine ⟨taken ++ rest, mem_suffixes.mpr ?_, taken, rfl, hfits⟩
          have hend : taken ++ rest <:+ skipped ++ taken ++ rest :=
            ⟨skipped, (List.append_assoc ..).symm⟩
          -- Every text that may be left is an end of the longest.
          rcases List.mem_cons.mp htext with hlongest | hshorter
          · exact hlongest ▸ hend
          · exact hend.trans ((List.pairwise_cons.mp h).1 _ hshorter)
    · rw [leftAfter_one hp, ih (h.behind p)]
      constructor
      · rintro ⟨text, htext, taken, rfl, hfits⟩
        obtain ⟨whole, hwhole, hbehind⟩ := List.mem_filterMap.mp htext
        obtain ⟨c, rfl, hc⟩ := behind_eq_some.mp hbehind
        exact ⟨_, hwhole, c :: taken, rfl, .one hc hfits⟩
      · rintro ⟨text, htext, whole, rfl, hwhole⟩
        obtain ⟨c, taken, rfl, hc, hfits⟩ := (fits_one_iff hp).mp hwhole
        exact ⟨taken ++ rest,
          List.mem_filterMap.mpr ⟨_, htext, behind_eq_some.mpr ⟨c, rfl, hc⟩⟩, taken, rfl, hfits⟩

/-! ### Whole texts and paths -/

/-- A pattern matches the texts that fit its pieces. -/
theorem matches_iff {pattern : String} : matches_ pattern text = true ↔ Fits (parts pattern) text := by
  have hleft : matches_ pattern text = true ↔ [] ∈ leftAfter (parts pattern) [text] := by
    simp [matches_, parts]
  rw [hleft, mem_leftAfter (List.pairwise_singleton _ _)]
  simp

/-- A path with slashes between its directories. -/
def slashed (path : String) : List Char := path.toList.map fun c ↦ if c = '\\' then '/' else c

theorem matchesAny_singleton {path pattern : String} (hpath : path ≠ "") :
    matchesAny (some path) [pattern] = matchesPath (slashed path) pattern := by
  have hempty : path.isEmpty = false := by simpa using hpath
  simp [matchesAny, hempty, slashed]

private theorem toList_anyDirectory (q : String) :
    ("**/" ++ q).toList = '*' :: '*' :: '/' :: q.toList := by
  rw [String.toList_append]
  rfl

private theorem parts_anyDirectory (q : String) :
    parts ("**/" ++ q) = .anyText :: .anyText :: .char '/' :: parts q := by
  rw [parts, toList_anyDirectory]
  rfl

/-- Two stars and a slash take any text that ends with a slash. -/
private theorem fits_anyDirectory : Fits (.anyText :: .anyText :: .char '/' :: ps) text ↔
    ∃ pre rest, text = pre ++ rest ∧ pre.getLast? = some '/' ∧ Fits ps rest := by
  constructor
  · intro h
    obtain ⟨first, behind, rfl, hbehind⟩ := fits_anyText_iff.mp h
    obtain ⟨second, slash, rfl, hslash⟩ := fits_anyText_iff.mp hbehind
    obtain ⟨c, rest, rfl, hc, hrest⟩ := (fits_one_iff (by simp)).mp hslash
    obtain rfl : c = '/' := of_decide_eq_true hc
    exact ⟨first ++ second ++ ['/'], rest, by simp, by simp, hrest⟩
  · rintro ⟨pre, rest, rfl, hlast, h⟩
    obtain ⟨first, rfl⟩ := List.getLast?_eq_some_iff.mp hlast
    rw [List.append_assoc]
    exact .anyText first (.anyText [] (.one rfl h))

/-- A pattern that begins with two stars and a slash matches a path if the rest of the pattern
matches the path as a whole from the start or from behind some slash on, where a backslash counts as
a slash. A pattern matches a text as a whole if this fits its pieces. -/
theorem matchesAny_anyDirectory {path : String} (hpath : path ≠ "") (q : String) :
    (matchesAny (some path) ["**/" ++ q] = true ↔ ∃ pre rest, slashed path = pre ++ rest ∧
      (pre = [] ∨ pre.getLast? = some '/') ∧ matches_ q rest = true) ∧
    ∀ rest, matches_ q rest = true ↔ Fits (parts q) rest := by
  refine ⟨?_, fun rest ↦ matches_iff⟩
  rw [matchesAny_singleton hpath, matchesPath, toList_anyDirectory, Bool.or_eq_true]
  simp only [String.ofList_toList, matches_iff, parts_anyDirectory, fits_anyDirectory]
  constructor
  · rintro (⟨pre, rest, heq, hlast, hfits⟩ | hfits)
    · exact ⟨pre, rest, heq, .inr hlast, hfits⟩
    · exact ⟨[], slashed path, rfl, .inl rfl, hfits⟩
  · rintro ⟨pre, rest, heq, rfl | hlast, hfits⟩
    · exact .inr (by rwa [heq])
    · exact .inl ⟨pre, rest, heq, hlast, hfits⟩

/-- A source set is found below another directory, whichever separators the path has. -/
theorem matchesAny_anyDirectory_nested : "mod\\src/test\\A.java" ≠ "" ∧
    matchesAny (some "mod\\src/test\\A.java") ["**/" ++ "src/[a-t]est/?.*"] = true :=
  ⟨by decide, (matchesAny_anyDirectory (by decide) _).1.mpr
    ⟨"mod/".toList, "src/test/A.java".toList, by decide, .inr (by decide), by decide⟩⟩

end GuardLint.Glob
