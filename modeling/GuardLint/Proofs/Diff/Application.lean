import GuardLint.Diff.Sides
import GuardLint.Proofs.Diff.Patch

/-!
# What a diff does to the text it was made for

The hunks of an alignment, applied to the one text, make the other. The argument goes through the
changes one by one: before the first hunk a kept line is passed over, in a hunk a line is passed
over, taken away or put in. It rests on each line of the alignment being a line of the text as well,
up to the last line that is shown: what a form feed or a missing line feed joins there, the diff
cannot take apart.
-/

namespace GuardLint.Diff

variable {Line : Type} {c : Change Line} {changes : List (Change Line × Bool)}

/-- The changes up to the last that is shown, without the last of all: after their lines the diff or
the part of the text that it speaks of goes on. -/
def followed : List (Change Line × Bool) → List (Change Line)
  | [] => []
  | (c, isShown) :: changes =>
    if (isShown || changes.any Prod.snd) && !changes.isEmpty then c :: followed changes
    else followed changes

theorem followed_subset (s : Change Line × Bool) : followed changes ⊆ followed (s :: changes) := by
  intro c hc
  rw [followed]
  split
  · exact List.mem_cons_of_mem _ hc
  · exact hc

/-- Only lines that are kept are left out. -/
def Quiet (changes : List (Change Line × Bool)) : Prop :=
  ∀ s ∈ changes, s.2 = false → s.1.isEdit = false

theorem map_fst_shown (left : Nat) (changes : List (Change Line)) :
    (shown left changes).map Prod.fst = changes := by
  fun_induction shown left changes <;> simp_all

theorem quiet_shown (left : Nat) (changes : List (Change Line)) : Quiet (shown left changes) := by
  fun_induction shown left changes with
  | case1 => simp [Quiet]
  | case2 left c changes hedit ih => exact List.forall_mem_cons.2 ⟨by simp, ih⟩
  | case3 left c changes hedit ih => exact List.forall_mem_cons.2 ⟨fun _ ↦ by simpa using hedit, ih⟩

section Hunks

variable {old new : Nat} {next : Bool} {hunks : List (Hunk Line)}

/-- A change that is put in front of hunks is the first change of the first. -/
theorem Hunk.cons_eq (old new : Nat) (c : Change Line) (next : Bool) (hunks : List (Hunk Line)) :
    ∃ changes others, Hunk.cons old new c next hunks = ⟨old, new, c :: changes⟩ :: others ∧
      changes ++ others.flatMap Hunk.changes = hunks.flatMap Hunk.changes ∧ others ⊆ hunks := by
  cases hunks with
  | nil => exact ⟨[], [], rfl, rfl, by simp⟩
  | cons h hunks =>
    cases next with
    | true => exact ⟨h.changes, hunks, rfl, rfl, by simp⟩
    | false => exact ⟨[], h :: hunks, rfl, rfl, by simp⟩

/-- Together the hunks have the changes that are shown. -/
theorem flatMap_changes_hunksFrom (old new : Nat) (changes : List (Change Line × Bool)) :
    (hunksFrom old new changes).flatMap Hunk.changes =
      (changes.filter Prod.snd).map Prod.fst := by
  fun_induction hunksFrom old new changes with
  | case1 => rfl
  | case2 old new c changes hunks ih =>
    obtain ⟨first, others, heq, hsame, -⟩ :=
      Hunk.cons_eq old new c ((changes.head?.map Prod.snd).getD false) hunks
    simpa [heq, ← ih] using hsame
  | case3 old new c isShown changes hunks hshown ih => simpa [hshown] using ih

/-- No hunk is without changes. -/
theorem changes_ne_nil (old new : Nat) (changes : List (Change Line × Bool)) :
    ∀ h ∈ hunksFrom old new changes, h.changes ≠ [] := by
  fun_induction hunksFrom old new changes with
  | case1 => simp
  | case2 old new c changes hunks ih =>
    obtain ⟨first, others, heq, -, hsub⟩ :=
      Hunk.cons_eq old new c ((changes.head?.map Prod.snd).getD false) hunks
    rw [heq, List.forall_mem_cons]
    exact ⟨by simp, fun h hh ↦ ih h (hsub hh)⟩
  | case3 old new c isShown changes hunks hshown ih => exact ih

/-- The first hunk begins where the first change is, if that is shown, and later otherwise. -/
theorem old_le_oldStart (old new : Nat) (changes : List (Change Line × Bool)) :
    ∀ h ∈ (hunksFrom old new changes).head?, old ≤ h.oldStart := by
  fun_induction hunksFrom old new changes with
  | case1 => simp
  | case2 old new c changes hunks ih =>
    obtain ⟨first, others, heq, -⟩ :=
      Hunk.cons_eq old new c ((changes.head?.map Prod.snd).getD false) hunks
    simp [heq]
  | case3 old new c isShown changes hunks hshown ih =>
    exact fun h hh ↦ Nat.le_trans (Nat.le_add_right ..) (ih h hh)

theorem hunksFrom_shown (old new : Nat) (c : Change Line) (changes : List (Change Line × Bool)) :
    ∃ first others, hunksFrom old new ((c, true) :: changes) = ⟨old, new, first⟩ :: others := by
  obtain ⟨first, others, heq, -⟩ := Hunk.cons_eq old new c
    ((changes.head?.map Prod.snd).getD false)
    (hunksFrom (old + c.old?.toList.length) (new + c.new?.toList.length) changes)
  exact ⟨_, _, heq⟩

theorem hunksFrom_eq_nil (old new : Nat) (h : changes.any Prod.snd = false) :
    hunksFrom old new changes = [] := by
  induction changes generalizing old new with
  | nil => rfl
  | cons s changes ih =>
    simp only [List.any_cons, Bool.or_eq_false_iff] at h
    simp [hunksFrom, h.1, ih _ _ h.2]

end Hunks

section Application

variable [DecidableEq Line] {old new : Nat} {hunks : List (Hunk Line)}

/-- A line before the first hunk is passed over. -/
theorem patchLines_keep (h : ∀ k ∈ hunks.head?, old + 1 ≤ k.oldStart) (line : Line)
    (lines : List Line) :
    patchLines old new hunks (line :: lines) =
      (patchLines (old + 1) (new + 1) hunks lines).map (line :: ·) := by
  cases hunks with
  | nil => rfl
  | cons k hunks =>
    have hk := h k rfl
    obtain ⟨gap, hgap⟩ := Nat.exists_eq_add_of_le hk
    have hold : k.oldStart - old = gap + 1 := by omega
    have hnew : k.oldStart - (old + 1) = gap := by omega
    simp only [patchLines, hold, hnew, List.drop_succ_cons, List.take_succ_cons]
    rw [apply_ite (Option.map _), Option.map_map, Option.map_none]
    refine ite_congr (propext ?_) (fun _ ↦ rfl) fun _ ↦ rfl
    simp only [List.length_cons, Nat.add_le_add_iff_right]
    constructor
    · rintro ⟨-, hn, hfits⟩
      exact ⟨hk, by omega, hfits⟩
    · rintro ⟨-, hn, hfits⟩
      exact ⟨by omega, by omega, hfits⟩

/-- A hunk that begins where the texts stand. -/
theorem patchLines_here (old new : Nat) (changes : List (Change Line)) (hunks : List (Hunk Line))
    (lines : List Line) :
    patchLines old new (⟨old, new, changes⟩ :: hunks) lines =
      if changes.filterMap Change.old? <+: lines then
        (patchLines (old + (changes.filterMap Change.old?).length)
          (new + (changes.filterMap Change.new?).length) hunks
          (lines.drop (changes.filterMap Change.old?).length)).map
          (changes.filterMap Change.new? ++ ·)
      else none := by
  simp [patchLines]

/-- A change in front of hunks takes its line away and puts its line in. -/
theorem patchLines_cons {next : Bool}
    (hnext : next = true → ∃ first others, hunks =
      ⟨old + c.old?.toList.length, new + c.new?.toList.length, first⟩ :: others)
    (lines : List Line) :
    patchLines old new (Hunk.cons old new c next hunks) (c.old?.toList ++ lines) =
      (patchLines (old + c.old?.toList.length) (new + c.new?.toList.length) hunks lines).map
        (c.new?.toList ++ ·) := by
  have hone : patchLines old new (⟨old, new, [c]⟩ :: hunks) (c.old?.toList ++ lines) =
      (patchLines (old + c.old?.toList.length) (new + c.new?.toList.length) hunks lines).map
        (c.new?.toList ++ ·) := by
    cases c <;> simp [patchLines_here, List.filterMap_cons, Change.old?, Change.new?]
  cases hunks with
  | nil => exact hone
  | cons h hunks =>
    cases next with
    | false => exact hone
    | true =>
      obtain ⟨first, others, heq⟩ := hnext rfl
      obtain ⟨rfl, rfl⟩ := List.cons.inj heq
      cases c <;>
        simp [patchLines_here, Hunk.cons, List.filterMap_cons, Change.old?, Change.new?,
          apply_ite (Option.map _), Function.comp_def, Nat.add_assoc, Nat.add_comm 1]

/-- The hunks from a change on take its line away and put its line in, and leave the rest to those
from the next change on. -/
theorem patchLines_change {isShown : Bool} (hquiet : isShown = false → c.isEdit = false)
    (lines : List Line) :
    patchLines old new (hunksFrom old new ((c, isShown) :: changes)) (c.old?.toList ++ lines) =
      (patchLines (old + c.old?.toList.length) (new + c.new?.toList.length)
        (hunksFrom (old + c.old?.toList.length) (new + c.new?.toList.length) changes) lines).map
        (c.new?.toList ++ ·) := by
  cases isShown with
  | true =>
    rw [hunksFrom, if_pos rfl, patchLines_cons]
    intro hnext
    cases changes with
    | nil => cases hnext
    | cons d changes =>
      obtain ⟨d, isShown⟩ := d
      obtain rfl : isShown = true := hnext
      exact hunksFrom_shown _ _ d changes
  | false =>
    cases c with
    | keep line => exact patchLines_keep (old_le_oldStart _ _ _) line lines
    | drop line | add line => exact absurd (hquiet rfl) (by simp [Change.isEdit])

end Application

/-- The lines of the old text begin with the line of the first change, if that ends in a line feed
or is the last. -/
theorem feedLines_old {c : Change (List Char)} {changes : List (Change (List Char))}
    (hline : Text.IsLine c.line) (hend : changes = [] ∨ c.line.getLast? = some '\n') :
    Text.feedLines ((c :: changes).filterMap Change.old?).flatten =
      c.old?.toList ++ Text.feedLines (changes.filterMap Change.old?).flatten := by
  have hkept : Text.feedLines (c.line ++ (changes.filterMap Change.old?).flatten) =
      c.line :: Text.feedLines (changes.filterMap Change.old?).flatten := by
    obtain rfl | hend := hend
    · simp [hline.feedLines_eq, Text.feedLines]
    · rw [Text.feedLines_append hend, hline.feedLines_eq, List.singleton_append]
  cases c with
  | add line => simp [Change.old?, List.filterMap_cons]
  | keep line | drop line => simpa [Change.old?, Change.line, List.filterMap_cons] using hkept

/-- Where no line is an edit, the texts have the same lines. -/
theorem filterMap_old_eq_new {changes : List (Change Line)} (h : ∀ c ∈ changes, c.isEdit = false) :
    changes.filterMap Change.old? = changes.filterMap Change.new? := by
  induction changes with
  | nil => rfl
  | cons c changes ih =>
    rw [List.forall_mem_cons] at h
    cases c with
    | keep line => simp [Change.old?, Change.new?, ih h.2]
    | drop line | add line => exact absurd h.1 (by simp [Change.isEdit])

/-- The hunks of an alignment, applied to the lines of the one text, make the other text. -/
theorem patchLines_hunksFrom {changes : List (Change (List Char) × Bool)} (hquiet : Quiet changes)
    (hline : ∀ s ∈ changes, Text.IsLine s.1.line)
    (hend : ∀ c ∈ followed changes, c.line.getLast? = some '\n') (old new : Nat) :
    ∃ lines, patchLines old new (hunksFrom old new changes)
        (Text.feedLines ((changes.map Prod.fst).filterMap Change.old?).flatten) = some lines ∧
      lines.flatten = ((changes.map Prod.fst).filterMap Change.new?).flatten := by
  induction changes generalizing old new with
  | nil => exact ⟨_, rfl, rfl⟩
  | cons s changes ih =>
    obtain ⟨c, isShown⟩ := s
    by_cases hany : ((c, isShown) :: changes).any Prod.snd = true
    · rw [List.any_cons] at hany
      have hnext : changes.map Prod.fst = [] ∨ c.line.getLast? = some '\n' := by
        cases changes with
        | nil => exact .inl rfl
        | cons d changes => exact .inr (hend c (by simp_all [followed]))
      have hrest : ∀ d ∈ followed changes, d.line.getLast? = some '\n' := fun d hd ↦
        hend d (followed_subset _ hd)
      rw [Quiet, List.forall_mem_cons] at hquiet
      rw [List.forall_mem_cons] at hline
      obtain ⟨lines, hlines, hflat⟩ := ih hquiet.2 hline.2 hrest (old + c.old?.toList.length)
        (new + c.new?.toList.length)
      refine ⟨c.new?.toList ++ lines, ?_, ?_⟩
      · rw [List.map_cons, feedLines_old hline.1 hnext, patchLines_change hquiet.1, hlines,
          Option.map_some]
      · cases c <;> simp [Change.new?, List.filterMap_cons, hflat]
    · -- nothing is shown from here on, so nothing changes any more
      rw [Bool.not_eq_true] at hany
      have hkept : ∀ d ∈ ((c, isShown) :: changes).map Prod.fst, d.isEdit = false := by
        intro d hd
        obtain ⟨s, hs, rfl⟩ := List.mem_map.1 hd
        exact hquiet s hs (by simpa using List.any_eq_false.1 hany s hs)
      rw [hunksFrom_eq_nil _ _ hany]
      exact ⟨_, rfl, by rw [Text.flatten_feedLines, filterMap_old_eq_new hkept]⟩

/-- The changes that are shown have lines that end in a line feed, but for the last. -/
theorem pairwise_shown {changes : List (Change (List Char) × Bool)}
    (hend : ∀ c ∈ followed changes, c.line.getLast? = some '\n') :
    ((changes.filter Prod.snd).map Prod.fst).Pairwise fun c _ ↦ c.line.getLast? = some '\n' := by
  induction changes with
  | nil => exact .nil
  | cons s changes ih =>
    obtain ⟨c, isShown⟩ := s
    have hrest := ih fun d hd ↦ hend d (followed_subset _ hd)
    cases isShown with
    | false => exact hrest
    | true =>
      rw [List.filter_cons_of_pos rfl, List.map_cons, List.pairwise_cons]
      refine ⟨fun d hd ↦ hend c ?_, hrest⟩
      cases changes with
      | nil => simp at hd
      | cons e changes => simp [followed]

/-- The lines of a diff before its hunks. -/
def titles (path : String) : List Char := s!"--- a/{path}\n+++ b/{path}\n".toList

theorem titles_eq (path : String) :
    titles path = ("--- a/".toList ++ path.toList ++ ['\n']) ++
      ("+++ b/".toList ++ path.toList ++ ['\n']) := by
  have hmid : "\n+++ b/".toList = '\n' :: "+++ b/".toList := rfl
  have hfeed : "\n".toList = ['\n'] := rfl
  have htext (s : String) : toString s = s := rfl
  simp [titles, htext, hmid, hfeed]

theorem getLast?_titles (path : String) : (titles path).getLast? = some '\n' := by
  rw [titles_eq, ← List.append_assoc, List.getLast?_concat]

/-- A path of one line does not look like the head of a hunk. -/
theorem head?_titles {path : String} (h : '\n' ∉ path.toList) :
    ∀ line ∈ Text.feedLines (titles path), head? line = none := by
  have hline (front : List Char) (hfront : '\n' ∉ front) :
      '\n' ∉ front ++ path.toList := by simp [hfront, h]
  rw [titles_eq, Text.feedLines_append List.getLast?_concat,
    (Text.isLine_concat (hline _ (by decide))).feedLines_eq,
    (Text.isLine_concat (hline _ (by decide))).feedLines_eq]
  simp [head?]

/-- Each change of an alignment is about a line of one of the texts. -/
theorem isLine_of_mem_align {old new : List Char} :
    ∀ c ∈ align (Text.lines old) (Text.lines new), Text.IsLine c.line := by
  intro c hc
  have hold (line : List Char) (h : c.old? = some line) : line ∈ Text.lines old := by
    have hmem := List.mem_filterMap.2 ⟨c, hc, h⟩
    rwa [align, filterMap_old_alignWith] at hmem
  have hnew (line : List Char) (h : c.new? = some line) : line ∈ Text.lines new := by
    have hmem := List.mem_filterMap.2 ⟨c, hc, h⟩
    rwa [align, filterMap_new_alignWith] at hmem
  cases c with
  | keep line | drop line => exact Text.isLine_of_mem_lines line (hold line rfl)
  | add line => exact Text.isLine_of_mem_lines line (hnew line rfl)

theorem isLine_of_mem_shown {old new : List Char} :
    ∀ s ∈ shown 0 (align (Text.lines old) (Text.lines new)), Text.IsLine s.1.line := by
  intro s hs
  have hmem : s.1 ∈ (shown 0 (align (Text.lines old) (Text.lines new))).map Prod.fst :=
    List.mem_map_of_mem hs
  rw [map_fst_shown] at hmem
  exact isLine_of_mem_align _ hmem

/-- Reading a diff gives the hunks it was written from. -/
theorem hunks?_unified {path : String} {old new : List Char}
    (hend : ∀ c ∈ followed (shown 0 (align (Text.lines old) (Text.lines new))),
      c.line.getLast? = some '\n')
    (hpath : ∀ line ∈ Text.feedLines (titles path), head? line = none) :
    hunks? 0 0 (unmark ((Text.feedLines (unified path old new)).dropWhile
      fun line ↦ (head? line).isNone)) =
      some ([], hunks (align (Text.lines old) (Text.lines new))) := by
  cases hall : hunks (align (Text.lines old) (Text.lines new)) with
  | nil => rw [unified, hall]; rfl
  | cons h hs =>
    have hunified : unified path old new = titles path ++ (h :: hs).flatMap Hunk.render := by
      rw [unified, hall]; rfl
    have hchanges : (h :: hs).flatMap Hunk.changes =
        ((shown 0 (align (Text.lines old) (Text.lines new))).filter Prod.snd).map Prod.fst := by
      rw [← hall, hunks, flatMap_changes_hunksFrom]
    have hlines : Text.feedLines ((h :: hs).flatMap Hunk.render) = (h :: hs).flatMap Hunk.lines := by
      refine feedLines_render (hall ▸ changes_ne_nil _ _ _) ?_ ?_
      · rw [hchanges]
        intro c hc
        obtain ⟨s, hs, rfl⟩ := List.mem_map.1 hc
        exact isLine_of_mem_shown s ((List.mem_filter.1 hs).1)
      · rw [hchanges]
        exact pairwise_shown hend
    have hskip : ∀ line ∈ Text.feedLines (titles path), (head? line).isNone = true := fun line hl ↦
      by rw [hpath line hl]; rfl
    have hfirst : ((h :: hs).flatMap Hunk.lines).dropWhile (fun line ↦ (head? line).isNone) =
        (h :: hs).flatMap Hunk.lines := by
      simp [Hunk.lines, head?_head]
    rw [hunified, Text.feedLines_append (getLast?_titles path), hlines,
      List.dropWhile_append_of_pos hskip, hfirst, unmark_lines, hunks?_lines]

/-- The diff of two texts makes the second of the first. -/
theorem patch?_unified {path : String} {old new : List Char}
    (hend : ∀ c ∈ followed (shown 0 (align (Text.lines old) (Text.lines new))),
      c.line.getLast? = some '\n')
    (hpath : ∀ line ∈ Text.feedLines (titles path), head? line = none) :
    patch? old (unified path old new) = some new := by
  obtain ⟨lines, hlines, hflat⟩ :=
    patchLines_hunksFrom (quiet_shown 0 _) isLine_of_mem_shown hend 0 0
  rw [map_fst_shown, align, filterMap_old_alignWith, Text.flatten_lines, ← align] at hlines
  rw [map_fst_shown, align, filterMap_new_alignWith, Text.flatten_lines] at hflat
  rw [patch?, hunks?_unified hend hpath]
  simp [hunks, hlines, hflat]

-- A diff can say that lines lack their line feeds, though `unified` never does.
example : patch? "a".toList
    ("@@ -1 +1 @@\n-a\n\\ No newline at end of file\n" ++
      "+b\n\\ No newline at end of file\n").toList = some "b".toList := by
  decide +kernel

end GuardLint.Diff
