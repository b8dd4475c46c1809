import GuardLint.Files.Entry

/-!
# Written files

Files are written over files. That changes the bytes at the places written to and nothing else: what
is a directory stays one, nothing appears or goes, and every path leads where it led before. Of
several files written to one place the last stays.
-/

namespace GuardLint

namespace Entry

/-- The bytes where names lead, if a file stands there. -/
def bytesAt? (e : Entry) (names : List String) : Option (List UInt8) := (e.find? names).bind bytes?

/-- Two trees have files and directories at the same places. -/
def SameLayout (e e' : Entry) : Prop :=
  ∀ names, (e'.find? names).map isDirectory = (e.find? names).map isDirectory

private theorem lookup_entries (name other : String) (e : Entry) (entries : List (String × Entry)) :
    List.lookup other ((name, e) :: entries) =
      if other = name then some e else entries.lookup other := by
  by_cases h : other = name
  · subst h
    simp
  · simp [List.lookup_cons, beq_false_of_ne h, h]

theorem lookup_setEntry (name other : String) (e : Entry) (entries : List (String × Entry)) :
    (setEntry name e entries).lookup other =
      if other = name then some e else entries.lookup other := by
  induction entries with
  | nil => exact lookup_entries name other e []
  | cons r rest ih =>
    obtain ⟨n, old⟩ := r
    unfold setEntry
    split
    · next h =>
      subst h
      rw [lookup_entries, lookup_entries]
      split <;> rfl
    · next h =>
      rw [lookup_entries, lookup_entries, ih]
      by_cases ho : other = n
      · subst ho
        rw [if_pos rfl, if_neg h, if_pos rfl]
      · rw [if_neg ho, if_neg ho]

/-- Names that lead to a file are left by one entry after the other. -/
private theorem find?_cons_eq_some {e c : Entry} {name : String} {names : List String}
    (h : e.find? (name :: names) = some c) : ∃ entries child, e = .directory entries ∧
      entries.lookup name = some child ∧ child.find? names = some c := by
  cases e with
  | file bytes => cases h
  | directory entries =>
    cases hc : entries.lookup name with
    | none => simp [find?, child?, hc] at h
    | some child => exact ⟨entries, child, rfl, hc, by simpa [find?, child?, hc] using h⟩

private theorem find?_put_cons {entries : List (String × Entry)} {name : String} {child new : Entry}
    (hc : entries.lookup name = some child) (names : List String) (other : String)
    (others : List String) :
    (put (.directory entries) (name :: names) new).find? (other :: others) =
      if other = name then (put child names new).find? others
      else (directory entries).find? (other :: others) := by
  simp only [put, hc, Option.getD_some, find?, child?, lookup_setEntry]
  by_cases h : other = name <;> simp only [h, if_true, if_false]

/-- A file written over a file leaves the layout as it is. -/
theorem sameLayout_put {e : Entry} {names : List String} {old new : List UInt8}
    (h : e.find? names = some (.file old)) : SameLayout e (e.put names (.file new)) := by
  intro others
  induction names generalizing e others with
  | nil =>
    obtain rfl : e = .file old := Option.some.inj h
    cases others <;> rfl
  | cons name names ih =>
    obtain ⟨entries, child, rfl, hc, hchild⟩ := find?_cons_eq_some h
    cases others with
    | nil => rfl
    | cons other others =>
      rw [find?_put_cons hc]
      split
      · next ho => rw [ih hchild, find?, child?, ho, hc]
      · rfl

/-- A file written over a file changes the bytes at its place alone. -/
theorem bytesAt?_put {e : Entry} {names : List String} {old new : List UInt8}
    (h : e.find? names = some (.file old)) (others : List String) :
    (e.put names (.file new)).bytesAt? others =
      if others = names then some new else e.bytesAt? others := by
  induction names generalizing e others with
  | nil =>
    obtain rfl : e = .file old := Option.some.inj h
    cases others <;> rfl
  | cons name names ih =>
    obtain ⟨entries, child, rfl, hc, hchild⟩ := find?_cons_eq_some h
    cases others with
    | nil => rfl
    | cons other others =>
      have hrec := ih hchild others
      simp only [bytesAt?] at hrec ⊢
      rw [find?_put_cons hc]
      by_cases ho : other = name
      · rw [if_pos ho, hrec]
        simp [ho, find?, child?, hc]
      · simp [ho]

/-- Where the layout is the same, paths lead to the same places. -/
theorem SameLayout.locate? {e e' : Entry} (h : SameLayout e e') (here names : List String) :
    e'.locate? here names = e.locate? here names := by
  have hsome : ∀ ns, (e'.find? ns).isSome = (e.find? ns).isSome := fun ns ↦ by
    rw [← Option.isSome_map (f := isDirectory), h ns, Option.isSome_map]
  induction names generalizing here with
  | nil => rfl
  | cons name names ih => simp only [Entry.locate?, h here, hsome, ih]

end Entry

namespace Workspace

variable {w : Workspace}

theorem exists_place {p : Path} {old : List UInt8} (h : w.entry? p = some (.file old)) :
    ∃ names, w.place? p = some names ∧ w.root.find? names = some (.file old) :=
  Option.bind_eq_some_iff.mp h

/-- Files and directories are at the same places, and paths begin at the same place. -/
structure SameLayout (w w' : Workspace) : Prop where
  home : w'.home = w.home
  root : w.root.SameLayout w'.root

theorem SameLayout.place? {w' : Workspace} (h : w.SameLayout w') (p : Path) :
    w'.place? p = w.place? p := by
  rw [Workspace.place?, Workspace.place?, h.home, h.root.locate?]

/-- What one write over a file does. -/
private theorem write_spec {p : Path} {old : List UInt8} (h : w.entry? p = some (.file old))
    (new : List UInt8) : w.SameLayout (w.write p new) ∧ ∀ names,
      (w.write p new).root.bytesAt? names =
        if w.place? p = some names then some new else w.root.bytesAt? names := by
  obtain ⟨names, hp, hfile⟩ := exists_place h
  rw [write, hp]
  refine ⟨⟨rfl, Entry.sameLayout_put hfile⟩, fun others ↦ ?_⟩
  rw [Entry.bytesAt?_put hfile]
  simp only [Option.some.injEq, eq_comm (a := names)]

/-- What stands at a place where a file is looked for in workspaces of the same layout. -/
private theorem SameLayout.exists_file {w' : Workspace} (h : w.SameLayout w') {p : Path}
    (hp : ∃ old, w.entry? p = some (.file old)) : ∃ old, w'.entry? p = some (.file old) := by
  obtain ⟨old, hp⟩ := hp
  obtain ⟨names, hn, hfile⟩ := exists_place hp
  have hlayout := h.root names
  rw [hfile] at hlayout
  rw [ entry?, h.place? p, hn, Option.bind_some]
  cases he : w'.root.find? names with
  | none => rw [he] at hlayout; cases hlayout
  | some e =>
    cases e with
    | file bytes => exact ⟨bytes, rfl⟩
    | directory entries => rw [he] at hlayout; cases hlayout

/-- Files written over files leave the layout as it is, and at each place stays the last file that
was written there, or what was there before. -/
theorem foldl_write {files : List (Path × List UInt8)}
    (h : ∀ f ∈ files, ∃ old, w.entry? f.1 = some (.file old)) :
    w.SameLayout (files.foldl (fun w f ↦ w.write f.1 f.2) w) ∧ ∀ names,
      (files.foldl (fun w f ↦ w.write f.1 f.2) w).root.bytesAt? names =
        match files.reverse.find? fun f ↦ decide (w.place? f.1 = some names) with
        | some f => some f.2
        | none => w.root.bytesAt? names := by
  induction files generalizing w with
  | nil => exact ⟨⟨rfl, fun _ ↦ rfl⟩, fun _ ↦ rfl⟩
  | cons f files ih =>
    obtain ⟨old, hf⟩ := h f List.mem_cons_self
    obtain ⟨hone, hbytes⟩ := write_spec hf f.2
    obtain ⟨hrest, hlast⟩ :=
      ih fun g hg ↦ hone.exists_file (h g (List.mem_cons_of_mem f hg))
    refine ⟨⟨hrest.home.trans hone.home, fun names ↦ (hrest.root names).trans (hone.root names)⟩,
      fun names ↦ ?_⟩
    rw [List.foldl_cons, hlast, List.reverse_cons, List.find?_append]
    simp only [hone.place?, hbytes]
    cases files.reverse.find? fun g ↦ decide (w.place? g.1 = some names) with
    | some g => rfl
    | none =>
      by_cases hp : w.place? f.1 = some names <;> simp [hp]

end Workspace

end GuardLint
