import Mathlib.Logic.Basic
import TagLang.Command.Files

/-!
# Writing one file

`FileTree.SavedAt` says that a tree comes from another one by writing a file: the path holds the
content, every other place holds what it held, and the directories are the same. That is what
`FileTree.write?` makes (`FileTree.savedAt_of_write?`), and it makes it whenever the path leads to a
place that is no directory (`FileTree.SavedAt.exists_write?`).

Where a path leads is a matter of the directories alone, and a new file stands in a directory that
was there before (`FileTree.Within`). So the file is read back under the path that it was written
under.
-/

namespace TagLang

namespace FileTree

variable {t : FileTree} {place here : List String} {path content : String}

/-! ## Places -/

theorem lookup_put_self (place : List String) (content : String)
    (files : List (List String × String)) :
    (put place content files).lookup place = some content := by
  induction files with
  | nil => exact List.lookup_cons_self
  | cons file files ih =>
    obtain ⟨other, old⟩ := file
    rw [put]
    split
    · exact List.lookup_cons_self
    · next hne => rw [List.lookup_cons, beq_false_of_ne (Ne.symm hne), ih]

theorem lookup_put_of_ne {place other : List String} (h : other ≠ place) (content : String)
    (files : List (List String × String)) :
    (put place content files).lookup other = files.lookup other := by
  induction files with
  | nil => rw [put, List.lookup_cons, beq_false_of_ne h]
  | cons file files ih =>
    obtain ⟨first, old⟩ := file
    rw [put]
    split
    · next heq => rw [heq, List.lookup_cons, List.lookup_cons, beq_false_of_ne h]
    · rw [List.lookup_cons, List.lookup_cons, ih]

/-- Files keep their places, and there is at most one more. -/
theorem mem_put_places {place other : List String} {content : String}
    {files : List (List String × String)} :
    other ∈ (put place content files).map Prod.fst ↔
      other = place ∨ other ∈ files.map Prod.fst := by
  induction files with
  | nil => simp [put]
  | cons file files ih =>
    obtain ⟨first, old⟩ := file
    rw [put]
    split
    · next heq => simp [heq]
    · simp only [List.map_cons, List.mem_cons, ih, or_left_comm]

theorem isDirectory_iff {directory : List String} :
    t.isDirectory directory = true ↔ (∃ folder ∈ t.home :: t.folders, directory <+: folder) ∨
      ∃ place ∈ t.files.map Prod.fst, directory <+: place ∧ directory ≠ place := by
  have hproper : ∀ place : List String,
      (directory.isPrefixOf place && decide (directory.length < place.length)) = true ↔
        directory <+: place ∧ directory ≠ place := by
    intro place
    rw [Bool.and_eq_true, List.isPrefixOf_iff_prefix, decide_eq_true_eq]
    refine and_congr_right fun h => ?_
    rw [Nat.lt_iff_le_and_ne, and_iff_right h.length_le]
    exact not_congr ⟨h.eq_of_length, fun heq => heq ▸ rfl⟩
  rw [isDirectory, Bool.or_eq_true, List.any_eq_true, List.any_eq_true]
  simp only [hproper, List.isPrefixOf_iff_prefix, List.mem_map, exists_exists_and_eq_and]

/-- Everything on the way to a directory is one. -/
theorem isDirectory_of_isPrefix {directory : List String} (hpart : directory <+: place)
    (h : t.isDirectory place = true) : t.isDirectory directory = true := by
  rw [isDirectory_iff] at h ⊢
  rcases h with ⟨folder, hfolder, hbelow⟩ | ⟨file, hfile, hbelow, hne⟩
  · exact .inl ⟨folder, hfolder, hpart.trans hbelow⟩
  · refine .inr ⟨file, hfile, hpart.trans hbelow, ?_⟩
    rintro rfl
    exact hne (hbelow.eq_of_length (Nat.le_antisymm hbelow.length_le hpart.length_le))

theorem isDirectory_home (t : FileTree) : t.isDirectory t.home = true :=
  isDirectory_iff.2 (.inl ⟨t.home, List.mem_cons_self, List.prefix_rfl⟩)

/-! ## Where paths lead -/

/-- A place is the root, or something in a directory. -/
def Within (t : FileTree) (place : List String) : Prop :=
  place = [] ∨ t.isDirectory place.dropLast = true

theorem Within.dropLast (h : t.Within place) : t.Within place.dropLast := by
  rcases h with rfl | h
  · exact .inl rfl
  · exact .inr (isDirectory_of_isPrefix (List.dropLast_prefix _) h)

theorem within_of_follow {names : List String} (hhere : t.Within here)
    (h : t.follow here names = some place) : t.Within place := by
  induction names generalizing here with
  | nil =>
    obtain rfl := Option.some.inj h
    exact hhere
  | cons name names ih =>
    rw [follow] at h
    split at h
    · cases h
    · next hdirectory =>
      split at h
      · exact ih hhere h
      · split at h
        · exact ih hhere.dropLast h
        · split at h
          · cases h
          · refine ih (.inr ?_) h
            rw [List.dropLast_concat]
            simpa using hdirectory

theorem follow_of_resolve? (h : t.resolve? path = some place) :
    t.follow (t.start path) (names path) = some place := by
  unfold resolve? at h
  split at h
  · cases h
  · exact h

theorem within_start (t : FileTree) (path : String) : t.Within (t.start path) := by
  unfold start
  split
  · exact .inl rfl
  · exact .inr (isDirectory_of_isPrefix (List.dropLast_prefix _) t.isDirectory_home)

theorem within_of_resolve? (h : t.resolve? path = some place) : t.Within place :=
  within_of_follow (t.within_start path) (follow_of_resolve? h)

/-- Paths lead to the same places in trees with the same directories, from the same one. -/
theorem resolve?_congr {before after : FileTree}
    (h : ∀ place, after.isDirectory place = before.isDirectory place)
    (hhome : after.home = before.home) (path : String) :
    after.resolve? path = before.resolve? path := by
  have hfollow : ∀ names here, after.follow here names = before.follow here names := by
    intro names
    induction names with
    | nil => exact fun _ => rfl
    | cons name names ih =>
      intro here
      simp only [follow, h, ih]
  simp only [resolve?, start, hhome, hfollow]

/-! ## Writing -/

/-- What stands above a place that is in a directory is a directory. -/
theorem Within.isDirectory_of_above {directory : List String} (h : t.Within place)
    (habove : directory <+: place) (hne : directory ≠ place) : t.isDirectory directory = true := by
  rcases h with rfl | h
  · exact absurd (List.prefix_nil.1 habove) hne
  · rcases List.eq_nil_or_concat place with rfl | ⟨names, name, rfl⟩
    · exact absurd (List.prefix_nil.1 habove) hne
    · rw [List.concat_eq_append] at habove hne h
      rw [List.dropLast_concat] at h
      rcases List.prefix_concat_iff.1 habove with heq | habove
      · exact absurd heq hne
      · exact isDirectory_of_isPrefix habove h

/-- A file that is written into a directory makes no directory. -/
theorem isDirectory_put (h : t.Within place) (content : String) (directory : List String) :
    { t with files := put place content t.files }.isDirectory directory =
      t.isDirectory directory := by
  rw [Bool.eq_iff_iff]
  constructor
  · intro hdirectory
    rcases isDirectory_iff.1 hdirectory with hfolder | ⟨file, hfile, habove, hne⟩
    · exact isDirectory_iff.2 (.inl hfolder)
    · rcases mem_put_places.1 hfile with rfl | hfile
      · exact h.isDirectory_of_above habove hne
      · exact isDirectory_iff.2 (.inr ⟨file, hfile, habove, hne⟩)
  · intro hdirectory
    rcases isDirectory_iff.1 hdirectory with hfolder | ⟨file, hfile, habove, hne⟩
    · exact isDirectory_iff.2 (.inl hfolder)
    · exact isDirectory_iff.2 (.inr ⟨file, mem_put_places.2 (.inr hfile), habove, hne⟩)

/-- One tree comes from another by writing a file. -/
structure SavedAt (before after : FileTree) (path content : String) : Prop where
  writable : ∃ place, before.resolve? path = some place ∧ before.isDirectory place = false
  written : after.read? path = some content
  others : ∀ place, before.resolve? path ≠ some place →
    after.files.lookup place = before.files.lookup place
  directories : ∀ place, after.isDirectory place = before.isDirectory place
  home : after.home = before.home

theorem write?_eq_some_iff {after : FileTree} :
    t.write? path content = some after ↔
      ∃ place, t.resolve? path = some place ∧ t.isDirectory place = false ∧
        after = { t with files := put place content t.files } := by
  unfold write?
  rw [Option.bind_eq_bind, Option.bind_eq_some_iff]
  refine exists_congr fun place => and_congr_right fun _ => ?_
  cases t.isDirectory place with
  | true => simp
  | false => simp [eq_comm]

/-- **Writing changes one file**, and what was written is read back. -/
theorem savedAt_of_write? {after : FileTree} (h : t.write? path content = some after) :
    t.SavedAt after path content := by
  obtain ⟨place, hresolve, hplace, rfl⟩ := write?_eq_some_iff.1 h
  have hdirectories := isDirectory_put (within_of_resolve? hresolve) content
  refine ⟨⟨place, hresolve, hplace⟩, ?_, fun other hother => ?_, hdirectories, rfl⟩
  · rw [read?, resolve?_congr hdirectories rfl, hresolve]
    exact lookup_put_self place content t.files
  · refine lookup_put_of_ne ?_ content t.files
    rintro rfl
    exact hother hresolve

theorem SavedAt.read?_of_ne {after : FileTree} (h : t.SavedAt after path content) {other : String}
    (hother : t.resolve? other ≠ t.resolve? path) : after.read? other = t.read? other := by
  rw [read?, read?, resolve?_congr h.directories h.home]
  cases hresolve : t.resolve? other with
  | none => rfl
  | some place => exact h.others place fun hpath => hother (hresolve.trans hpath.symm)

theorem exists_savedAt (hresolve : t.resolve? path = some place)
    (hplace : t.isDirectory place = false) (content : String) :
    ∃ after, t.SavedAt after path content :=
  ⟨_, savedAt_of_write? (write?_eq_some_iff.2 ⟨place, hresolve, hplace, rfl⟩)⟩

/-- What can be written is written. -/
theorem SavedAt.exists_write? {after : FileTree} (h : t.SavedAt after path content) :
    ∃ written, t.write? path content = some written := by
  obtain ⟨place, hresolve, hplace⟩ := h.writable
  exact ⟨_, write?_eq_some_iff.2 ⟨place, hresolve, hplace, rfl⟩⟩

end FileTree

end TagLang
