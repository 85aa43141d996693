import Mathlib.Tactic.SplitIfs
import TagLang.Proofs.Command.AllOrNothing
import TagLang.Proofs.Text.Runs

/-!
# Compiling and its input

A program is saved beside its input, under the name of the input with the extension of its format.
If the input has this extension already, it is replaced by the program (`compile_replaces_input`).
Else it is kept, whatever its name is and wherever its path leads through (`compile_keeps_input`).

The two paths differ in their last name only (`FileName.toList_withExtension`), so they lead to it
from the same place. The new name is a proper one, which ends with an extension, and leads to a file
that no other name in this place leads to (`FileTree.name_eq_of_resolve?`), since there are no links
and names are compared exactly; or it is that of the directory above, where no file can be saved.
-/

namespace TagLang

/-! ## Names of files -/

namespace FileName

/-- What can stand behind the last dot of a name. -/
structure IsExtension (extension : String) : Prop where
  ne_nil : extension.toList ≠ []
  dot : '.' ∉ extension.toList
  slash : '/' ∉ extension.toList

/-- The part of a path in front of a name: nothing, or something up to a slash. -/
def IsParent (directory : List Char) : Prop := ∀ c ∈ directory.getLast?, c = '/'

theorem isParent_nil : IsParent [] := by
  rintro _ ⟨⟩

/-- A path whose name has an extension already. What stands before the last dot is not empty, and
not a dot. -/
def HasExtension (path extension : String) : Prop :=
  ∃ directory stem, path.toList = directory ++ (stem ++ '.' :: extension.toList) ∧
    IsParent directory ∧ '/' ∉ stem ∧ stem ≠ [] ∧ stem ≠ ['.']

variable {path extension : String} {directory name stem : List Char}

theorem split_append (hparent : IsParent directory) (hname : '/' ∉ name) :
    split (directory ++ name) = (directory, name) := by
  have hrun : ∀ c ∈ name.reverse, decide (c ≠ '/') = true := fun c hc =>
    decide_eq_true fun heq => hname (heq ▸ List.mem_reverse.1 hc)
  have hstop : ∀ c ∈ directory.reverse.head?, decide (c ≠ '/') = false := fun c hc =>
    decide_eq_false (not_not.2 (hparent c (List.head?_reverse ▸ hc)))
  obtain ⟨htake, hdrop⟩ := takeWhile_append_of_stop hrun hstop
  rw [split, List.reverse_append, htake, hdrop, List.reverse_reverse, List.reverse_reverse]

/-- A path is what stands in front of a name, and a name without a slash. -/
theorem split_spec (path : List Char) :
    path = (split path).1 ++ (split path).2 ∧ IsParent (split path).1 ∧ '/' ∉ (split path).2 := by
  refine ⟨?_, fun c hc => ?_, fun hmem => ?_⟩
  · rw [split, ← List.reverse_append, List.takeWhile_append_dropWhile, List.reverse_reverse]
  · rw [split, List.getLast?_reverse] at hc
    have hstop := List.head?_dropWhile_not (fun c => decide (c ≠ '/')) path.reverse
    rw [Option.mem_def.1 hc] at hstop
    simpa using hstop
  · have hrun := List.all_eq_true.1 List.all_takeWhile _ (List.mem_reverse.1 hmem)
    simp at hrun

theorem stem?_append (hstem : stem ≠ []) {tail : List Char} (htail : '.' ∉ tail) :
    stem? (stem ++ '.' :: tail) = some stem := by
  have hrun : ∀ c ∈ tail.reverse, decide (c ≠ '.') = true := fun c hc =>
    decide_eq_true fun heq => htail (heq ▸ List.mem_reverse.1 hc)
  have hstop : ∀ c ∈ ('.' :: stem.reverse).head?, decide (c ≠ '.') = false := by
    rintro _ ⟨⟩
    rfl
  have hdrop := (takeWhile_append_of_stop hrun hstop).2
  obtain ⟨c, rest, hrest⟩ := List.exists_cons_of_ne_nil (List.reverse_ne_nil_iff.2 hstem)
  have hsplit : (stem ++ '.' :: tail).reverse = tail.reverse ++ '.' :: stem.reverse := by simp
  rw [stem?, hsplit, hdrop, hrest]
  dsimp only
  rw [← hrest, List.reverse_reverse]

theorem exists_of_stem? (h : stem? name = some stem) :
    stem ≠ [] ∧ ∃ tail, name = stem ++ '.' :: tail := by
  unfold stem? at h
  split at h
  · next dot c rest hdrop =>
    obtain rfl := Option.some.inj h
    have hdot := List.head?_dropWhile_not (fun c => decide (c ≠ '.')) name.reverse
    rw [hdrop] at hdot
    obtain rfl : dot = '.' := by simpa using hdot
    refine ⟨List.reverse_ne_nil_iff.2 (List.cons_ne_nil _ _),
      (name.reverse.takeWhile fun c => decide (c ≠ '.')).reverse, ?_⟩
    have hname := congrArg List.reverse
      (List.takeWhile_append_dropWhile (p := fun c => decide (c ≠ '.')) (l := name.reverse))
    rw [hdrop, List.reverse_reverse] at hname
    simpa using hname.symm
  · cases h

/-- Another extension changes the name only: it is put behind a stem, which is the whole name or
what stands before its last dot, unless that leads to the directory above. -/
theorem toList_withExtension (hextension : IsExtension extension) (path : String) :
    ∃ name, (withExtension path extension).toList = (split path.toList).1 ++ name ∧ '/' ∉ name ∧
      (name = ['.', '.'] ∨ ∃ stem, name = stem ++ '.' :: extension.toList ∧
        (stem = (split path.toList).2 ∨ stem ≠ [] ∧ stem ≠ ['.'])) := by
  obtain ⟨hpath, -, hslash⟩ := split_spec path.toList
  have hmore : ∀ {stem : List Char}, '/' ∉ stem → '/' ∉ stem ++ '.' :: extension.toList := by
    intro stem hstem
    simp [hstem, hextension.slash]
  unfold withExtension
  dsimp only
  split
  · refine ⟨_, ?_, hmore hslash, .inr ⟨_, rfl, .inl rfl⟩⟩
    rw [← List.append_assoc, ← hpath]
    simp
  · exact ⟨_, String.toList_ofList, by decide, .inl rfl⟩
  · next stem hdot hstem =>
    obtain ⟨hne, tail, hname⟩ := exists_of_stem? hstem
    rw [hname, List.mem_append, not_or] at hslash
    exact ⟨_, by simp, hmore hslash.1, .inr ⟨stem, rfl, .inr ⟨hne, hdot⟩⟩⟩

theorem withExtension_of_hasExtension (hextension : IsExtension extension)
    (h : HasExtension path extension) : withExtension path extension = path := by
  obtain ⟨directory, stem, hpath, hparent, hslash, hne, hdot⟩ := h
  have hname : '/' ∉ stem ++ '.' :: extension.toList := by
    simp [hslash, hextension.slash]
  rw [withExtension, hpath, split_append hparent hname]
  dsimp only
  rw [stem?_append hne hextension.dot]
  split
  · next hstem => cases hstem
  · next hstem => exact absurd (Option.some.inj hstem) hdot
  · next other hstem =>
    obtain rfl := Option.some.inj hstem
    simp [← String.toList_inj, hpath]

end FileName

/-! ## Where names lead -/

namespace FileTree

open FileName (IsParent)

variable {t : FileTree} {here place : List String} {path : String} {directory name : List Char}

theorem follow_append (t : FileTree) (here names more : List String) :
    t.follow here (names ++ more) =
      (t.follow here names).bind fun there => t.follow there more := by
  induction names generalizing here with
  | nil => rfl
  | cons name names ih =>
    simp only [List.cons_append, follow, ih]
    split_ifs <;> rfl

/-- The directories on the way to a name. -/
def frontNames (directory : List Char) : List String :=
  (directory.splitOn '/').dropLast.map String.ofList

theorem names_of_split (hpath : path.toList = directory ++ name) (hparent : IsParent directory)
    (hname : '/' ∉ name) : names path = frontNames directory ++ [String.ofList name] := by
  rw [names, hpath, frontNames]
  rcases List.eq_nil_or_concat directory with rfl | ⟨front, c, rfl⟩
  · rw [List.nil_append, List.splitOn_eq_singleton hname]
    rfl
  · obtain rfl : c = '/' := hparent c (by simp)
    rw [List.concat_eq_append, List.append_assoc, List.singleton_append,
      List.splitOn_append_cons_self, List.splitOn_append_cons_self,
      List.splitOn_eq_singleton hname, List.splitOn_nil, List.dropLast_concat, List.map_append]
    rfl

/-- A path leads to its last name from where the rest of it leads. -/
theorem exists_follow_of_resolve? (h : t.resolve? path = some place)
    (hpath : path.toList = directory ++ name) (hparent : IsParent directory)
    (hname : '/' ∉ name) :
    ∃ here, t.follow (t.start path) (frontNames directory) = some here ∧
      t.follow here [String.ofList name] = some place := by
  have hfollow := follow_of_resolve? h
  rw [names_of_split hpath hparent hname, follow_append] at hfollow
  exact Option.bind_eq_some_iff.1 hfollow

/-- Where a name leads from a directory. -/
theorem follow_singleton_cases {name : String} (h : t.follow here [name] = some place) :
    t.isDirectory here = true ∧ (name ∈ ["", "."] ∧ place = here ∨
      name = ".." ∧ place = here.dropLast ∨
      name ∉ ["", ".", ".."] ∧ place = here ++ [name]) := by
  simp only [follow] at h
  split_ifs at h with hdirectory hstay habove hlong
  all_goals
    obtain rfl := Option.some.inj h
    refine ⟨by simpa using hdirectory, ?_⟩
  · exact .inl ⟨by simpa using hstay, rfl⟩
  · exact .inr (.inl ⟨habove, rfl⟩)
  · rw [not_or] at hstay
    exact .inr (.inr ⟨by simp [hstay, habove], rfl⟩)

theorem isDirectory_of_follow_above (h : t.follow here [".."] = some place) :
    t.isDirectory place = true := by
  obtain ⟨hhere, ⟨hname, -⟩ | ⟨-, rfl⟩ | ⟨hname, -⟩⟩ := follow_singleton_cases h
  · exact absurd hname (by decide)
  · exact isDirectory_of_isPrefix (List.dropLast_prefix here) hhere
  · exact absurd (by decide) hname

/-- A proper name leads to a place of its own. -/
theorem eq_of_follow_singleton {name other : String} (hother : other ∉ ["", ".", ".."])
    (h : t.follow here [name] = some place) (h' : t.follow here [other] = some place) :
    name = other := by
  have hplace : place = here ++ [other] := by
    obtain ⟨-, ⟨hname, -⟩ | ⟨rfl, -⟩ | ⟨-, hplace⟩⟩ := follow_singleton_cases h'
    · exact absurd (List.mem_append_left [".."] hname) hother
    · exact absurd (by decide) hother
    · exact hplace
  -- all other names stay or lead back, and then the place is not longer than where they start
  have hlength : place.length = here.length + 1 := by rw [hplace, List.length_append]; rfl
  obtain ⟨-, ⟨-, rfl⟩ | ⟨-, rfl⟩ | ⟨-, hname⟩⟩ := follow_singleton_cases h
  · omega
  · rw [List.length_dropLast] at hlength
    omega
  · exact List.singleton_inj.1 (List.append_cancel_left (hname.symm.trans hplace))

/-- What stands in front of a name says where a path is followed from. -/
theorem start_congr {other : String} {name' : List Char} (t : FileTree)
    (hpath : path.toList = directory ++ name) (hother : other.toList = directory ++ name')
    (hname : '/' ∉ name) (hname' : '/' ∉ name') : t.start path = t.start other := by
  have hhead : ∀ {name : List Char}, '/' ∉ name → name.head? ≠ some '/' :=
    fun hname hhead => hname (List.mem_of_head? hhead)
  unfold start
  rw [hpath, hother]
  cases directory with
  | nil => rw [List.nil_append, List.nil_append, if_neg (hhead hname), if_neg (hhead hname')]
  | cons c directory => rfl

/-- In a directory, a proper name leads to what no other name leads to. -/
theorem name_eq_of_resolve? {other : String} {name' : List Char}
    (hparent : IsParent directory) (hpath : path.toList = directory ++ name)
    (hother : other.toList = directory ++ name') (hname : '/' ∉ name) (hname' : '/' ∉ name')
    (hproper : String.ofList name' ∉ ["", ".", ".."]) (h : t.resolve? path = some place)
    (h' : t.resolve? other = some place) : name = name' := by
  obtain ⟨here, hhere, hfollow⟩ := exists_follow_of_resolve? h hpath hparent hname
  obtain ⟨here', hhere', hfollow'⟩ := exists_follow_of_resolve? h' hother hparent hname'
  rw [t.start_congr hpath hother hname hname'] at hhere
  obtain rfl := Option.some.inj (hhere.symm.trans hhere')
  exact String.ofList_injective (eq_of_follow_singleton hproper hfollow hfollow')

end FileTree

namespace FileName

theorem notMem_of_isExtension {extension : String} (h : IsExtension extension)
    (stem : List Char) : String.ofList (stem ++ '.' :: extension.toList) ∉ ["", ".", ".."] := by
  have hlast : (stem ++ '.' :: extension.toList).getLast? ≠ some '.' := by
    rw [List.getLast?_append, List.getLast?_cons, List.getLast?_eq_some_getLast h.ne_nil]
    intro hdot
    exact h.dot ((Option.some.inj hdot) ▸ List.getLast_mem h.ne_nil)
  intro hmem
  simp only [List.mem_cons, List.not_mem_nil, or_false, ← String.toList_inj, String.toList_ofList]
    at hmem
  rcases hmem with hmem | hmem | hmem
  · exact List.append_ne_nil_of_right_ne_nil _ (List.cons_ne_nil _ _) hmem
  · exact hlast (hmem ▸ rfl)
  · exact hlast (hmem ▸ rfl)

/-- **A path with another extension leads to another file**, unless it has this extension. -/
theorem resolve?_withExtension_iff {t : FileTree} {path extension : String} {place : List String}
    (hextension : IsExtension extension) (hresolve : t.resolve? path = some place)
    (hplace : t.isDirectory place = false) :
    t.resolve? (withExtension path extension) = some place ↔ HasExtension path extension := by
  constructor
  · intro h
    obtain ⟨hpath, hparent, hslash⟩ := split_spec path.toList
    obtain ⟨name, hname, hslash', hcases⟩ := toList_withExtension hextension path
    rcases hcases with rfl | ⟨stem, rfl, hstem⟩
    · -- the directory above is no file, so it is not the input
      obtain ⟨here, -, hfollow⟩ := t.exists_follow_of_resolve? h hname hparent hslash'
      rw [FileTree.isDirectory_of_follow_above hfollow] at hplace
      cases hplace
    · have hsame := FileTree.name_eq_of_resolve? hparent hpath hname hslash hslash'
        (notMem_of_isExtension hextension stem) hresolve h
      rcases hstem with rfl | ⟨hne, hdot⟩
      · simp at hsame
      · rw [hsame, List.mem_append, not_or] at hslash
        exact ⟨_, stem, hsame ▸ hpath, hparent, hslash.1, hne, hdot⟩
  · intro h
    rw [withExtension_of_hasExtension hextension h, hresolve]

end FileName

/-! ## The file of a program -/

namespace OutputFormat

open FileName (HasExtension IsExtension)

theorem isExtension (format : OutputFormat) : IsExtension format.extension := by
  cases format <;> exact ⟨by decide, by decide, by decide⟩

theorem not_hasExtension_dash (format : OutputFormat) : ¬ HasExtension "-" format.extension := by
  rintro ⟨directory, stem, hpath, -, -, hstem, -⟩
  have hlength := congrArg List.length hpath
  have hpos := List.length_pos_iff.2 hstem
  simp only [List.length_append, List.length_cons] at hlength
  have hone : "-".toList.length = 1 := rfl
  omega

/-- The program from an input file takes its place only if the file has the extension already. -/
theorem resolve?_path_iff (format : OutputFormat) {t : FileTree} {file : String}
    {place : List String} (hresolve : t.resolve? file = some place)
    (hplace : t.isDirectory place = false) :
    t.resolve? (format.path file) = some place ↔ HasExtension file format.extension := by
  unfold path
  split
  · next hdash =>
    subst hdash
    refine iff_of_false (fun h => ?_) format.not_hasExtension_dash
    have hname : '/' ∉ "output".toList ++ '.' :: format.extension.toList := by
      simp [format.isExtension.slash]
    have hsame : ['-'] = "output".toList ++ '.' :: format.extension.toList :=
      FileTree.name_eq_of_resolve? FileName.isParent_nil rfl (by simp) (by decide) hname
        (FileName.notMem_of_isExtension format.isExtension _) hresolve h
    cases hsame
  · exact FileName.resolve?_withExtension_iff format.isExtension hresolve hplace

theorem path_of_hasExtension {format : OutputFormat} {file : String}
    (h : HasExtension file format.extension) : format.path file = file := by
  unfold path
  split
  · next hdash => exact absurd (hdash ▸ h) format.not_hasExtension_dash
  · exact FileName.withExtension_of_hasExtension format.isExtension h

/-- Saving a program replaces its input, or leaves it as it is. -/
theorem read?_of_savedAt {format : OutputFormat} {t after : FileTree} {file content : String}
    (h : t.SavedAt after (format.path file) content) :
    (HasExtension file format.extension → after.read? file = some content) ∧
      (¬ HasExtension file format.extension → after.read? file = t.read? file) := by
  constructor
  · intro hextension
    rw [path_of_hasExtension hextension] at h
    exact h.written
  · intro hextension
    obtain ⟨place, hresolve, hplace⟩ := h.writable
    refine h.read?_of_ne fun hsame => hextension ?_
    exact (format.resolve?_path_iff (hsame.trans hresolve) hplace).1 hresolve

end OutputFormat

open FileName (HasExtension)

/-- **Compiling keeps its input, unless the input has the extension of the output.** After a run
that ends well, the input file holds the program if it was saved and the file has the extension of
its format, and what it held before if it was printed or the file has another name. The path of the
program leads to the input exactly if the input has this extension. -/
theorem compile_keeps_input {readers : Readers} {args : List String} {i : Invocation}
    {input printed : String} {t after : FileTree} {strict stdout : Bool}
    {flag : Option OutputFormat} (hargs : readers.commandLine args = .run i)
    (haction : i.action = .compile strict stdout flag)
    (hrun : runInMemory readers args input t = (⟨.success, printed⟩, after)) :
    ∃ config source p, i.settings? readers t = some config ∧ i.source? input t = some source ∧
      Program.ofSource ⟨config.strictTags || strict⟩ source = .ok p ∧
      (stdout = false ∧ HasExtension i.file (flag.getD config.format).extension →
        after.read? i.file = some ((flag.getD config.format).render p)) ∧
      (stdout = true ∨ ¬ HasExtension i.file (flag.getD config.format).extension →
        after.read? i.file = t.read? i.file) ∧
      ∀ place, t.resolve? i.file = some place → t.isDirectory place = false →
        (t.resolve? ((flag.getD config.format).path i.file) = some place ↔
          HasExtension i.file (flag.getD config.format).extension) := by
  rcases runInMemory_cases hargs input t with ⟨_, _, hrun', hcompletes⟩ | ⟨⟨failure, hrun'⟩, -⟩
  · cases hrun.symm.trans hrun'
    cases hcompletes with
    | tokens haction' | parse haction' => cases haction.symm.trans haction'
    | print haction' hsettings hsource hprogram =>
      cases haction.symm.trans haction'
      refine ⟨_, _, _, hsettings, hsource, hprogram, ?_, fun _ => rfl, fun place => ?_⟩
      · rintro ⟨⟨⟩, -⟩
      · exact OutputFormat.resolve?_path_iff _
    | save haction' hsettings hsource hprogram hsaved =>
      cases haction.symm.trans haction'
      obtain ⟨hreplaced, hkept⟩ := OutputFormat.read?_of_savedAt hsaved
      refine ⟨_, _, _, hsettings, hsource, hprogram, fun h => hreplaced h.2, ?_, fun place => ?_⟩
      · rintro (hstdout | hextension)
        · cases hstdout
        · exact hkept hextension
      · exact OutputFormat.resolve?_path_iff _
  · cases hrun.symm.trans hrun'

/-- A hidden file with a dot in its name, in a directory. -/
def hiddenTree : FileTree := .ofList ["work"] [("d/.a.b", "<f/>")]

/-- It is reached from the root, there and back. -/
theorem compile_keeps_input_hidden :
    ∃ after, runInMemory .standard ["compile", "/work/../work/d/.a.b"] "" hiddenTree =
        (⟨.success, ""⟩, after) ∧
      (after.read? "d/.a.json").isSome = true ∧
      after.read? "/work/../work/d/.a.b" = some "<f/>" := by
  have hargs : Readers.standard.commandLine ["compile", "/work/../work/d/.a.b"] =
      .run ⟨.compile false false none, "/work/../work/d/.a.b", none⟩ := by decide +kernel
  have hsettings : Invocation.settings? .standard hiddenTree
      ⟨.compile false false none, "/work/../work/d/.a.b", none⟩ = some {} := by decide +kernel
  have hrun : (runInMemory .standard ["compile", "/work/../work/d/.a.b"] "" hiddenTree).1 =
        ⟨.success, ""⟩ ∧
      ((runInMemory .standard ["compile", "/work/../work/d/.a.b"] "" hiddenTree).2.read?
        "d/.a.json").isSome = true := by
    decide +kernel
  have hextension : ¬ HasExtension "/work/../work/d/.a.b" "json" := by
    rintro ⟨directory, stem, hpath, -⟩
    have hlast := congrArg List.getLast? hpath
    simp at hlast
  obtain ⟨config, -, -, hconfig, -, -, -, hkept, -⟩ :=
    compile_keeps_input hargs rfl (Prod.ext hrun.1 rfl)
  obtain rfl : config = {} := Option.some.inj (hconfig.symm.trans hsettings)
  refine ⟨_, Prod.ext hrun.1 rfl, hrun.2, (hkept (.inr hextension)).trans ?_⟩
  decide +kernel

/-- **Compiling can destroy its input**: a source in a file with the extension of the output. -/
theorem compile_replaces_input :
    (runInMemory .standard ["compile", "a.json"] "" (.ofList ["work"] [("a.json", "<f/>")])).1 =
        ⟨.success, ""⟩ ∧
      (runInMemory .standard ["compile", "a.json"] ""
        (.ofList ["work"] [("a.json", "<f/>")])).2.read? "a.json" ≠ some "<f/>" := by
  decide +kernel

end TagLang
