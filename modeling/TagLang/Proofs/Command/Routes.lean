import Mathlib.Data.List.DropRight
import TagLang.Proofs.Command.AllOrNothing
import TagLang.Proofs.Program.Layout

/-!
# Printing and saving a program

A compiled program is printed or saved. What is printed is trimmed first and then ended with a line
feed, and what is saved is not; still they are the same, but for the line feed that a document in
the format `json` does not end with (`compile_routes_agree`).

Trimming takes away all blanks at the end, so this is about the last character of a program in front
of its last line feed. It is that of a heading, and headings are tight; in the format `json` it is
a bracket (`OutputFormat.trimEnd_render`).
-/

namespace TagLang

/-! ## Trimming -/

namespace Text

theorem trimEnd_eq (text : String) :
    trimEnd text = String.ofList (text.toList.rdropWhile isBlank) := rfl

theorem trimEnd_eq_self {text : String} (h : ∃ c ∈ text.toList.getLast?, isBlank c = false) :
    trimEnd text = text := by
  obtain ⟨c, hc, hblank⟩ := h
  obtain ⟨front, hfront⟩ := List.getLast?_eq_some_iff.1 hc
  have hneg : ¬ isBlank c = true := Bool.not_eq_true _ ▸ hblank
  rw [trimEnd_eq, hfront, List.rdropWhile_concat_neg isBlank front c hneg, ← hfront,
    String.ofList_toList]

theorem trimEnd_append_newline (text : String) : trimEnd (text ++ "\n") = trimEnd text := by
  have hnewline : (text ++ "\n").toList = text.toList ++ ['\n'] := String.toList_append
  rw [trimEnd_eq, hnewline, List.rdropWhile_concat_pos isBlank _ _ (by decide), trimEnd_eq]

/-- A line that ends with a tight text has nothing to trim but its end. -/
theorem trimEnd_line (front : String) {text : String} (h : IsTight text.toList) :
    trimEnd (front ++ text ++ "\n") ++ "\n" = front ++ text ++ "\n" := by
  obtain ⟨c, hc, hblank⟩ := h.last
  have hlast : c ∈ (front ++ text).toList.getLast? := by
    rw [String.toList_append, List.getLast?_append, Option.mem_def.1 hc]
    rfl
  rw [trimEnd_append_newline, trimEnd_eq_self ⟨c, hlast, hblank⟩]

end Text

theorem Line.block_ne_nil (depth : Nat) (lines : List Line) : block depth lines ≠ [] := by
  unfold block
  split
  · exact List.cons_ne_nil _ _
  · next h => exact fun hnil => h (List.isEmpty_iff.2 hnil)

theorem Line.trimEnd_renderAll {lines : List Line} (hne : lines ≠ [])
    (h : ∀ line ∈ lines, Text.IsTight line.text.toList) :
    Text.trimEnd (renderAll lines) ++ "\n" = renderAll lines := by
  obtain ⟨before, last, rfl⟩ := (List.eq_nil_or_concat lines).resolve_left hne
  rw [List.concat_eq_append] at h ⊢
  have hrender : renderAll (before ++ [last]) = renderAll before ++
      String.ofList (List.replicate (4 * last.depth) ' ') ++ last.text ++ "\n" := by
    simp [renderAll, render, ← String.toList_inj]
  rw [hrender]
  exact Text.trimEnd_line _ (h last (List.mem_append_right _ List.mem_cons_self))

/-- The text of an object ends with its bracket. -/
theorem Json.trimEnd_pretty_obj (fields : List (String × Json)) :
    Text.trimEnd (Json.obj fields).pretty = (Json.obj fields).pretty := by
  refine Text.trimEnd_eq_self ⟨'\x7d', ?_, rfl⟩
  rw [pretty, indented, block]
  split
  · rfl
  · rw [String.toList_append, List.getLast?_append]
    rfl

namespace OutputFormat

/-- What the text of a program ends with. -/
def lineEnd : OutputFormat → String
  | .json => ""
  | .text => "\n"

/-- **Trimming a program removes only the end of its last line.** -/
theorem trimEnd_render {options : ParseOptions} {source : String} {p : Program}
    (h : Program.ofSource options source = .ok p) (format : OutputFormat) :
    Text.trimEnd (format.render p) ++ format.lineEnd = format.render p := by
  cases format with
  | json => rw [render, Program.toJson, Json.trimEnd_pretty_obj, lineEnd, String.append_empty]
  | text =>
    refine Line.trimEnd_renderAll (Line.block_ne_nil _ _) ?_
    rw [← p.rows_lines]
    exact List.forall_mem_map.2 (Program.isTight_of_mem_rows (Program.isWord_of_ofSource h))

end OutputFormat

/-! ## The two routes -/

section

variable {readers : Readers} {args : List String} {i : Invocation} {input source : String}
  {t : FileTree} {strict stdout : Bool} {flag : Option OutputFormat} {config : Config} {p : Program}

theorem runInMemory_printing (hargs : readers.commandLine args = .run i)
    (haction : i.action = .compile strict true flag)
    (hsettings : i.settings? readers t = some config) (hsource : i.source? input t = some source)
    (hprogram : Program.ofSource ⟨config.strictTags || strict⟩ source = .ok p) :
    runInMemory readers args input t =
      (⟨.success, Text.trimEnd ((flag.getD config.format).render p) ++ "\n"⟩, t) := by
  rcases runInMemory_cases hargs input t with ⟨printed, after, hrun, hcompletes⟩ | ⟨-, hnever⟩
  · obtain ⟨_, hsettings', _, hsource', _, hprogram', rfl, rfl⟩ :=
      (Invocation.completes_compile_iff haction).1 hcompletes
    cases hsettings.symm.trans hsettings'
    cases hsource.symm.trans hsource'
    cases hprogram.symm.trans hprogram'
    exact hrun
  · exact absurd (.print haction hsettings hsource hprogram) (hnever _ _)

/-- A file that cannot be written is the only thing that can go wrong. -/
theorem runInMemory_saving (hargs : readers.commandLine args = .run i)
    (haction : i.action = .compile strict false flag)
    (hsettings : i.settings? readers t = some config) (hsource : i.source? input t = some source)
    (hprogram : Program.ofSource ⟨config.strictTags || strict⟩ source = .ok p) :
    (∃ after, runInMemory readers args input t = (⟨.success, ""⟩, after) ∧
      t.SavedAt after ((flag.getD config.format).path i.file)
        ((flag.getD config.format).render p)) ∨
    (∃ failure, runInMemory readers args input t = (⟨.failure failure, ""⟩, t)) ∧
      ∀ place, t.resolve? ((flag.getD config.format).path i.file) = some place →
        t.isDirectory place = true := by
  rcases runInMemory_cases hargs input t with ⟨printed, after, hrun, hcompletes⟩ | ⟨hfails, hnever⟩
  · obtain ⟨_, hsettings', _, hsource', _, hprogram', rfl, hsaved⟩ :=
      (Invocation.completes_compile_iff haction).1 hcompletes
    cases hsettings.symm.trans hsettings'
    cases hsource.symm.trans hsource'
    cases hprogram.symm.trans hprogram'
    exact .inl ⟨after, hrun, hsaved⟩
  · refine .inr ⟨hfails, fun place hresolve => ?_⟩
    by_contra hplace
    obtain ⟨after, hsaved⟩ := FileTree.exists_savedAt hresolve (Bool.not_eq_true _ ▸ hplace) _
    exact hnever _ _ (.save haction hsettings hsource hprogram hsaved)

/-- **What is printed is what is saved.** Two command lines compile the same input, one to standard
output and one to a file. The first prints the program, as it is in the format `text` and with an
end of line in the format `json`, and the second saves it unless there can be no such file. From
the end of the program trimming takes nothing but the end of its last line. -/
theorem compile_routes_agree {printing saving : List String} {format : OutputFormat}
    (haction : i.action = .compile strict true flag)
    (hprinting : readers.commandLine printing = .run i)
    (hsaving : readers.commandLine saving = .run { i with action := .compile strict false flag })
    (hsettings : i.settings? readers t = some config) (hsource : i.source? input t = some source)
    (hprogram : Program.ofSource ⟨config.strictTags || strict⟩ source = .ok p)
    (hformat : flag.getD config.format = format) :
    (∃ printed, runInMemory readers printing input t = (⟨.success, printed⟩, t) ∧
      (format = .text → printed = format.render p) ∧
      (format = .json → printed = format.render p ++ "\n")) ∧
    ((∃ after, runInMemory readers saving input t = (⟨.success, ""⟩, after) ∧
        t.SavedAt after (format.path i.file) (format.render p)) ∨
      (∃ failure, runInMemory readers saving input t = (⟨.failure failure, ""⟩, t)) ∧
        ∀ place, t.resolve? (format.path i.file) = some place → t.isDirectory place = true) ∧
    format.render p = Text.trimEnd (format.render p) ++ format.lineEnd := by
  have htrim := format.trimEnd_render hprogram
  have hprinted := runInMemory_printing hprinting haction hsettings hsource hprogram
  have hsaved := runInMemory_saving hsaving rfl hsettings hsource hprogram
  rw [hformat] at hprinted hsaved
  refine ⟨⟨_, hprinted, ?_, ?_⟩, hsaved, htrim.symm⟩
  · rintro rfl
    exact htrim
  · rintro rfl
    rw [OutputFormat.lineEnd, String.append_empty] at htrim
    rw [htrim]

end

/-- A source that ends with blanks, inside of its last string and behind it. -/
def blankSource : String := "<f>\"\n\"</f> \" \u3000\" \u2028"

/-- A tree with it, and with a configuration that asks for text. -/
def blankTree : FileTree :=
  .ofList ["work"] [("ltns.toml", "[output]\nformat = \"text\""), ("a.b", blankSource)]

theorem compile_routes_agree_blanks :
    ∃ p, Program.ofSource ⟨false⟩ blankSource = .ok p ∧
      runInMemory .standard ["compile", "--stdout", "a.b"] "" blankTree =
        (⟨.success, p.text⟩, blankTree) ∧
      ∃ after, runInMemory .standard ["compile", "a.b"] "" blankTree = (⟨.success, ""⟩, after) ∧
        blankTree.SavedAt after "a.txt" p.text := by
  have hprinting : Readers.standard.commandLine ["compile", "--stdout", "a.b"] =
      .run ⟨.compile false true none, "a.b", none⟩ := by decide +kernel
  have hsaving : Readers.standard.commandLine ["compile", "a.b"] =
      .run ⟨.compile false false none, "a.b", none⟩ := by decide +kernel
  have hsettings : Invocation.settings? .standard blankTree
      ⟨.compile false true none, "a.b", none⟩ = some ⟨false, .text⟩ := by decide +kernel
  have hsource : Invocation.source? "" blankTree ⟨.compile false true none, "a.b", none⟩ =
      some blankSource := by decide +kernel
  have hlength : (Program.ofSource ⟨false⟩ blankSource).toOption.map (·.body.length) = some 2 := by
    decide +kernel
  have hplace : blankTree.resolve? "a.txt" = some ["work", "a.txt"] := by decide +kernel
  obtain ⟨p, h, -⟩ := Program.exists_ofSource_of_map hlength
  obtain ⟨⟨printed, hprinted, htext, -⟩, hsaved | ⟨-, hdirectory⟩, -⟩ :=
    compile_routes_agree rfl hprinting hsaving hsettings hsource h rfl
  · obtain rfl : printed = p.text := htext rfl
    exact ⟨p, h, hprinted, hsaved⟩
  · exact absurd (hdirectory _ hplace) (by decide +kernel)

end TagLang
