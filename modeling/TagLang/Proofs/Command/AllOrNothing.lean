import TagLang.Command.Run
import TagLang.Proofs.Command.Files

/-!
# A run does all or nothing

A command line reads files in one place, prints or writes in another, and can fail at many points in
between. `Invocation.Completes` says what a run is to do, action by action, without any order of
steps: which configuration counts, where the input is from, what is printed and which file is
written. A run in memory ends well exactly if that can be done, and then does it; else it prints
nothing and leaves the files as they are (`runInMemory_allOrNothing`). This holds of every way to
read arguments and configurations.

The steps of a run are put together from those that only look (`Looks`) and a last one that settles
it (`Settles`): that one prints or writes all there is, or fails and changes nothing. No step that
can fail comes behind one that changes something.
-/

namespace TagLang

/-! ## What is to be done -/

namespace Invocation

/-- The configuration that counts: the named file, else the default file if it is there. -/
def settings? (readers : Readers) (t : FileTree) (i : Invocation) : Option Config :=
  match i.config with
  | some path => (t.read? path).bind readers.config
  | none =>
    if t.contains Config.defaultPath then (t.read? Config.defaultPath).bind readers.config
    else some {}

/-- The input: a file, or what stands for it. -/
def source? (input : String) (t : FileTree) (i : Invocation) : Option String :=
  if i.file = "-" then some input else t.read? i.file

/-- A run does its work: it prints a text and leaves a tree of files. -/
inductive Completes (readers : Readers) (input : String) (t : FileTree) (i : Invocation) :
    String → FileTree → Prop
  | tokens {config : Config} {source : String} {tokens : List Token} :
      i.action = .tokens → i.settings? readers t = some config →
      i.source? input t = some source → lex source = .ok tokens →
      Completes readers input t i (String.join (tokens.map Token.line)) t
  | parse {strict : Bool} {config : Config} {source : String} {nodes : List Node} :
      i.action = .parse strict → i.settings? readers t = some config →
      i.source? input t = some source →
      Node.parse ⟨config.strictTags || strict⟩ source = .ok nodes →
      Completes readers input t i ((Json.arr (Node.listToJson nodes)).pretty ++ "\n") t
  | print {strict : Bool} {flag : Option OutputFormat} {config : Config} {source : String}
      {p : Program} :
      i.action = .compile strict true flag → i.settings? readers t = some config →
      i.source? input t = some source →
      Program.ofSource ⟨config.strictTags || strict⟩ source = .ok p →
      Completes readers input t i (Text.trimEnd ((flag.getD config.format).render p) ++ "\n") t
  | save {strict : Bool} {flag : Option OutputFormat} {config : Config} {source : String}
      {p : Program} {after : FileTree} :
      i.action = .compile strict false flag → i.settings? readers t = some config →
      i.source? input t = some source →
      Program.ofSource ⟨config.strictTags || strict⟩ source = .ok p →
      t.SavedAt after ((flag.getD config.format).path i.file)
        ((flag.getD config.format).render p) →
      Completes readers input t i "" after

/-- What it is to complete a compilation, with what is printed and what is saved side by side. -/
theorem completes_compile_iff {readers : Readers} {input printed : String} {t after : FileTree}
    {i : Invocation} {strict stdout : Bool} {flag : Option OutputFormat}
    (haction : i.action = .compile strict stdout flag) :
    i.Completes readers input t printed after ↔
      ∃ config, i.settings? readers t = some config ∧
        ∃ source, i.source? input t = some source ∧
          ∃ p, Program.ofSource ⟨config.strictTags || strict⟩ source = .ok p ∧
            if stdout then
              printed = Text.trimEnd ((flag.getD config.format).render p) ++ "\n" ∧ after = t
            else
              printed = "" ∧ t.SavedAt after ((flag.getD config.format).path i.file)
                ((flag.getD config.format).render p) := by
  constructor
  · intro h
    cases h with
    | tokens haction' | parse haction' => cases haction.symm.trans haction'
    | print haction' hsettings hsource hprogram =>
      cases haction.symm.trans haction'
      exact ⟨_, hsettings, _, hsource, _, hprogram, rfl, rfl⟩
    | save haction' hsettings hsource hprogram hsaved =>
      cases haction.symm.trans haction'
      exact ⟨_, hsettings, _, hsource, _, hprogram, rfl, hsaved⟩
  · rintro ⟨config, hsettings, source, hsource, p, hprogram, h⟩
    cases stdout with
    | true =>
      obtain ⟨rfl, rfl⟩ := h
      exact .print haction hsettings hsource hprogram
    | false =>
      obtain ⟨rfl, hsaved⟩ := h
      exact .save haction hsettings hsource hprogram hsaved

end Invocation

/-! ## Steps that look -/

section

variable {α β : Type} {w : World} {x : ExceptT Failure (StateM World) α} {value? : Option α}

/-- A step that only looks: it leaves the world as it is, and ends with the value if there is one
and with a failure if there is none. -/
def Looks (x : ExceptT Failure (StateM World) α) (w : World) (value? : Option α) : Prop :=
  ∃ result, x.run.run w = (result, w) ∧ result.toOption = value?

/-- What follows a step with a value goes on with that value. -/
theorem Looks.run_bind {a : α} (h : Looks x w (some a))
    (g : α → ExceptT Failure (StateM World) β) : (x >>= g).run.run w = (g a).run.run w := by
  obtain ⟨result, hrun, hvalue⟩ := h
  cases result with
  | error failure => cases hvalue
  | ok b =>
    obtain rfl : b = a := Option.some.inj hvalue
    change (do let r ← x.run; ExceptT.bindCont g r : StateM World _).run w = _
    rw [StateT.run_bind, hrun]
    rfl

/-- A step without a value ends the run, whatever follows it. -/
theorem Looks.run_bind_error (h : Looks x w none) (g : α → ExceptT Failure (StateM World) β) :
    ∃ failure, (x >>= g).run.run w = (.error failure, w) := by
  obtain ⟨result, hrun, hvalue⟩ := h
  cases result with
  | ok a => cases hvalue
  | error failure =>
    refine ⟨failure, ?_⟩
    change (do let r ← x.run; ExceptT.bindCont g r : StateM World _).run w = _
    rw [StateT.run_bind, hrun]
    rfl

end

/-- A step of the host is carried out on the world. -/
theorem run_host_bind {α β : Type} (y : StateM World α)
    (g : α → ExceptT Failure (StateM World) β) (w : World) :
    ((liftM y : ExceptT Failure (StateM World) α) >>= g).run.run w =
      (g (y.run w).1).run.run (y.run w).2 := rfl

section

variable (input path : String) (w : World)

theorem run_read : ((Host.inMemory input).read path).run w = (w.files.read? path, w) := rfl

theorem run_present : ((Host.inMemory input).present path).run w = (w.files.contains path, w) := rfl

theorem looks_load (read : String → Option Config) :
    Looks (Config.load read (Host.inMemory input) path) w ((w.files.read? path).bind read) := by
  unfold Looks
  rw [Config.load, run_host_bind, run_read]
  cases w.files.read? path with
  | none => exact ⟨.error (.unreadable path), rfl, rfl⟩
  | some text =>
    rw [Option.bind_some]
    cases hconfig : read text with
    | none => exact ⟨.error (.config path), by simp only [hconfig]; rfl, rfl⟩
    | some config => exact ⟨.ok config, by simp only [hconfig]; rfl, rfl⟩

theorem looks_settings (readers : Readers) (i : Invocation) :
    Looks (i.settings readers.config (Host.inMemory input)) w (i.settings? readers w.files) := by
  unfold Invocation.settings Invocation.settings?
  cases i.config with
  | some path => exact looks_load input path w readers.config
  | none =>
    dsimp only
    cases hpresent : w.files.contains Config.defaultPath with
    | false =>
      refine ⟨.ok {}, ?_, rfl⟩
      rw [run_host_bind, run_present, hpresent]
      rfl
    | true =>
      obtain ⟨result, hrun, hvalue⟩ := looks_load input Config.defaultPath w readers.config
      refine ⟨result, ?_, hvalue⟩
      rw [run_host_bind, run_present, hpresent]
      exact hrun

theorem looks_source (i : Invocation) :
    Looks (i.source (Host.inMemory input)) w (i.source? input w.files) := by
  unfold Looks Invocation.source Invocation.source?
  by_cases hfile : i.file = "-"
  · rw [if_pos hfile, if_pos hfile]
    exact ⟨.ok input, rfl, rfl⟩
  · rw [if_neg hfile, if_neg hfile, run_host_bind, run_read]
    cases w.files.read? i.file with
    | none => exact ⟨.error (.unreadable i.file), rfl, rfl⟩
    | some text => exact ⟨.ok text, rfl, rfl⟩

end

/-! ## Steps that settle a run -/

section

variable {α ε : Type} {w : World} {Done : String → FileTree → Prop}

/-- A step after which all is done: it prints a text and leaves a tree of files, or it fails,
changes nothing, and there is nothing it could have done. -/
def Settles (x : ExceptT Failure (StateM World) Unit) (w : World)
    (Done : String → FileTree → Prop) : Prop :=
  (∃ printed after, x.run.run w = (.ok (), ⟨after, w.printed ++ printed⟩) ∧ Done printed after) ∨
  (∃ failure, x.run.run w = (.error failure, w)) ∧ ∀ printed after, ¬ Done printed after

theorem Settles.congr {x : ExceptT Failure (StateM World) Unit}
    {Done' : String → FileTree → Prop} (h : Settles x w Done)
    (hiff : ∀ printed after, Done printed after ↔ Done' printed after) : Settles x w Done' := by
  simpa only [Settles, hiff] using h

/-- A step that looks may come first. -/
theorem Looks.settles_bind {x : ExceptT Failure (StateM World) α} {value? : Option α}
    {g : α → ExceptT Failure (StateM World) Unit} {Done : α → String → FileTree → Prop}
    (h : Looks x w value?) (hg : ∀ a, Settles (g a) w (Done a)) :
    Settles (x >>= g) w fun printed after => ∃ a, value? = some a ∧ Done a printed after := by
  cases value? with
  | none =>
    refine .inr ⟨h.run_bind_error g, ?_⟩
    rintro printed after ⟨a, ⟨⟩, -⟩
  | some a =>
    have hsettles := hg a
    unfold Settles at hsettles ⊢
    simpa only [h.run_bind g, Option.some.injEq, exists_eq_left'] using hsettles

/-- So may one that is computed. -/
theorem settles_ofExcept_bind {result : Except ε α} {failure : ε → Failure}
    {g : α → ExceptT Failure (StateM World) Unit} {Done : α → String → FileTree → Prop}
    (hg : ∀ a, Settles (g a) w (Done a)) :
    Settles (MonadExcept.ofExcept (result.mapError failure) >>= g) w
      fun printed after => ∃ a, result = .ok a ∧ Done a printed after := by
  cases result with
  | error e =>
    refine .inr ⟨⟨failure e, rfl⟩, ?_⟩
    rintro printed after ⟨a, ⟨⟩, -⟩
  | ok a =>
    refine (hg a).congr fun printed after => ?_
    simp only [Except.ok.injEq, exists_eq_left']

variable (input : String) (w : World)

theorem settles_print (text : String) :
    Settles (liftM ((Host.inMemory input).print text)) w
      fun printed after => printed = text ∧ after = w.files :=
  .inl ⟨text, w.files, rfl, rfl, rfl⟩

/-- Texts that are printed one after the other. -/
theorem settles_printAll {items : List α} (text : α → String) :
    Settles (items.forM fun a => liftM ((Host.inMemory input).print (text a))) w
      fun printed after => printed = String.join (items.map text) ∧ after = w.files := by
  refine .inl ⟨_, w.files, ?_, rfl, rfl⟩
  induction items generalizing w with
  | nil =>
    show (Except.ok (), w) = _
    rw [List.map_nil, String.join_nil, String.append_empty]
  | cons a items ih =>
    rw [List.forM, run_host_bind, ih, List.map_cons, String.join_cons, ← String.append_assoc]
    rfl

theorem run_write (path content : String) :
    ((Host.inMemory input).write path content).run w =
      ((w.files.write? path content).isSome,
        { w with files := (w.files.write? path content).getD w.files }) := by
  cases hwrite : w.files.write? path content with
  | none =>
    simp only [Host.inMemory, StateT.run_bind, StateT.run_get, pure_bind, hwrite]
    rfl
  | some tree =>
    simp only [Host.inMemory, StateT.run_bind, StateT.run_get, pure_bind, hwrite]
    rfl

theorem settles_write (path content : String) :
    Settles (do
      if !(← (Host.inMemory input).write path content) then throw (.unwritable path)) w
      fun printed after => printed = "" ∧ w.files.SavedAt after path content := by
  unfold Settles
  rw [run_host_bind, run_write]
  cases hwrite : w.files.write? path content with
  | some after =>
    refine .inl ⟨"", after, ?_, rfl, FileTree.savedAt_of_write? hwrite⟩
    rw [String.append_empty]
    rfl
  | none =>
    refine .inr ⟨⟨.unwritable path, rfl⟩, ?_⟩
    rintro printed after ⟨-, hsaved⟩
    obtain ⟨written, hwritten⟩ := hsaved.exists_write?
    cases hwrite.symm.trans hwritten

end

/-! ## Runs -/

namespace Invocation

variable (input : String) (w : World) (i : Invocation)

theorem settles_printTokens :
    Settles (i.printTokens (Host.inMemory input)) w fun printed after =>
      ∃ source, i.source? input w.files = some source ∧ ∃ tokens, lex source = .ok tokens ∧
        printed = String.join (tokens.map Token.line) ∧ after = w.files :=
  (looks_source input w i).settles_bind fun _ =>
    settles_ofExcept_bind fun _ => settles_printAll input w Token.line

theorem settles_printNodes (options : ParseOptions) :
    Settles (i.printNodes (Host.inMemory input) options) w fun printed after =>
      ∃ source, i.source? input w.files = some source ∧
        ∃ nodes, Node.parse options source = .ok nodes ∧
          printed = (Json.arr (Node.listToJson nodes)).pretty ++ "\n" ∧ after = w.files :=
  (looks_source input w i).settles_bind fun _ =>
    settles_ofExcept_bind fun _ => settles_print input w _

theorem settles_compile (options : ParseOptions) (stdout : Bool) (format : OutputFormat) :
    Settles (i.compile (Host.inMemory input) options stdout format) w fun printed after =>
      ∃ source, i.source? input w.files = some source ∧
        ∃ p, Program.ofSource options source = .ok p ∧
          if stdout then printed = Text.trimEnd (format.render p) ++ "\n" ∧ after = w.files
          else printed = "" ∧ w.files.SavedAt after (format.path i.file) (format.render p) := by
  refine (looks_source input w i).settles_bind fun source => settles_ofExcept_bind fun p => ?_
  cases stdout with
  | true => exact settles_print input w _
  | false => exact settles_write input w _ _

/-- **A run completes**, or it fails, changes nothing, and could not have completed. -/
theorem settles_run (readers : Readers) :
    Settles (i.run readers (Host.inMemory input)) w (i.Completes readers input w.files) := by
  have hlooks := looks_settings input w readers i
  unfold run
  cases haction : i.action with
  | tokens =>
    refine (hlooks.settles_bind fun _ => i.settles_printTokens input w).congr ?_
    intro printed after
    constructor
    · rintro ⟨config, hsettings, source, hsource, tokens, hlex, rfl, rfl⟩
      exact .tokens haction hsettings hsource hlex
    · intro h
      cases h with
      | tokens _ hsettings hsource hlex => exact ⟨_, hsettings, _, hsource, _, hlex, rfl, rfl⟩
      | parse haction' | print haction' | save haction' => cases haction.symm.trans haction'
  | parse strict =>
    refine (hlooks.settles_bind fun config => i.settles_printNodes input w _).congr ?_
    intro printed after
    constructor
    · rintro ⟨config, hsettings, source, hsource, nodes, hparse, rfl, rfl⟩
      exact .parse haction hsettings hsource hparse
    · intro h
      cases h with
      | parse haction' hsettings hsource hparse =>
        cases haction.symm.trans haction'
        exact ⟨_, hsettings, _, hsource, _, hparse, rfl, rfl⟩
      | tokens haction' | print haction' | save haction' => cases haction.symm.trans haction'
  | compile strict stdout flag =>
    refine (hlooks.settles_bind fun config => i.settles_compile input w _ stdout _).congr ?_
    intro printed after
    exact (completes_compile_iff haction).symm

end Invocation

variable {readers : Readers} {args : List String}

theorem runInMemory_cases {i : Invocation} (hargs : readers.commandLine args = .run i)
    (input : String) (t : FileTree) :
    (∃ printed after, runInMemory readers args input t = (⟨.success, printed⟩, after) ∧
      i.Completes readers input t printed after) ∨
    (∃ failure, runInMemory readers args input t = (⟨.failure failure, ""⟩, t)) ∧
      ∀ printed after, ¬ i.Completes readers input t printed after := by
  unfold runInMemory runCommand
  rw [hargs]
  dsimp only
  rw [StateT.run_bind]
  rcases i.settles_run input ⟨t, ""⟩ readers with
    ⟨printed, after, hrun, hcompletes⟩ | ⟨⟨failure, hrun⟩, hnever⟩
  · rw [hrun, String.empty_append]
    exact .inl ⟨printed, after, rfl, hcompletes⟩
  · rw [hrun]
    exact .inr ⟨⟨failure, rfl⟩, hnever⟩

theorem runInMemory_help {text : String} (hargs : readers.commandLine args = .help text)
    (input : String) (t : FileTree) :
    runInMemory readers args input t = (⟨.success, text⟩, t) := by
  unfold runInMemory runCommand
  rw [hargs]
  show ((⟨.success, "" ++ text⟩, t) : Outcome × FileTree) = _
  rw [String.empty_append]

theorem runInMemory_usage (hargs : readers.commandLine args = .usage) (input : String)
    (t : FileTree) :
    runInMemory readers args input t = (⟨.usage, ""⟩, t) := by
  unfold runInMemory runCommand
  rw [hargs]
  rfl

/-- **A run does all or nothing.** If it ends with another code than zero, nothing is printed and
the files are as before. It ends with zero exactly if its command line asks for help, which is
printed, or for something that can be done; then that is done, and nothing else. -/
theorem runInMemory_allOrNothing (readers : Readers) (args : List String) (input : String)
    (t : FileTree) :
    ((runInMemory readers args input t).1.status.code ≠ 0 →
      (runInMemory readers args input t).1.printed = "" ∧
        (runInMemory readers args input t).2 = t) ∧
    ((runInMemory readers args input t).1.status.code = 0 →
      readers.commandLine args = .help (runInMemory readers args input t).1.printed ∧
          (runInMemory readers args input t).2 = t ∨
        ∃ i, readers.commandLine args = .run i ∧
          i.Completes readers input t (runInMemory readers args input t).1.printed
            (runInMemory readers args input t).2) ∧
    ((∃ text, readers.commandLine args = .help text) ∨
        (∃ i printed after, readers.commandLine args = .run i ∧
          i.Completes readers input t printed after) →
      (runInMemory readers args input t).1.status.code = 0) := by
  cases hargs : readers.commandLine args with
  | help text =>
    rw [runInMemory_help hargs]
    exact ⟨fun hcode => absurd rfl hcode, fun _ => .inl ⟨rfl, rfl⟩, fun _ => rfl⟩
  | usage =>
    rw [runInMemory_usage hargs]
    refine ⟨fun _ => ⟨rfl, rfl⟩, fun hcode => ?_, ?_⟩
    · cases hcode
    · rintro (⟨text, ⟨⟩⟩ | ⟨i, printed, after, ⟨⟩, -⟩)
  | run i =>
    rcases runInMemory_cases hargs input t with
      ⟨printed, after, hrun, hcompletes⟩ | ⟨⟨failure, hrun⟩, hnever⟩
    · rw [hrun]
      exact ⟨fun hcode => absurd rfl hcode, fun _ => .inr ⟨i, rfl, hcompletes⟩, fun _ => rfl⟩
    · rw [hrun]
      refine ⟨fun _ => ⟨rfl, rfl⟩, fun hcode => ?_, ?_⟩
      · cases hcode
      · rintro (⟨text, ⟨⟩⟩ | ⟨_, printed, after, ⟨⟩, hcompletes⟩)
        exact absurd hcompletes (hnever printed after)

/-- A program is written beside its input, in the format that the default configuration names. -/
example :
    runInMemory .standard ["compile", "/work/src/../src/a.b"] ""
        (.ofList ["work"] [("ltns.toml", "[output]\nformat = \"text\""), ("src/a.b", "<f/>")]) =
      (⟨.success, ""⟩, .ofList ["work"] [("ltns.toml", "[output]\nformat = \"text\""),
        ("src/a.b", "<f/>"), ("src/a.txt", "f()\n")]) := by
  decide +kernel

end TagLang
