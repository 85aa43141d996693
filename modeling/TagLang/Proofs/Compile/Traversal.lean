import TagLang.Proofs.Compile.Checks
import TagLang.Proofs.Compile.Renaming
import TagLang.Proofs.Compile.Validity

/-!
# What a compilation does, whether it succeeds or not

The compiler is followed once, and what it does with names and errors is read off from that.
`CompileM.RunsBeside` looks at a compilation from some supply and beside it at one from a supply
with `k` names more drawn. Both succeed, and then all of a list of checks pass; or both fail with
the same error, and that is what the first failing check finds. No name is given back, and both
leave supplies that are as far apart as before. This is put together like the compilation itself,
one check list after the other (`CompileM.RunsBeside.bind`).

A node makes its checks, in their order, and its fragment beside one with more names drawn is the
same with other numbers (`Node.runsAlike`, `Program.runsBeside_ofNodes`).
-/

namespace TagLang

open NameSupply (Shifts funcName varName)

/-! ## Compilations side by side -/

namespace CompileM

variable {α β γ δ : Type} {k : Nat} {s s' : NameSupply} {checks more : List Check} {check : Check}
  {R : α → β → Prop} {Q : γ → δ → Prop} {x : CompileM α} {y : CompileM β}

/-- How a compilation from a supply ends, and how one beside it does. -/
inductive EndsBeside (k : Nat) (checks : List Check) (R : α → β → Prop) (s : NameSupply) :
    EStateM.Result CompileError NameSupply α → EStateM.Result CompileError NameSupply β → Prop
  | ok {a : α} {b : β} {s' : NameSupply} : s.drawn ≤ s'.drawn → (∀ c ∈ checks, c.Passes) →
      R a b → EndsBeside k checks R s (.ok a s') (.ok b (s'.skip k))
  | error {e : CompileError} {s' : NameSupply} : s.drawn ≤ s'.drawn → Check.Reports checks e →
      EndsBeside k checks R s (.error e s') (.error e (s'.skip k))

/-- From every supply a compilation makes some checks, and so does the one beside it. -/
def RunsBeside (k : Nat) (checks : List Check) (R : α → β → Prop) (x : CompileM α)
    (y : CompileM β) : Prop :=
  ∀ s, EndsBeside k checks R s (x s) (y (s.skip k))

/-- What comes after checks that have passed. -/
theorem EndsBeside.after {result : EStateM.Result CompileError NameSupply α}
    {result' : EStateM.Result CompileError NameSupply β}
    (h : EndsBeside k checks R s' result result') {passed : List Check}
    (hpassed : ∀ c ∈ passed, c.Passes) (hs : s.drawn ≤ s'.drawn) :
    EndsBeside k (passed ++ checks) R s result result' := by
  cases h with
  | ok hgrows hpass hR =>
    exact .ok (Nat.le_trans hs hgrows) (List.forall_mem_append.2 ⟨hpassed, hpass⟩) hR
  | error hgrows hreports =>
    exact .error (Nat.le_trans hs hgrows) (hreports.append_left hpassed)

namespace RunsBeside

theorem pure {a : α} {b : β} (h : R a b) : RunsBeside k [] R (pure a) (pure b) :=
  fun _ => .ok (Nat.le_refl _) (List.forall_mem_nil _) h

theorem bind {next : α → CompileM γ} {next' : β → CompileM δ} (hx : RunsBeside k checks R x y)
    (hnext : ∀ a b, R a b → RunsBeside k more Q (next a) (next' b)) :
    RunsBeside k (checks ++ more) Q (x >>= next) (y >>= next') := by
  intro s
  have hs := hx s
  show EndsBeside k (checks ++ more) Q s (EStateM.bind x next s) (EStateM.bind y next' (s.skip k))
  unfold EStateM.bind
  revert hs
  generalize x s = result
  generalize y (s.skip k) = result'
  intro hs
  cases hs with
  | ok hgrows hpass hR => exact (hnext _ _ hR _).after hpass hgrows
  | error hgrows hreports => exact .error hgrows (hreports.append_right more)

/-- What follows without a check of its own changes nothing. -/
theorem bind_nil {next : α → CompileM γ} {next' : β → CompileM δ} (hx : RunsBeside k checks R x y)
    (hnext : ∀ a b, R a b → RunsBeside k [] Q (next a) (next' b)) :
    RunsBeside k checks Q (x >>= next) (y >>= next') :=
  List.append_nil checks ▸ hx.bind hnext

theorem fail {cause : CompileCause} (h : check.Finds cause) (more : List Check) :
    RunsBeside k (check :: more) R (fail check.element.position check.element.name cause)
      (fail check.element.position check.element.name cause) :=
  fun _ => .error (Nat.le_refl _) ⟨[], check, more, rfl, List.forall_mem_nil _, h, rfl, rfl⟩

/-- Nothing comes after a failure. -/
theorem fail_bind {cause : CompileCause} {next : α → CompileM γ} {next' : α → CompileM δ}
    (h : check.Finds cause) (more : List Check) :
    RunsBeside k (check :: more) Q
      (CompileM.fail check.element.position check.element.name cause >>= next)
      (CompileM.fail check.element.position check.element.name cause >>= next') :=
  fun _ => .error (Nat.le_refl _) ⟨[], check, more, rfl, List.forall_mem_nil _, h, rfl, rfl⟩

theorem cons (h : RunsBeside k checks R x y) (hcheck : check.Passes) :
    RunsBeside k (check :: checks) R x y :=
  fun s => (h s).after (List.forall_mem_singleton.2 hcheck) (Nat.le_refl _)

theorem snoc (h : RunsBeside k checks R x y) (hcheck : check.Passes) :
    RunsBeside k (checks ++ [check]) R x y := by
  intro s
  have hs := h s
  revert hs
  generalize x s = result
  generalize y (s.skip k) = result'
  intro hs
  cases hs with
  | ok hgrows hpass hR =>
    have hsingle := List.forall_mem_singleton.2 hcheck
    exact .ok hgrows (List.forall_mem_append.2 ⟨hpass, hsingle⟩) hR
  | error hgrows hreports => exact .error hgrows (hreports.append_right _)

variable {r : String → String}

/-- A name is drawn without a check. -/
theorem draw {name : Nat → String} {x : CompileM String}
    (hx : ∀ s, x s = .ok (name (s.drawn + 1)) ⟨s.drawn + 1⟩)
    (hname : ∀ n, r (name n) = name (n + k)) : RunsBeside k [] (fun a b => b = r a) x x := by
  intro s
  have hnext : x (s.skip k) =
      .ok (name (s.drawn + 1 + k)) (NameSupply.skip k ⟨s.drawn + 1⟩) := by
    rw [hx]
    show EStateM.Result.ok (name (s.drawn + k + 1)) (NameSupply.mk (s.drawn + k + 1)) = _
    rw [Nat.add_right_comm]
    rfl
  rw [hx s, hnext]
  exact .ok (Nat.le_succ _) (List.forall_mem_nil _) (hname _).symm

theorem func (hr : Shifts k r) : RunsBeside k [] (fun a b => b = r a) func func :=
  draw (fun _ => rfl) hr.func

theorem var (hr : Shifts k r) : RunsBeside k [] (fun a b => b = r a) var var :=
  draw (fun _ => rfl) hr.var

/-- The function and the variable of a conditional are drawn without a check. -/
theorem conditional (hr : Shifts k r) (test yes no : Fragment Expr) :
    RunsBeside k [] (fun f g => g = f.rename r) (conditional test yes no)
      (conditional (test.rename r) (yes.rename r) (no.rename r)) := by
  unfold CompileM.conditional
  rw [Fragment.rename, Fragment.rename, Fragment.isPure_renameWith, Fragment.isPure_renameWith]
  cases yes.isPure && no.isPure with
  | true => exact .pure rfl
  | false =>
    refine (func hr).bind_nil ?_
    rintro func _ rfl
    refine (var hr).bind_nil ?_
    rintro var _ rfl
    apply RunsBeside.pure
    simp [Fragment.rename, Fragment.renameWith, Fragment.andThen, Fragment.assignTo,
      Stmt.renameAll, Stmt.rename, Expr.rename, Expr.renameAll, Expr.renameFields, Params.rename]

theorem function (hr : Shifts k r) (params : Params Expr) (steps : List Stmt)
    (body : Fragment Expr) :
    RunsBeside k [] (fun f g => g = f.rename r) (function params steps body)
      (function (params.rename r) (Stmt.renameAll r steps) (body.rename r)) := by
  unfold CompileM.function
  rw [Fragment.rename, Fragment.isPure_renameWith]
  cases body.isPure with
  | true => exact .pure rfl
  | false =>
    refine (func hr).bind_nil ?_
    rintro name _ rfl
    apply RunsBeside.pure
    simp [Fragment.rename, Fragment.renameWith, Fragment.functionBody, Stmt.renameAll, Stmt.rename,
      Expr.rename]

end RunsBeside

/-! ## What is read off -/

/-- The supply that a compilation leaves, with a result or with an error. -/
def Leaves (x : CompileM α) (s s' : NameSupply) : Prop :=
  (∃ a, x s = .ok a s') ∨ ∃ e, x s = .error e s'

theorem RunsBeside.of_ok {a : α} (h : RunsBeside k checks R x y) (hx : x s = .ok a s') :
    s.drawn ≤ s'.drawn ∧ (∀ c ∈ checks, c.Passes) ∧
      ∃ b, y (s.skip k) = .ok b (s'.skip k) ∧ R a b := by
  have hs := h s
  rw [hx] at hs
  generalize y (s.skip k) = result at hs
  cases hs with
  | ok hgrows hpass hR => exact ⟨hgrows, hpass, _, rfl, hR⟩

theorem RunsBeside.of_error {e : CompileError} (h : RunsBeside k checks R x y)
    (hx : x s = .error e s') :
    s.drawn ≤ s'.drawn ∧ Check.Reports checks e ∧ y (s.skip k) = .error e (s'.skip k) := by
  have hs := h s
  rw [hx] at hs
  generalize y (s.skip k) = result at hs
  cases hs with
  | error hgrows hreports => exact ⟨hgrows, hreports, rfl⟩

theorem RunsBeside.drawn_le (h : RunsBeside k checks R x y) (hleaves : x.Leaves s s') :
    s.drawn ≤ s'.drawn := by
  rcases hleaves with ⟨a, hx⟩ | ⟨e, hx⟩
  · exact (h.of_ok hx).1
  · exact (h.of_error hx).1

end CompileM

open CompileM (RunsBeside)

/-! ## Compiling several nodes -/

namespace Node

variable {k : Nat} {r : String → String} {nodes : List Node}

/-- Compiling a node makes its checks, and with more names drawn gives the same with other names. -/
def RunsAlike (k : Nat) (r : String → String) (n : Node) : Prop :=
  RunsBeside k n.checks (fun f g => g = f.rename r) n.compile n.compile

/-- As many fragments come out as there are nodes. -/
theorem runsBeside_compileAll (h : ∀ n ∈ nodes, n.RunsAlike k r) :
    RunsBeside k (nodes.flatMap checks)
      (fun fs gs => fs.length = nodes.length ∧ gs = fs.map (Fragment.rename r))
      (compileAll nodes) (compileAll nodes) := by
  induction nodes with
  | nil => exact .pure ⟨rfl, rfl⟩
  | cons n nodes ih =>
    rw [List.forall_mem_cons] at h
    rw [compileAll, List.flatMap_cons]
    refine h.1.bind ?_
    rintro f _ rfl
    refine (ih h.2).bind_nil ?_
    rintro fs _ ⟨hlength, rfl⟩
    exact .pure ⟨congrArg Nat.succ hlength, rfl⟩

/-- Compiled attributes keep their names. -/
theorem runsBeside_compileFields {fields : List (String × Node)}
    (h : ∀ n ∈ fields.map Prod.snd, n.RunsAlike k r) :
    RunsBeside k ((fields.map Prod.snd).flatMap checks)
      (fun fs gs => fs.map (fun f => f.value.1) = fields.map Prod.fst ∧
        gs = fs.map (Fragment.renameWith r fun field => (field.1, field.2.rename r)))
      (compileFields fields) (compileFields fields) := by
  induction fields with
  | nil => exact .pure ⟨rfl, rfl⟩
  | cons field fields ih =>
    rw [List.map_cons, List.forall_mem_cons] at h
    rw [compileFields, List.map_cons, List.flatMap_cons]
    refine h.1.bind ?_
    rintro f _ rfl
    refine (ih h.2).bind_nil ?_
    rintro fs _ ⟨hkeys, rfl⟩
    exact .pure ⟨congrArg (field.1 :: ·) hkeys, rfl⟩

theorem runsBeside_compileSequence (h : ∀ n ∈ nodes, n.RunsAlike k r) :
    RunsBeside k (nodes.flatMap checks) (fun f g => g = f.rename r) (compileSequence nodes)
      (compileSequence nodes) := by
  induction nodes with
  | nil => exact .pure rfl
  | cons n nodes ih =>
    rw [List.forall_mem_cons] at h
    cases nodes with
    | nil =>
      rw [compileSequence, List.flatMap_singleton]
      exact h.1
    | cons next rest =>
      rw [compileSequence, List.flatMap_cons]
      refine h.1.bind ?_
      rintro f _ rfl
      refine (ih h.2).bind_nil ?_
      rintro g _ rfl
      exact .pure (Fragment.rename_followedBy r f g).symm

/-! ## Compiling an element -/

section

variable {name : String} {attributes : List (String × Node)} {children : List Node}
  {position : Position}

/-- The name of a call is the only one that its element refers to. -/
theorem runsAlike_call (hform : Form.ofName? name = none) (hname : r name = name)
    (hchildren : ∀ p ∈ children, p.RunsAlike k r)
    (hattributes : ∀ p ∈ attributes.map Prod.snd, p.RunsAlike k r) :
    (Node.element ⟨name, attributes, children, position⟩).RunsAlike k r := by
  have hentry := passes_of_call hform (.entry ⟨name, attributes, children, position⟩) rfl
  have hexit := passes_of_call hform (.exit ⟨name, attributes, children, position⟩) rfl
  rw [RunsAlike, checks_element, compile]
  simp only [visited, hform, reduceCtorEq, ↓reduceIte]
  refine RunsBeside.cons (RunsBeside.snoc ?_ hexit) hentry
  rw [List.flatMap_append]
  refine (runsBeside_compileAll hchildren).bind ?_
  rintro args _ ⟨-, rfl⟩
  refine (runsBeside_compileFields hattributes).bind_nil ?_
  rintro keywords _ ⟨-, rfl⟩
  apply RunsBeside.pure
  have hargs := Fragment.collect_renameWith r (Expr.rename r) args
  rw [Fragment.renameFields_collect]
  unfold Fragment.rename at *
  rw [hargs]
  simp only [Fragment.renameWith, Fragment.map, Fragment.zip, Fragment.andThen, Expr.rename,
    Stmt.renameAll_append, Expr.renameAll_eq_map, hname]

/-- What is left of a form other than a function are the checks of its children. -/
theorem runsBeside_of_ne_function {α β : Type} {R : α → β → Prop} {x : CompileM α}
    {y : CompileM β} {e : Element Node} {form : Form} (hform : Form.ofName? e.name = some form)
    (hne : form ≠ .function) (hfault : form.fault? e.attributes e.children = none)
    (h : RunsBeside k (e.children.flatMap checks) R x y) :
    RunsBeside k (Node.element e).checks R x y := by
  have hattributes : e.attributes = [] := by
    refine (Form.fault?_eq_none hfault).2 ?_
    cases form with
    | function => exact absurd rfl hne
    | _ => rfl
  have hvisited : visited e = e.children := by
    rw [visited, hform, if_neg fun h => hne (Option.some.inj h), hattributes, List.map_nil,
      List.append_nil]
  rw [checks_element, hvisited]
  exact (h.snoc (exit_passes_of_ne hform hne)).cons (entry_passes_of_fault? hform hne hfault)

theorem runsAlike_conditional (hr : Shifts k r) (hform : Form.ofName? name = some .conditional)
    (hfault : Form.fault? .conditional attributes children = none)
    (hchildren : ∀ p ∈ children, p.RunsAlike k r) :
    (Node.element ⟨name, attributes, children, position⟩).RunsAlike k r := by
  refine runsBeside_of_ne_function hform (by simp) hfault ?_
  rw [compile]
  simp only [hform, hfault]
  refine (runsBeside_compileAll hchildren).bind_nil ?_
  rintro fs _ ⟨hlength, rfl⟩
  obtain ⟨hmin, hmax⟩ := Arity.accepts_iff.1 (Form.fault?_eq_none hfault).1
  have hmin : 2 ≤ children.length := hmin
  have hmax : children.length ≤ 3 := hmax 3 rfl
  have hcount : fs.length = 2 ∨ fs.length = 3 := by omega
  rcases hcount with htwo | hthree
  · obtain ⟨test, yes, rfl⟩ := List.length_eq_two.1 htwo
    exact .conditional hr test yes (.pure .nothing)
  · obtain ⟨test, yes, no, rfl⟩ := List.length_eq_three.1 hthree
    exact .conditional hr test yes no

theorem runsAlike_operator {op : BinOp} (hform : Form.ofName? name = some (.operator op))
    (hfault : Form.fault? (.operator op) attributes children = none)
    (hchildren : ∀ p ∈ children, p.RunsAlike k r) :
    (Node.element ⟨name, attributes, children, position⟩).RunsAlike k r := by
  refine runsBeside_of_ne_function hform (by simp) hfault ?_
  rw [compile]
  simp only [hform, hfault]
  refine (runsBeside_compileAll hchildren).bind_nil ?_
  rintro fs _ ⟨hlength, rfl⟩
  obtain ⟨hmin, hmax⟩ := Arity.accepts_iff.1 (Form.fault?_eq_none hfault).1
  have hmin : 2 ≤ children.length := hmin
  have hmax : children.length ≤ 2 := hmax 2 rfl
  have hcount : fs.length = 2 := by omega
  obtain ⟨left, right, rfl⟩ := List.length_eq_two.1 hcount
  apply RunsBeside.pure
  simp [Fragment.rename, Fragment.renameWith, Fragment.map, Fragment.zip, Fragment.andThen,
    Expr.rename]

/-- The attributes of a function are compiled before its body, and the names of its parameters are
compared after both and before any name is drawn for the function. -/
theorem runsAlike_function_list (hr : Shifts k r) {entries body : List Node}
    (hform : Form.ofName? name = some .function)
    (hfault : Form.fault? .function attributes (.list entries :: body) = none)
    (hbody : ∀ p ∈ body, p.RunsAlike k r)
    (hdefaults : ∀ p ∈ attributes.map Prod.snd, p.RunsAlike k r) :
    (Node.element ⟨name, attributes, .list entries :: body, position⟩).RunsAlike k r := by
  have hne := Element.body_ne_nil (Form.fault?_eq_none hfault).1
  rw [RunsAlike, checks_element, compile]
  simp only [hform, hfault]
  cases hparams : Params.ofNodes entries with
  | error cause =>
    have hfinds : (Check.entry ⟨name, attributes, .list entries :: body, position⟩).Finds cause :=
      .parameterList hform rfl hne (Params.listDefect_of_ofNodes hparams)
    exact .fail hfinds _
  | ok params =>
    refine RunsBeside.cons ?_ (entry_passes_of_ofNodes hform hfault rfl hparams)
    rw [visited, if_pos hform, List.flatMap_append, List.append_assoc]
    refine (runsBeside_compileFields hdefaults).bind ?_
    rintro ds _ ⟨hkeys, rfl⟩
    refine (runsBeside_compileSequence hbody).bind ?_
    rintro b _ rfl
    rw [Fragment.renameFields_collect]
    -- both runs compare the same names, those that the element has
    have hnames : { params with keywords := (Fragment.collect ds).value }.names =
        Element.parameterNames ⟨name, attributes, .list entries :: body, position⟩
          params.positional params.rest := by
      rw [Params.names, Fragment.collect, List.map_map, Element.parameterNames, ← hkeys]
      rfl
    have hrenamed : { params with keywords := ((Fragment.collect ds).renameWith r
        (Expr.renameFields r)).value }.names =
          { params with keywords := (Fragment.collect ds).value }.names :=
      Params.names_rename r { params with keywords := (Fragment.collect ds).value }
    rw [hrenamed, hnames]
    split
    · next duplicate hdup =>
      have hrepeated := firstRepeated_of_firstDuplicate? List.nodup_nil hdup
      have hfinds : (Check.exit ⟨name, attributes, .list entries :: body, position⟩).Finds
          (.duplicateParameter duplicate) :=
        .parameterNames hform rfl hne (Params.declares_of_ofNodes hparams) hrepeated
      exact .fail_bind hfinds []
    · next hdup =>
      have hnodup := (firstDuplicate?_eq_none_iff.1 (Option.eq_none_iff_forall_ne_some.2 hdup)).1
      exact (RunsBeside.function hr _ _ _).cons (exit_passes_of_nodup rfl hparams hnodup)

/-- A first child that is no list is found at once. -/
theorem runsAlike_function (hr : Shifts k r) (hform : Form.ofName? name = some .function)
    (hfault : Form.fault? .function attributes children = none)
    (hbody : ∀ p ∈ children.tail, p.RunsAlike k r)
    (hdefaults : ∀ p ∈ attributes.map Prod.snd, p.RunsAlike k r) :
    (Node.element ⟨name, attributes, children, position⟩).RunsAlike k r := by
  have haccepts := (Form.fault?_eq_none hfault).1
  cases children with
  | nil => exact absurd haccepts (by decide)
  | cons first body =>
    cases first with
    | list entries => exact runsAlike_function_list hr hform hfault hbody hdefaults
    | symbol _ | keyword _ | string _ | integer _ _ | float _ | complex _ _ | element _ =>
      rw [RunsAlike, checks_element, compile]
      simp only [hform, hfault]
      have hne := Element.body_ne_nil haccepts
      refine .fail (?_ : (Check.entry ⟨name, attributes, _ :: body, position⟩).Finds _) _
      exact .notList hform rfl hne (by rintro _ ⟨⟩)

/-- An element that its form does not accept is found when it is entered. -/
theorem runsAlike_of_fault? {form : Form} {cause : CompileCause}
    (hform : Form.ofName? name = some form)
    (hfault : form.fault? attributes children = some cause) :
    (Node.element ⟨name, attributes, children, position⟩).RunsAlike k r := by
  have hfinds : (Check.entry ⟨name, attributes, children, position⟩).Finds cause :=
    Element.entryDefect_of_fault? hform hfault
  rw [RunsAlike, checks_element, compile]
  simp only [hform, hfault]
  exact .fail_bind hfinds _

end

/-! ## Compiling a node -/

/-- **Compiling a node makes its checks**, and does the same with other numbers if more names are
drawn before. The names in the node must be such that renaming keeps them. -/
theorem runsAlike (hr : Shifts k r) (n : Node) (hnames : ∀ name ∈ n.names, r name = name) :
    n.RunsAlike k r := by
  induction n using parts_induction with
  | step n ih =>
    have hparts : ∀ p ∈ n.parts, p.RunsAlike k r := fun p hp =>
      ih p hp fun name hname => hnames name (names_part_subset hp hname)
    cases n with
    | symbol name =>
      apply RunsBeside.pure
      have hname := hnames name List.mem_cons_self
      simp [Fragment.rename, Fragment.renameWith, Fragment.pure, Stmt.renameAll, Expr.rename, hname]
    | keyword text =>
      apply RunsBeside.pure
      simp [Fragment.rename, Fragment.renameWith, Fragment.pure, Stmt.renameAll, Expr.keyword,
        Expr.rename, Expr.renameAll, Expr.renameFields, hr.keyword]
    | string _ | integer _ _ | float _ | complex _ _ => exact RunsBeside.pure rfl
    | list items =>
      rw [RunsAlike, compile, checks_list]
      refine (runsBeside_compileAll hparts).bind_nil ?_
      rintro fs _ ⟨-, rfl⟩
      apply RunsBeside.pure
      have hitems := Fragment.collect_renameWith r (Expr.rename r) fs
      unfold Fragment.rename
      rw [hitems]
      simp [Fragment.renameWith, Fragment.map, Expr.rename, Expr.renameAll_eq_map]
    | element e =>
      obtain ⟨name, attributes, children, position⟩ := e
      cases hform : Form.ofName? name with
      | none =>
        simp only [parts, hform, reduceCtorEq, ↓reduceIte, List.mem_append] at hparts
        exact runsAlike_call hform (hnames name List.mem_cons_self)
          (fun p hp => hparts p (.inl hp)) fun p hp => hparts p (.inr hp)
      | some form =>
        cases hfault : form.fault? attributes children with
        | some cause => exact runsAlike_of_fault? hform hfault
        | none =>
          have hchildren : form ≠ .function → ∀ p ∈ children, p.RunsAlike k r := by
            intro hne p hp
            refine hparts p (mem_visited.1 ?_)
            rw [visited, if_neg fun h => hne (Option.some.inj (hform.symm.trans h))]
            exact List.mem_append_left _ hp
          cases form with
          | sequence =>
            refine runsBeside_of_ne_function hform (by simp) hfault ?_
            rw [compile]
            simp only [hform, hfault]
            exact runsBeside_compileSequence (hchildren (by simp))
          | conditional => exact runsAlike_conditional hr hform hfault (hchildren (by simp))
          | operator op => exact runsAlike_operator hform hfault (hchildren (by simp))
          | function =>
            simp only [parts, hform, ↓reduceIte, List.mem_append] at hparts
            exact runsAlike_function hr hform hfault (fun p hp => hparts p (.inl hp))
              fun p hp => hparts p (.inr hp)

end Node

/-- **Compiling a program** makes the checks of its nodes, one node after the other. -/
theorem Program.runsBeside_ofNodes {k : Nat} {r : String → String} (hr : Shifts k r)
    {nodes : List Node} (hnames : ∀ name ∈ Node.namesOfAll nodes, r name = name) :
    RunsBeside k (nodes.flatMap Node.checks) (fun p q => q = p.rename r) (Program.ofNodes nodes)
      (Program.ofNodes nodes) := by
  have hnodes : ∀ n ∈ nodes, n.RunsAlike k r := by
    intro n hn
    refine n.runsAlike hr fun name hname => hnames name ?_
    rw [Node.namesOfAll_eq_flatMap]
    exact List.mem_flatMap.2 ⟨n, hn, hname⟩
  cases nodes with
  | nil => exact .pure rfl
  | cons n nodes =>
    rw [Program.ofNodes]
    · refine (Node.runsBeside_compileSequence hnodes).bind_nil ?_
      rintro f _ rfl
      exact .pure (Fragment.rename_program r f).symm
    · exact List.cons_ne_nil _ _

end TagLang
