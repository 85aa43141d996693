import TagLang.Proofs.Compile.Defects

/-!
# The order of checks

`Node.checks` lists the checks that are made when a node is compiled: an element is checked when it
is entered, for everything but the names of its parameters, and these are checked when it is left. A
list of checks reports an error if that is what the first failing one finds (`Check.Reports`).
-/

namespace TagLang

/-- A check of an element, when it is entered or when it is left. -/
inductive Check where
  | entry (element : Element Node)
  | exit (element : Element Node)

namespace Check

def element : Check → Element Node
  | .entry e => e
  | .exit e => e

/-- What a check finds. -/
def Finds : Check → CompileCause → Prop
  | .entry e => e.EntryDefect
  | .exit e => e.ExitDefect

/-- A check that finds nothing. -/
def Passes (check : Check) : Prop := ∀ cause, ¬ check.Finds cause

/-- An error is what the first failing check finds, in the element of this check. -/
def Reports (checks : List Check) (e : CompileError) : Prop :=
  ∃ before check after, checks = before ++ check :: after ∧ (∀ c ∈ before, c.Passes) ∧
    check.Finds e.cause ∧ e.tag = check.element.name ∧ e.position = check.element.position

theorem Reports.append_right {checks : List Check} {e : CompileError} (h : Reports checks e)
    (more : List Check) : Reports (checks ++ more) e := by
  obtain ⟨before, check, after, rfl, hbefore, hfinds⟩ := h
  refine ⟨before, check, after ++ more, ?_, hbefore, hfinds⟩
  rw [List.append_assoc, List.cons_append]

theorem Reports.append_left {checks passed : List Check} {e : CompileError} (h : Reports checks e)
    (hpassed : ∀ c ∈ passed, c.Passes) : Reports (passed ++ checks) e := by
  obtain ⟨before, check, after, rfl, hbefore, hfinds⟩ := h
  refine ⟨passed ++ before, check, after, (List.append_assoc ..).symm, ?_, hfinds⟩
  exact List.forall_mem_append.2 ⟨hpassed, hbefore⟩

end Check

mutual

/-- The checks of a node, in order. A function is entered before its attributes and its body, and
other elements before their children and attributes. -/
def Node.checks : Node → List Check
  | .list items => (Node.checksOfEach items).flatten
  | .element ⟨name, attributes, children, position⟩ =>
    .entry ⟨name, attributes, children, position⟩ ::
      ((if Form.ofName? name = some .function
        then Node.checksOfFields attributes ++ (Node.checksOfEach children).tail
        else Node.checksOfEach children ++ Node.checksOfFields attributes).flatten ++
      [.exit ⟨name, attributes, children, position⟩])
  | _ => []

def Node.checksOfEach : List Node → List (List Check)
  | [] => []
  | node :: rest => node.checks :: Node.checksOfEach rest

def Node.checksOfFields : List (String × Node) → List (List Check)
  | [] => []
  | (_, node) :: rest => node.checks :: Node.checksOfFields rest

end

namespace Node

theorem checksOfEach_eq_map (nodes : List Node) : checksOfEach nodes = nodes.map checks := by
  induction nodes with
  | nil => rfl
  | cons n nodes ih => rw [checksOfEach, ih, List.map_cons]

theorem checksOfFields_eq_map (fields : List (String × Node)) :
    checksOfFields fields = (fields.map Prod.snd).map checks := by
  induction fields with
  | nil => rfl
  | cons field fields ih => rw [checksOfFields, ih, List.map_cons, List.map_cons]

theorem checks_list (items : List Node) : (Node.list items).checks = items.flatMap checks := by
  rw [checks, checksOfEach_eq_map, List.flatMap_def]

/-- The parts of an element in the order in which they are checked. -/
def visited (e : Element Node) : List Node :=
  if Form.ofName? e.name = some .function then e.attributes.map Prod.snd ++ e.children.tail
  else e.children ++ e.attributes.map Prod.snd

theorem checks_element (e : Element Node) :
    (Node.element e).checks = .entry e :: ((visited e).flatMap checks ++ [.exit e]) := by
  rw [checks, visited, checksOfEach_eq_map, checksOfFields_eq_map, List.flatMap_def,
    apply_ite (List.map checks), List.map_append, List.map_append, List.map_tail]

theorem mem_visited {e : Element Node} {p : Node} : p ∈ visited e ↔ p ∈ (Node.element e).parts := by
  rw [visited, parts]
  split
  · rw [List.mem_append, List.mem_append, or_comm]
  · rfl

/-- Exactly the elements in a node are checked. -/
theorem mem_checks_iff {n : Node} {check : Check} :
    check ∈ n.checks ↔ .element check.element ∈ n.all := by
  induction n using parts_induction with
  | step n ih =>
    rw [all_eq, List.mem_cons, List.mem_flatMap]
    cases n with
    | symbol _ | keyword _ | string _ | integer _ _ | float _ | complex _ _ => simp [checks, parts]
    | list items =>
      simp only [checks_list, List.mem_flatMap, reduceCtorEq, false_or]
      exact exists_congr fun p => and_congr_right fun hp => ih p hp
    | element e =>
      have hparts : check ∈ (visited e).flatMap checks ↔
          ∃ p ∈ (Node.element e).parts, .element check.element ∈ p.all := by
        rw [List.mem_flatMap]
        refine exists_congr fun p => ?_
        rw [mem_visited]
        exact and_congr_right fun hp => ih p hp
      rw [checks_element, List.mem_cons, List.mem_append, hparts, List.mem_singleton,
        Node.element.injEq]
      cases check with
      | entry e' => simp [Check.element]
      | exit e' => simp [Check.element, or_comm]

/-! ## Checks that pass -/

section

variable {e : Element Node} {form : Form}

/-- An element that is no form is not checked for anything. -/
theorem passes_of_call (h : Form.ofName? e.name = none) (check : Check) (he : check.element = e) :
    check.Passes := by
  subst he
  intro cause hfinds
  cases check with
  | entry e =>
    change Form.ofName? e.name = none at h
    cases hfinds with
    | childCount hform | attributes hform | notList hform | parameterList hform =>
      rw [h] at hform
      cases hform
  | exit e =>
    change Form.ofName? e.name = none at h
    cases hfinds with
    | parameterNames hform =>
      rw [h] at hform
      cases hform

/-- A form other than a function is checked for nothing but its children and attributes. -/
theorem entry_passes_of_fault? (hform : Form.ofName? e.name = some form) (hne : form ≠ .function)
    (hfault : form.fault? e.attributes e.children = none) : (Check.entry e).Passes := by
  obtain ⟨haccepts, hattributes⟩ := Form.fault?_eq_none hfault
  intro cause hfinds
  cases hfinds with
  | childCount hform' hcount =>
    obtain rfl := Option.some.inj (hform.symm.trans hform')
    rw [haccepts] at hcount
    cases hcount
  | attributes _ _ _ hsome =>
    have htakes : form.takesAttributes = false := by
      cases form with
      | function => exact absurd rfl hne
      | _ => rfl
    rw [hattributes htakes] at hsome
    cases hsome
  | notList hform' | parameterList hform' =>
    exact absurd (Option.some.inj (hform.symm.trans hform')) hne

theorem exit_passes_of_ne (hform : Form.ofName? e.name = some form) (hne : form ≠ .function) :
    (Check.exit e).Passes := by
  intro cause hfinds
  cases hfinds with
  | parameterNames hform' =>
    exact absurd (Option.some.inj (hform.symm.trans hform')) hne

section Function

variable {entries body : List Node} {params : Params Expr}

theorem entry_passes_of_ofNodes (hform : Form.ofName? e.name = some .function)
    (hfault : Form.function.fault? e.attributes e.children = none)
    (hchildren : e.children = .list entries :: body)
    (hparams : Params.ofNodes entries = .ok params) : (Check.entry e).Passes := by
  intro cause hfinds
  cases hfinds with
  | childCount hform' hcount =>
    obtain rfl := Option.some.inj (hform.symm.trans hform')
    rw [(Form.fault?_eq_none hfault).1] at hcount
    cases hcount
  | attributes hform' _ hne _ =>
    exact absurd (Option.some.inj (hform'.symm.trans hform)) hne
  | notList _ hchildren' _ hfirst =>
    rw [hchildren] at hchildren'
    exact hfirst entries (List.cons.inj hchildren').1.symm
  | parameterList _ hchildren' _ hdefect =>
    rw [hchildren] at hchildren'
    obtain ⟨hlist, -⟩ := List.cons.inj hchildren'
    obtain rfl := Node.list.inj hlist
    cases hparams.symm.trans hdefect.ofNodes_eq

theorem exit_passes_of_nodup (hchildren : e.children = .list entries :: body)
    (hparams : Params.ofNodes entries = .ok params)
    (hnodup : (e.parameterNames params.positional params.rest).Nodup) : (Check.exit e).Passes := by
  intro cause hfinds
  cases hfinds with
  | parameterNames _ hchildren' _ hdeclares hrepeated =>
    rw [hchildren] at hchildren'
    obtain ⟨hlist, -⟩ := List.cons.inj hchildren'
    obtain rfl := Node.list.inj hlist
    obtain rfl := Except.ok.inj (hparams.symm.trans hdeclares.ofNodes_eq)
    exact hrepeated.not_nodup hnodup

end Function

end

end Node

end TagLang
