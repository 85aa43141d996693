import TagLang.Proofs.Compile.Induction
import TagLang.Proofs.Program.Validity

/-!
# Defects of elements

An element is malformed by itself: its number of children, its attributes, its parameter list or the
names of its parameters are not what its form asks for (`Element.Malformed`). What is wrong with it
is found at two moments, when it is entered (`Element.EntryDefect`) and when it is left
(`Element.ExitDefect`), and a malformed element has a defect at one of them
(`Element.Malformed.exists_defect`).

A parameter list is a list of names with perhaps a rest parameter (`Params.Declares`) or has a
defect (`Params.ListDefect`), and reading it tells which (`Params.declares_of_ofNodes`,
`Params.listDefect_of_ofNodes`).
-/

namespace TagLang

/-! ## Parameter lists -/

namespace Params

/-- Nodes declare parameters: symbols, and at the end perhaps the marker and one more symbol.
Nothing else is the marker. -/
structure Declares (entries : List Node) (positional : List String) (rest : Option String) :
    Prop where
  entries_eq : entries = positional.map .symbol ++
    rest.elim [] fun name => [.symbol restMarker, .symbol name]
  positional_ne : restMarker ∉ positional
  rest_ne : rest ≠ some restMarker

/-- Nodes do not declare parameters: what stands where a name is missing or wrong. -/
inductive ListDefect : List Node → CompileCause → Prop
  | notSymbol {positional : List String} {node : Node} {more : List Node} :
      restMarker ∉ positional → (∀ name, node ≠ .symbol name) →
      ListDefect (positional.map .symbol ++ node :: more) (.invalidParameter node.kindName)
  | noRest {positional : List String} : restMarker ∉ positional →
      ListDefect (positional.map .symbol ++ [.symbol restMarker]) .missingRestName
  | restIsMarker {positional : List String} {more : List Node} : restMarker ∉ positional →
      ListDefect (positional.map .symbol ++ .symbol restMarker :: .symbol restMarker :: more)
        .missingRestName
  | restNotSymbol {positional : List String} {node : Node} {more : List Node} :
      restMarker ∉ positional → (∀ name, node ≠ .symbol name) →
      ListDefect (positional.map .symbol ++ .symbol restMarker :: node :: more)
        (.invalidParameter node.kindName)
  | restNotLast {positional : List String} {name : String} {node : Node} {more : List Node} :
      restMarker ∉ positional → name ≠ restMarker →
      ListDefect (positional.map .symbol ++ .symbol restMarker :: .symbol name :: node :: more)
        .extraRestName

variable {entries : List Node} {positional : List String} {rest : Option String}
  {cause : CompileCause}

theorem parameter_eq_error {node : Node} (h : ∀ name, node ≠ .symbol name) :
    node.parameter = .error (.invalidParameter node.kindName) := by
  cases node with
  | symbol name => exact absurd rfl (h name)
  | _ => rfl

/-- Names in front of a list are positional parameters. -/
theorem ofNodes_append (h : restMarker ∉ positional) (more : List Node) :
    ofNodes (positional.map .symbol ++ more) =
      (ofNodes more).map fun params =>
        { params with positional := positional ++ params.positional } := by
  induction positional with
  | nil =>
    rw [List.map_nil, List.nil_append]
    cases ofNodes more <;> rfl
  | cons name positional ih =>
    rw [List.mem_cons, not_or] at h
    obtain ⟨hname, hnames⟩ := h
    rw [List.map_cons, List.cons_append, ofNodes, ih hnames]
    simp only [Node.parameter, bind, Except.bind, if_neg (Ne.symm hname)]
    cases ofNodes more <;> rfl

theorem ofNodes_marker (more : List Node) :
    ofNodes (.symbol restMarker :: more) =
      (restOfNodes more).map fun name => { rest := some name } := by
  rw [ofNodes]
  simp only [Node.parameter, bind, Except.bind, ↓reduceIte]
  cases restOfNodes more <;> rfl

theorem ofNodes_notSymbol {node : Node} (h : ∀ name, node ≠ .symbol name) (more : List Node) :
    ofNodes (node :: more) = .error (.invalidParameter node.kindName) := by
  rw [ofNodes, parameter_eq_error h]
  rfl

theorem restOfNodes_symbol {name : String} (h : name ≠ restMarker) (more : List Node) :
    restOfNodes (.symbol name :: more) = if more = [] then .ok name else .error .extraRestName := by
  rw [restOfNodes]
  simp only [Node.parameter, bind, Except.bind, if_neg h]
  cases more <;> rfl

theorem Declares.ofNodes_eq (h : Declares entries positional rest) :
    ofNodes entries = .ok { positional := positional, rest := rest } := by
  obtain ⟨rfl, hpositional, hrest⟩ := h
  rw [ofNodes_append hpositional]
  cases rest with
  | none => simp [ofNodes, Except.map]
  | some name =>
    have hname : name ≠ restMarker := fun h => hrest (congrArg some h)
    simp [ofNodes_marker, restOfNodes_symbol hname, Except.map]

theorem ListDefect.ofNodes_eq (h : ListDefect entries cause) : ofNodes entries = .error cause := by
  cases h with
  | notSymbol hpositional hnode => rw [ofNodes_append hpositional, ofNodes_notSymbol hnode]; rfl
  | noRest hpositional => rw [ofNodes_append hpositional, ofNodes_marker]; rfl
  | restIsMarker hpositional => rw [ofNodes_append hpositional, ofNodes_marker]; rfl
  | restNotSymbol hpositional hnode =>
    rw [ofNodes_append hpositional, ofNodes_marker, restOfNodes, parameter_eq_error hnode]
    rfl
  | restNotLast hpositional hname =>
    rw [ofNodes_append hpositional, ofNodes_marker, restOfNodes_symbol hname]
    rfl

/-- Before the marker or something that is no symbol stand names. -/
theorem exists_positional (entries : List Node) :
    ∃ (positional : List String) (more : List Node), restMarker ∉ positional ∧
      entries = positional.map .symbol ++ more ∧
      (more = [] ∨ (∃ after, more = .symbol restMarker :: after) ∨
        ∃ node after, more = node :: after ∧ ∀ name, node ≠ .symbol name) := by
  induction entries with
  | nil => exact ⟨[], [], List.not_mem_nil, rfl, .inl rfl⟩
  | cons node entries ih =>
    by_cases hsymbol : ∃ name, node = .symbol name
    · obtain ⟨name, rfl⟩ := hsymbol
      by_cases hname : name = restMarker
      · subst hname
        exact ⟨[], _, List.not_mem_nil, rfl, .inr (.inl ⟨entries, rfl⟩)⟩
      · obtain ⟨positional, more, hpositional, rfl, hmore⟩ := ih
        refine ⟨name :: positional, more, ?_, rfl, hmore⟩
        rw [List.mem_cons, not_or]
        exact ⟨Ne.symm hname, hpositional⟩
    · rw [not_exists] at hsymbol
      exact ⟨[], _, List.not_mem_nil, rfl, .inr (.inr ⟨node, entries, rfl, hsymbol⟩)⟩

/-- Nodes declare parameters or have a defect. -/
theorem declares_or_listDefect (entries : List Node) :
    (∃ positional rest, Declares entries positional rest) ∨ ∃ cause, ListDefect entries cause := by
  obtain ⟨positional, more, hpositional, rfl, rfl | ⟨after, rfl⟩ | ⟨node, after, rfl, hnode⟩⟩ :=
    exists_positional entries
  · exact .inl ⟨positional, none, rfl, hpositional, nofun⟩
  · cases after with
    | nil => exact .inr ⟨_, .noRest hpositional⟩
    | cons node after =>
      by_cases hsymbol : ∃ name, node = .symbol name
      · obtain ⟨name, rfl⟩ := hsymbol
        by_cases hname : name = restMarker
        · subst hname
          exact .inr ⟨_, .restIsMarker hpositional⟩
        · cases after with
          | nil =>
            exact .inl ⟨positional, some name, rfl, hpositional, fun h => hname (Option.some.inj h)⟩
          | cons next after => exact .inr ⟨_, .restNotLast hpositional hname⟩
      · exact .inr ⟨_, .restNotSymbol hpositional (not_exists.1 hsymbol)⟩
  · exact .inr ⟨_, .notSymbol hpositional hnode⟩

theorem declares_of_ofNodes {params : Params Expr} (h : ofNodes entries = .ok params) :
    Declares entries params.positional params.rest := by
  rcases declares_or_listDefect entries with ⟨positional, rest, hdeclares⟩ | ⟨cause, hdefect⟩
  · obtain rfl := Except.ok.inj (h.symm.trans hdeclares.ofNodes_eq)
    exact hdeclares
  · cases h.symm.trans hdefect.ofNodes_eq

theorem listDefect_of_ofNodes (h : ofNodes entries = .error cause) : ListDefect entries cause := by
  rcases declares_or_listDefect entries with ⟨positional, rest, hdeclares⟩ | ⟨cause', hdefect⟩
  · cases h.symm.trans hdeclares.ofNodes_eq
  · obtain rfl := Except.error.inj (h.symm.trans hdefect.ofNodes_eq)
    exact hdefect

end Params

/-- A name is the first that comes up twice. -/
def FirstRepeated (names : List String) (name : String) : Prop :=
  ∃ before after, names = before ++ name :: after ∧ before.Nodup ∧ name ∈ before

theorem FirstRepeated.not_nodup {names : List String} {name : String}
    (h : FirstRepeated names name) : ¬ names.Nodup := by
  obtain ⟨before, after, rfl, -, hmem⟩ := h
  intro hnodup
  exact (List.nodup_append.1 hnodup).2.2 name hmem name List.mem_cons_self rfl

theorem firstRepeated_of_firstDuplicate? {seen names : List String} {name : String}
    (hseen : seen.Nodup) (h : firstDuplicate? seen names = some name) :
    FirstRepeated (seen.reverse ++ names) name := by
  induction names generalizing seen with
  | nil => cases h
  | cons first names ih =>
    rw [firstDuplicate?] at h
    by_cases hfirst : first ∈ seen
    · rw [if_pos (List.contains_iff_mem.2 hfirst)] at h
      obtain rfl := Option.some.inj h
      exact ⟨seen.reverse, names, rfl, List.nodup_reverse.2 hseen, List.mem_reverse.2 hfirst⟩
    · rw [if_neg (mt List.contains_iff_mem.1 hfirst)] at h
      have hrepeated := ih (List.nodup_cons.2 ⟨hfirst, hseen⟩) h
      rwa [List.reverse_cons, List.append_assoc] at hrepeated

/-! ## Malformed elements -/

namespace Element

/-- All parameters of a function, if the nodes declare these. -/
def parameterNames (e : Element Node) (positional : List String) (rest : Option String) :
    List String :=
  positional ++ rest.toList ++ e.attributes.map Prod.fst

/-- An element is not what its form asks for. -/
inductive Malformed (e : Element Node) : Prop
  | childCount {form : Form} : Form.ofName? e.name = some form →
      form.arity.accepts e.children.length = false → Malformed e
  | attributes {form : Form} : Form.ofName? e.name = some form → form ≠ .function →
      e.attributes ≠ [] → Malformed e
  | notList : Form.ofName? e.name = some .function →
      (∀ entries, e.children.head? ≠ some (.list entries)) → Malformed e
  | parameterList {entries : List Node} : Form.ofName? e.name = some .function →
      e.children.head? = some (.list entries) →
      (¬ ∃ positional rest, Params.Declares entries positional rest) → Malformed e
  | parameterNames {entries : List Node} {positional : List String} {rest : Option String} :
      Form.ofName? e.name = some .function → e.children.head? = some (.list entries) →
      Params.Declares entries positional rest → ¬ (e.parameterNames positional rest).Nodup →
      Malformed e

/-- What is found when an element is entered: the number of children is looked at first, then the
attributes, then the parameter list. -/
inductive EntryDefect (e : Element Node) : CompileCause → Prop
  | childCount {form : Form} : Form.ofName? e.name = some form →
      form.arity.accepts e.children.length = false →
      EntryDefect e (.argumentCount form.arity e.children.length)
  | attributes {form : Form} {key : String} {value : Node} {more : List (String × Node)} :
      Form.ofName? e.name = some form → form.arity.accepts e.children.length = true →
      form ≠ .function → e.attributes = (key, value) :: more →
      EntryDefect e (.unexpectedAttribute key)
  | notList {first : Node} {body : List Node} : Form.ofName? e.name = some .function →
      e.children = first :: body → body ≠ [] → (∀ entries, first ≠ .list entries) →
      EntryDefect e (.paramsNotList first.kindName)
  | parameterList {entries body : List Node} {cause : CompileCause} :
      Form.ofName? e.name = some .function → e.children = .list entries :: body → body ≠ [] →
      Params.ListDefect entries cause → EntryDefect e cause

/-- What is found when an element is left: a name that two parameters have. -/
inductive ExitDefect (e : Element Node) : CompileCause → Prop
  | parameterNames {entries body : List Node} {positional : List String} {rest : Option String}
      {name : String} : Form.ofName? e.name = some .function →
      e.children = .list entries :: body → body ≠ [] → Params.Declares entries positional rest →
      FirstRepeated (e.parameterNames positional rest) name →
      ExitDefect e (.duplicateParameter name)

variable {e : Element Node} {cause : CompileCause}

theorem body_ne_nil {first : Node} {body : List Node}
    (h : Form.function.arity.accepts (first :: body).length = true) : body ≠ [] := by
  rintro rfl
  rw [List.length_singleton] at h
  exact absurd h (by decide)

/-- The number of children of a function is wrong, or it has a first child and a body. -/
theorem childCount_or_body (hform : Form.ofName? e.name = some .function) :
    (∃ cause, e.EntryDefect cause) ∨
      ∃ first body, e.children = first :: body ∧ body ≠ [] := by
  cases haccepts : Form.function.arity.accepts e.children.length with
  | false => exact .inl ⟨_, .childCount hform haccepts⟩
  | true =>
    cases hchildren : e.children with
    | nil =>
      rw [hchildren] at haccepts
      exact absurd haccepts (by decide)
    | cons first body =>
      rw [hchildren] at haccepts
      exact .inr ⟨first, body, rfl, body_ne_nil haccepts⟩

/-- An element is malformed if it has a defect. -/
theorem EntryDefect.malformed (h : e.EntryDefect cause) : e.Malformed := by
  cases h with
  | childCount hform haccepts => exact .childCount hform haccepts
  | attributes hform _ hne hattributes =>
    exact .attributes hform hne (by rw [hattributes]; exact List.cons_ne_nil _ _)
  | notList hform hchildren _ hfirst =>
    refine .notList hform fun entries hhead => ?_
    rw [hchildren] at hhead
    exact hfirst entries (Option.some.inj hhead)
  | parameterList hform hchildren _ hdefect =>
    refine .parameterList hform (by rw [hchildren]; rfl) ?_
    rintro ⟨positional, rest, hdeclares⟩
    cases hdeclares.ofNodes_eq.symm.trans hdefect.ofNodes_eq

theorem ExitDefect.malformed (h : e.ExitDefect cause) : e.Malformed := by
  cases h with
  | parameterNames hform hchildren _ hdeclares hrepeated =>
    exact .parameterNames hform (by rw [hchildren]; rfl) hdeclares hrepeated.not_nodup

/-- A malformed element has a defect. -/
theorem Malformed.exists_defect (h : e.Malformed) :
    (∃ cause, e.EntryDefect cause) ∨ ∃ cause, e.ExitDefect cause := by
  cases h with
  | childCount hform haccepts => exact .inl ⟨_, .childCount hform haccepts⟩
  | @attributes form hform hne hattributes =>
    cases haccepts : form.arity.accepts e.children.length with
    | false => exact .inl ⟨_, .childCount hform haccepts⟩
    | true =>
      obtain ⟨⟨key, value⟩, more, hmore⟩ := List.exists_cons_of_ne_nil hattributes
      exact .inl ⟨_, .attributes hform haccepts hne hmore⟩
  | notList hform hhead =>
    refine .inl ?_
    rcases childCount_or_body hform with hcount | ⟨first, body, hchildren, hbody⟩
    · exact hcount
    · refine ⟨_, .notList hform hchildren hbody fun entries hfirst => hhead entries ?_⟩
      rw [hchildren, hfirst]
      rfl
  | @parameterList entries hform hhead hnot =>
    refine .inl ?_
    rcases childCount_or_body hform with hcount | ⟨first, body, hchildren, hbody⟩
    · exact hcount
    · rw [hchildren] at hhead
      obtain rfl := Option.some.inj hhead
      rcases Params.declares_or_listDefect entries with hdeclares | ⟨cause, hdefect⟩
      · exact absurd hdeclares hnot
      · exact ⟨cause, .parameterList hform hchildren hbody hdefect⟩
  | @parameterNames entries positional rest hform hhead hdeclares hnodup =>
    rcases childCount_or_body hform with hcount | ⟨first, body, hchildren, hbody⟩
    · exact .inl hcount
    · rw [hchildren] at hhead
      obtain rfl := Option.some.inj hhead
      cases hfirst : firstDuplicate? [] (e.parameterNames positional rest) with
      | none => exact absurd (firstDuplicate?_eq_none_iff.1 hfirst).1 hnodup
      | some name =>
        have hrepeated := firstRepeated_of_firstDuplicate? List.nodup_nil hfirst
        exact .inr ⟨_, .parameterNames hform hchildren hbody hdeclares hrepeated⟩

/-- What the check of the form finds is a defect. -/
theorem entryDefect_of_fault? {form : Form} (hform : Form.ofName? e.name = some form)
    (h : form.fault? e.attributes e.children = some cause) : e.EntryDefect cause := by
  unfold Form.fault? at h
  split at h
  · next haccepts =>
    split at h
    · cases h
    · next htakes =>
      obtain ⟨⟨key, value⟩, hhead, rfl⟩ := Option.map_eq_some_iff.1 h
      obtain ⟨more, hattributes⟩ := List.head?_eq_some_iff.1 hhead
      refine .attributes hform haccepts ?_ hattributes
      rintro rfl
      exact htakes rfl
  · next haccepts =>
    obtain rfl := Option.some.inj h
    exact .childCount hform (Bool.not_eq_true _ ▸ haccepts)

end Element

end TagLang
