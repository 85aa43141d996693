import TagLang.Compile.Source
import TagLang.Proofs.Compile.Contents
import TagLang.Proofs.Compile.Defects
import TagLang.Proofs.Compile.Names
import TagLang.Proofs.Program.Validity
import TagLang.Proofs.Reading.Names

/-!
# What is compiled is valid

Nothing validates a program between compiling and running it, and nothing has to: the program of a
text is well-formed (`Program.validate_ofSource`). Three facts about compiled nodes come together.

* The steps of a fragment evaluate and define, so that functions are left only inside of one.
* The names in a fragment are names in the source, made up, or that of the function for keywords
  (`Node.names_of_mem_own`), and those in a text are not empty.
* The names of a parameter list differ, since every function is checked.

Nodes that are not read from a text may have empty names, and then the program is not valid: a name
of a node is a name in the fragment, unless it is that of a form or marks a rest parameter
(`Node.exists_own_of_mem_names`). Nothing else can be wrong with a compiled program
(`Program.validate_ofNodes`).
-/

namespace TagLang

open NameSupply (funcName varName Generated)

/-! ## Functions are left only inside of one -/

namespace Fragment

variable {fs : List (Fragment Expr)}

/-- The steps of a fragment do not leave the function around them. -/
def Stays {α : Type} (f : Fragment α) : Prop := ∀ t ∈ f.steps, ¬ t.Leaves

theorem Stays.statements {f : Fragment Expr} (h : f.Stays) : ∀ t ∈ f.statements, ¬ t.Leaves := by
  refine List.forall_mem_append.2 ⟨h, List.forall_mem_singleton.2 ?_⟩
  nofun

theorem stays_collect {α : Type} {fs : List (Fragment α)} (h : ∀ f ∈ fs, f.Stays) :
    (collect fs).Stays :=
  forall_mem_steps_collect h

theorem stays_sequence (h : ∀ f ∈ fs, f.Stays) : (sequence fs).Stays :=
  forall_mem_steps_sequence fun f hf => (h f hf).statements

end Fragment

namespace Node

variable {s s' : NameSupply} {f : Fragment Expr} {n : Node}

theorem stays_of_compilation (h : Compilation (fun _ _ f _ => f.Stays) n s f s') : f.Stays := by
  cases h with
  | symbol | keyword | string | integer | float | complex => exact List.forall_mem_nil _
  | list hitems => exact Fragment.stays_collect hitems.forall_mem
  | call _ hargs hkeywords =>
    refine List.forall_mem_append.2 ⟨Fragment.stays_collect hargs.forall_mem, ?_⟩
    exact Fragment.stays_collect hkeywords.forall_mem_fields
  | sequence _ _ hfs => exact Fragment.stays_sequence hfs.forall_mem
  | operator _ hl hr => exact List.forall_mem_append.2 ⟨hl, hr⟩
  | conditional _ ht _ _ _ _ => exact ht
  | branches _ ht _ _ _ =>
    -- the return of the branches is inside of the function that is defined
    refine List.forall_mem_append.2 ⟨ht, List.forall_mem_singleton.2 ?_⟩
    nofun
  | lambda _ _ _ hds _ _ _ => exact Fragment.stays_collect hds.forall_mem_fields
  | function _ _ _ hds _ _ _ =>
    refine List.forall_mem_append.2 ⟨Fragment.stays_collect hds.forall_mem_fields, ?_⟩
    refine List.forall_mem_singleton.2 ?_
    nofun

theorem stays_of_compiles (h : n.Compiles s f s') : f.Stays := by
  refine compile_induction (motive := fun _ _ f _ => f.Stays) (fun n s f s' h => ?_) n s f s' h
  exact stays_of_compilation (h.imp fun p _ s f s' hpart => hpart.2)

end Node

theorem Program.not_leaves_of_ofNodes {nodes : List Node} {p : Program} {s s' : NameSupply}
    (h : Program.ofNodes nodes s = .ok p s') : ∀ t ∈ p.body, ¬ t.Leaves := by
  obtain ⟨fs, hfs, hbody⟩ := Program.chain_of_ofNodes h
  have hstays : ∀ f ∈ fs, f.Stays :=
    (hfs.imp fun n _ s f s' h => Node.stays_of_compiles h).forall_mem
  intro t ht
  rw [hbody] at ht
  obtain ⟨f, hf, ht⟩ := List.mem_flatMap.1 ht
  exact (hstays f hf).statements t ht

/-! ## Parameters differ -/

namespace Node

variable {s s' : NameSupply} {f : Fragment Expr} {n : Node} {item : Item}

/-- Parameters are contributed by functions, and a function is compiled only if they differ. -/
theorem distinct_of_mem_own (h : n.Compiles s f s') (hitem : item ∈ n.own) : item.Distinct := by
  cases contributes_of_mem_own hitem with
  | params hform hparams =>
    cases compile_cases h with
    | lambda _ hparams' _ hds _ hdup _ | function _ hparams' _ hds _ hdup _ =>
      obtain rfl := Except.ok.inj (hparams.symm.trans hparams')
      have hnodup := (firstDuplicate?_eq_none_iff.1 hdup).1
      rw [Params.names, Fragment.collect, List.map_map] at hnodup
      rw [Item.Distinct, ← hds.keys_eq]
      exact hnodup
    | call hform' | sequence hform' | operator hform' | conditional hform' | branches hform' =>
      rw [hform] at hform'
      cases hform'
  | plain hplain =>
    cases item with
    | params _ _ _ => cases hplain
    | _ => trivial
  | _ => trivial

end Node

/-! ## Names come from the source or are made up -/

/-- The names in a parameter list are the parameters, and the marker of the rest parameter. -/
theorem Params.Declares.mem_namesOfAll_iff {entries : List Node} {positional : List String}
    {rest : Option String} {name : String} (h : Params.Declares entries positional rest) :
    name ∈ Node.namesOfAll entries ↔
      name ∈ positional ++ rest.toList ∨ rest.isSome = true ∧ name = restMarker := by
  have hsymbols : (positional.map Node.symbol).flatMap Node.names = positional := by
    rw [List.flatMap_map]
    exact List.flatMap_singleton' positional
  rw [h.entries_eq, Node.namesOfAll_eq_flatMap, List.flatMap_append, hsymbols, List.mem_append,
    List.mem_append]
  cases rest with
  | none => simp
  | some ident =>
    have hrest : name ∈ [Node.symbol restMarker, .symbol ident].flatMap Node.names ↔
        name = restMarker ∨ name = ident := by simp [Node.names]
    rw [Option.elim_some, hrest, Option.toList_some, List.mem_singleton, Option.isSome_some]
    tauto

namespace Node

variable {n : Node} {item : Item}

theorem mem_namesOfFields_iff {fields : List (String × Node)} {name : String} :
    name ∈ namesOfFields fields ↔
      name ∈ fields.map Prod.fst ∨ ∃ p ∈ fields.map Prod.snd, name ∈ p.names := by
  induction fields with
  | nil => simp [namesOfFields]
  | cons field fields ih =>
    rw [namesOfFields, List.mem_cons, List.mem_append, ih, List.map_cons, List.map_cons,
      List.mem_cons, List.exists_mem_cons_iff]
    tauto

/-- An element has its name, the names and the values of its attributes, and its children. -/
theorem mem_names_element_iff {e : Element Node} {name : String} :
    name ∈ (Node.element e).names ↔ name = e.name ∨ name ∈ e.attributes.map Prod.fst ∨
      (∃ p ∈ e.attributes.map Prod.snd, name ∈ p.names) ∨ ∃ p ∈ e.children, name ∈ p.names := by
  rw [names, List.mem_cons, List.mem_append, mem_namesOfFields_iff, namesOfAll_eq_flatMap,
    List.mem_flatMap, or_assoc]

theorem names_part_subset {p : Node} (hp : p ∈ n.parts) : p.names ⊆ n.names := by
  intro name hname
  cases n with
  | list items =>
    rw [names, namesOfAll_eq_flatMap]
    exact List.mem_flatMap.2 ⟨p, hp, hname⟩
  | element e =>
    rw [mem_names_element_iff]
    rcases mem_parts_element hp with hp | hp
    · exact .inr (.inr (.inr ⟨p, hp, hname⟩))
    · exact .inr (.inr (.inl ⟨p, hp, hname⟩))
  | symbol _ | keyword _ | string _ | integer _ _ | float _ | complex _ _ => cases hp

theorem names_subset_of_mem_all {m : Node} (h : m ∈ n.all) : m.names ⊆ n.names := by
  induction n using parts_induction with
  | step n ih =>
    rw [all_eq, List.mem_cons, List.mem_flatMap] at h
    rcases h with rfl | ⟨p, hp, h⟩
    · exact List.Subset.refl _
    · exact List.Subset.trans (ih p hp h) (names_part_subset hp)

/-- The names that a node contributes are names in it, or that of the function for keywords. -/
theorem names_of_mem_own (hitem : item ∈ n.own) :
    ∀ name ∈ item.names, name ∈ n.names ∨ name = "Keyword" := by
  intro name hname
  cases contributes_of_mem_own hitem with
  | symbol => exact .inl hname
  | keywordCall => cases hname
  | keywordName => exact .inr (List.mem_singleton.1 hname)
  | call hform => exact .inl (mem_names_element_iff.2 (.inr (.inl hname)))
  | callee hform => exact .inl (mem_names_element_iff.2 (.inl (List.mem_singleton.1 hname)))
  | @params _ _ entries _ _ _ hform hparams =>
    refine .inl (mem_names_element_iff.2 (.inr ?_))
    rcases List.mem_append.1 hname with hname | hkey
    · have hentry := (Params.declares_of_ofNodes hparams).mem_namesOfAll_iff.2 (.inl hname)
      exact .inr (.inr ⟨.list entries, List.mem_cons_self, hentry⟩)
    · exact .inl hkey
  | plain hplain =>
    cases item with
    | name _ | call _ _ _ | params _ _ _ | assign _ | define _ => cases hplain
    | _ => cases hname

/-! ## Every name is kept -/

section Kept

variable {s s' : NameSupply} {f : Fragment Expr} {name : String}

theorem mem_names_cases_of_ne_function {e : Element Node}
    (hform : Form.ofName? e.name ≠ some .function) (hname : name ∈ (Node.element e).names) :
    name = e.name ∨ name ∈ e.attributes.map Prod.fst ∨
      ∃ p ∈ (Node.element e).parts, name ∈ p.names := by
  rw [parts_of_ne_function hform]
  rcases mem_names_element_iff.1 hname with hname | hkey | ⟨p, hp, hname⟩ | ⟨p, hp, hname⟩
  · exact .inl hname
  · exact .inr (.inl hkey)
  · exact .inr (.inr ⟨p, List.mem_append_right _ hp, hname⟩)
  · exact .inr (.inr ⟨p, List.mem_append_left _ hp, hname⟩)

/-- The parameters of a function, also those of its attributes, are in one item of it. -/
theorem mem_names_cases_function {ident : String} {attributes : List (String × Node)}
    {entries body : List Node} {position : Position} {params : Params Expr}
    (hform : Form.ofName? ident = some .function) (hparams : Params.ofNodes entries = .ok params)
    (hname : name ∈ (Node.element ⟨ident, attributes, .list entries :: body, position⟩).names)
    (hident : name ≠ ident) (hmarker : name ≠ restMarker) :
    (∃ item ∈ (Node.element ⟨ident, attributes, .list entries :: body, position⟩).own,
        name ∈ item.names) ∨
      ∃ p ∈ (Node.element ⟨ident, attributes, .list entries :: body, position⟩).parts,
        name ∈ p.names := by
  have hown : .params params.positional params.rest (attributes.map Prod.fst) ∈
      (Node.element ⟨ident, attributes, .list entries :: body, position⟩).own := by
    simp [own, hform, Params.itemOfNodes, hparams]
  rw [parts_function hform]
  rcases mem_names_element_iff.1 hname with hname | hkey | ⟨p, hp, hname⟩ | ⟨p, hp, hname⟩
  · exact absurd hname hident
  · exact .inl ⟨_, hown, List.mem_append_right _ hkey⟩
  · exact .inr ⟨p, List.mem_append_right _ hp, hname⟩
  · rcases List.mem_cons.1 hp with rfl | hp
    · have hdeclares := Params.declares_of_ofNodes hparams
      rcases hdeclares.mem_namesOfAll_iff.1 hname with hname | ⟨-, hname⟩
      · exact .inl ⟨_, hown, List.mem_append_left _ hname⟩
      · exact absurd hname hmarker
    · exact .inr ⟨p, List.mem_append_left _ hp, hname⟩

/-- A name of a compiled node is in an item of its own or in one of its parts. -/
theorem mem_names_cases (h : n.Compiles s f s') (hname : name ∈ n.names)
    (hform : Form.ofName? name = none) (hmarker : name ≠ restMarker) :
    (∃ item ∈ n.own, name ∈ item.names) ∨ ∃ p ∈ n.parts, name ∈ p.names := by
  cases compile_cases h with
  | symbol => exact .inl ⟨_, Multiset.mem_singleton_self _, hname⟩
  | keyword | string | integer | float | complex => cases hname
  | list _ =>
    rw [names, namesOfAll_eq_flatMap] at hname
    exact .inr (List.mem_flatMap.1 hname)
  | @call ident attributes children position _ _ _ _ _ hcall =>
    have hcallee : .name ident ∈ (Node.element ⟨ident, attributes, children, position⟩).own := by
      simp [own, hcall]
    have hkeywords : .call (some ident) children.length (attributes.map Prod.fst) ∈
        (Node.element ⟨ident, attributes, children, position⟩).own := by
      simp [own, hcall]
    rcases mem_names_cases_of_ne_function (by simp [hcall]) hname with rfl | hkey | hpart
    · exact .inl ⟨_, hcallee, List.mem_cons_self⟩
    · exact .inl ⟨_, hkeywords, hkey⟩
    · exact .inr hpart
  | sequence hother | operator hother | conditional hother | branches hother =>
    -- a form has a name of its own, and no attributes
    rcases mem_names_cases_of_ne_function (by simp [hother]) hname with rfl | hkey | hpart
    · cases hform.symm.trans hother
    · cases hkey
    · exact .inr hpart
  | lambda hfunction hparams | function hfunction hparams =>
    refine mem_names_cases_function hfunction hparams hname ?_ hmarker
    rintro rfl
    cases hform.symm.trans hfunction

/-- **Every name is kept**: a name of a compiled node is in an item of a node in it, unless it is
the name of a form or the marker of a rest parameter. -/
theorem exists_own_of_mem_names (h : n.Compiles s f s') (hname : name ∈ n.names)
    (hform : Form.ofName? name = none) (hmarker : name ≠ restMarker) :
    ∃ m ∈ n.all, ∃ item ∈ m.own, name ∈ item.names := by
  induction n using parts_induction generalizing s f s' with
  | step n ih =>
    rw [all_eq]
    rcases mem_names_cases h hname hform hmarker with hown | ⟨p, hp, hname⟩
    · exact ⟨n, List.mem_cons_self, hown⟩
    · obtain ⟨_, _, _, hpart⟩ := (compile_cases h).exists_of_part hp
      obtain ⟨m, hm, hown⟩ := ih p hp hpart hname
      exact ⟨m, List.mem_cons_of_mem _ (List.mem_flatMap.2 ⟨p, hp, hm⟩), hown⟩

end Kept

end Node

/-- All names of a made-up function are made up, and it has no parameters. -/
theorem generated_of_mem_conditionalItems (k : Nat) :
    ∀ item ∈ conditionalItems k, item.Distinct ∧ ∀ name ∈ item.names, Generated name := by
  have hfunc : Generated (funcName k) := ⟨k, .inl rfl⟩
  have hvar : Generated (varName (k + 1)) := ⟨k + 1, .inr rfl⟩
  simp [conditionalItems, Item.Distinct, Item.names, or_imp, forall_and, hfunc, hvar]

theorem generated_of_mem_functionItems (k : Nat) :
    ∀ item ∈ functionItems k, item.Distinct ∧ ∀ name ∈ item.names, Generated name := by
  have hfunc : Generated (funcName k) := ⟨k, .inl rfl⟩
  simp [functionItems, Item.Distinct, Item.names, or_imp, forall_and, hfunc]

/-! ## Compiled programs -/

namespace Program

variable {nodes : List Node} {p : Program} {s s' : NameSupply}

/-- Every item of a program comes from a node, which is compiled, or is made up. -/
theorem mem_items_cases {item : Item} (h : Program.ofNodes nodes s = .ok p s')
    (hitem : item ∈ Stmt.itemsOf p.body) :
    item = .eval ∨ (∃ n ∈ nodes.flatMap Node.all, item ∈ n.own ∧ ∃ s f s', n.Compiles s f s') ∨
      (item.Distinct ∧ ∀ name ∈ item.names, Generated name) := by
  obtain ⟨items, haccounted, hitems⟩ := Node.exists_accounted_of_ofNodes h
  rw [hitems] at hitem
  rcases Multiset.mem_add.1 hitem with heval | hitem
  · exact .inl (Multiset.eq_of_mem_replicate heval)
  · rcases haccounted.mem_cases hitem with ⟨n, hn, hown⟩ | ⟨k, -, -, hk⟩ | ⟨k, -, -, hk⟩
    · refine .inr (.inl ⟨n, hn, hown, ?_⟩)
      obtain ⟨root, hroot, hn⟩ := List.mem_flatMap.1 (Multiset.mem_coe.1 hn)
      obtain ⟨fs, hfs, -⟩ := Program.chain_of_ofNodes h
      obtain ⟨_, _, _, hcompiles⟩ := hfs.exists_of_mem hroot
      exact Node.exists_compiles_of_mem_all hcompiles hn
    · exact .inr (.inr (generated_of_mem_conditionalItems k item hk))
    · exact .inr (.inr (generated_of_mem_functionItems k item hk))

theorem distinct_of_ofNodes (h : Program.ofNodes nodes s = .ok p s') :
    ∀ item ∈ Stmt.itemsOf p.body, item.Distinct := by
  intro item hitem
  rcases mem_items_cases h hitem with rfl | ⟨n, -, hown, _, _, _, hcompiles⟩ | ⟨hdistinct, -⟩
  · trivial
  · exact Node.distinct_of_mem_own hcompiles hown
  · exact hdistinct

theorem names_of_ofNodes (h : Program.ofNodes nodes s = .ok p s') {item : Item} {name : String}
    (hitem : item ∈ Stmt.itemsOf p.body) (hname : name ∈ item.names) :
    name ∈ Node.namesOfAll nodes ∨ name = "Keyword" ∨ Generated name := by
  rcases mem_items_cases h hitem with rfl | ⟨n, hn, hown, -⟩ | ⟨-, hgenerated⟩
  · cases hname
  · rcases Node.names_of_mem_own hown name hname with hname | hname
    · obtain ⟨root, hroot, hn⟩ := List.mem_flatMap.1 hn
      rw [Node.namesOfAll_eq_flatMap]
      exact .inl (List.mem_flatMap.2 ⟨root, hroot, Node.names_subset_of_mem_all hn hname⟩)
    · exact .inr (.inl hname)
  · exact .inr (.inr (hgenerated name hname))

/-- A program is well-formed if no name in its nodes is empty. -/
theorem wellFormed_of_ofNodes (h : Program.ofNodes nodes s = .ok p s')
    (hnames : ∀ name ∈ Node.namesOfAll nodes, name ≠ "") : p.WellFormed := by
  refine ⟨not_leaves_of_ofNodes h, fun item hitem name hname => ?_, distinct_of_ofNodes h⟩
  rcases names_of_ofNodes h hitem hname with hsource | rfl | hgenerated
  · exact hnames name hsource
  · decide
  · rintro rfl
    cases hgenerated.head?

theorem exists_item_of_mem_names {name : String} (h : Program.ofNodes nodes s = .ok p s')
    (hname : name ∈ Node.namesOfAll nodes) (hform : Form.ofName? name = none)
    (hmarker : name ≠ restMarker) : ∃ item ∈ Stmt.itemsOf p.body, name ∈ item.names := by
  rw [Node.namesOfAll_eq_flatMap] at hname
  obtain ⟨root, hroot, hname⟩ := List.mem_flatMap.1 hname
  obtain ⟨fs, hfs, -⟩ := Program.chain_of_ofNodes h
  obtain ⟨_, _, _, hcompiles⟩ := hfs.exists_of_mem hroot
  obtain ⟨m, hm, item, hown, hname⟩ :=
    Node.exists_own_of_mem_names hcompiles hname hform hmarker
  obtain ⟨items, haccounted, hitems⟩ := Node.exists_accounted_of_ofNodes h
  have hitem := haccounted.mem_of_mem_own (List.mem_flatMap.2 ⟨root, hroot, hm⟩) hown
  exact ⟨item, hitems ▸ Multiset.mem_add.2 (.inr hitem), hname⟩

/-- **Only an empty name makes a compiled program invalid.** Whatever nodes are compiled, with
whatever supply: if a symbol, also one in a parameter list, the name of an element or that of an
attribute is empty, validation reports this and nothing else, and if none is, it accepts the
program. -/
theorem validate_ofNodes (h : Program.ofNodes nodes s = .ok p s') :
    p.validate = if "" ∈ Node.namesOfAll nodes then .error .emptyIdentifier else .ok () := by
  split
  · next hempty =>
    obtain ⟨item, hitem, hname⟩ := exists_item_of_mem_names h hempty rfl (by decide)
    cases hvalidate : p.validate with
    | ok _ => exact absurd rfl ((validate_eq_ok_iff.1 hvalidate).named item hitem "" hname)
    | error e =>
      -- the two other errors contradict what is known of compiled programs
      cases violates_of_validate_eq_error hvalidate with
      | returnOutsideFunction hs hleaves => exact absurd hleaves (not_leaves_of_ofNodes h _ hs)
      | emptyIdentifier _ _ => rfl
      | duplicateParameter hparams hrepeats =>
        exact absurd hrepeats (Item.distinct_iff.1 (distinct_of_ofNodes h _ hparams) _)
  · next hnames =>
    refine validate_eq_ok_iff.2 (wellFormed_of_ofNodes h ?_)
    rintro _ hname rfl
    exact hnames hname

/-- A call whose argument is a function with a parameter without a name, which its body does not
use. -/
def namelessParameter : List Node :=
  [.element ((Element.named "f").addChild (.element ((Element.named "fn*").addChildren
    [.list [.symbol "x", .symbol "&", .symbol ""], .symbol "x", .keyword ""])))]

theorem validate_ofNodes_namelessParameter :
    "" ∈ Node.namesOfAll namelessParameter ∧
    ∃ p s', Program.ofNodes namelessParameter ⟨7⟩ = .ok p s' ∧
      p.validate = .error .emptyIdentifier := by
  have hempty : "" ∈ Node.namesOfAll namelessParameter := by decide
  obtain ⟨p, s', h⟩ : ∃ p s', Program.ofNodes namelessParameter ⟨7⟩ = .ok p s' := ⟨_, _, rfl⟩
  exact ⟨hempty, p, s', h, (validate_ofNodes h).trans (if_pos hempty)⟩

theorem exists_of_ofSource {options : ParseOptions} {source : String}
    (h : Program.ofSource options source = .ok p) :
    ∃ nodes s', Node.parse options source = .ok nodes ∧ Program.ofNodes nodes {} = .ok p s' := by
  unfold ofSource at h
  split at h
  · cases h
  · next nodes hparse =>
    split at h
    · cases h
    · next program hfresh =>
      obtain rfl := Except.ok.inj h
      unfold CompileM.fresh at hfresh
      split at hfresh
      · next p' s' hrun =>
        obtain rfl := Except.ok.inj hfresh
        exact ⟨nodes, s', hparse, hrun⟩
      · cases hfresh

/-- Evaluating something of the program of a text shows that it has one. -/
theorem exists_ofSource_of_map {options : ParseOptions} {source : String} {β : Type}
    {f : Program → β} {b : β} (h : (Program.ofSource options source).toOption.map f = some b) :
    ∃ p, Program.ofSource options source = .ok p ∧ f p = b := by
  cases hsource : Program.ofSource options source with
  | error e =>
    rw [hsource] at h
    cases h
  | ok p =>
    rw [hsource] at h
    exact ⟨p, rfl, Option.some.inj h⟩

/-- **The program of a text is valid.** With either setting of the options, validation accepts it:
no function is left outside of one, no name is empty, and the names of each parameter list differ,
at any depth. -/
theorem validate_ofSource {options : ParseOptions} {source : String}
    (h : Program.ofSource options source = .ok p) : p.validate = .ok () ∧ p.WellFormed := by
  obtain ⟨nodes, s', hparse, hcompile⟩ := exists_of_ofSource h
  have hwell := wellFormed_of_ofNodes hcompile (Node.ne_empty_of_parse hparse)
  exact ⟨validate_eq_ok_iff.2 hwell, hwell⟩

/-- A function whose body has two expressions and whose parameters are of all kinds. -/
theorem validate_ofSource_function :
    ∃ p, Program.ofSource ⟨true⟩ "<fn* k=:d>[x & r] x <f k=r>k</f></fn*>" = .ok p ∧
      p.body.map Stmt.definedName? = [some "_temp_func_1", none] ∧
      p.validate = .ok () ∧ p.WellFormed := by
  have hdefined : (Program.ofSource ⟨true⟩ "<fn* k=:d>[x & r] x <f k=r>k</f></fn*>").toOption.map
      (fun p => p.body.map Stmt.definedName?) = some [some "_temp_func_1", none] := by
    decide +kernel
  cases h : Program.ofSource ⟨true⟩ "<fn* k=:d>[x & r] x <f k=r>k</f></fn*>" with
  | error e =>
    rw [h] at hdefined
    cases hdefined
  | ok p =>
    rw [h] at hdefined
    exact ⟨p, rfl, Option.some.inj hdefined, validate_ofSource h⟩

end Program

end TagLang
