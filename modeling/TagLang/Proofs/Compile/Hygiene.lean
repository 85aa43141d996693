import TagLang.Proofs.Compile.Session
import TagLang.Proofs.Compile.Validity

/-!
# Made-up names beside the names of a source

A source may use any identifier as a name, also one of the form that the supply gives out, and the
compiler does not look for such names. What a program introduces has the numbers from one up to the
number of names drawn, so a name of the source is introduced a second time only if it has this form
and such a number (`Program.introduced_apart`). A made-up name that the source does not write is
safe: one expression refers to it, the one that it was made up for, and no parameter has it
(`Stmt.Reserved`).

A source that writes such a name can be compiled to a program in which the made-up definition takes
the place of a parameter of the source (`Program.introduced_collides`).
-/

namespace TagLang

open NameSupply (funcName varName funcName_injective varName_injective funcName_ne_varName
  not_generated_keyword)

/-- Nothing but what a name was made up for uses it: no parameter has it, and one expression refers
to it. -/
structure Stmt.Reserved (block : List Stmt) (name : String) : Prop where
  parameters : ∀ positional rest keywords, .params positional rest keywords ∈ itemsOf block →
    name ∉ positional ++ rest.toList ++ keywords
  references : (itemsOf block).count (.name name) = 1

/-! ## References to made-up names -/

theorem count_funcName_conditionalItems (j k : Nat) :
    (conditionalItems j).count (.name (funcName k)) = if j = k then 1 else 0 := by
  have hvar : funcName k ≠ varName (j + 1) := funcName_ne_varName
  by_cases hj : j = k
  · simp [conditionalItems, hj, funcName_ne_varName]
  · have hne : funcName k ≠ funcName j := fun h => hj (funcName_injective h).symm
    simp [conditionalItems, hj, hne, hvar]

theorem count_funcName_functionItems (j k : Nat) :
    (functionItems j).count (.name (funcName k)) = if j = k then 1 else 0 := by
  by_cases hj : j = k
  · simp [functionItems, hj]
  · have hne : funcName k ≠ funcName j := fun h => hj (funcName_injective h).symm
    simp [functionItems, hj, hne]

theorem count_varName_conditionalItems (j k : Nat) :
    (conditionalItems j).count (.name (varName k)) = if j + 1 = k then 1 else 0 := by
  have hfunc : varName k ≠ funcName j := funcName_ne_varName.symm
  by_cases hj : j + 1 = k
  · simp [conditionalItems, hj, hfunc]
  · have hne : varName k ≠ varName (j + 1) := fun h => hj (varName_injective h).symm
    simp [conditionalItems, hj, hne, hfunc]

theorem count_varName_functionItems (j k : Nat) :
    (functionItems j).count (.name (varName k)) = 0 := by
  simp [functionItems, funcName_ne_varName.symm]

namespace Accounted

variable {nodes : Multiset Node} {items : Multiset Item} {s s' : NameSupply}

/-- A made-up function is referred to where it is defined for, and else only by nodes. -/
theorem count_funcName (h : Accounted nodes s items s') (k : Nat) :
    items.count (.name (funcName k)) =
      (nodes.map Node.own).sum.count (.name (funcName k)) + items.count (.define (funcName k)) := by
  obtain ⟨cs, fs, -, -, -, -, rfl⟩ := h
  have hown : (nodes.map Node.own).sum.count (.define (funcName k)) = 0 :=
    count_own_eq_zero rfl (by simp)
  simp only [Multiset.count_add]
  rw [hown, count_sum_map_numbers (f := id) fun j => count_funcName_conditionalItems j k,
    count_sum_map_numbers (f := id) fun j => count_funcName_functionItems j k,
    count_sum_map_numbers (f := id) fun j => count_define_conditionalItems j k,
    count_sum_map_numbers (f := id) fun j => count_define_functionItems j k]
  omega

/-- A made-up variable is referred to once for its two assignments, and else only by nodes. -/
theorem count_varName (h : Accounted nodes s items s') (k : Nat) :
    2 * items.count (.name (varName k)) =
      2 * (nodes.map Node.own).sum.count (.name (varName k)) +
        items.count (.assign (varName k)) := by
  obtain ⟨cs, fs, -, -, -, -, rfl⟩ := h
  have hname : (fs.map functionItems).sum.count (.name (varName k)) = 0 * (fs.map id).count k :=
    count_sum_map_numbers fun j => by rw [count_varName_functionItems, ite_self]
  have hassign : (fs.map functionItems).sum.count (.assign (varName k)) = 0 * (fs.map id).count k :=
    count_sum_map_numbers fun j => by rw [count_assign_functionItems, ite_self]
  have hown : (nodes.map Node.own).sum.count (.assign (varName k)) = 0 :=
    count_own_eq_zero rfl (by simp)
  simp only [Multiset.count_add]
  rw [hown, hname, hassign,
    count_sum_map_numbers fun j => count_varName_conditionalItems j k,
    count_sum_map_numbers fun j => count_assign_conditionalItems j k]
  omega

/-- Nodes refer to no name but theirs and that of the function for keywords. -/
theorem count_own_name {name : String} (hsource : ∀ n ∈ nodes, name ∉ n.names)
    (hkeyword : name ≠ "Keyword") : (nodes.map Node.own).sum.count (.name name) = 0 := by
  rw [Multiset.count_eq_zero]
  intro h
  obtain ⟨n, hn, hown⟩ := Multiset.mem_bind.1 h
  rcases Node.names_of_mem_own hown name List.mem_cons_self with hname | hname
  · exact hsource n hn hname
  · exact hkeyword hname

/-- A name that is introduced and that no node has is referred to once. -/
theorem count_name_eq_one {name : String} (h : Accounted nodes s items s')
    (hsource : ∀ n ∈ nodes, name ∉ n.names)
    (hname : .define name ∈ items ∨ .assign name ∈ items) : items.count (.name name) = 1 := by
  have hkeyword : ∀ {k}, name = funcName k ∨ name = varName k → name ≠ "Keyword" := by
    rintro k hk rfl
    exact not_generated_keyword ⟨k, hk⟩
  rcases hname with hdefine | hassign
  · obtain ⟨k, -, -, rfl⟩ := h.exists_of_define_mem hdefine
    obtain ⟨func, var, hfunc, -, hsum, -⟩ := h.count_numbers k
    have hpos := Multiset.count_pos.2 hdefine
    rw [h.count_funcName, count_own_name hsource (hkeyword (.inl rfl))]
    split at hsum <;> omega
  · obtain ⟨k, -, -, rfl⟩ := h.exists_of_assign_mem hassign
    obtain ⟨func, var, -, hvar, hsum, -⟩ := h.count_numbers k
    have hpos := Multiset.count_pos.2 hassign
    have hcount := h.count_varName k
    rw [count_own_name hsource (hkeyword (.inr rfl))] at hcount
    split at hsum <;> omega

/-- The parameters of made-up functions for conditionals are none, so others come from nodes. -/
theorem not_mem_params {name : String} (h : Accounted nodes s items s')
    (hsource : ∀ n ∈ nodes, name ∉ n.names) (hkeyword : name ≠ "Keyword")
    {positional keywords : List String} {rest : Option String}
    (hparams : .params positional rest keywords ∈ items) :
    name ∉ positional ++ rest.toList ++ keywords := by
  rcases h.mem_cases hparams with ⟨n, hn, hown⟩ | ⟨k, -, -, hk⟩ | ⟨k, -, -, hk⟩
  · intro hname
    rcases Node.names_of_mem_own hown name hname with hname | hname
    · exact hsource n hn hname
    · exact hkeyword hname
  · obtain ⟨rfl, rfl, rfl⟩ : positional = [] ∧ rest = none ∧ keywords = [] := by
      simpa [conditionalItems] using hk
    exact List.not_mem_nil
  · simp [functionItems] at hk

end Accounted

/-! ## Compiled programs -/

namespace Program

variable {nodes : List Node} {p : Program} {s s' : NameSupply} {name : String}

theorem introduces_of_ofNodes (h : Program.ofNodes nodes s = .ok p s') :
    (Request.program nodes).Introduces s p.body s' :=
  Request.introduces_of_statements (CompileM.bind_eq_ok.2 ⟨p, s', h, rfl⟩)

theorem not_mem_names_of_mem_all (hsource : name ∉ Node.namesOfAll nodes) :
    ∀ n ∈ ((nodes.flatMap Node.all : List Node) : Multiset Node), name ∉ n.names := by
  intro n hn hname
  obtain ⟨root, hroot, hn⟩ := List.mem_flatMap.1 (Multiset.mem_coe.1 hn)
  apply hsource
  rw [Node.namesOfAll_eq_flatMap]
  exact List.mem_flatMap.2 ⟨root, hroot, Node.names_subset_of_mem_all hn hname⟩

/-- A made-up name that the source does not write is reserved for what it was made up for. -/
theorem reserved_of_ofNodes (h : Program.ofNodes nodes s = .ok p s')
    (hname : name ∈ Stmt.introduced p.body) (hsource : name ∉ Node.namesOfAll nodes) :
    Stmt.Reserved p.body name := by
  obtain ⟨items, haccounted, hitems⟩ := Node.exists_accounted_of_ofNodes h
  have hnodes := not_mem_names_of_mem_all hsource
  refine ⟨fun positional rest keywords hparams => ?_, ?_⟩
  · obtain ⟨k, -, -, hk⟩ := (introduces_of_ofNodes h).only name hname
    have hkeyword : name ≠ "Keyword" := by
      rintro rfl
      exact not_generated_keyword ⟨k, hk⟩
    refine haccounted.not_mem_params hnodes hkeyword ?_
    rw [hitems] at hparams
    simpa [Multiset.mem_replicate] using hparams
  · rw [hitems, Multiset.count_add, Multiset.count_replicate, if_neg (by simp), Nat.zero_add]
    refine haccounted.count_name_eq_one hnodes ?_
    rw [Stmt.mem_introduced_iff, hitems] at hname
    simpa [Multiset.mem_replicate] using hname

/-- **Made-up names beside the names of a source.** Let a text be read as `nodes` and be compiled,
with as many names drawn as its conditionals and functions need. A name of the text that is also
introduced has the form and one of the numbers of the names drawn. Every other name that is
introduced is reserved: it captures no reference of the text and takes the place of none of its
parameters. -/
theorem introduced_apart {options : ParseOptions} {source : String}
    (h : Program.ofSource options source = .ok p) :
    ∃ nodes s', Node.parse options source = .ok nodes ∧ Program.ofNodes nodes {} = .ok p s' ∧
      s'.drawn = 2 * (nodes.flatMap Node.all).countP Node.branchNeedsSteps +
        (nodes.flatMap Node.all).countP Node.bodyNeedsSteps ∧
      (∀ name ∈ Node.namesOfAll nodes, name ∈ Stmt.introduced p.body →
        ∃ k, 1 ≤ k ∧ k ≤ s'.drawn ∧ (name = funcName k ∨ name = varName k)) ∧
      ∀ name ∈ Stmt.introduced p.body, name ∉ Node.namesOfAll nodes →
        Stmt.Reserved p.body name := by
  obtain ⟨nodes, s', hparse, hcompile⟩ := exists_of_ofSource h
  have hintroduces := introduces_of_ofNodes hcompile
  refine ⟨nodes, s', hparse, hcompile, ?_, fun name _ hname => ?_, fun name => ?_⟩
  · exact hintroduces.drawn.trans (by rw [Nat.zero_add]; rfl)
  · exact hintroduces.only name hname
  · exact reserved_of_ofNodes hcompile

/-- Names that only look like made-up ones: a variable with the number of a function, and a function
with a number that is not drawn. -/
def lookalikeSource : String :=
  "<fn*>[_temp_var_1] <f>_temp_func_4 <if>p <do>x y</do></if></f></fn*>"

theorem introduced_apart_lookalikes :
    ∃ p, Program.ofSource ⟨true⟩ lookalikeSource = .ok p ∧
      Stmt.introduced p.body = [funcName 3, funcName 1, varName 2, varName 2] ∧
      ∀ name ∈ Stmt.introduced p.body, Stmt.Reserved p.body name := by
  have hprogram : (Program.ofSource ⟨true⟩ lookalikeSource).toOption.map
      (fun p => Stmt.introduced p.body) = some [funcName 3, funcName 1, varName 2, varName 2] := by
    decide +kernel
  have hnodes : (Node.parse ⟨true⟩ lookalikeSource).toOption.map
      (fun nodes => [funcName 3, funcName 1, varName 2, varName 2].any
        (Node.namesOfAll nodes).contains) = some false := by
    decide +kernel
  cases h : Program.ofSource ⟨true⟩ lookalikeSource with
  | error e =>
    rw [h] at hprogram
    cases hprogram
  | ok p =>
    rw [h] at hprogram
    have hintroduced : Stmt.introduced p.body = _ := Option.some.inj hprogram
    obtain ⟨nodes, s', hparse, -, -, -, hreserved⟩ := introduced_apart h
    refine ⟨p, rfl, hintroduced, fun name hname => hreserved name hname fun hsource => ?_⟩
    rw [hparse] at hnodes
    rw [hintroduced] at hname
    exact List.any_eq_false.1 (Option.some.inj hnodes) name hname (List.contains_iff_mem.2 hsource)

/-- A function whose parameter has the name that is made up for the conditional in its body. -/
def collidingSource : String :=
  "<fn*>[_temp_func_1] <f>_temp_func_1 <if>p <do>x y</do></if></f></fn*>"

/-- **A made-up name can be a name of the source.** In the body of the function the made-up
definition takes the place of the parameter, and the reference of the source to its parameter is one
of two references to the made-up function. -/
theorem introduced_collides :
    ∃ p nodes, Program.ofSource ⟨false⟩ collidingSource = .ok p ∧
      Node.parse ⟨false⟩ collidingSource = .ok nodes ∧
      "_temp_func_1" ∈ Stmt.introduced p.body ∧ "_temp_func_1" ∈ Node.namesOfAll nodes ∧
      .params ["_temp_func_1"] none [] ∈ Stmt.itemsOf p.body ∧
      (Stmt.itemsOf p.body).count (.name "_temp_func_1") = 2 := by
  have hprogram : (Program.ofSource ⟨false⟩ collidingSource).toOption.map (fun p =>
      decide ("_temp_func_1" ∈ Stmt.introduced p.body ∧
        .params ["_temp_func_1"] none [] ∈ Stmt.itemsOf p.body ∧
        (Stmt.itemsOf p.body).count (.name "_temp_func_1") = 2)) = some true := by
    decide +kernel
  have hnodes : (Node.parse ⟨false⟩ collidingSource).toOption.map (fun nodes =>
      decide ("_temp_func_1" ∈ Node.namesOfAll nodes)) = some true := by
    decide +kernel
  cases hp : Program.ofSource ⟨false⟩ collidingSource with
  | error e =>
    rw [hp] at hprogram
    cases hprogram
  | ok p =>
    cases hn : Node.parse ⟨false⟩ collidingSource with
    | error e =>
      rw [hn] at hnodes
      cases hnodes
    | ok nodes =>
      rw [hp] at hprogram
      rw [hn] at hnodes
      obtain ⟨hintroduced, hparams, hcount⟩ := of_decide_eq_true (Option.some.inj hprogram)
      exact ⟨p, nodes, rfl, rfl, hintroduced, of_decide_eq_true (Option.some.inj hnodes), hparams,
        hcount⟩

end Program

end TagLang
