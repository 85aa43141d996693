import TagLang.Proofs.Compile.Purity

/-!
# The shape of what is compiled

Whether a node becomes an expression alone, and whether a conditional or a function becomes an
expression or a definition, can be told from the node without compiling it.
`Node.stepsNeeded` goes down the tree: steps come from nodes that are carried out one after the
other, and every other node has those of its parts. The compiler decides by looking at the steps
that its parts have turned out to have, and comes to the same answer (`Node.compile_shape`).
-/

namespace TagLang

mutual

/-- Whether steps have to be carried out before the value of a node is there. -/
def Node.stepsNeeded : Node → Bool
  | .list items => Node.stepsNeededByAny items
  | .element ⟨name, attributes, children, _⟩ =>
    match Form.ofName? name with
    | none | some (.operator _) =>
      Node.stepsNeededByAny children || Node.stepsNeededByFields attributes
    | some .sequence => Node.stepsNeededInTurn children
    | some .conditional => Node.stepsNeededByAny children
    | some .function => Node.stepsNeededByFields attributes || Node.stepsNeededByBody children
  | _ => false

/-- Whether one of several nodes needs steps. -/
def Node.stepsNeededByAny : List Node → Bool
  | [] => false
  | node :: rest => node.stepsNeeded || Node.stepsNeededByAny rest

def Node.stepsNeededByFields : List (String × Node) → Bool
  | [] => false
  | (_, node) :: rest => node.stepsNeeded || Node.stepsNeededByFields rest

/-- Whether nodes that are carried out one after the other need steps. All but the last are steps
themselves. -/
def Node.stepsNeededInTurn : List Node → Bool
  | [] => false
  | [node] => node.stepsNeeded
  | _ :: _ :: _ => true

/-- Whether the children of a function need steps. The first is its parameter list. -/
def Node.stepsNeededByBody : List Node → Bool
  | [] => false
  | _ :: body => Node.stepsNeededInTurn body

end

namespace Node

/-! ## The same nodes need steps -/

/-- A node is told to need steps exactly if it needs them. -/
def StepsTold (n : Node) : Prop := n.stepsNeeded = true ↔ n.NeedsSteps

theorem StepsTold.iff {n : Node} (h : n.StepsTold) : n.stepsNeeded = true ↔ n.NeedsSteps := h

variable {nodes : List Node}

theorem stepsNeededByAny_iff (h : ∀ n ∈ nodes, n.StepsTold) :
    stepsNeededByAny nodes = true ↔ ∃ n ∈ nodes, n.NeedsSteps := by
  induction nodes with
  | nil => simp [stepsNeededByAny]
  | cons n nodes ih =>
    obtain ⟨hn, hnodes⟩ := List.forall_mem_cons.1 h
    rw [stepsNeededByAny, Bool.or_eq_true, hn.iff, ih hnodes]
    simp only [List.mem_cons, exists_eq_or_imp]

theorem stepsNeededByFields_iff {fields : List (String × Node)}
    (h : ∀ n ∈ fields.map Prod.snd, n.StepsTold) :
    stepsNeededByFields fields = true ↔ ∃ n ∈ fields.map Prod.snd, n.NeedsSteps := by
  induction fields with
  | nil => simp [stepsNeededByFields]
  | cons field fields ih =>
    rw [List.map_cons] at h ⊢
    obtain ⟨hn, hfields⟩ := List.forall_mem_cons.1 h
    rw [stepsNeededByFields, Bool.or_eq_true, hn.iff, ih hfields]
    simp only [List.mem_cons, exists_eq_or_imp]

theorem stepsNeededInTurn_iff (h : ∀ n ∈ nodes, n.StepsTold) :
    stepsNeededInTurn nodes = true ↔ SequenceNeedsSteps nodes := by
  unfold SequenceNeedsSteps
  cases nodes with
  | nil => simp [stepsNeededInTurn]
  | cons n nodes =>
    cases nodes with
    | nil =>
      rw [stepsNeededInTurn, (h n List.mem_cons_self).iff]
      simp
    | cons next rest => simp [stepsNeededInTurn]

variable {s s' : NameSupply} {f : Fragment Expr}

/-- The parts of a compiled node that are told to need steps are those that need them. -/
theorem stepsTold_of_compilation {n : Node}
    (h : Compilation Compiles n s f s') (hparts : ∀ p ∈ n.parts, p.StepsTold) : n.StepsTold := by
  unfold StepsTold
  cases h with
  | symbol | keyword | string | integer | float | complex =>
    rw [needsSteps_of_parts (by rintro _ ⟨⟩)]
    simp [parts, stepsNeeded]
  | list _ =>
    rw [needsSteps_of_parts (by rintro _ ⟨⟩), stepsNeeded]
    exact stepsNeededByAny_iff hparts
  | call hform _ _ =>
    rw [parts_of_ne_function (by simp [hform])] at hparts
    obtain ⟨hchildren, hfields⟩ := List.forall_mem_append.1 hparts
    rw [needsSteps_of_parts (by rintro _ ⟨⟩; simp [hform]), stepsNeeded,
      parts_of_ne_function (by simp [hform])]
    simp only [hform]
    rw [Bool.or_eq_true, stepsNeededByAny_iff hchildren, stepsNeededByFields_iff hfields]
    simp only [List.mem_append, or_and_right, exists_or]
  | sequence hform _ _ =>
    rw [parts_of_ne_function (by simp [hform]), List.map_nil, List.append_nil] at hparts
    rw [needsSteps_sequence hform rfl, stepsNeeded]
    simp only [hform]
    exact stepsNeededInTurn_iff hparts
  | operator hform _ _ =>
    rw [parts_of_ne_function (by simp [hform]), List.map_nil, List.append_nil] at hparts
    rw [needsSteps_of_parts (by rintro _ ⟨⟩; simp [hform]), stepsNeeded,
      parts_of_ne_function (by simp [hform])]
    simp only [hform]
    rw [Bool.or_eq_true, stepsNeededByAny_iff hparts, List.map_nil, List.append_nil,
      stepsNeededByFields, or_iff_left Bool.false_ne_true]
  | conditional hform _ _ _ _ _ | branches hform _ _ _ _ =>
    rw [parts_of_ne_function (by simp [hform]), List.map_nil, List.append_nil] at hparts
    rw [needsSteps_of_parts (by rintro _ ⟨⟩; simp [hform]), stepsNeeded,
      parts_of_ne_function (by simp [hform]), List.map_nil, List.append_nil]
    simp only [hform]
    exact stepsNeededByAny_iff hparts
  | lambda hform _ _ _ _ _ _ | function hform _ _ _ _ _ _ =>
    rw [parts_function hform] at hparts
    obtain ⟨hbody, hfields⟩ := List.forall_mem_append.1 hparts
    rw [needsSteps_function hform, stepsNeeded]
    simp only [hform, stepsNeededByBody]
    rw [Bool.or_eq_true, stepsNeededByFields_iff hfields, stepsNeededInTurn_iff hbody]
    rfl

/-- **A compiled node is told to need steps exactly if it needs them.** -/
theorem stepsTold_of_compiles {n : Node} (h : n.Compiles s f s') : n.StepsTold := by
  induction n using parts_induction generalizing s f s' with
  | step n ih =>
    have hcases := compile_cases h
    refine stepsTold_of_compilation hcases fun p hp => ?_
    obtain ⟨_, _, _, hpart⟩ := hcases.exists_of_part hp
    exact ih p hp hpart

theorem isPure_eq_not_stepsNeeded {n : Node} (h : n.Compiles s f s') :
    f.isPure = !n.stepsNeeded := by
  rw [isPure_eq h, Bool.not_inj_iff, Bool.eq_iff_iff, needsSteps_iff]
  exact (stepsTold_of_compiles h).iff.symm

/-! ## Conditionals and functions -/

/-- What a conditional becomes. The steps of its test come first, and behind them there is nothing
but the definition of one function, if a branch needs steps. -/
def ConditionalShape (e : Element Node) (s : NameSupply) (f : Fragment Expr) : Prop :=
  ∃ test branches t s₁, e.children = test :: branches ∧ test.compile s = .ok t s₁ ∧
    if stepsNeededByAny branches then
      ∃ func body, f = ⟨t.steps ++ [.define func {} body], .call (.name func) [] []⟩
    else ∃ yes no, f = ⟨t.steps, .ifExp t.value yes no⟩

/-- What a function becomes. The steps of its defaults come first, and behind them there is nothing
but the definition of one function, if the body needs steps. -/
def FunctionShape (e : Element Node) (s : NameSupply) (f : Fragment Expr) : Prop :=
  ∃ first body defaults s₁, e.children = first :: body ∧
    compileFields e.attributes s = .ok defaults s₁ ∧
    if stepsNeededInTurn body then
      ∃ name params block,
        f = ⟨(Fragment.collect defaults).steps ++ [.define name params block], .name name⟩
    else ∃ params value, f = ⟨(Fragment.collect defaults).steps, .lambda params value⟩

theorem compileFields_of_chain {fields : List (String × Node)}
    {gs : List (Fragment (String × Expr))} (h : Chain (KeyedBy Compiles) fields s gs s') :
    compileFields fields s = .ok gs s' := by
  induction h with
  | nil => rfl
  | cons hfield _ ih =>
    obtain ⟨g, hg, rfl⟩ := hfield
    rw [compileFields]
    refine CompileM.bind_eq_ok.2 ⟨g, _, hg, ?_⟩
    exact CompileM.bind_eq_ok.2 ⟨_, _, ih, rfl⟩

/-- The branches of a conditional are pure exactly if they need no steps. -/
theorem isPure_branches_eq {yes : Node} {no : List Node} {y n : Fragment Expr} {s₁ : NameSupply}
    (hy : yes.Compiles s y s₁) (hn : Otherwise Compiles no s₁ n s') :
    (y.isPure && n.isPure) = !stepsNeededByAny (yes :: no) := by
  have hno : n.isPure = !stepsNeededByAny no := by
    cases hn with
    | missing => rfl
    | given hn =>
      rw [isPure_eq_not_stepsNeeded hn, stepsNeededByAny, stepsNeededByAny, Bool.or_false]
  rw [isPure_eq_not_stepsNeeded hy, hno, stepsNeededByAny, Bool.not_or]

theorem conditionalShape_of_compiles {e : Element Node} (h : (Node.element e).Compiles s f s')
    (hform : Form.ofName? e.name = some .conditional) : ConditionalShape e s f := by
  have hcases := compile_cases h
  cases hcases with
  | @conditional name test yes no position t y n _ _ _ _ _ ht hy hn hyp hnp =>
    have hpure := isPure_branches_eq hy hn
    rw [hyp, hnp, Bool.and_true, eq_comm, Bool.not_eq_true'] at hpure
    refine ⟨test, yes :: no, t, _, rfl, ht, ?_⟩
    rw [hpure, if_neg Bool.false_ne_true]
    exact ⟨y.value, n.value, rfl⟩
  | @branches name test yes no position t y n _ _ _ _ _ ht hy hn hp =>
    have hpure := isPure_branches_eq hy hn
    rw [hp, eq_comm, Bool.not_eq_false'] at hpure
    refine ⟨test, yes :: no, t, _, rfl, ht, ?_⟩
    rw [hpure, if_pos rfl]
    exact ⟨_, _, rfl⟩
  | call hform' | sequence hform' | operator hform' | lambda hform' | function hform' =>
    rw [hform] at hform'
    cases hform'

/-- The body of a function is pure exactly if it needs no steps. -/
theorem isPure_body_eq {body : List Node} {fs : List (Fragment Expr)} (hne : body ≠ [])
    (h : Chain Compiles body s fs s') :
    (Fragment.sequence fs).isPure = !stepsNeededInTurn body := by
  have htold : ∀ p ∈ body, p.StepsTold := by
    intro p hp
    obtain ⟨_, _, _, hpart⟩ := h.exists_of_mem hp
    exact stepsTold_of_compiles hpart
  rw [isPure_sequence_eq hne h, Bool.not_inj_iff, Bool.eq_iff_iff, stepsNeededInTurn_iff htold]
  exact sequenceNeedsSteps_eq_true_iff

theorem functionShape_of_compiles {e : Element Node} (h : (Node.element e).Compiles s f s')
    (hform : Form.ofName? e.name = some .function) : FunctionShape e s f := by
  have hcases := compile_cases h
  cases hcases with
  | @lambda name attributes entries body position params defaults fs _ _ _ _ _ hne hds hfs _ hp =>
    have hpure := isPure_body_eq hne hfs
    rw [hp, eq_comm, Bool.not_eq_true'] at hpure
    refine ⟨.list entries, body, defaults, _, rfl, compileFields_of_chain hds, ?_⟩
    rw [hpure, if_neg Bool.false_ne_true]
    exact ⟨_, _, rfl⟩
  | @function name attributes entries body position params defaults fs _ _ _ _ _ hne hds hfs _ hp =>
    have hpure := isPure_body_eq hne hfs
    rw [hp, eq_comm, Bool.not_eq_false'] at hpure
    refine ⟨.list entries, body, defaults, _, rfl, compileFields_of_chain hds, ?_⟩
    rw [hpure, if_pos rfl]
    exact ⟨_, _, _, rfl⟩
  | call hform' | sequence hform' | operator hform' | conditional hform' | branches hform' =>
    rw [hform] at hform'
    cases hform'

/-- **What a node is compiled to is decided by its shape.** With any supply of names, the fragment
of a node is pure exactly if the node needs no steps. A conditional becomes an expression, or a call
of one function without parameters that is defined behind the steps of the test, if a branch needs
steps; a function becomes an expression, or the name of one function that is defined behind the
steps of the defaults, if the body needs steps. -/
theorem compile_shape {n : Node} {s s' : NameSupply} {f : Fragment Expr}
    (h : n.compile s = .ok f s') :
    f.isPure = !n.stepsNeeded ∧
      (∀ e, n = .element e → Form.ofName? e.name = some .conditional → ConditionalShape e s f) ∧
      ∀ e, n = .element e → Form.ofName? e.name = some .function → FunctionShape e s f := by
  refine ⟨isPure_eq_not_stepsNeeded h, ?_, ?_⟩
  · rintro e rfl hform
    exact conditionalShape_of_compiles h hform
  · rintro e rfl hform
    exact functionShape_of_compiles h hform

/-- A conditional with one branch, `<if><do>a b</do> <fn* k=<do>c d</do>>[x] <do>x</do></fn*></if>`.
The branch is a function with a pure body. -/
def stepsInDefault : Element Node :=
  (Element.named "if").addChildren
    [.element ((Element.named "do").addChildren [.symbol "a", .symbol "b"]),
      .element (((Element.named "fn*").setAttribute "k"
        (.element ((Element.named "do").addChildren [.symbol "c", .symbol "d"]))).addChildren
        [.list [.symbol "x"], .element ((Element.named "do").addChild (.symbol "x"))])]

/-- The default of the function needs steps, so that the branch and with it the conditional does;
those of the test are not the reason. -/
theorem compile_shape_stepsInDefault :
    ∃ f s', (Node.element stepsInDefault).compile ⟨7⟩ = .ok f s' ∧ f.isPure = false ∧
      stepsNeededByAny stepsInDefault.children.tail = true ∧
      ConditionalShape stepsInDefault ⟨7⟩ f := by
  have hshape := compile_shape (n := .element stepsInDefault) (s := ⟨7⟩) rfl
  exact ⟨_, _, rfl, hshape.1, rfl, hshape.2.1 _ rfl rfl⟩

end Node

end TagLang
