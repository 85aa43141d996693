import TagLang.Proofs.Compile.Induction

/-!
# Sequences are flat

Nodes are carried out one after the other at the top of a text, in the element `do` and in the body
of a function. Where a sequence inside of a sequence begins and ends makes no difference: the
statements, the names that are drawn and the first error are the same
(`Node.compileSequence_append`, `Node.compileSequence_replace`). So all sequences that stand in
sequences can be taken apart (`Node.flattened`), and a program is the statements of its nodes, which
are compiled in turn (`Program.ofNodes_flat`).

The statements here are equations between compilations. They say that both fail, with the same error
and the same supply of names, or that both succeed, with the same result and the same supply.
-/

namespace TagLang

/-! ## One piece after the other -/

namespace Fragment

theorem followedBy_assoc (f g h : Fragment Expr) :
    (f.followedBy g).followedBy h = f.followedBy (g.followedBy h) := by
  rw [followedBy, statements_followedBy, List.append_assoc]
  rfl

end Fragment

namespace CompileM

/-- Compiles two pieces, the first of which is carried out for its effect. -/
def followedBy (x y : CompileM (Fragment Expr)) : CompileM (Fragment Expr) :=
  return (← x).followedBy (← y)

theorem followedBy_assoc (x y z : CompileM (Fragment Expr)) :
    (x.followedBy y).followedBy z = x.followedBy (y.followedBy z) := by
  simp only [followedBy, bind_assoc, pure_bind, Fragment.followedBy_assoc]

/-- Compiles a piece into statements. -/
def statements (x : CompileM (Fragment Expr)) : CompileM (List Stmt) :=
  return (← x).statements

theorem statements_followedBy (x y : CompileM (Fragment Expr)) :
    (x.followedBy y).statements = do return (← x.statements) ++ (← y.statements) := by
  simp only [followedBy, statements, bind_assoc, pure_bind, Fragment.statements_followedBy]

end CompileM

namespace Node

variable {n : Node} {nodes first rest : List Node}

/-! ## Sequences next to each other -/

theorem compileSequence_cons (hrest : rest ≠ []) :
    compileSequence (n :: rest) = n.compile.followedBy (compileSequence rest) := by
  obtain ⟨next, more, rfl⟩ := List.exists_cons_of_ne_nil hrest
  rw [compileSequence]
  rfl

/-- Two sequences, one after the other, are one sequence. -/
theorem compileSequence_append (hfirst : first ≠ []) (hrest : rest ≠ []) :
    compileSequence (first ++ rest) =
      (compileSequence first).followedBy (compileSequence rest) := by
  induction first with
  | nil => exact absurd rfl hfirst
  | cons n first ih =>
    rw [List.cons_append, compileSequence_cons (List.append_ne_nil_of_right_ne_nil _ hrest)]
    by_cases hne : first = []
    · subst hne
      rw [List.nil_append, compileSequence]
    · rw [ih hne, compileSequence_cons hne, CompileM.followedBy_assoc]

/-- A piece of a sequence can be replaced by one that is compiled alike. -/
theorem compileSequence_replace {piece other : List Node} (hpiece : piece ≠ [])
    (hother : other ≠ []) (h : compileSequence piece = compileSequence other)
    (before after : List Node) :
    compileSequence (before ++ piece ++ after) = compileSequence (before ++ other ++ after) := by
  have hafter : compileSequence (piece ++ after) = compileSequence (other ++ after) := by
    by_cases hne : after = []
    · rw [hne, List.append_nil, List.append_nil, h]
    · rw [compileSequence_append hpiece hne, compileSequence_append hother hne, h]
  rw [List.append_assoc, List.append_assoc]
  by_cases hne : before = []
  · rw [hne, List.nil_append, List.nil_append, hafter]
  · rw [compileSequence_append hne (List.append_ne_nil_of_left_ne_nil hpiece _),
      compileSequence_append hne (List.append_ne_nil_of_left_ne_nil hother _), hafter]

/-- The statements of a sequence are those of its nodes, which are compiled in turn. -/
theorem statements_compileSequence (hne : nodes ≠ []) :
    (compileSequence nodes).statements = do
      return (← nodes.mapM compile).flatMap Fragment.statements := by
  induction nodes with
  | nil => exact absurd rfl hne
  | cons n nodes ih =>
    simp only [List.mapM_cons, bind_assoc, pure_bind, List.flatMap_cons]
    by_cases hrest : nodes = []
    · subst hrest
      simp only [compileSequence, CompileM.statements, List.mapM_nil, pure_bind, List.flatMap_nil,
        List.append_nil]
    · rw [compileSequence_cons hrest, CompileM.statements_followedBy, ih hrest]
      simp only [CompileM.statements, bind_assoc, pure_bind]

/-! ## Sequences in sequences -/

/-- The element that carries out its children one after the other. -/
def sequenceOf (position : Position) (children : List Node) : Node :=
  .element ⟨"do", [], children, position⟩

theorem compile_sequence {name : String} {position : Position}
    (hform : Form.ofName? name = some .sequence) (hne : nodes ≠ []) :
    (Node.element ⟨name, [], nodes, position⟩).compile = compileSequence nodes := by
  have hlength : 1 ≤ nodes.length := List.length_pos_iff.2 hne
  have hfault : Form.fault? .sequence ([] : List (String × Node)) nodes = none := by
    simp [Form.fault?, Form.arity, Arity.atLeast, Arity.accepts, Form.takesAttributes, hlength]
  rw [compile]
  simp only [hform, hfault]

theorem compile_sequenceOf (position : Position) (hne : nodes ≠ []) :
    (sequenceOf position nodes).compile = compileSequence nodes :=
  compile_sequence rfl hne

/-- Whether an element only carries out its children one after the other. One without children or
with attributes is an error instead. -/
def isSequence : Node → Bool
  | .element e =>
    Form.ofName? e.name == some .sequence && e.attributes.isEmpty && !e.children.isEmpty
  | _ => false

end Node

mutual

/-- What a node in a sequence stands for, without sequences in it. -/
def Node.flattened : Node → List Node
  | .element ⟨name, attributes, children, position⟩ =>
    if Node.isSequence (.element ⟨name, attributes, children, position⟩) then
      Node.flattenedAll children
    else [.element ⟨name, attributes, children, position⟩]
  | node => [node]

def Node.flattenedAll : List Node → List Node
  | [] => []
  | node :: rest => node.flattened ++ Node.flattenedAll rest

end

namespace Node

variable {n : Node} {nodes : List Node}

theorem flattenedAll_eq_flatMap (nodes : List Node) :
    flattenedAll nodes = nodes.flatMap flattened := by
  induction nodes with
  | nil => rfl
  | cons n nodes ih => rw [flattenedAll, ih, List.flatMap_cons]

theorem flattened_of_not_isSequence (h : n.isSequence = false) : n.flattened = [n] := by
  cases n with
  | element e => rw [flattened, h]; rfl
  | _ => rfl

/-- A sequence is compiled as its children are, one after the other. -/
theorem parts_of_isSequence (h : n.isSequence = true) :
    n.parts ≠ [] ∧ n.compile = compileSequence n.parts ∧ n.flattened = flattenedAll n.parts := by
  cases n with
  | element e =>
    obtain ⟨name, attributes, children, position⟩ := e
    have hflattened := h
    simp only [isSequence, Bool.and_eq_true, beq_iff_eq, List.isEmpty_iff, Bool.not_eq_true',
      List.isEmpty_eq_false_iff] at h
    obtain ⟨⟨hform, rfl⟩, hne⟩ := h
    have hparts : (Node.element ⟨name, [], children, position⟩).parts = children := by
      simp [parts, hform]
    rw [hparts, flattened, if_pos hflattened]
    exact ⟨hne, compile_sequence hform hne, rfl⟩
  | _ => cases h

theorem flattened_ne_nil (n : Node) : n.flattened ≠ [] := by
  induction n using parts_induction with
  | step n ih =>
    cases h : n.isSequence with
    | false =>
      rw [flattened_of_not_isSequence h]
      exact List.cons_ne_nil n []
    | true =>
      obtain ⟨hne, -, hflattened⟩ := parts_of_isSequence h
      obtain ⟨p, more, hparts⟩ := List.exists_cons_of_ne_nil hne
      rw [hflattened, hparts, flattenedAll]
      exact List.append_ne_nil_of_left_ne_nil (ih p (hparts ▸ List.mem_cons_self)) _

theorem flattenedAll_ne_nil (hne : nodes ≠ []) : flattenedAll nodes ≠ [] := by
  obtain ⟨n, more, rfl⟩ := List.exists_cons_of_ne_nil hne
  exact List.append_ne_nil_of_left_ne_nil (flattened_ne_nil n) _

/-- If the nodes of a sequence can be taken apart, the sequence can. -/
theorem compileSequence_flattenedAll_of (hne : nodes ≠ [])
    (h : ∀ n ∈ nodes, compileSequence n.flattened = n.compile) :
    compileSequence (flattenedAll nodes) = compileSequence nodes := by
  induction nodes with
  | nil => exact absurd rfl hne
  | cons n nodes ih =>
    obtain ⟨hn, hnodes⟩ := List.forall_mem_cons.1 h
    rw [flattenedAll]
    by_cases hrest : nodes = []
    · subst hrest
      rw [flattenedAll, List.append_nil, hn, compileSequence]
    · rw [compileSequence_append (flattened_ne_nil n) (flattenedAll_ne_nil hrest),
        compileSequence_cons hrest, hn, ih hrest hnodes]

theorem compileSequence_flattened (n : Node) : compileSequence n.flattened = n.compile := by
  induction n using parts_induction with
  | step n ih =>
    cases h : n.isSequence with
    | false => rw [flattened_of_not_isSequence h, compileSequence]
    | true =>
      obtain ⟨hne, hcompile, hflattened⟩ := parts_of_isSequence h
      rw [hflattened, hcompile, compileSequence_flattenedAll_of hne ih]

theorem isSequence_of_mem_flattened {m : Node} (hm : m ∈ n.flattened) : m.isSequence = false := by
  induction n using parts_induction with
  | step n ih =>
    cases h : n.isSequence with
    | false =>
      rw [flattened_of_not_isSequence h] at hm
      rw [List.mem_singleton.1 hm, h]
    | true =>
      obtain ⟨-, -, hflattened⟩ := parts_of_isSequence h
      rw [hflattened, flattenedAll_eq_flatMap] at hm
      obtain ⟨p, hp, hm⟩ := List.mem_flatMap.1 hm
      exact ih p hp hm

end Node

/-! ## Programs -/

namespace Program

variable {nodes : List Node}

theorem ofNodes_eq (hne : nodes ≠ []) :
    Program.ofNodes nodes = do return ⟨← (Node.compileSequence nodes).statements⟩ := by
  obtain ⟨n, more, rfl⟩ := List.exists_cons_of_ne_nil hne
  rw [ofNodes]
  · simp only [CompileM.statements, bind_assoc, pure_bind]
    rfl
  · exact List.cons_ne_nil n more

/-- **Sequences are flat.** With any supply of names, a list of nodes, the sequence of these nodes,
and the nodes compiled in turn make the same program or fail alike. A sequence inside of a sequence
can be replaced by its nodes, wherever it stands, and so all of them can be. -/
theorem ofNodes_flat (hne : nodes ≠ []) (position : Position) (s : NameSupply) :
    Program.ofNodes [.sequenceOf position nodes] s = Program.ofNodes nodes s ∧
    Program.ofNodes nodes s = (do
      return ⟨(← nodes.mapM Node.compile).flatMap Fragment.statements⟩ : CompileM Program) s ∧
    (∀ before after outer outer',
      (Node.sequenceOf outer (before ++ [.sequenceOf position nodes] ++ after)).compile s =
        (Node.sequenceOf outer' (before ++ nodes ++ after)).compile s) ∧
    (∀ outer outer', (Node.sequenceOf outer (Node.flattenedAll nodes)).compile s =
      (Node.sequenceOf outer' nodes).compile s) ∧
    ∀ n ∈ Node.flattenedAll nodes, n.isSequence = false := by
  have hsingle : Node.compileSequence [.sequenceOf position nodes] =
      Node.compileSequence nodes := by
    rw [Node.compileSequence, Node.compile_sequenceOf position hne]
  refine ⟨?_, ?_, fun before after outer outer' => ?_, fun outer outer' => ?_, fun n hn => ?_⟩
  · rw [ofNodes_eq (List.cons_ne_nil _ _), hsingle, ofNodes_eq hne]
  · rw [ofNodes_eq hne, Node.statements_compileSequence hne]
    simp only [bind_assoc, pure_bind]
  · rw [Node.compile_sequenceOf outer (by simp), Node.compile_sequenceOf outer' (by simp [hne]),
      Node.compileSequence_replace (List.cons_ne_nil _ _) hne hsingle]
  · rw [Node.compile_sequenceOf outer (Node.flattenedAll_ne_nil hne),
      Node.compile_sequenceOf outer' hne, Node.compileSequence_flattenedAll_of hne fun n _ =>
        n.compileSequence_flattened]
  · rw [Node.flattenedAll_eq_flatMap] at hn
    obtain ⟨m, -, hn⟩ := List.mem_flatMap.1 hn
    exact Node.isSequence_of_mem_flattened hn

/-- A sequence in a sequence, a conditional that needs names, and an element that is an error:
`<do>a <do>b c</do></do> <if>p <do>d e</do></if> <do/>`. -/
def nestedThenMalformed : List Node :=
  [.sequenceOf ⟨1, 1⟩ [.symbol "a", .sequenceOf ⟨1, 7⟩ [.symbol "b", .symbol "c"]],
    .element (((Element.named "if").locate ⟨1, 25⟩).addChildren
      [.symbol "p", .sequenceOf ⟨1, 31⟩ [.symbol "d", .symbol "e"]]),
    .sequenceOf ⟨1, 49⟩ []]

/-- The names are drawn before the error is found, with and without the sequence around. -/
theorem ofNodes_flat_nestedThenMalformed :
    (∃ e, e.position = ⟨1, 49⟩ ∧ Program.ofNodes nestedThenMalformed ⟨4⟩ = .error e ⟨6⟩) ∧
    Program.ofNodes [.sequenceOf ⟨0, 0⟩ nestedThenMalformed] ⟨4⟩ =
      Program.ofNodes nestedThenMalformed ⟨4⟩ ∧
    (Node.flattenedAll nestedThenMalformed).length = 5 ∧
    ∀ n ∈ Node.flattenedAll nestedThenMalformed, n.isSequence = false := by
  have hne : nestedThenMalformed ≠ [] := List.cons_ne_nil _ _
  obtain ⟨hprogram, -, -, -, hflattened⟩ := ofNodes_flat hne ⟨0, 0⟩ ⟨4⟩
  exact ⟨⟨_, rfl, rfl⟩, hprogram, rfl, hflattened⟩

end Program

end TagLang
