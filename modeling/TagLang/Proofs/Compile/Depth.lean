import TagLang.Proofs.Compile.Validity

/-!
# How deep programs are

A text cannot nest elements and lists deeper than `maxDepth`, so that what comes later can go
through a program by recursion. But the compiler adds levels of its own: for a conditional whose
branches have steps it defines a function with a choice in it, around steps that are already
compiled. So a program is deeper than its nodes. How much deeper does not depend on how long they
are: nodes of depth `d` make statements of depth at most `2 * d + 2`, or 3 if they are leaves. Some
nodes of each depth reach this. So there is a bound for all programs that are compiled from texts
(`Program.depth_bounded`).

Values and steps grow at different rates (`Fragment.Shallow`). One more level of nodes is one more
level of values, since a function that is made up is called by its name. It is two more levels of
steps: the definition and the choice in it.
-/

namespace TagLang

/-! ## Depth of expressions and statements -/

mutual

/-- How many expressions stand inside each other. -/
def Expr.depth : Expr → Nat
  | .list items => Expr.depthOf items + 1
  | .call func args keywords =>
    max func.depth (max (Expr.depthOf args) (Expr.depthOfFields keywords)) + 1
  | .binOp _ left right => max left.depth right.depth + 1
  | .ifExp test yes no => max test.depth (max yes.depth no.depth) + 1
  | .lambda ⟨_, _, keywords⟩ body => max (Expr.depthOfFields keywords) body.depth + 1
  | _ => 1

/-- The depth of the deepest of several expressions. -/
def Expr.depthOf : List Expr → Nat
  | [] => 0
  | e :: rest => max e.depth (Expr.depthOf rest)

def Expr.depthOfFields : List (String × Expr) → Nat
  | [] => 0
  | (_, e) :: rest => max e.depth (Expr.depthOfFields rest)

end

mutual

/-- How many statements and expressions stand inside each other. -/
def Stmt.depth : Stmt → Nat
  | .eval value => value.depth + 1
  | .assign _ value => value.depth + 1
  | .define _ params body => max (Expr.depthOfFields params.keywords) (Stmt.depthOf body) + 1
  | .branch test yes no => max test.depth (max (Stmt.depthOf yes) (Stmt.depthOf no)) + 1
  | .ret value => value.depth + 1

/-- The depth of the deepest statement of a block. -/
def Stmt.depthOf : List Stmt → Nat
  | [] => 0
  | s :: rest => max s.depth (Stmt.depthOf rest)

end

namespace Expr

variable {n : Nat}

theorem depthOf_le_iff {es : List Expr} : depthOf es ≤ n ↔ ∀ e ∈ es, e.depth ≤ n := by
  induction es with
  | nil => simp [depthOf]
  | cons e es ih => rw [depthOf, Nat.max_le, ih, List.forall_mem_cons]

theorem depthOfFields_le_iff {fields : List (String × Expr)} :
    depthOfFields fields ≤ n ↔ ∀ e ∈ fields.map Prod.snd, e.depth ≤ n := by
  induction fields with
  | nil => simp [depthOfFields]
  | cons field fields ih => rw [depthOfFields, Nat.max_le, ih, List.map_cons, List.forall_mem_cons]

/-- An expression is one deeper than the deepest expression directly in it. -/
theorem depth_le_iff {e : Expr} : e.depth ≤ n + 1 ↔ ∀ p ∈ e.parts, p.depth ≤ n := by
  cases e with
  | list items => rw [depth, Nat.add_le_add_iff_right, depthOf_le_iff, parts]
  | call func args keywords =>
    rw [depth, Nat.add_le_add_iff_right, Nat.max_le, Nat.max_le, depthOf_le_iff,
      depthOfFields_le_iff, parts, List.forall_mem_cons, List.forall_mem_append]
  | binOp op left right =>
    rw [depth, Nat.add_le_add_iff_right, Nat.max_le, parts, List.forall_mem_cons,
      List.forall_mem_singleton]
  | ifExp test yes no =>
    rw [depth, Nat.add_le_add_iff_right, Nat.max_le, Nat.max_le, parts, List.forall_mem_cons,
      List.forall_mem_cons, List.forall_mem_singleton]
  | lambda params body =>
    rw [depth, Nat.add_le_add_iff_right, Nat.max_le, depthOfFields_le_iff, parts,
      List.forall_mem_append, List.forall_mem_singleton]
  | _ => simp [depth, parts]

theorem depth_pos (e : Expr) : 0 < e.depth := by
  cases e with
  | list | call | binOp | ifExp | lambda => exact Nat.succ_pos _
  | _ => exact Nat.one_pos

theorem depth_lt_of_part {e p : Expr} (hp : p ∈ e.parts) : p.depth < e.depth := by
  have hpos := e.depth_pos
  have hpart := depth_le_iff.1 (Nat.sub_add_cancel hpos).ge p hp
  omega

/-- A number of expressions inside each other, each of them directly in the one before. A function
that goes through an expression by recursion has as many calls open. -/
inductive Descent : Expr → Nat → Prop
  | here {e : Expr} : Descent e 1
  | into {e p : Expr} {n : Nat} : p ∈ e.parts → Descent p n → Descent e (n + 1)

theorem Descent.le_depth {e : Expr} (h : e.Descent n) : n ≤ e.depth := by
  induction h with
  | here => exact depth_pos _
  | into hp _ ih => exact ih.trans_lt (depth_lt_of_part hp)

end Expr

namespace Stmt

variable {n : Nat}

theorem depthOf_le_iff {block : List Stmt} : depthOf block ≤ n ↔ ∀ s ∈ block, s.depth ≤ n := by
  induction block with
  | nil => simp [depthOf]
  | cons s block ih => rw [depthOf, Nat.max_le, ih, List.forall_mem_cons]

/-- A statement is one deeper than the deepest expression or statement directly in it. -/
theorem depth_le_iff {s : Stmt} : s.depth ≤ n + 1 ↔
    (∀ e ∈ s.exprs, e.depth ≤ n) ∧ ∀ block ∈ s.blocks, ∀ t ∈ block, t.depth ≤ n := by
  cases s with
  | define name params body =>
    rw [depth, Nat.add_le_add_iff_right, Nat.max_le, Expr.depthOfFields_le_iff, depthOf_le_iff,
      exprs, blocks, List.forall_mem_singleton]
  | branch test yes no =>
    rw [depth, Nat.add_le_add_iff_right, Nat.max_le, Nat.max_le, depthOf_le_iff, depthOf_le_iff,
      exprs, blocks, List.forall_mem_singleton, List.forall_mem_cons, List.forall_mem_singleton]
  | _ => simp [depth, exprs, blocks]

theorem depth_pos (s : Stmt) : 0 < s.depth := by
  cases s <;> exact Nat.succ_pos _

theorem depth_lt_of_expr {s : Stmt} {e : Expr} (he : e ∈ s.exprs) : e.depth < s.depth := by
  have hpos := s.depth_pos
  have hexpr := (depth_le_iff.1 (Nat.sub_add_cancel hpos).ge).1 e he
  omega

theorem depth_lt_of_block {s t : Stmt} {block : List Stmt} (hblock : block ∈ s.blocks)
    (ht : t ∈ block) : t.depth < s.depth := by
  have hpos := s.depth_pos
  have hstmt := (depth_le_iff.1 (Nat.sub_add_cancel hpos).ge).2 block hblock t ht
  omega

/-- A number of statements and expressions inside each other, each of them directly in the one
before. -/
inductive Descent : Stmt → Nat → Prop
  | here {s : Stmt} : Descent s 1
  | expr {s : Stmt} {e : Expr} {n : Nat} : e ∈ s.exprs → e.Descent n → Descent s (n + 1)
  | stmt {s t : Stmt} {block : List Stmt} {n : Nat} :
      block ∈ s.blocks → t ∈ block → Descent t n → Descent s (n + 1)

theorem Descent.le_depth {s : Stmt} (h : s.Descent n) : n ≤ s.depth := by
  induction h with
  | here => exact depth_pos _
  | expr he hdescent => exact hdescent.le_depth.trans_lt (depth_lt_of_expr he)
  | stmt hblock ht _ ih => exact ih.trans_lt (depth_lt_of_block hblock ht)

mutual

theorem depth_le_of_mem_all : ∀ s : Stmt, ∀ t ∈ s.all, t.depth ≤ s.depth
  | .eval _ | .assign _ _ | .ret _ => List.forall_mem_singleton.2 (Nat.le_refl _)
  | .define name params body => by
    refine List.forall_mem_cons.2 ⟨Nat.le_refl _, fun t ht => ?_⟩
    have hbody := depth_le_of_mem_allOf body t ht
    rw [depth]
    omega
  | .branch test yes no => by
    refine List.forall_mem_cons.2 ⟨Nat.le_refl _, fun t ht => ?_⟩
    rw [depth]
    rcases List.mem_append.1 ht with ht | ht
    · have hyes := depth_le_of_mem_allOf yes t ht
      omega
    · have hno := depth_le_of_mem_allOf no t ht
      omega

/-- No statement is deeper than the block that it is in. -/
theorem depth_le_of_mem_allOf : ∀ block : List Stmt, ∀ t ∈ allOf block, t.depth ≤ depthOf block
  | [], _, ht => absurd ht List.not_mem_nil
  | s :: block, t, ht => by
    rcases List.mem_append.1 ht with ht | ht
    · exact (depth_le_of_mem_all s t ht).trans (Nat.le_max_left _ _)
    · exact (depth_le_of_mem_allOf block t ht).trans (Nat.le_max_right _ _)

end

end Stmt

/-! ## Depth of nodes -/

mutual

/-- How many elements and lists stand inside each other. Parameter lists count too. -/
def Node.depth : Node → Nat
  | .list items => Node.depthOf items + 1
  | .element ⟨_, attributes, children, _⟩ =>
    max (Node.depthOf children) (Node.depthOfFields attributes) + 1
  | _ => 0

/-- The depth of the deepest of several nodes. -/
def Node.depthOf : List Node → Nat
  | [] => 0
  | node :: rest => max node.depth (Node.depthOf rest)

def Node.depthOfFields : List (String × Node) → Nat
  | [] => 0
  | (_, node) :: rest => max node.depth (Node.depthOfFields rest)

end

namespace Node

variable {d : Nat}

theorem depthOf_le_iff {nodes : List Node} : depthOf nodes ≤ d ↔ ∀ n ∈ nodes, n.depth ≤ d := by
  induction nodes with
  | nil => simp [depthOf]
  | cons n nodes ih => rw [depthOf, Nat.max_le, ih, List.forall_mem_cons]

theorem depthOfFields_le_iff {fields : List (String × Node)} :
    depthOfFields fields ≤ d ↔ ∀ n ∈ fields.map Prod.snd, n.depth ≤ d := by
  induction fields with
  | nil => simp [depthOfFields]
  | cons field fields ih => rw [depthOfFields, Nat.max_le, ih, List.map_cons, List.forall_mem_cons]

theorem depth_list_le_iff {items : List Node} :
    (Node.list items).depth ≤ d + 1 ↔ ∀ n ∈ items, n.depth ≤ d := by
  rw [depth, Nat.add_le_add_iff_right, depthOf_le_iff]

theorem depth_element_le_iff {e : Element Node} : (Node.element e).depth ≤ d + 1 ↔
    (∀ n ∈ e.children, n.depth ≤ d) ∧ ∀ n ∈ e.attributes.map Prod.snd, n.depth ≤ d := by
  rw [depth, Nat.add_le_add_iff_right, Nat.max_le, depthOf_le_iff, depthOfFields_le_iff]

theorem depth_le_of_part {n p : Node} (hn : n.depth ≤ d + 1) (hp : p ∈ n.parts) : p.depth ≤ d := by
  cases n with
  | symbol | keyword | string | integer | float | complex => cases hp
  | list items => exact depth_list_le_iff.1 hn p hp
  | element e =>
    obtain ⟨hchildren, hattributes⟩ := depth_element_le_iff.1 hn
    rcases mem_parts_element hp with hp | hp
    · exact hchildren p hp
    · exact hattributes p hp

end Node

/-! ## Depth of fragments -/

namespace Fragment

variable {d : Nat} {f : Fragment Expr} {fs : List (Fragment Expr)}
  {gs : List (Fragment (String × Expr))}

/-- A fragment is no deeper than that of a node of depth `d` may be. Leaves have no steps. -/
structure Shallow (d : Nat) (f : Fragment Expr) : Prop where
  value : f.value.depth ≤ d + 2
  steps : ∀ t ∈ f.steps, 0 < d ∧ t.depth ≤ 2 * d + 2

theorem shallow_pure {e : Expr} (h : e.depth ≤ d + 2) : (Fragment.pure e).Shallow d :=
  ⟨h, List.forall_mem_nil _⟩

theorem Shallow.steps_succ (h : f.Shallow d) :
    ∀ t ∈ f.steps, 0 < d + 1 ∧ t.depth ≤ 2 * (d + 1) + 2 := by
  intro t ht
  have := (h.steps t ht).2
  omega

/-- A fragment with steps is not that of a leaf. -/
theorem Shallow.pos_of_isPure_eq_false (h : f.Shallow d) (hpure : f.isPure = false) : 0 < d := by
  obtain ⟨t, ht⟩ := List.isEmpty_eq_false_iff_exists_mem.1 hpure
  exact (h.steps t ht).1

theorem Shallow.statements (h : f.Shallow d) : ∀ t ∈ f.statements, t.depth ≤ 2 * d + 3 := by
  refine List.forall_mem_append.2 ⟨fun t ht => (h.steps t ht).2.trans (Nat.le_succ _), ?_⟩
  rw [List.forall_mem_singleton, Stmt.depth]
  have := h.value
  omega

theorem Shallow.assignTo (h : f.Shallow d) (hd : 0 < d) (target : String) :
    ∀ t ∈ f.assignTo target, t.depth ≤ 2 * d + 2 := by
  refine List.forall_mem_append.2 ⟨fun t ht => (h.steps t ht).2, ?_⟩
  rw [List.forall_mem_singleton, Stmt.depth]
  have := h.value
  omega

theorem depth_value_sequence (h : ∀ f ∈ fs, f.Shallow d) : (sequence fs).value.depth ≤ d + 2 := by
  induction fs with
  | nil => exact Nat.le_add_left 1 (d + 1)
  | cons f fs ih =>
    obtain ⟨hf, hfs⟩ := List.forall_mem_cons.1 h
    cases fs with
    | nil => exact hf.value
    | cons next rest => exact ih hfs

theorem depth_steps_sequence (h : ∀ f ∈ fs, f.Shallow d) :
    ∀ t ∈ (sequence fs).steps, t.depth ≤ 2 * d + 3 :=
  forall_mem_steps_sequence fun f hf => (h f hf).statements

theorem shallow_sequence (h : ∀ f ∈ fs, f.Shallow d) : (sequence fs).Shallow (d + 1) := by
  refine ⟨(depth_value_sequence h).trans (Nat.le_succ _), fun t ht => ?_⟩
  have := depth_steps_sequence h t ht
  omega

theorem depth_functionBody_sequence (h : ∀ f ∈ fs, f.Shallow d) :
    ∀ t ∈ (sequence fs).functionBody, t.depth ≤ 2 * d + 3 := by
  refine List.forall_mem_append.2 ⟨depth_steps_sequence h, ?_⟩
  rw [List.forall_mem_singleton, Stmt.depth]
  have := depth_value_sequence h
  omega

theorem depth_values_collect (h : ∀ f ∈ fs, f.Shallow d) :
    ∀ e ∈ (collect fs).value, e.depth ≤ d + 2 :=
  List.forall_mem_map.2 fun f hf => (h f hf).value

theorem depth_fields_collect (h : ∀ g ∈ gs, (g.map Prod.snd).Shallow d) :
    ∀ e ∈ (collect gs).value.map Prod.snd, e.depth ≤ d + 2 := by
  rw [collect, List.map_map]
  exact List.forall_mem_map.2 fun g hg => (h g hg).value

end Fragment

namespace Node

variable {d : Nat} {n : Node} {f : Fragment Expr} {s s' : NameSupply}

/-- The branch that is taken if a test fails is no deeper than the others. -/
theorem shallow_of_otherwise {no : List Node}
    (h : Otherwise (fun _ _ f _ => f.Shallow d) no s f s') : f.Shallow d := by
  cases h with
  | missing => exact Fragment.shallow_pure (Nat.le_add_left 1 (d + 1))
  | given h => exact h

/-- The definition for a conditional is two levels around its branches. -/
theorem shallow_branches {t y n : Fragment Expr} (ht : t.Shallow d) (hy : y.Shallow d)
    (hn : n.Shallow d) (hd : 0 < d) (func var : String) :
    (t.andThen fun test =>
      ⟨[.define func {} [.branch test (y.assignTo var) (n.assignTo var), .ret (.name var)]],
        .call (.name func) [] []⟩ : Fragment Expr).Shallow (d + 1) := by
  refine ⟨Nat.le_add_left 2 (d + 1), List.forall_mem_append.2 ⟨ht.steps_succ, ?_⟩⟩
  refine List.forall_mem_singleton.2 ⟨Nat.succ_pos d, ?_⟩
  refine Stmt.depth_le_iff.2 ⟨List.forall_mem_nil _, ?_⟩
  refine List.forall_mem_singleton.2 (List.forall_mem_cons.2 ⟨Stmt.depth_le_iff.2 ⟨?_, ?_⟩, ?_⟩)
  · have htest := ht.value
    exact List.forall_mem_singleton.2 (show t.value.depth ≤ 2 * d + 2 by omega)
  · exact List.forall_mem_cons.2
      ⟨hy.assignTo hd var, List.forall_mem_singleton.2 (hn.assignTo hd var)⟩
  · exact List.forall_mem_singleton.2 (Nat.le_add_left 2 (2 * d + 1))

/-- One more level of nodes is one more level of values and two more of steps. -/
theorem shallow_of_compilation (h : Compilation (fun _ _ f _ => f.Shallow d) n s f s') :
    f.Shallow (d + 1) := by
  cases h with
  | symbol | string | integer | float | complex =>
    exact Fragment.shallow_pure (Nat.le_add_left 1 (d + 2))
  | keyword => exact Fragment.shallow_pure (Nat.le_add_left 2 (d + 1))
  | list hitems =>
    refine ⟨Expr.depth_le_iff.2 (Fragment.depth_values_collect hitems.forall_mem), ?_⟩
    exact Fragment.forall_mem_steps_collect fun f hf => (hitems.forall_mem f hf).steps_succ
  | call _ hargs hkeywords =>
    refine ⟨Expr.depth_le_iff.2 (List.forall_mem_cons.2 ⟨Nat.le_add_left 1 (d + 1), ?_⟩), ?_⟩
    · exact List.forall_mem_append.2 ⟨Fragment.depth_values_collect hargs.forall_mem,
        Fragment.depth_fields_collect hkeywords.forall_mem_fields⟩
    · refine List.forall_mem_append.2 ⟨?_, ?_⟩
      · exact Fragment.forall_mem_steps_collect fun f hf => (hargs.forall_mem f hf).steps_succ
      · exact Fragment.forall_mem_steps_collect fun g hg =>
          (hkeywords.forall_mem_fields g hg).steps_succ
  | sequence _ _ hfs => exact Fragment.shallow_sequence hfs.forall_mem
  | operator _ hl hr =>
    refine ⟨Expr.depth_le_iff.2 (List.forall_mem_cons.2 ⟨hl.value, ?_⟩), ?_⟩
    · exact List.forall_mem_singleton.2 hr.value
    · exact List.forall_mem_append.2 ⟨hl.steps_succ, hr.steps_succ⟩
  | conditional _ ht hy hn _ _ =>
    refine ⟨Expr.depth_le_iff.2 (List.forall_mem_cons.2 ⟨ht.value, ?_⟩), ht.steps_succ⟩
    exact List.forall_mem_cons.2
      ⟨hy.value, List.forall_mem_singleton.2 (shallow_of_otherwise hn).value⟩
  | branches _ ht hy hn himpure =>
    have hn := shallow_of_otherwise hn
    have hd : 0 < d := by
      rcases Bool.and_eq_false_iff.1 himpure with h | h
      · exact hy.pos_of_isPure_eq_false h
      · exact hn.pos_of_isPure_eq_false h
    exact shallow_branches ht hy hn hd _ _
  | lambda _ _ _ hds hfs _ _ =>
    refine ⟨Expr.depth_le_iff.2 (List.forall_mem_append.2 ⟨?_, ?_⟩), ?_⟩
    · exact Fragment.depth_fields_collect hds.forall_mem_fields
    · exact List.forall_mem_singleton.2 (Fragment.depth_value_sequence hfs.forall_mem)
    · exact Fragment.forall_mem_steps_collect fun g hg => (hds.forall_mem_fields g hg).steps_succ
  | function _ _ _ hds hfs _ _ =>
    refine ⟨Nat.le_add_left 1 (d + 2), List.forall_mem_append.2 ⟨?_, ?_⟩⟩
    · exact Fragment.forall_mem_steps_collect fun g hg => (hds.forall_mem_fields g hg).steps_succ
    · refine List.forall_mem_singleton.2 ⟨Nat.succ_pos d, Stmt.depth_le_iff.2 ⟨?_, ?_⟩⟩
      · intro e he
        have := Fragment.depth_fields_collect hds.forall_mem_fields e he
        omega
      · exact List.forall_mem_singleton.2 (Fragment.depth_functionBody_sequence hfs.forall_mem)

theorem shallow_of_depth_eq_zero (h : n.Compiles s f s') (hd : n.depth = 0) : f.Shallow 0 := by
  cases compile_cases h with
  | symbol | string | integer | float | complex =>
    exact Fragment.shallow_pure (Nat.le_succ 1)
  | keyword => exact Fragment.shallow_pure (Nat.le_refl 2)
  | _ => exact absurd hd (Nat.succ_ne_zero _)

/-- **How deep a compiled node is**, by induction on its depth. -/
theorem shallow_of_compiles (h : n.Compiles s f s') (hd : n.depth ≤ d) : f.Shallow d := by
  induction d generalizing n s f s' with
  | zero => exact shallow_of_depth_eq_zero h (Nat.le_zero.1 hd)
  | succ d ih =>
    refine shallow_of_compilation ((compile_cases h).imp fun p hp s f s' hpart => ?_)
    exact ih hpart (depth_le_of_part hd hp)

end Node

/-- A program is no deeper than its nodes allow, however long it is. -/
theorem Program.depthOf_body_le {d : Nat} {nodes : List Node} {p : Program} {s s' : NameSupply}
    (hd : ∀ n ∈ nodes, n.depth ≤ d) (h : Program.ofNodes nodes s = .ok p s') :
    Stmt.depthOf p.body ≤ max 3 (2 * d + 2) := by
  obtain ⟨fs, hfs, hbody⟩ := Program.chain_of_ofNodes h
  have hshallow : ∀ f ∈ fs, f.Shallow d :=
    (hfs.imp fun n hn s f s' h => Node.shallow_of_compiles h (hd n hn)).forall_mem
  rw [hbody, Stmt.depthOf_le_iff]
  intro t ht
  obtain ⟨f, hf, ht⟩ := List.mem_flatMap.1 ht
  rcases List.mem_append.1 ht with ht | ht
  · exact ((hshallow f hf).steps t ht).2.trans (Nat.le_max_right _ _)
  · obtain rfl := List.mem_singleton.1 ht
    have hvalue := (hshallow f hf).value
    rw [Stmt.depth]
    omega

/-! ## Nodes that reach the bound -/

namespace Node

variable {n : Node} {f : Fragment Expr} {s s' : NameSupply}

/-- The conditional `<if>x … </if>`. -/
def conditionalOf (branches : List Node) : Node :=
  .element ((Element.named "if").addChildren (.symbol "x" :: branches))

/-- Nodes of each depth that become as deep as possible. From the third on they are conditionals
inside each other, the innermost of which has one branch with a step and one with a deep value. -/
def deepest : Nat → Node
  | 0 => .keyword "k"
  | 1 => .element ((Element.named "f").addChildren [.keyword "k"])
  | 2 =>
    conditionalOf
      [.element ((Element.named "do").addChildren [.symbol "x", .symbol "x"]), deepest 1]
  | d + 3 => conditionalOf [deepest (d + 2)]

theorem depth_deepest_le (d : Nat) : (deepest d).depth ≤ d := by
  induction d using deepest.induct with
  | case1 | case2 | case3 => decide
  | case4 d ih =>
    refine depth_element_le_iff.2 ⟨?_, List.forall_mem_nil _⟩
    exact List.forall_mem_cons.2 ⟨Nat.zero_le _, List.forall_mem_singleton.2 ih⟩

theorem compiles_conditionalOf (h : n.Compiles s f s') (hf : f.isPure = false) :
    ∃ func var s'', (conditionalOf [n]).Compiles s
      ⟨[.define func {} [.branch (.name "x") (f.assignTo var) [.assign var .nothing],
        .ret (.name var)]], .call (.name func) [] []⟩ s'' := by
  refine ⟨NameSupply.funcName (s'.drawn + 1), NameSupply.varName (s'.drawn + 2),
    ⟨s'.drawn + 2⟩, ?_⟩
  have hparts : compileAll [.symbol "x", n] s = .ok [.pure (.name "x"), f] s' := by
    simp only [compileAll, CompileM.bind_eq_ok, CompileM.pure_eq_ok]
    exact ⟨_, _, rfl, _, _, ⟨_, _, h, _, _, ⟨rfl, rfl⟩, rfl, rfl⟩, rfl, rfl⟩
  show (compileAll [.symbol "x", n] >>= fun fs => _) s = _
  refine CompileM.bind_eq_ok.2 ⟨_, _, hparts, ?_⟩
  show CompileM.conditional _ _ _ _ = _
  rw [CompileM.conditional, hf]
  rfl

/-- Each conditional around adds the definition and the choice to the steps inside. -/
theorem exists_step_deepest (d : Nat) (s : NameSupply) :
    ∃ f s', (deepest (d + 2)).Compiles s f s' ∧ ∃ t ∈ f.steps, 2 * (d + 2) + 2 ≤ t.depth := by
  induction d with
  | zero => exact ⟨_, _, rfl, _, List.mem_cons_self, Nat.le_refl 6⟩
  | succ d ih =>
    obtain ⟨f, s', hf, t, ht, hdepth⟩ := ih
    have himpure : f.isPure = false := List.isEmpty_eq_false_iff_exists_mem.2 ⟨t, ht⟩
    obtain ⟨func, var, s'', hconditional⟩ := compiles_conditionalOf hf himpure
    refine ⟨_, s'', hconditional, _, List.mem_cons_self, ?_⟩
    have hbranch : t.depth <
        (Stmt.branch (.name "x") (f.assignTo var) [.assign var .nothing]).depth :=
      Stmt.depth_lt_of_block List.mem_cons_self (List.mem_append_left _ ht)
    have hdefine : (Stmt.branch (.name "x") (f.assignTo var) [.assign var .nothing]).depth <
        (Stmt.define func {} [.branch (.name "x") (f.assignTo var) [.assign var .nothing],
          .ret (.name var)]).depth :=
      Stmt.depth_lt_of_block List.mem_cons_self List.mem_cons_self
    omega

theorem exists_statement_deepest (d : Nat) (s : NameSupply) :
    ∃ f s', (deepest d).Compiles s f s' ∧ ∃ t ∈ f.statements, max 3 (2 * d + 2) ≤ t.depth := by
  rcases d with _ | _ | d
  · exact ⟨_, _, rfl, _, List.mem_cons_self, Nat.le_refl 3⟩
  · exact ⟨_, _, rfl, _, List.mem_cons_self, Nat.le_refl 4⟩
  · obtain ⟨f, s', hf, t, ht, hdepth⟩ := exists_step_deepest d s
    exact ⟨f, s', hf, t, List.mem_append_left _ ht, by omega⟩

end Node

theorem Program.exists_depthOf_body_eq (d : Nat) (s : NameSupply) :
    ∃ nodes p s', (∀ n ∈ nodes, n.depth ≤ d) ∧ Program.ofNodes nodes s = .ok p s' ∧
      Stmt.depthOf p.body = max 3 (2 * d + 2) := by
  obtain ⟨f, s', hf, t, ht, hdepth⟩ := Node.exists_statement_deepest d s
  have hnodes : ∀ n ∈ [Node.deepest d], n.depth ≤ d :=
    List.forall_mem_singleton.2 (Node.depth_deepest_le d)
  have hprogram : Program.ofNodes [Node.deepest d] s = .ok f.program s' :=
    CompileM.bind_eq_ok.2 ⟨f, s', hf, rfl⟩
  refine ⟨_, _, s', hnodes, hprogram, Nat.le_antisymm (depthOf_body_le hnodes hprogram) ?_⟩
  exact hdepth.trans (Stmt.depthOf_le_iff.1 (Nat.le_refl _) t ht)

/-! ## Nodes that are read -/

/-- The nodes that the grammar derives next to each other. -/
def Phrase.nodes : Phrase → List Node
  | .term node => [node]
  | .terms nodes => nodes
  | .attributes fields => fields.map Prod.snd

/-- **A derivation bounds the depth**: the levels that a phrase may open are those that it has. -/
theorem Derives.depth_le {options : ParseOptions} {depth : Nat} {phrase : Phrase}
    {ts : List Token} (h : Derives options depth phrase ts) :
    ∀ n ∈ phrase.nodes, n.depth ≤ depth := by
  induction h with
  | string => exact List.forall_mem_singleton.2 (Nat.zero_le _)
  | @identifier depth t node _ hnode =>
    have hleaf := Literal.isLeaf_of_node? hnode
    rw [Phrase.nodes, List.forall_mem_singleton]
    cases node with
    | list | element => cases hleaf
    | _ => exact Nat.zero_le _
  | list _ _ _ ih => exact List.forall_mem_singleton.2 (Node.depth_list_le_iff.2 ih)
  | childless _ _ _ _ ih =>
    exact List.forall_mem_singleton.2 (Node.depth_element_le_iff.2 ⟨List.forall_mem_nil _, ih⟩)
  | element _ _ _ _ _ _ _ _ _ ihfields ihchildren =>
    exact List.forall_mem_singleton.2 (Node.depth_element_le_iff.2 ⟨ihchildren, ihfields⟩)
  | noTerms | noAttributes => exact List.forall_mem_nil _
  | moreTerms _ _ ihnodes ihnode => exact List.forall_mem_append.2 ⟨ihnodes, ihnode⟩
  | moreAttributes _ _ _ _ ihfields ihnode =>
    intro n hn
    rcases Fields.mem_values_insert hn with hn | rfl
    · exact ihfields n hn
    · exact ihnode n List.mem_cons_self

theorem Node.depth_le_of_parse {options : ParseOptions} {source : String} {nodes : List Node}
    (h : Node.parse options source = .ok nodes) : ∀ n ∈ nodes, n.depth ≤ maxDepth := by
  unfold Node.parse at h
  split at h
  · exact (derives_of_ofTokens_eq_ok h).depth_le
  · cases h

namespace Program

/-- **How deep programs are.** Nodes of depth `d` make a program whose statements, at any depth in
it, are at most `2 * d + 2` deep, or 3 if they are leaves; some nodes of each depth reach this. The
reader limits the depth of nodes. So statements of a program that is compiled from a text are at
most 514 deep, and no recursion that goes from statements and expressions into those directly in
them has more calls open. -/
theorem depth_bounded :
    (∀ d nodes s p s', (∀ n ∈ nodes, n.depth ≤ d) → Program.ofNodes nodes s = .ok p s' →
      ∀ t ∈ Stmt.allOf p.body, t.depth ≤ max 3 (2 * d + 2)) ∧
    (∀ d s, ∃ nodes p s', (∀ n ∈ nodes, n.depth ≤ d) ∧ Program.ofNodes nodes s = .ok p s' ∧
      Stmt.depthOf p.body = max 3 (2 * d + 2)) ∧
    ∀ options source p, Program.ofSource options source = .ok p →
      ∀ t ∈ Stmt.allOf p.body, t.depth ≤ 514 ∧ ∀ n, t.Descent n → n ≤ 514 := by
  have hbound : ∀ d nodes s p s', (∀ n ∈ nodes, n.depth ≤ d) →
      Program.ofNodes nodes s = .ok p s' →
      ∀ t ∈ Stmt.allOf p.body, t.depth ≤ max 3 (2 * d + 2) := by
    intro d nodes s p s' hd h t ht
    exact (Stmt.depth_le_of_mem_allOf p.body t ht).trans (depthOf_body_le hd h)
  refine ⟨hbound, exists_depthOf_body_eq, ?_⟩
  intro options source p h t ht
  obtain ⟨nodes, s', hparse, hcompile⟩ := exists_of_ofSource h
  have hdepth : t.depth ≤ 514 :=
    hbound maxDepth nodes {} p s' (Node.depth_le_of_parse hparse) hcompile t ht
  exact ⟨hdepth, fun n hdescent => hdescent.le_depth.trans hdepth⟩

/-- A conditional with a step in one branch and a deep value in the other. -/
theorem depth_bounded_conditional :
    ∃ p, Program.ofSource ⟨true⟩ "<if>x <do>x x</do> <f>:k</f></if>" = .ok p ∧
      p.body.map Stmt.depth = [6, 3] ∧
      ∀ t ∈ Stmt.allOf p.body, t.depth ≤ 514 ∧ ∀ n, t.Descent n → n ≤ 514 := by
  have hdepths : (Program.ofSource ⟨true⟩ "<if>x <do>x x</do> <f>:k</f></if>").toOption.map
      (fun p => p.body.map Stmt.depth) = some [6, 3] := by
    decide +kernel
  cases h : Program.ofSource ⟨true⟩ "<if>x <do>x x</do> <f>:k</f></if>" with
  | error e =>
    rw [h] at hdepths
    cases hdepths
  | ok p =>
    rw [h] at hdepths
    exact ⟨p, rfl, Option.some.inj hdepths, depth_bounded.2.2 _ _ p h⟩

end Program

end TagLang
