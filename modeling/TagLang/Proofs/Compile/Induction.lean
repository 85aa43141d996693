import TagLang.Compile.Basic

/-!
# Induction over successful compilations

What a compilation that succeeds consists of. `Node.Compilation R` lists the ways in which one node
becomes a fragment when its parts do so in the sense of `R`: one constructor for each kind of node
and each shape of the result. `Node.compile_cases` says that there are no others, and
`Node.compile_induction` is the induction over a whole tree, so that a fact about compiled nodes is
proved once for each constructor and nothing has to unfold the compiler again.

A form compiles its parts from left to right, each with the supply that the one before has left.
That is `Chain`.
-/

namespace TagLang

/-! ## Steps of the compiling monad -/

namespace CompileM

variable {α β : Type} {s s' s'' : NameSupply}

theorem bind_eq_ok {x : CompileM α} {g : α → CompileM β} {b : β} :
    (x >>= g) s = .ok b s'' ↔ ∃ a s', x s = .ok a s' ∧ g a s' = .ok b s'' := by
  show EStateM.bind x g s = _ ↔ _
  unfold EStateM.bind
  cases x s <;> simp [and_assoc]

theorem pure_eq_ok {a b : α} : (pure a : CompileM α) s = .ok b s' ↔ a = b ∧ s = s' := by
  show EStateM.Result.ok a s = _ ↔ _
  simp

theorem fail_ne_ok {position : Position} {tag : String} {cause : CompileCause} {a : α} :
    ¬ (fail position tag cause : CompileM α) s = .ok a s' := by
  show ¬ EStateM.Result.error _ _ = _
  simp

theorem func_eq_ok {x : String} :
    func s = .ok x s' ↔ x = NameSupply.funcName (s.drawn + 1) ∧ s' = ⟨s.drawn + 1⟩ := by
  show EStateM.Result.ok _ _ = _ ↔ _
  simp [eq_comm]

theorem var_eq_ok {x : String} :
    var s = .ok x s' ↔ x = NameSupply.varName (s.drawn + 1) ∧ s' = ⟨s.drawn + 1⟩ := by
  show EStateM.Result.ok _ _ = _ ↔ _
  simp [eq_comm]

end CompileM

/-! ## Parts compiled one after the other -/

/-- Each item becomes its result with the supply that the item before it has left. -/
inductive Chain {α β : Type} (R : α → NameSupply → β → NameSupply → Prop) :
    List α → NameSupply → List β → NameSupply → Prop
  | nil {s : NameSupply} : Chain R [] s [] s
  | cons {a : α} {as : List α} {b : β} {bs : List β} {s s' s'' : NameSupply} :
      R a s b s' → Chain R as s' bs s'' → Chain R (a :: as) s (b :: bs) s''

theorem Chain.imp {α β : Type} {R R' : α → NameSupply → β → NameSupply → Prop} {as : List α}
    {bs : List β} {s s' : NameSupply} (h : Chain R as s bs s')
    (himp : ∀ a ∈ as, ∀ s b s', R a s b s' → R' a s b s') : Chain R' as s bs s' := by
  induction h with
  | nil => exact .nil
  | cons hr _ ih =>
    refine .cons (himp _ List.mem_cons_self _ _ _ hr) (ih fun a ha => ?_)
    exact himp a (List.mem_cons_of_mem _ ha)

theorem Chain.length_eq {α β : Type} {R : α → NameSupply → β → NameSupply → Prop} {as : List α}
    {bs : List β} {s s' : NameSupply} (h : Chain R as s bs s') : bs.length = as.length := by
  induction h with
  | nil => rfl
  | cons _ _ ih => rw [List.length_cons, List.length_cons, ih]

theorem Chain.ne_nil {α β : Type} {R : α → NameSupply → β → NameSupply → Prop} {as : List α}
    {bs : List β} {s s' : NameSupply} (h : Chain R as s bs s') (hne : as ≠ []) : bs ≠ [] := by
  rw [← List.length_pos_iff, h.length_eq]
  exact List.length_pos_iff.2 hne

/-- What holds of every result holds of all results. -/
theorem Chain.forall_mem {α β : Type} {P : β → Prop} {as : List α} {bs : List β} {s s' : NameSupply}
    (h : Chain (fun _ _ b _ => P b) as s bs s') : ∀ b ∈ bs, P b := by
  induction h with
  | nil => exact List.forall_mem_nil _
  | cons hb _ ih => exact List.forall_mem_cons.2 ⟨hb, ih⟩

theorem Chain.exists_of_mem {α β : Type} {R : α → NameSupply → β → NameSupply → Prop} {as : List α}
    {bs : List β} {s s' : NameSupply} (h : Chain R as s bs s') {a : α} (ha : a ∈ as) :
    ∃ s b s', R a s b s' := by
  induction h with
  | nil => cases ha
  | cons hr _ ih =>
    rcases List.mem_cons.1 ha with rfl | ha
    · exact ⟨_, _, _, hr⟩
    · exact ih ha

/-- The branch that is taken if a test fails. A conditional without one has no value there. -/
inductive Otherwise (R : Node → NameSupply → Fragment Expr → NameSupply → Prop) :
    List Node → NameSupply → Fragment Expr → NameSupply → Prop
  | missing {s : NameSupply} : Otherwise R [] s (.pure .nothing) s
  | given {node : Node} {f : Fragment Expr} {s s' : NameSupply} :
      R node s f s' → Otherwise R [node] s f s'

/-- A named value becomes a fragment of the value with its name. -/
def KeyedBy (R : Node → NameSupply → Fragment Expr → NameSupply → Prop) (field : String × Node)
    (s : NameSupply) (g : Fragment (String × Expr)) (s' : NameSupply) : Prop :=
  ∃ f, R field.2 s f s' ∧ g = f.map fun value => (field.1, value)

theorem Chain.keys_eq {R : Node → NameSupply → Fragment Expr → NameSupply → Prop}
    {fields : List (String × Node)} {gs : List (Fragment (String × Expr))} {s s' : NameSupply}
    (h : Chain (KeyedBy R) fields s gs s') :
    gs.map (fun g => g.value.1) = fields.map Prod.fst := by
  induction h with
  | nil => rfl
  | cons hfield _ ih =>
    obtain ⟨f, -, rfl⟩ := hfield
    rw [List.map_cons, List.map_cons, ih]
    rfl

theorem Chain.forall_mem_fields {P : Fragment Expr → Prop} {fields : List (String × Node)}
    {gs : List (Fragment (String × Expr))} {s s' : NameSupply}
    (h : Chain (KeyedBy fun _ _ f _ => P f) fields s gs s') : ∀ g ∈ gs, P (g.map Prod.snd) := by
  induction h with
  | nil => exact List.forall_mem_nil _
  | cons hfield _ ih =>
    obtain ⟨f, hf, rfl⟩ := hfield
    exact List.forall_mem_cons.2 ⟨hf, ih⟩

theorem Chain.exists_of_mem_fields {R : Node → NameSupply → Fragment Expr → NameSupply → Prop}
    {fields : List (String × Node)} {gs : List (Fragment (String × Expr))} {s s' : NameSupply}
    (h : Chain (KeyedBy R) fields s gs s') {p : Node} (hp : p ∈ fields.map Prod.snd) :
    ∃ s f s', R p s f s' := by
  obtain ⟨field, hfield, rfl⟩ := List.mem_map.1 hp
  obtain ⟨s₁, g, s₂, f, hf, -⟩ := h.exists_of_mem hfield
  exact ⟨s₁, f, s₂, hf⟩

/-- Fragments carried out one after the other; the value is the last one's. -/
def Fragment.sequence : List (Fragment Expr) → Fragment Expr
  | [] => .pure .nothing
  | [f] => f
  | f :: next :: rest => f.followedBy (Fragment.sequence (next :: rest))

/-- The nodes that are compiled for a node. The parameter list of a function is not compiled. -/
def Node.parts : Node → List Node
  | .list items => items
  | .element e =>
    (if Form.ofName? e.name = some .function then e.children.tail else e.children) ++
      e.attributes.map Prod.snd
  | _ => []

theorem Node.parts_of_ne_function {e : Element Node} (h : Form.ofName? e.name ≠ some .function) :
    (Node.element e).parts = e.children ++ e.attributes.map Prod.snd := by
  rw [parts, if_neg h]

theorem Node.parts_function {name : String} {attributes : List (String × Node)} {first : Node}
    {body : List Node} {position : Position} (h : Form.ofName? name = some .function) :
    (Node.element ⟨name, attributes, first :: body, position⟩).parts =
      body ++ attributes.map Prod.snd := by
  rw [parts, if_pos h, List.tail_cons]

/-- Each part of an element is a child or the value of an attribute. -/
theorem Node.mem_parts_element {e : Element Node} {p : Node} (hp : p ∈ (Node.element e).parts) :
    p ∈ e.children ∨ p ∈ e.attributes.map Prod.snd := by
  rcases List.mem_append.1 hp with hp | hp
  · split at hp
    · exact .inl (List.mem_of_mem_tail hp)
    · exact .inl hp
  · exact .inr hp

/-! ## The ways in which a node is compiled -/

/-- How a node becomes a fragment if its parts do so in the sense of `R`. -/
inductive Node.Compilation (R : Node → NameSupply → Fragment Expr → NameSupply → Prop) :
    Node → NameSupply → Fragment Expr → NameSupply → Prop
  | symbol {name : String} {s : NameSupply} : Compilation R (.symbol name) s (.pure (.name name)) s
  | keyword {text : String} {s : NameSupply} :
      Compilation R (.keyword text) s (.pure (.keyword text)) s
  | string {value : String} {s : NameSupply} :
      Compilation R (.string value) s (.pure (.str value)) s
  | integer {value : Int64} {base : Base} {s : NameSupply} :
      Compilation R (.integer value base) s (.pure (.int value)) s
  | float {x : Binary64} {s : NameSupply} : Compilation R (.float x) s (.pure (.float x)) s
  | complex {re im : Binary64} {s : NameSupply} :
      Compilation R (.complex re im) s (.pure (.complex re im)) s
  | list {items : List Node} {fs : List (Fragment Expr)} {s s' : NameSupply} :
      Chain R items s fs s' → Compilation R (.list items) s ((Fragment.collect fs).map .list) s'
  | call {name : String} {attributes : List (String × Node)} {children : List Node}
      {position : Position} {args : List (Fragment Expr)}
      {keywords : List (Fragment (String × Expr))} {s s' s'' : NameSupply} :
      Form.ofName? name = none → Chain R children s args s' →
      Chain (KeyedBy R) attributes s' keywords s'' →
      Compilation R (.element ⟨name, attributes, children, position⟩) s
        (((Fragment.collect args).zip (Fragment.collect keywords)).map fun (args, keywords) =>
          .call (.name name) args keywords) s''
  | sequence {name : String} {children : List Node} {position : Position}
      {fs : List (Fragment Expr)} {s s' : NameSupply} :
      Form.ofName? name = some .sequence → children ≠ [] → Chain R children s fs s' →
      Compilation R (.element ⟨name, [], children, position⟩) s (Fragment.sequence fs) s'
  | operator {name : String} {op : BinOp} {left right : Node} {position : Position}
      {l r : Fragment Expr} {s s' s'' : NameSupply} :
      Form.ofName? name = some (.operator op) → R left s l s' → R right s' r s'' →
      Compilation R (.element ⟨name, [], [left, right], position⟩) s
        ((l.zip r).map fun (left, right) => .binOp op left right) s''
  /-- Both branches are pure. -/
  | conditional {name : String} {test yes : Node} {no : List Node} {position : Position}
      {t y n : Fragment Expr} {s s₁ s₂ s' : NameSupply} :
      Form.ofName? name = some .conditional → R test s t s₁ → R yes s₁ y s₂ →
      Otherwise R no s₂ n s' → y.isPure = true → n.isPure = true →
      Compilation R (.element ⟨name, [], test :: yes :: no, position⟩) s
        (t.map fun test => .ifExp test y.value n.value) s'
  /-- A branch has steps, and a function is made up for the conditional. -/
  | branches {name : String} {test yes : Node} {no : List Node} {position : Position}
      {t y n : Fragment Expr} {s s₁ s₂ s' : NameSupply} :
      Form.ofName? name = some .conditional → R test s t s₁ → R yes s₁ y s₂ →
      Otherwise R no s₂ n s' → (y.isPure && n.isPure) = false →
      Compilation R (.element ⟨name, [], test :: yes :: no, position⟩) s
        (t.andThen fun test =>
          ⟨[.define (NameSupply.funcName (s'.drawn + 1)) {}
            [.branch test (y.assignTo (NameSupply.varName (s'.drawn + 2)))
              (n.assignTo (NameSupply.varName (s'.drawn + 2))),
              .ret (.name (NameSupply.varName (s'.drawn + 2)))]],
            .call (.name (NameSupply.funcName (s'.drawn + 1))) [] []⟩) ⟨s'.drawn + 2⟩
  /-- The body is pure. -/
  | lambda {name : String} {attributes : List (String × Node)} {entries body : List Node}
      {position : Position} {params : Params Expr} {defaults : List (Fragment (String × Expr))}
      {fs : List (Fragment Expr)} {s s₁ s' : NameSupply} :
      Form.ofName? name = some .function → Params.ofNodes entries = .ok params → body ≠ [] →
      Chain (KeyedBy R) attributes s defaults s₁ → Chain R body s₁ fs s' →
      firstDuplicate? [] { params with keywords := (Fragment.collect defaults).value }.names =
        none →
      (Fragment.sequence fs).isPure = true →
      Compilation R (.element ⟨name, attributes, .list entries :: body, position⟩) s
        ⟨(Fragment.collect defaults).steps,
          .lambda { params with keywords := (Fragment.collect defaults).value }
            (Fragment.sequence fs).value⟩ s'
  /-- The body has steps, and a function is made up for it. -/
  | function {name : String} {attributes : List (String × Node)} {entries body : List Node}
      {position : Position} {params : Params Expr} {defaults : List (Fragment (String × Expr))}
      {fs : List (Fragment Expr)} {s s₁ s' : NameSupply} :
      Form.ofName? name = some .function → Params.ofNodes entries = .ok params → body ≠ [] →
      Chain (KeyedBy R) attributes s defaults s₁ → Chain R body s₁ fs s' →
      firstDuplicate? [] { params with keywords := (Fragment.collect defaults).value }.names =
        none →
      (Fragment.sequence fs).isPure = false →
      Compilation R (.element ⟨name, attributes, .list entries :: body, position⟩) s
        ⟨(Fragment.collect defaults).steps ++
          [.define (NameSupply.funcName (s'.drawn + 1))
            { params with keywords := (Fragment.collect defaults).value }
            (Fragment.sequence fs).functionBody],
          .name (NameSupply.funcName (s'.drawn + 1))⟩ ⟨s'.drawn + 1⟩

/-! ## There are no other ways -/

namespace Node

variable {s s' : NameSupply}

/-- A node becomes a fragment when it is compiled. -/
def Compiles (node : Node) (s : NameSupply) (f : Fragment Expr) (s' : NameSupply) : Prop :=
  node.compile s = .ok f s'

theorem chain_of_compileAll {nodes : List Node} {fs : List (Fragment Expr)}
    (h : compileAll nodes s = .ok fs s') : Chain Compiles nodes s fs s' := by
  induction nodes generalizing s fs with
  | nil =>
    rw [compileAll, CompileM.pure_eq_ok] at h
    obtain ⟨rfl, rfl⟩ := h
    exact .nil
  | cons node rest ih =>
    simp only [compileAll, CompileM.bind_eq_ok, CompileM.pure_eq_ok] at h
    obtain ⟨f, s₁, hf, fs', s₂, hfs, rfl, rfl⟩ := h
    exact .cons hf (ih hfs)

theorem chain_of_compileFields {fields : List (String × Node)}
    {gs : List (Fragment (String × Expr))} (h : compileFields fields s = .ok gs s') :
    Chain (KeyedBy Compiles) fields s gs s' := by
  induction fields generalizing s gs with
  | nil =>
    rw [compileFields, CompileM.pure_eq_ok] at h
    obtain ⟨rfl, rfl⟩ := h
    exact .nil
  | cons field rest ih =>
    obtain ⟨key, node⟩ := field
    simp only [compileFields, CompileM.bind_eq_ok, CompileM.pure_eq_ok] at h
    obtain ⟨f, s₁, hf, gs', s₂, hgs, rfl, rfl⟩ := h
    exact .cons ⟨f, hf, rfl⟩ (ih hgs)

theorem chain_of_compileSequence {nodes : List Node} {f : Fragment Expr} (hne : nodes ≠ [])
    (h : compileSequence nodes s = .ok f s') :
    ∃ fs, Chain Compiles nodes s fs s' ∧ f = Fragment.sequence fs := by
  induction nodes generalizing s f with
  | nil => exact absurd rfl hne
  | cons node rest ih =>
    cases rest with
    | nil =>
      rw [compileSequence] at h
      exact ⟨[f], .cons h .nil, rfl⟩
    | cons next rest =>
      simp only [compileSequence, CompileM.bind_eq_ok, CompileM.pure_eq_ok] at h
      obtain ⟨f₁, s₁, hf₁, f₂, s₂, hf₂, rfl, rfl⟩ := h
      obtain ⟨fs, hfs, rfl⟩ := ih (List.cons_ne_nil next rest) hf₂
      refine ⟨f₁ :: fs, .cons hf₁ hfs, ?_⟩
      cases hfs with
      | cons _ _ => rfl

end Node

theorem Arity.accepts_iff {a : Arity} {n : Nat} :
    a.accepts n = true ↔ a.min ≤ n ∧ ∀ max, a.max = some max → n ≤ max := by
  obtain ⟨min, max⟩ := a
  cases max <;> simp [Arity.accepts]

/-- An element that passes the check of its form has children and attributes as the form says. -/
theorem Form.fault?_eq_none {form : Form} {attributes : List (String × Node)}
    {children : List Node} (h : form.fault? attributes children = none) :
    form.arity.accepts children.length = true ∧
      (form.takesAttributes = false → attributes = []) := by
  unfold Form.fault? at h
  split at h
  · rename_i harity
    refine ⟨harity, fun htakes => ?_⟩
    rw [htakes] at h
    cases attributes with
    | nil => rfl
    | cons field rest => simp at h
  · cases h

namespace Node

variable {name : String} {attributes : List (String × Node)} {children : List Node}
  {position : Position} {f : Fragment Expr} {s s' : NameSupply}

theorem compilation_branches {test yes : Node} {no : List Node} {t y n : Fragment Expr}
    {s₁ s₂ s₃ : NameSupply} (hform : Form.ofName? name = some .conditional)
    (ht : test.Compiles s t s₁) (hy : yes.Compiles s₁ y s₂) (hn : Otherwise Compiles no s₂ n s₃)
    (h : CompileM.conditional t y n s₃ = .ok f s') :
    Compilation Compiles (.element ⟨name, [], test :: yes :: no, position⟩) s f s' := by
  unfold CompileM.conditional at h
  cases hp : y.isPure && n.isPure with
  | true =>
    simp only [hp, ↓reduceIte, CompileM.pure_eq_ok] at h
    obtain ⟨rfl, rfl⟩ := h
    rw [Bool.and_eq_true] at hp
    exact .conditional hform ht hy hn hp.1 hp.2
  | false =>
    simp only [hp, Bool.false_eq_true, ↓reduceIte, CompileM.bind_eq_ok, CompileM.pure_eq_ok,
      CompileM.func_eq_ok, CompileM.var_eq_ok] at h
    obtain ⟨_, _, ⟨rfl, rfl⟩, _, _, ⟨rfl, rfl⟩, rfl, rfl⟩ := h
    exact .branches hform ht hy hn hp

theorem compilation_conditional (hform : Form.ofName? name = some .conditional)
    (hfault : Form.fault? .conditional attributes children = none)
    (h : (Node.element ⟨name, attributes, children, position⟩).compile s = .ok f s') :
    Compilation Compiles (.element ⟨name, attributes, children, position⟩) s f s' := by
  obtain ⟨harity, hattr⟩ := Form.fault?_eq_none hfault
  obtain rfl := hattr rfl
  rw [Node.compile] at h
  simp only [hform, hfault] at h
  rw [CompileM.bind_eq_ok] at h
  obtain ⟨fs, s₁, hfs, h⟩ := h
  obtain ⟨hmin, hmax⟩ := Arity.accepts_iff.1 harity
  have hmin : 2 ≤ children.length := hmin
  have hmax : children.length ≤ 3 := hmax 3 rfl
  -- the check leaves two shapes; in each the chain gives the supplies between the parts
  match children, fs, chain_of_compileAll hfs, h with
  | [test, yes, no], [t, y, n], .cons ht (.cons hy (.cons hn .nil)), h =>
    exact compilation_branches hform ht hy (.given hn) h
  | [test, yes], [t, y], .cons ht (.cons hy .nil), h =>
    exact compilation_branches hform ht hy .missing h
  | [], _, _, _ => exact absurd hmin (by decide)
  | [_], _, _, _ => exact absurd hmin (by rw [List.length_singleton]; decide)
  | _ :: _ :: _ :: _ :: rest, _, _, _ =>
    have hlong : rest.length + 4 ≤ 3 := hmax
    omega

theorem compilation_operator {op : BinOp} (hform : Form.ofName? name = some (.operator op))
    (hfault : Form.fault? (.operator op) attributes children = none)
    (h : (Node.element ⟨name, attributes, children, position⟩).compile s = .ok f s') :
    Compilation Compiles (.element ⟨name, attributes, children, position⟩) s f s' := by
  obtain ⟨harity, hattr⟩ := Form.fault?_eq_none hfault
  obtain rfl := hattr rfl
  rw [Node.compile] at h
  simp only [hform, hfault] at h
  rw [CompileM.bind_eq_ok] at h
  obtain ⟨fs, s₁, hfs, h⟩ := h
  obtain ⟨hmin, hmax⟩ := Arity.accepts_iff.1 harity
  have hmin : 2 ≤ children.length := hmin
  have hmax : children.length ≤ 2 := hmax 2 rfl
  match children, fs, chain_of_compileAll hfs, h with
  | [left, right], [l, r], .cons hl (.cons hr .nil), h =>
    rw [CompileM.pure_eq_ok] at h
    obtain ⟨rfl, rfl⟩ := h
    exact .operator hform hl hr
  | [], _, _, _ => exact absurd hmin (by decide)
  | [_], _, _, _ => exact absurd hmin (by rw [List.length_singleton]; decide)
  | _ :: _ :: _ :: rest, _, _, _ =>
    have hlong : rest.length + 3 ≤ 2 := hmax
    omega

theorem compilation_function (hform : Form.ofName? name = some .function)
    (hfault : Form.fault? .function attributes children = none)
    (h : (Node.element ⟨name, attributes, children, position⟩).compile s = .ok f s') :
    Compilation Compiles (.element ⟨name, attributes, children, position⟩) s f s' := by
  obtain ⟨harity, -⟩ := Form.fault?_eq_none hfault
  rw [Node.compile] at h
  simp only [hform, hfault] at h
  match children, h with
  | .list entries :: body, h =>
    have hbody : body ≠ [] := by
      rintro rfl
      exact absurd (Arity.accepts_iff.1 harity).1 (by rw [List.length_singleton]; decide)
    cases hparams : Params.ofNodes entries with
    | error cause => simp only [hparams, CompileM.fail_ne_ok] at h
    | ok params =>
      simp only [hparams, CompileM.bind_eq_ok] at h
      obtain ⟨ds, s₁, hds, b, s₂, hb, h⟩ := h
      obtain ⟨fs, hfs, rfl⟩ := chain_of_compileSequence hbody hb
      cases hdup : firstDuplicate? []
          { params with keywords := (Fragment.collect ds).value }.names with
      | some duplicate => simp [hdup, CompileM.bind_eq_ok, CompileM.fail_ne_ok] at h
      | none =>
        simp only [hdup] at h
        unfold CompileM.function at h
        cases hp : (Fragment.sequence fs).isPure with
        | true =>
          simp only [hp, ↓reduceIte, CompileM.pure_eq_ok] at h
          obtain ⟨rfl, rfl⟩ := h
          exact .lambda hform hparams hbody (chain_of_compileFields hds) hfs hdup hp
        | false =>
          simp only [hp, Bool.false_eq_true, ↓reduceIte, CompileM.bind_eq_ok, CompileM.pure_eq_ok,
            CompileM.func_eq_ok] at h
          obtain ⟨_, _, ⟨rfl, rfl⟩, rfl, rfl⟩ := h
          exact .function hform hparams hbody (chain_of_compileFields hds) hfs hdup hp
  | [], h => exact absurd h CompileM.fail_ne_ok
  | .symbol _ :: _, h => exact absurd h CompileM.fail_ne_ok
  | .keyword _ :: _, h => exact absurd h CompileM.fail_ne_ok
  | .string _ :: _, h => exact absurd h CompileM.fail_ne_ok
  | .integer _ _ :: _, h => exact absurd h CompileM.fail_ne_ok
  | .float _ :: _, h => exact absurd h CompileM.fail_ne_ok
  | .complex _ _ :: _, h => exact absurd h CompileM.fail_ne_ok
  | .element _ :: _, h => exact absurd h CompileM.fail_ne_ok

/-- **A node that compiles does so in one of the listed ways.** -/
theorem compile_cases {n : Node} (h : n.Compiles s f s') : Compilation Compiles n s f s' := by
  unfold Compiles at h
  cases n with
  | symbol name => obtain ⟨rfl, rfl⟩ := CompileM.pure_eq_ok.1 h; exact .symbol
  | keyword text => obtain ⟨rfl, rfl⟩ := CompileM.pure_eq_ok.1 h; exact .keyword
  | string value => obtain ⟨rfl, rfl⟩ := CompileM.pure_eq_ok.1 h; exact .string
  | integer value base => obtain ⟨rfl, rfl⟩ := CompileM.pure_eq_ok.1 h; exact .integer
  | float x => obtain ⟨rfl, rfl⟩ := CompileM.pure_eq_ok.1 h; exact .float
  | complex re im => obtain ⟨rfl, rfl⟩ := CompileM.pure_eq_ok.1 h; exact .complex
  | list items =>
    simp only [Node.compile, CompileM.bind_eq_ok, CompileM.pure_eq_ok] at h
    obtain ⟨fs, s₁, hfs, rfl, rfl⟩ := h
    exact .list (chain_of_compileAll hfs)
  | element e =>
    obtain ⟨name, attributes, children, position⟩ := e
    cases hform : Form.ofName? name with
    | none =>
      rw [Node.compile] at h
      simp only [hform, CompileM.bind_eq_ok, CompileM.pure_eq_ok] at h
      obtain ⟨args, s₁, hargs, keywords, s₂, hkeywords, rfl, rfl⟩ := h
      exact .call hform (chain_of_compileAll hargs) (chain_of_compileFields hkeywords)
    | some form =>
      cases hfault : form.fault? attributes children with
      | some cause =>
        rw [Node.compile] at h
        simp [hform, hfault, CompileM.bind_eq_ok, CompileM.fail_ne_ok] at h
      | none =>
        cases form with
        | sequence =>
          obtain ⟨harity, hattr⟩ := Form.fault?_eq_none hfault
          obtain rfl := hattr rfl
          have hne : children ≠ [] := by
            rintro rfl
            simp [Form.arity, Arity.atLeast, Arity.accepts] at harity
          rw [Node.compile] at h
          simp only [hform, hfault] at h
          obtain ⟨fs, hfs, rfl⟩ := chain_of_compileSequence hne h
          exact .sequence hform hne hfs
        | conditional => exact compilation_conditional hform hfault h
        | function => exact compilation_function hform hfault h
        | operator op => exact compilation_operator hform hfault h

/-! ## Induction -/

theorem sizeOf_part_lt {n p : Node} (h : p ∈ n.parts) : sizeOf p < sizeOf n := by
  cases n with
  | list items =>
    have : sizeOf p < sizeOf items := List.sizeOf_lt_of_mem h
    simp only [Node.list.sizeOf_spec]
    omega
  | element e =>
    obtain ⟨name, attributes, children, position⟩ := e
    simp only [Node.element.sizeOf_spec, Element.mk.sizeOf_spec]
    rcases mem_parts_element h with h | h
    · have : sizeOf p < sizeOf children := List.sizeOf_lt_of_mem h
      omega
    · obtain ⟨⟨key, value⟩, hfield, rfl⟩ := List.mem_map.1 h
      have := List.sizeOf_lt_of_mem hfield
      simp only [Prod.mk.sizeOf_spec] at this ⊢
      omega
  | symbol _ | keyword _ | string _ | integer _ _ | float _ | complex _ _ => cases h

/-- A property that passes from the parts of a node to the node holds of all nodes. -/
theorem parts_induction {P : Node → Prop} (step : ∀ n : Node, (∀ p ∈ n.parts, P p) → P n)
    (n : Node) : P n :=
  step n fun p _ => parts_induction step p
termination_by sizeOf n
decreasing_by exact sizeOf_part_lt ‹_›

/-- A node is, or is somewhere in, another one. Parameter lists do not count. -/
inductive Within : Node → Node → Prop
  | refl (n : Node) : Within n n
  | part {e n p : Node} : p ∈ n.parts → Within e p → Within e n

end Node

mutual

/-- All nodes that are compiled in a node, itself first. -/
def Node.all : Node → List Node
  | .symbol name => [.symbol name]
  | .keyword text => [.keyword text]
  | .string value => [.string value]
  | .integer value base => [.integer value base]
  | .float value => [.float value]
  | .complex re im => [.complex re im]
  | .list items => .list items :: (Node.allOfEach items).flatten
  | .element ⟨name, attributes, children, position⟩ =>
    .element ⟨name, attributes, children, position⟩ ::
      ((if Form.ofName? name = some .function then (Node.allOfEach children).tail
        else Node.allOfEach children) ++ Node.allOfFields attributes).flatten

def Node.allOfEach : List Node → List (List Node)
  | [] => []
  | node :: rest => node.all :: Node.allOfEach rest

def Node.allOfFields : List (String × Node) → List (List Node)
  | [] => []
  | (_, node) :: rest => node.all :: Node.allOfFields rest

end

namespace Node

theorem allOfEach_eq_map (nodes : List Node) : allOfEach nodes = nodes.map all := by
  induction nodes with
  | nil => rfl
  | cons n nodes ih => rw [allOfEach, ih, List.map_cons]

theorem allOfFields_eq_map (fields : List (String × Node)) :
    allOfFields fields = (fields.map Prod.snd).map all := by
  induction fields with
  | nil => rfl
  | cons field fields ih => rw [allOfFields, ih, List.map_cons, List.map_cons]

/-- A node and all nodes in its parts. -/
theorem all_eq (n : Node) : n.all = n :: n.parts.flatMap all := by
  cases n with
  | list items => rw [all, allOfEach_eq_map, parts, List.flatMap_def]
  | element e =>
    rw [all, allOfEach_eq_map, allOfFields_eq_map, parts, List.flatMap_def, List.map_append,
      apply_ite (List.map all), List.map_tail]
  | symbol _ | keyword _ | string _ | integer _ _ | float _ | complex _ _ => rfl

theorem mem_all_iff {e n : Node} : e ∈ n.all ↔ e.Within n := by
  induction n using parts_induction with
  | step n ih =>
    rw [all_eq, List.mem_cons, List.mem_flatMap]
    constructor
    · rintro (rfl | ⟨p, hp, he⟩)
      · exact .refl e
      · exact .part hp ((ih p hp).1 he)
    · intro h
      cases h with
      | refl => exact .inl rfl
      | part hp he => exact .inr ⟨_, hp, (ih _ hp).2 he⟩

section Imp

variable {f : Fragment Expr} {s s' : NameSupply}
  {R R' : Node → NameSupply → Fragment Expr → NameSupply → Prop}

theorem chain_keyedBy_imp {fields : List (String × Node)} {gs : List (Fragment (String × Expr))}
    (h : Chain (KeyedBy R) fields s gs s')
    (himp : ∀ p ∈ fields.map Prod.snd, ∀ s f s', R p s f s' → R' p s f s') :
    Chain (KeyedBy R') fields s gs s' := by
  refine h.imp fun field hfield s g s' ⟨f, hf, hg⟩ => ⟨f, ?_, hg⟩
  exact himp _ (List.mem_map_of_mem hfield) _ _ _ hf

theorem otherwise_imp {nodes : List Node} (h : Otherwise R nodes s f s')
    (himp : ∀ p ∈ nodes, ∀ s f s', R p s f s' → R' p s f s') : Otherwise R' nodes s f s' := by
  cases h with
  | missing => exact .missing
  | given hr => exact .given (himp _ List.mem_cons_self _ _ _ hr)

/-- What is known of the parts of a node can be replaced by what follows from it. -/
theorem Compilation.imp {n : Node} (h : Compilation R n s f s')
    (himp : ∀ p ∈ n.parts, ∀ s f s', R p s f s' → R' p s f s') : Compilation R' n s f s' := by
  cases h with
  | symbol => exact .symbol
  | keyword => exact .keyword
  | string => exact .string
  | integer => exact .integer
  | float => exact .float
  | complex => exact .complex
  | list hitems => exact .list (hitems.imp himp)
  | call hform hargs hkeywords =>
    simp only [parts, hform, reduceCtorEq, ↓reduceIte, List.mem_append] at himp
    exact .call hform (hargs.imp fun p hp => himp p (.inl hp))
      (chain_keyedBy_imp hkeywords fun p hp => himp p (.inr hp))
  | sequence hform hne hfs =>
    simp only [parts, hform, Option.some.injEq, reduceCtorEq, ↓reduceIte, List.map_nil,
      List.append_nil] at himp
    exact .sequence hform hne (hfs.imp himp)
  | operator hform hl hr =>
    simp only [parts, hform, Option.some.injEq, reduceCtorEq, ↓reduceIte, List.map_nil,
      List.append_nil, List.forall_mem_cons] at himp
    exact .operator hform (himp.1 _ _ _ hl) (himp.2.1 _ _ _ hr)
  | conditional hform ht hy hn hyp hnp =>
    simp only [parts, hform, Option.some.injEq, reduceCtorEq, ↓reduceIte, List.map_nil,
      List.append_nil, List.forall_mem_cons] at himp
    exact .conditional hform (himp.1 _ _ _ ht) (himp.2.1 _ _ _ hy) (otherwise_imp hn himp.2.2) hyp
      hnp
  | branches hform ht hy hn hp =>
    simp only [parts, hform, Option.some.injEq, reduceCtorEq, ↓reduceIte, List.map_nil,
      List.append_nil, List.forall_mem_cons] at himp
    exact .branches hform (himp.1 _ _ _ ht) (himp.2.1 _ _ _ hy) (otherwise_imp hn himp.2.2) hp
  | lambda hform hparams hne hds hfs hdup hp =>
    simp only [parts, hform, ↓reduceIte, List.tail_cons, List.mem_append] at himp
    exact .lambda hform hparams hne (chain_keyedBy_imp hds fun p hp => himp p (.inr hp))
      (hfs.imp fun p hp => himp p (.inl hp)) hdup hp
  | function hform hparams hne hds hfs hdup hp =>
    simp only [parts, hform, ↓reduceIte, List.tail_cons, List.mem_append] at himp
    exact .function hform hparams hne (chain_keyedBy_imp hds fun p hp => himp p (.inr hp))
      (hfs.imp fun p hp => himp p (.inl hp)) hdup hp

/-- Every part of a compiled node is compiled. -/
theorem Compilation.exists_of_part {n p : Node} (h : Compilation R n s f s') (hp : p ∈ n.parts) :
    ∃ s f s', R p s f s' := by
  cases h with
  | symbol | keyword | string | integer | float | complex => cases hp
  | list hitems => exact hitems.exists_of_mem hp
  | call hform hargs hkeywords =>
    rw [parts_of_ne_function (by simp [hform])] at hp
    rcases List.mem_append.1 hp with hp | hp
    · exact hargs.exists_of_mem hp
    · exact hkeywords.exists_of_mem_fields hp
  | sequence hform hne hfs =>
    rw [parts_of_ne_function (by simp [hform]), List.map_nil, List.append_nil] at hp
    exact hfs.exists_of_mem hp
  | operator hform hl hr =>
    rw [parts_of_ne_function (by simp [hform]), List.map_nil, List.append_nil] at hp
    exact (Chain.cons hl (.cons hr .nil)).exists_of_mem hp
  | conditional hform ht hy hn _ _ | branches hform ht hy hn _ =>
    rw [parts_of_ne_function (by simp [hform]), List.map_nil, List.append_nil] at hp
    cases hn with
    | missing => exact (Chain.cons ht (.cons hy .nil)).exists_of_mem hp
    | given hn => exact (Chain.cons ht (.cons hy (.cons hn .nil))).exists_of_mem hp
  | lambda hform _ _ hds hfs _ _ | function hform _ _ hds hfs _ _ =>
    rw [parts_function hform] at hp
    rcases List.mem_append.1 hp with hp | hp
    · exact hfs.exists_of_mem hp
    · exact hds.exists_of_mem_fields hp

end Imp

/-- **Induction over a successful compilation**: a fact that holds of a compiled node if it holds of
its compiled parts holds of every compiled node. -/
theorem compile_induction {motive : Node → NameSupply → Fragment Expr → NameSupply → Prop}
    (step : ∀ n s f s', Compilation (fun n s f s' => n.Compiles s f s' ∧ motive n s f s') n s f s' →
      motive n s f s') :
    ∀ n s f s', n.Compiles s f s' → motive n s f s' := by
  intro n
  induction n using parts_induction with
  | step n ih =>
    intro s f s' h
    refine step n s f s' ((compile_cases h).imp fun p hp s f s' hpart => ?_)
    exact ⟨hpart, ih p hp s f s' hpart⟩

/-- Every node in a compiled node is compiled. -/
theorem exists_compiles_of_mem_all {n m : Node} {f : Fragment Expr} {s s' : NameSupply}
    (h : n.Compiles s f s') (hm : m ∈ n.all) : ∃ s f s', m.Compiles s f s' := by
  induction n using parts_induction generalizing s f s' with
  | step n ih =>
    rw [all_eq, List.mem_cons, List.mem_flatMap] at hm
    rcases hm with rfl | ⟨p, hp, hm⟩
    · exact ⟨s, f, s', h⟩
    · obtain ⟨_, _, _, hpart⟩ := (compile_cases h).exists_of_part hp
      exact ih p hp hpart hm

end Node

/-! ## Fragments put together -/

namespace Fragment

variable {P : Stmt → Prop} {fs : List (Fragment Expr)}

theorem statements_followedBy (f g : Fragment Expr) :
    (f.followedBy g).statements = f.statements ++ g.statements := by
  rw [followedBy, statements, statements, List.append_assoc]
  rfl

/-- A sequence that is carried out for its effects is one fragment after the other. -/
theorem statements_sequence (hne : fs ≠ []) :
    (sequence fs).statements = fs.flatMap statements := by
  induction fs with
  | nil => exact absurd rfl hne
  | cons f fs ih =>
    cases fs with
    | nil => rw [sequence, List.flatMap_singleton]
    | cons next rest =>
      rw [sequence, statements_followedBy, List.flatMap_cons, ih (List.cons_ne_nil next rest)]

/-- Each step of a sequence is a statement of one of its fragments. -/
theorem forall_mem_steps_sequence (h : ∀ f ∈ fs, ∀ t ∈ f.statements, P t) :
    ∀ t ∈ (sequence fs).steps, P t := by
  intro t ht
  by_cases hfs : fs = []
  · rw [hfs] at ht
    cases ht
  · have hmem : t ∈ (sequence fs).statements := List.mem_append_left _ ht
    rw [statements_sequence hfs] at hmem
    obtain ⟨f, hf, ht⟩ := List.mem_flatMap.1 hmem
    exact h f hf t ht

theorem forall_mem_steps_collect {α : Type} {fs : List (Fragment α)}
    (h : ∀ f ∈ fs, ∀ t ∈ f.steps, P t) : ∀ t ∈ (collect fs).steps, P t := by
  intro t ht
  obtain ⟨f, hf, ht⟩ := List.mem_flatMap.1 ht
  exact h f hf t ht

end Fragment

/-! ## Programs -/

/-- **A compiled program** is the statements of its nodes, one after the other. -/
theorem Program.chain_of_ofNodes {nodes : List Node} {p : Program} {s s' : NameSupply}
    (h : Program.ofNodes nodes s = .ok p s') :
    ∃ fs, Chain Node.Compiles nodes s fs s' ∧ p.body = fs.flatMap Fragment.statements := by
  cases nodes with
  | nil =>
    obtain ⟨rfl, rfl⟩ := CompileM.pure_eq_ok.1 h
    exact ⟨[], .nil, rfl⟩
  | cons n nodes =>
    obtain ⟨f, _, hf, hp⟩ := CompileM.bind_eq_ok.1 h
    obtain ⟨rfl, rfl⟩ := CompileM.pure_eq_ok.1 hp
    have hne : n :: nodes ≠ [] := List.cons_ne_nil n nodes
    obtain ⟨fs, hfs, rfl⟩ := Node.chain_of_compileSequence hne hf
    exact ⟨fs, hfs, Fragment.statements_sequence (hfs.ne_nil hne)⟩

end TagLang
