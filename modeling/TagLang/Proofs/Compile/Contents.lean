import Mathlib.Data.Multiset.Bind
import Mathlib.Order.Interval.Finset.Nat
import Mathlib.Order.Interval.Multiset
import TagLang.Proofs.Compile.Purity
import TagLang.Proofs.Program.Contents

/-!
# Compiling loses nothing and repeats nothing

Every item of a fragment comes from one node of the source or belongs to a made-up function, and
every node and every made-up function has its items in the fragment once.

`Node.own` says what a node contributes itself: literals, symbols, lists, operators and calls one
item each, and so on. A conditional with a branch that is no expression also gets a function, a
variable and a call (`conditionalItems`), and a function whose body is none gets a definition
(`functionItems`); which ones need it can be told from the source (`Node.isPure_eq`). `Accounted` is
the equation between the items of a fragment and these contributions, with the numbers of the
made-up names. It is kept under addition, so that `Node.isAccounted_of_compiles` follows from one
equation for each way in which fragments are put together; `Node.items_compile` writes it out.
-/

namespace TagLang

open NameSupply (funcName varName)

/-! ## What nodes contribute -/

/-- The item of the parameters that a list of nodes and a list of attributes declare. -/
def Params.itemOfNodes (entries : List Node) (attributes : List (String × Node)) : Multiset Item :=
  match Params.ofNodes entries with
  | .ok params => {.params params.positional params.rest (attributes.map Prod.fst)}
  | .error _ => 0

namespace Node

/-- Whether a node is a conditional with a branch that is no expression. -/
def branchNeedsSteps : Node → Bool
  | .element e => Form.ofName? e.name == some .conditional && e.children.tail.any needsSteps
  | _ => false

/-- Whether a node is a function whose body is no expression. -/
def bodyNeedsSteps : Node → Bool
  | .element e => Form.ofName? e.name == some .function && sequenceNeedsSteps e.children.tail
  | _ => false

/-- What a node contributes itself, without the nodes in it and without made-up names. -/
def own : Node → Multiset Item
  | .symbol name => {.name name}
  | .keyword text => {.call (some "Keyword") 1 []} + {.name "Keyword"} + {.str text}
  | .string value => {.str value}
  | .integer value _ => {.int value}
  | .float value => {.float value}
  | .complex re im => {.complex re im}
  | .list items => {.list items.length}
  | .element e =>
    match Form.ofName? e.name with
    | none =>
      {.call (some e.name) e.children.length (e.attributes.map Prod.fst)} + {.name e.name}
    | some (.operator op) => {.binOp op}
    | some .sequence => Multiset.replicate (e.children.length - 1) .eval
    | some .conditional =>
      (if e.children.length = 2 then {.nothing} else 0) +
        if e.children.tail.any needsSteps then 0 else {.ifExp}
    | some .function =>
      match e.children with
      | .list entries :: body =>
        Params.itemOfNodes entries e.attributes + Multiset.replicate (body.length - 1) .eval +
          if sequenceNeedsSteps body then 0 else {.lambda}
      | _ => 0

/-- The items that a node can contribute itself. Those with names are told apart. -/
inductive Contributes : Node → Item → Prop
  | symbol {name : String} : Contributes (.symbol name) (.name name)
  | keywordCall {text : String} : Contributes (.keyword text) (.call (some "Keyword") 1 [])
  | keywordName {text : String} : Contributes (.keyword text) (.name "Keyword")
  | call {e : Element Node} : Form.ofName? e.name = none → Contributes (.element e)
      (.call (some e.name) e.children.length (e.attributes.map Prod.fst))
  | callee {e : Element Node} : Form.ofName? e.name = none → Contributes (.element e) (.name e.name)
  | params {name : String} {attributes : List (String × Node)} {entries body : List Node}
      {position : Position} {params : Params Expr} :
      Form.ofName? name = some .function → Params.ofNodes entries = .ok params →
      Contributes (.element ⟨name, attributes, .list entries :: body, position⟩)
        (.params params.positional params.rest (attributes.map Prod.fst))
  | plain {n : Node} {item : Item} : item.isPlain = true → Contributes n item

theorem contributes_conditional {e : Element Node} {item : Item}
    (h : item ∈ (if e.children.length = 2 then ({.nothing} : Multiset Item) else 0) +
      if e.children.tail.any needsSteps then 0 else {.ifExp}) : item.isPlain = true := by
  rcases Multiset.mem_add.1 h with h | h
  · split at h
    · rw [Multiset.mem_singleton.1 h]
      rfl
    · exact absurd h (Multiset.notMem_zero item)
  · split at h
    · exact absurd h (Multiset.notMem_zero item)
    · rw [Multiset.mem_singleton.1 h]
      rfl

theorem contributes_function {name : String} {attributes : List (String × Node)}
    {entries body : List Node} {position : Position} {item : Item}
    (hform : Form.ofName? name = some .function)
    (h : item ∈ Params.itemOfNodes entries attributes +
      Multiset.replicate (body.length - 1) .eval +
        if sequenceNeedsSteps body then 0 else {.lambda}) :
    Contributes (.element ⟨name, attributes, .list entries :: body, position⟩) item := by
  simp only [Multiset.mem_add] at h
  rcases h with (h | h) | h
  · unfold Params.itemOfNodes at h
    split at h
    · next params hparams =>
      rw [Multiset.mem_singleton.1 h]
      exact .params hform hparams
    · exact absurd h (Multiset.notMem_zero item)
  · rw [Multiset.eq_of_mem_replicate h]
    exact .plain rfl
  · split at h
    · exact absurd h (Multiset.notMem_zero item)
    · rw [Multiset.mem_singleton.1 h]
      exact .plain rfl

/-- **What a node contributes** is listed. -/
theorem contributes_of_mem_own {n : Node} {item : Item} (h : item ∈ n.own) :
    n.Contributes item := by
  unfold own at h
  split at h
  · rw [Multiset.mem_singleton.1 h]
    exact .symbol
  · simp only [Multiset.mem_add, Multiset.mem_singleton] at h
    rcases h with (rfl | rfl) | rfl
    · exact .keywordCall
    · exact .keywordName
    · exact .plain rfl
  iterate 5
    · rw [Multiset.mem_singleton.1 h]
      exact .plain rfl
  · next e =>
    split at h
    · next hform =>
      rcases Multiset.mem_add.1 h with h | h
      · rw [Multiset.mem_singleton.1 h]
        exact .call hform
      · rw [Multiset.mem_singleton.1 h]
        exact .callee hform
    · rw [Multiset.mem_singleton.1 h]
      exact .plain rfl
    · rw [Multiset.eq_of_mem_replicate h]
      exact .plain rfl
    · exact .plain (contributes_conditional h)
    · next hform =>
      split at h
      · next entries body hchildren =>
        obtain ⟨name, attributes, children, position⟩ := e
        obtain rfl : children = .list entries :: body := hchildren
        exact contributes_function hform h
      · exact absurd h (Multiset.notMem_zero item)

/-- The only statements that nodes contribute are those that carry out an expression. -/
theorem eq_eval_of_mem_own {n : Node} {item : Item} (h : item ∈ n.own)
    (hitem : item.isStatement = true) : item = .eval := by
  cases contributes_of_mem_own h with
  | plain hplain =>
    cases item with
    | eval => rfl
    | assign _ | define _ | branch _ _ | ret => cases hplain
    | _ => cases hitem
  | _ => cases hitem

end Node

/-- What the function for a conditional contributes. Its name has the number `k`, and the variable
of its value has the next number. -/
def conditionalItems (k : Nat) : Multiset Item :=
  {.define (funcName k)} + {.params [] none []} +
    {.branch (some (varName (k + 1))) (some (varName (k + 1)))} +
    {.assign (varName (k + 1))} + {.assign (varName (k + 1))} +
    {.ret} + {.name (varName (k + 1))} +
    {.call (some (funcName k)) 0 []} + {.name (funcName k)}

/-- What the definition of a function contributes, apart from its parameters and its body. Its name
has the number `k`. -/
def functionItems (k : Nat) : Multiset Item :=
  {.define (funcName k)} + {.ret} + {.name (funcName k)}

/-! ## Accounts -/

/-- The items are those of the nodes, of one function for each conditional and of one definition for
each function that need one. Their names have the numbers that are drawn, each of them once. -/
def Accounted (nodes : Multiset Node) (s : NameSupply) (items : Multiset Item) (s' : NameSupply) :
    Prop :=
  ∃ conditionals functions : Multiset Nat,
    conditionals.card = nodes.countP (·.branchNeedsSteps) ∧
    functions.card = nodes.countP (·.bodyNeedsSteps) ∧
    s.drawn ≤ s'.drawn ∧
    conditionals + conditionals.map (· + 1) + functions =
      Multiset.Ico (s.drawn + 1) (s'.drawn + 1) ∧
    items = (nodes.map Node.own).sum + (conditionals.map conditionalItems).sum +
      (functions.map functionItems).sum

namespace Accounted

variable {nodes more : Multiset Node} {items items' : Multiset Item} {s s₁ s' : NameSupply}
  {n : Node}

theorem nil : Accounted 0 s 0 s := by
  refine ⟨0, 0, rfl, rfl, Nat.le_refl _, ?_, rfl⟩
  rw [Multiset.Ico_self]
  rfl

theorem add (h : Accounted nodes s items s₁) (h' : Accounted more s₁ items' s') :
    Accounted (nodes + more) s (items + items') s' := by
  obtain ⟨cs, fs, hcs, hfs, hle, hnumbers, rfl⟩ := h
  obtain ⟨cs', fs', hcs', hfs', hle', hnumbers', rfl⟩ := h'
  refine ⟨cs + cs', fs + fs', ?_, ?_, Nat.le_trans hle hle', ?_, ?_⟩
  · rw [Multiset.card_add, Multiset.countP_add, hcs, hcs']
  · rw [Multiset.card_add, Multiset.countP_add, hfs, hfs']
  · have hsplit := Multiset.Ico_add_Ico_eq_Ico (Nat.succ_le_succ hle) (Nat.succ_le_succ hle')
    rw [← hnumbers, ← hnumbers'] at hsplit
    rw [← hsplit, Multiset.map_add]
    abel
  · rw [Multiset.map_add, Multiset.sum_add, Multiset.map_add, Multiset.sum_add, Multiset.map_add,
      Multiset.sum_add]
    abel

theorem countP_singleton (p : Node → Bool) :
    ({n} : Multiset Node).countP (fun n => p n = true) = if p n = true then 1 else 0 := by
  rw [← Multiset.cons_zero, Multiset.countP_cons, Multiset.countP_zero, Nat.zero_add]

theorem Ico_succ (k : Nat) : Multiset.Ico k (k + 1) = {k} :=
  congrArg Finset.val (Nat.Ico_succ_singleton k)

/-- A node that needs no made-up name. -/
theorem node (hbranch : n.branchNeedsSteps = false) (hbody : n.bodyNeedsSteps = false) :
    Accounted {n} s n.own s := by
  refine ⟨0, 0, ?_, ?_, Nat.le_refl _, ?_, ?_⟩
  · rw [countP_singleton, hbranch]
    rfl
  · rw [countP_singleton, hbody]
    rfl
  · rw [Multiset.Ico_self]
    rfl
  · simp

/-- A conditional with a function of its own. -/
theorem conditional (hbranch : n.branchNeedsSteps = true) (hbody : n.bodyNeedsSteps = false) :
    Accounted {n} s (n.own + conditionalItems (s.drawn + 1)) ⟨s.drawn + 2⟩ := by
  refine ⟨{s.drawn + 1}, 0, ?_, ?_, Nat.le_add_right _ _, ?_, ?_⟩
  · rw [countP_singleton, hbranch]
    rfl
  · rw [countP_singleton, hbody]
    rfl
  · rw [← Multiset.Ico_add_Ico_eq_Ico (Nat.le_succ _) (Nat.le_succ _), Ico_succ, Ico_succ]
    simp
  · simp

/-- A function that is defined by a statement. -/
theorem function (hbranch : n.branchNeedsSteps = false) (hbody : n.bodyNeedsSteps = true) :
    Accounted {n} s (n.own + functionItems (s.drawn + 1)) ⟨s.drawn + 1⟩ := by
  refine ⟨0, {s.drawn + 1}, ?_, ?_, Nat.le_add_right _ _, ?_, ?_⟩
  · rw [countP_singleton, hbranch]
    rfl
  · rw [countP_singleton, hbody]
    rfl
  · rw [Ico_succ]
    simp
  · simp

/-- Every item belongs to a node or to a function that is made up. -/
theorem mem_cases {item : Item} (h : Accounted nodes s items s') (hitem : item ∈ items) :
    (∃ n ∈ nodes, item ∈ n.own) ∨
      (∃ k, s.drawn < k ∧ k < s'.drawn ∧ item ∈ conditionalItems k) ∨
      ∃ k, s.drawn < k ∧ k ≤ s'.drawn ∧ item ∈ functionItems k := by
  obtain ⟨cs, fs, -, -, -, hnumbers, rfl⟩ := h
  have hrange : ∀ k ∈ cs + cs.map (· + 1) + fs, s.drawn < k ∧ k ≤ s'.drawn := by
    intro k hk
    rw [hnumbers, Multiset.mem_Ico] at hk
    omega
  simp only [Multiset.mem_add] at hitem hrange
  rcases hitem with (h | h) | h
  · exact .inl (Multiset.mem_bind.1 h)
  · obtain ⟨k, hk, hmem⟩ := Multiset.mem_bind.1 h
    have hnext := hrange (k + 1) (.inl (.inr (Multiset.mem_map_of_mem _ hk)))
    exact .inr (.inl ⟨k, (hrange k (.inl (.inl hk))).1, by omega, hmem⟩)
  · obtain ⟨k, hk, hmem⟩ := Multiset.mem_bind.1 h
    have hk := hrange k (.inr hk)
    exact .inr (.inr ⟨k, hk.1, hk.2, hmem⟩)

/-- Every item of a node is among the items. -/
theorem mem_of_mem_own {item : Item} (h : Accounted nodes s items s') (hn : n ∈ nodes)
    (hitem : item ∈ n.own) : item ∈ items := by
  obtain ⟨cs, fs, -, -, -, -, rfl⟩ := h
  have hown : item ∈ (nodes.map Node.own).sum := Multiset.mem_bind.2 ⟨n, hn, hitem⟩
  exact Multiset.mem_add.2 (.inl (Multiset.mem_add.2 (.inl hown)))

end Accounted

/-! ## What fragments contain when they are put together -/

namespace Fragment

/-- The items of several fragments. -/
def itemsOf (fs : List (Fragment Expr)) : Multiset Item := (fs.map items).sum

/-- The items of several fragments with names. -/
def itemsOfFields (gs : List (Fragment (String × Expr))) : Multiset Item :=
  (gs.map fun g => (g.map Prod.snd).items).sum

variable {fs : List (Fragment Expr)} {gs : List (Fragment (String × Expr))}

theorem items_of_isPure {f : Fragment Expr} (h : f.isPure = true) : f.items = f.value.items := by
  have hsteps : f.steps = [] := List.isEmpty_iff.1 h
  rw [items, hsteps, Stmt.itemsOf_nil, zero_add]

theorem items_list : ((collect fs).map .list).items = {.list fs.length} + itemsOf fs := by
  have hcollect := items_collect id fs
  rw [List.map_id] at hcollect
  have hlength : (collect fs).value.length = fs.length := List.length_map _
  change Stmt.itemsOf (collect fs).steps + (Expr.list (collect fs).value).items = _
  rw [Expr.items_list, hlength, itemsOf]
  change _ = _ + (fs.map fun f => (f.map id).items).sum
  rw [← hcollect]
  abel

theorem items_call (name : String) :
    (((collect fs).zip (collect gs)).map fun (args, keywords) =>
      .call (.name name) args keywords).items =
      {.call (some name) fs.length (gs.map fun g => g.value.1)} + {.name name} + itemsOf fs +
        itemsOfFields gs := by
  have hargs := items_collect id fs
  have hkeywords := items_collect Prod.snd gs
  rw [List.map_id] at hargs
  have hlength : (collect fs).value.length = fs.length := List.length_map _
  have hnames : (collect gs).value.map Prod.fst = gs.map fun g => g.value.1 := by
    rw [collect, List.map_map]
    rfl
  change Stmt.itemsOf ((collect fs).steps ++ (collect gs).steps) +
    (Expr.call (.name name) (collect fs).value (collect gs).value).items = _
  rw [Expr.items_call, Expr.name?, Expr.items_name, hlength, hnames, Stmt.itemsOf_append, itemsOf,
    itemsOfFields]
  change _ = _ + (fs.map fun f => (f.map id).items).sum + _
  rw [← hargs, ← hkeywords]
  abel

theorem items_operator (l r : Fragment Expr) (op : BinOp) :
    ((l.zip r).map fun (left, right) => .binOp op left right).items =
      {.binOp op} + (l.items + r.items) := by
  change Stmt.itemsOf (l.steps ++ r.steps) + (Expr.binOp op l.value r.value).items = _
  rw [Stmt.itemsOf_append, Expr.items_binOp, items, items]
  abel

theorem items_conditional {t y n : Fragment Expr} (hy : y.isPure = true) (hn : n.isPure = true) :
    (t.map fun test => .ifExp test y.value n.value).items =
      {.ifExp} + (t.items + y.items + n.items) := by
  change Stmt.itemsOf t.steps + (Expr.ifExp t.value y.value n.value).items = _
  rw [Expr.items_ifExp, items_of_isPure hy, items_of_isPure hn, items]
  abel

theorem items_branches (t y n : Fragment Expr) (k : Nat) :
    (t.andThen fun test =>
      ⟨[.define (funcName k) {}
        [.branch test (y.assignTo (varName (k + 1))) (n.assignTo (varName (k + 1))),
          .ret (.name (varName (k + 1)))]],
        .call (.name (funcName k)) [] []⟩).items =
      conditionalItems k + (t.items + y.items + n.items) := by
  have hbody : Stmt.itemsOf [.branch t.value (y.assignTo (varName (k + 1)))
      (n.assignTo (varName (k + 1))), .ret (.name (varName (k + 1)))] =
      {.branch (some (varName (k + 1))) (some (varName (k + 1)))} + t.value.items +
        ({.assign (varName (k + 1))} + y.items) + ({.assign (varName (k + 1))} + n.items) +
        ({.ret} + {.name (varName (k + 1))}) := by
    rw [← List.singleton_append, Stmt.itemsOf_append, Stmt.itemsOf_branch, Stmt.itemsOf_ret,
      items_assignTo, items_assignTo, assignTo, assignTo, Stmt.lastAssigned?_append_assign,
      Stmt.lastAssigned?_append_assign]
    rfl
  have hcall : (Expr.call (.name (funcName k)) [] []).items =
      {.call (some (funcName k)) 0 []} + {.name (funcName k)} := by
    rw [Expr.items_call, Expr.name?, Expr.items_name, List.map_nil, List.map_nil, Expr.itemsOf_nil,
      add_zero, add_zero, List.length_nil]
  rw [items, andThen, Stmt.itemsOf_append, Stmt.itemsOf_define, hbody, hcall, conditionalItems]
  change Stmt.itemsOf t.steps + ({.define (funcName k)} + {.params [] none []} + 0 + _) + _ =
    _ + (Stmt.itemsOf t.steps + t.value.items + _ + _)
  abel

/-- The item of parameters whose defaults are compiled. -/
def paramsItem (params : Params Expr) (gs : List (Fragment (String × Expr))) : Item :=
  .params params.positional params.rest (gs.map fun g => g.value.1)

theorem item_collect (params : Params Expr) :
    Params.item { params with keywords := (collect gs).value } = paramsItem params gs := by
  rw [Params.item, paramsItem, collect, List.map_map]
  rfl

theorem items_lambda {params : Params Expr} {body : Fragment Expr} (hbody : body.isPure = true) :
    (⟨(collect gs).steps, .lambda { params with keywords := (collect gs).value } body.value⟩ :
      Fragment Expr).items =
      {.lambda} + {paramsItem params gs} + (itemsOfFields gs + body.items) := by
  have hdefaults := items_collect Prod.snd gs
  rw [items_of_isPure hbody, itemsOfFields, ← hdefaults, items, Expr.items_lambda, item_collect]
  abel

theorem items_function (params : Params Expr) (body : Fragment Expr) (k : Nat) :
    (⟨(collect gs).steps ++ [.define (funcName k) { params with keywords := (collect gs).value }
      body.functionBody], .name (funcName k)⟩ : Fragment Expr).items =
      functionItems k + {paramsItem params gs} + (itemsOfFields gs + body.items) := by
  have hdefaults := items_collect Prod.snd gs
  rw [itemsOfFields, ← hdefaults, items, Stmt.itemsOf_append, Stmt.itemsOf_define, item_collect,
    items_functionBody, functionItems, Expr.items_name]
  abel

theorem items_flatMap_statements :
    Stmt.itemsOf (fs.flatMap statements) = Multiset.replicate fs.length .eval + itemsOf fs := by
  induction fs with
  | nil => rfl
  | cons f fs ih =>
    rw [List.flatMap_cons, Stmt.itemsOf_append, items_statements, ih, List.length_cons,
      Multiset.replicate_succ, ← Multiset.singleton_add]
    change _ = _ + (f.items + itemsOf fs)
    abel

theorem items_sequence (hne : fs ≠ []) :
    (sequence fs).items = Multiset.replicate (fs.length - 1) .eval + itemsOf fs := by
  obtain ⟨f, rest, rfl⟩ := List.exists_cons_of_ne_nil hne
  -- as statements a sequence has one more item, which carries out its value
  have hstatements := items_statements (sequence (f :: rest))
  rw [statements_sequence hne, items_flatMap_statements, List.length_cons,
    Multiset.replicate_succ, ← Multiset.singleton_add, add_assoc] at hstatements
  exact (add_left_cancel hstatements).symm

end Fragment

/-! ## Lists of nodes -/

namespace Node

/-- The items of a fragment are accounted for by the nodes in a node. -/
def IsAccounted (n : Node) (s : NameSupply) (f : Fragment Expr) (s' : NameSupply) : Prop :=
  Accounted n.all s f.items s'

variable {s s₁ s₂ s' : NameSupply} {nodes : List Node} {fs : List (Fragment Expr)}

theorem coe_all (n : Node) : (n.all : Multiset Node) = {n} + n.parts.flatMap all := by
  rw [all_eq]
  rfl

theorem coe_flatMap_append (nodes more : List Node) :
    ((nodes ++ more).flatMap all : Multiset Node) = nodes.flatMap all + more.flatMap all := by
  rw [List.flatMap_append]
  rfl

theorem coe_flatMap_cons (n : Node) :
    ((n :: nodes).flatMap all : Multiset Node) = n.all + nodes.flatMap all := by
  rw [List.flatMap_cons]
  rfl

theorem accounted_chain (h : Chain IsAccounted nodes s fs s') :
    Accounted (nodes.flatMap all) s (Fragment.itemsOf fs) s' := by
  induction h with
  | nil => exact .nil
  | cons hn _ ih =>
    rw [coe_flatMap_cons]
    exact hn.add ih

theorem accounted_fields {fields : List (String × Node)} {gs : List (Fragment (String × Expr))}
    (h : Chain (KeyedBy IsAccounted) fields s gs s') :
    Accounted ((fields.map Prod.snd).flatMap all) s (Fragment.itemsOfFields gs) s' := by
  induction h with
  | nil => exact .nil
  | cons hfield _ ih =>
    obtain ⟨f, hf, rfl⟩ := hfield
    rw [List.map_cons, coe_flatMap_cons]
    exact Accounted.add hf ih

/-- A branch that is missing has one item and no node. -/
theorem accounted_otherwise {f : Fragment Expr} (h : Otherwise IsAccounted nodes s f s') :
    ∃ items, Accounted (nodes.flatMap all) s items s' ∧
      f.items = (if nodes.length = 0 then {.nothing} else 0) + items := by
  cases h with
  | missing => exact ⟨0, .nil, rfl⟩
  | @given node _ _ _ hnode =>
    refine ⟨f.items, ?_, (zero_add _).symm⟩
    rw [List.flatMap_singleton]
    exact hnode

theorem any_needsSteps_branches {yes : Node} {y n : Fragment Expr} (hy : yes.Compiles s y s₁)
    (hn : Otherwise Compiles nodes s₁ n s') :
    (yes :: nodes).any needsSteps = !(y.isPure && n.isPure) := by
  rw [List.any_cons, isPure_eq hy]
  cases hn with
  | missing => simp [Fragment.isPure_pure]
  | given hn =>
    rw [isPure_eq hn]
    simp

/-! ## Compiled nodes -/

section

variable {name : String} {attributes : List (String × Node)} {children : List Node}
  {position : Position}

theorem isAccounted_leaf {n : Node} {e : Expr} (hparts : n.parts = [])
    (hbranch : n.branchNeedsSteps = false) (hbody : n.bodyNeedsSteps = false)
    (hown : n.own = e.items) : n.IsAccounted s (.pure e) s := by
  have haccount := Accounted.node (s := s) hbranch hbody
  rw [hown] at haccount
  rw [IsAccounted, coe_all, hparts, Fragment.items_of_isPure (Fragment.isPure_pure e)]
  exact haccount

theorem isAccounted_list (h : Chain IsAccounted nodes s fs s') :
    (Node.list nodes).IsAccounted s ((Fragment.collect fs).map .list) s' := by
  have haccount := (Accounted.node (n := .list nodes) rfl rfl).add (accounted_chain h)
  rw [IsAccounted, coe_all, Fragment.items_list, h.length_eq]
  exact haccount

/-- An element that is neither a conditional nor a function needs no made-up name. -/
theorem accounted_element {e : Element Node}
    (hconditional : Form.ofName? e.name ≠ some .conditional)
    (hfunction : Form.ofName? e.name ≠ some .function) :
    Accounted {.element e} s (Node.element e).own s := by
  apply Accounted.node
  · simp [branchNeedsSteps, hconditional]
  · simp [bodyNeedsSteps, hfunction]

theorem isAccounted_call {args : List (Fragment Expr)}
    {keywords : List (Fragment (String × Expr))} (hform : Form.ofName? name = none)
    (hargs : Chain IsAccounted children s args s₁)
    (hkeywords : Chain (KeyedBy IsAccounted) attributes s₁ keywords s') :
    (Node.element ⟨name, attributes, children, position⟩).IsAccounted s
      (((Fragment.collect args).zip (Fragment.collect keywords)).map fun (args, keywords) =>
        .call (.name name) args keywords) s' := by
  have hnode := accounted_element (s := s) (e := ⟨name, attributes, children, position⟩)
    (by simp [hform]) (by simp [hform])
  have haccount := hnode.add ((accounted_chain hargs).add (accounted_fields hkeywords))
  simp only [own, hform] at haccount
  rw [IsAccounted, coe_all, parts_of_ne_function (by simp [hform]), coe_flatMap_append,
    Fragment.items_call, hargs.length_eq, hkeywords.keys_eq, add_assoc]
  exact haccount

theorem isAccounted_sequence (hform : Form.ofName? name = some .sequence) (hne : children ≠ [])
    (h : Chain IsAccounted children s fs s') :
    (Node.element ⟨name, [], children, position⟩).IsAccounted s (Fragment.sequence fs) s' := by
  have hnode := accounted_element (s := s) (e := ⟨name, [], children, position⟩)
    (by simp [hform]) (by simp [hform])
  have hparts : (Node.element ⟨name, [], children, position⟩).parts = children := by
    simp [parts, hform]
  have haccount := hnode.add (accounted_chain h)
  simp only [own, hform] at haccount
  rw [IsAccounted, coe_all, hparts, Fragment.items_sequence (h.ne_nil hne), h.length_eq]
  exact haccount

theorem isAccounted_operator {op : BinOp} {left right : Node} {l r : Fragment Expr}
    (hform : Form.ofName? name = some (.operator op)) (hl : left.IsAccounted s l s₁)
    (hr : right.IsAccounted s₁ r s') :
    (Node.element ⟨name, [], [left, right], position⟩).IsAccounted s
      ((l.zip r).map fun (left, right) => .binOp op left right) s' := by
  have hnode := accounted_element (s := s) (e := ⟨name, [], [left, right], position⟩)
    (by simp [hform]) (by simp [hform])
  have hparts : (Node.element ⟨name, [], [left, right], position⟩).parts = [left, right] := by
    simp [parts, hform]
  have haccount := hnode.add (Accounted.add hl hr)
  simp only [own, hform] at haccount
  rw [IsAccounted, coe_all, hparts, coe_flatMap_cons, List.flatMap_singleton,
    Fragment.items_operator]
  exact haccount

section Conditional

variable {test yes : Node} {no : List Node} {t y n : Fragment Expr}

theorem own_conditional (hform : Form.ofName? name = some .conditional) :
    (Node.element ⟨name, [], test :: yes :: no, position⟩).own =
      (if no.length = 0 then {.nothing} else 0) +
        if (yes :: no).any needsSteps then 0 else {.ifExp} := by
  have hlength : no.length + 1 + 1 = 2 ↔ no.length = 0 := by omega
  simp only [own, hform, List.length_cons, List.tail_cons]
  rw [if_congr hlength rfl rfl]
  rfl

theorem coe_all_conditional (hform : Form.ofName? name = some .conditional) :
    ((Node.element ⟨name, [], test :: yes :: no, position⟩).all : Multiset Node) =
      {.element ⟨name, [], test :: yes :: no, position⟩} +
        (test.all + yes.all + no.flatMap all) := by
  have hparts : (Node.element ⟨name, [], test :: yes :: no, position⟩).parts =
      test :: yes :: no := by simp [parts, hform]
  rw [coe_all, hparts, coe_flatMap_cons, coe_flatMap_cons, add_assoc]

theorem isAccounted_conditional (hform : Form.ofName? name = some .conditional)
    (hsteps : (yes :: no).any needsSteps = false) (ht : test.IsAccounted s t s₁)
    (hy : yes.IsAccounted s₁ y s₂) (hn : Otherwise IsAccounted no s₂ n s')
    (hyp : y.isPure = true) (hnp : n.isPure = true) :
    (Node.element ⟨name, [], test :: yes :: no, position⟩).IsAccounted s
      (t.map fun test => .ifExp test y.value n.value) s' := by
  obtain ⟨items, hno, hitems⟩ := accounted_otherwise hn
  have hnode : Accounted {.element ⟨name, [], test :: yes :: no, position⟩} s _ s :=
    Accounted.node (by simp [branchNeedsSteps, hsteps]) (by simp [bodyNeedsSteps, hform])
  have haccount := hnode.add ((Accounted.add ht hy).add hno)
  rw [own_conditional hform, hsteps] at haccount
  rw [IsAccounted, coe_all_conditional hform, Fragment.items_conditional hyp hnp, hitems]
  convert haccount using 1
  simp only [Bool.false_eq_true, ↓reduceIte]
  abel

theorem isAccounted_branches (hform : Form.ofName? name = some .conditional)
    (hsteps : (yes :: no).any needsSteps = true) (ht : test.IsAccounted s t s₁)
    (hy : yes.IsAccounted s₁ y s₂) (hn : Otherwise IsAccounted no s₂ n s') :
    (Node.element ⟨name, [], test :: yes :: no, position⟩).IsAccounted s
      (t.andThen fun test =>
        ⟨[.define (funcName (s'.drawn + 1)) {}
          [.branch test (y.assignTo (varName (s'.drawn + 2)))
            (n.assignTo (varName (s'.drawn + 2))), .ret (.name (varName (s'.drawn + 2)))]],
          .call (.name (funcName (s'.drawn + 1))) [] []⟩) ⟨s'.drawn + 2⟩ := by
  obtain ⟨items, hno, hitems⟩ := accounted_otherwise hn
  have hnode : Accounted {.element ⟨name, [], test :: yes :: no, position⟩} s' _ ⟨s'.drawn + 2⟩ :=
    Accounted.conditional (by simp [branchNeedsSteps, hform, hsteps])
      (by simp [bodyNeedsSteps, hform])
  have haccount := ((Accounted.add ht hy).add hno).add hnode
  rw [own_conditional hform, hsteps] at haccount
  rw [IsAccounted, coe_all_conditional hform, Fragment.items_branches, hitems, add_comm]
  convert haccount using 1
  simp only [↓reduceIte]
  abel

end Conditional

section Function

variable {entries body : List Node} {params : Params Expr}
  {defaults : List (Fragment (String × Expr))}

theorem own_function {R : Node → NameSupply → Fragment Expr → NameSupply → Prop}
    (hform : Form.ofName? name = some .function) (hparams : Params.ofNodes entries = .ok params)
    (hdefaults : Chain (KeyedBy R) attributes s defaults s₁) :
    (Node.element ⟨name, attributes, .list entries :: body, position⟩).own =
      {Fragment.paramsItem params defaults} + Multiset.replicate (body.length - 1) .eval +
        if sequenceNeedsSteps body then 0 else {.lambda} := by
  simp only [own, hform, Params.itemOfNodes, hparams, Fragment.paramsItem, hdefaults.keys_eq]

theorem coe_all_function (hform : Form.ofName? name = some .function) :
    ((Node.element ⟨name, attributes, .list entries :: body, position⟩).all : Multiset Node) =
      {.element ⟨name, attributes, .list entries :: body, position⟩} +
        ((attributes.map Prod.snd).flatMap all + body.flatMap all) := by
  rw [coe_all, parts_function hform, coe_flatMap_append,
    add_comm (body.flatMap all : Multiset Node)]

theorem isAccounted_lambda (hform : Form.ofName? name = some .function)
    (hparams : Params.ofNodes entries = .ok params) (hne : body ≠ [])
    (hsteps : sequenceNeedsSteps body = false)
    (hdefaults : Chain (KeyedBy IsAccounted) attributes s defaults s₁)
    (hbody : Chain IsAccounted body s₁ fs s') (hpure : (Fragment.sequence fs).isPure = true) :
    (Node.element ⟨name, attributes, .list entries :: body, position⟩).IsAccounted s
      ⟨(Fragment.collect defaults).steps,
        .lambda { params with keywords := (Fragment.collect defaults).value }
          (Fragment.sequence fs).value⟩ s' := by
  have hnode : Accounted {.element ⟨name, attributes, .list entries :: body, position⟩} s _ s :=
    Accounted.node (by simp [branchNeedsSteps, hform]) (by simp [bodyNeedsSteps, hsteps])
  have haccount := hnode.add ((accounted_fields hdefaults).add (accounted_chain hbody))
  rw [own_function hform hparams hdefaults, hsteps] at haccount
  rw [IsAccounted, coe_all_function hform, Fragment.items_lambda hpure,
    Fragment.items_sequence (hbody.ne_nil hne), hbody.length_eq]
  convert haccount using 1
  simp only [Bool.false_eq_true, ↓reduceIte]
  abel

theorem isAccounted_function (hform : Form.ofName? name = some .function)
    (hparams : Params.ofNodes entries = .ok params) (hne : body ≠ [])
    (hsteps : sequenceNeedsSteps body = true)
    (hdefaults : Chain (KeyedBy IsAccounted) attributes s defaults s₁)
    (hbody : Chain IsAccounted body s₁ fs s') :
    (Node.element ⟨name, attributes, .list entries :: body, position⟩).IsAccounted s
      ⟨(Fragment.collect defaults).steps ++ [.define (funcName (s'.drawn + 1))
        { params with keywords := (Fragment.collect defaults).value }
        (Fragment.sequence fs).functionBody], .name (funcName (s'.drawn + 1))⟩ ⟨s'.drawn + 1⟩ := by
  have hnode : Accounted {.element ⟨name, attributes, .list entries :: body, position⟩} s' _
      ⟨s'.drawn + 1⟩ :=
    Accounted.function (by simp [branchNeedsSteps, hform]) (by simp [bodyNeedsSteps, hform, hsteps])
  have haccount := ((accounted_fields hdefaults).add (accounted_chain hbody)).add hnode
  rw [own_function hform hparams hdefaults, hsteps] at haccount
  rw [IsAccounted, coe_all_function hform, Fragment.items_function,
    Fragment.items_sequence (hbody.ne_nil hne), hbody.length_eq, add_comm]
  convert haccount using 1
  simp only [↓reduceIte]
  abel

end Function

end

/-- **Every compiled node is accounted for.** -/
theorem isAccounted_of_compiles {n : Node} {f : Fragment Expr} (h : n.Compiles s f s') :
    n.IsAccounted s f s' := by
  refine compile_induction (motive := IsAccounted) (fun n s f s' h => ?_) n s f s' h
  cases h with
  | symbol => exact isAccounted_leaf rfl rfl rfl rfl
  | keyword =>
    refine isAccounted_leaf rfl rfl rfl ?_
    rw [own, Expr.keyword, Expr.items_call, List.map_nil, List.map_nil, Expr.itemsOf_nil, add_zero]
    rfl
  | string => exact isAccounted_leaf rfl rfl rfl rfl
  | integer => exact isAccounted_leaf rfl rfl rfl rfl
  | float => exact isAccounted_leaf rfl rfl rfl rfl
  | complex => exact isAccounted_leaf rfl rfl rfl rfl
  | list hitems => exact isAccounted_list (hitems.imp fun _ _ _ _ _ h => h.2)
  | call hform hargs hkeywords =>
    exact isAccounted_call hform (hargs.imp fun _ _ _ _ _ h => h.2)
      (chain_keyedBy_imp hkeywords fun _ _ _ _ _ h => h.2)
  | sequence hform hne hfs =>
    exact isAccounted_sequence hform hne (hfs.imp fun _ _ _ _ _ h => h.2)
  | operator hform hl hr => exact isAccounted_operator hform hl.2 hr.2
  | conditional hform ht hy hn hyp hnp =>
    have hsteps := any_needsSteps_branches hy.1 (otherwise_imp hn fun _ _ _ _ _ h => h.1)
    rw [hyp, hnp] at hsteps
    exact isAccounted_conditional hform hsteps ht.2 hy.2
      (otherwise_imp hn fun _ _ _ _ _ h => h.2) hyp hnp
  | branches hform ht hy hn hp =>
    have hsteps := any_needsSteps_branches hy.1 (otherwise_imp hn fun _ _ _ _ _ h => h.1)
    rw [hp] at hsteps
    exact isAccounted_branches hform hsteps ht.2 hy.2 (otherwise_imp hn fun _ _ _ _ _ h => h.2)
  | lambda hform hparams hne hds hfs _ hp =>
    have hsteps := isPure_sequence_eq hne (hfs.imp fun _ _ _ _ _ h => h.1)
    rw [hp, Bool.true_eq, Bool.not_eq_true'] at hsteps
    exact isAccounted_lambda hform hparams hne hsteps
      (chain_keyedBy_imp hds fun _ _ _ _ _ h => h.2) (hfs.imp fun _ _ _ _ _ h => h.2) hp
  | function hform hparams hne hds hfs _ hp =>
    have hsteps := isPure_sequence_eq hne (hfs.imp fun _ _ _ _ _ h => h.1)
    rw [hp, Bool.false_eq, Bool.not_eq_false'] at hsteps
    exact isAccounted_function hform hparams hne hsteps
      (chain_keyedBy_imp hds fun _ _ _ _ _ h => h.2) (hfs.imp fun _ _ _ _ _ h => h.2)

/-- The statements of a program are accounted for by its nodes, apart from those that carry out the
values of the nodes. -/
theorem exists_accounted_of_ofNodes {nodes : List Node} {p : Program}
    (h : Program.ofNodes nodes s = .ok p s') :
    ∃ items, Accounted (nodes.flatMap all) s items s' ∧
      Stmt.itemsOf p.body = Multiset.replicate nodes.length .eval + items := by
  obtain ⟨fs, hfs, hbody⟩ := Program.chain_of_ofNodes h
  have haccounted := hfs.imp fun n _ s f s' h => isAccounted_of_compiles h
  refine ⟨Fragment.itemsOf fs, accounted_chain haccounted, ?_⟩
  rw [hbody, Fragment.items_flatMap_statements, hfs.length_eq]

/-- **Compiling loses nothing and repeats nothing.** The items of a fragment are those of the nodes,
with one function for each conditional and one definition for each function that needs it. The
numbers of the conditionals and the numbers after them, for their variables, and the numbers of the
functions are those that are drawn, each of them once. -/
theorem items_compile {n : Node} {f : Fragment Expr} (h : n.compile s = .ok f s') :
    ∃ conditionals functions : Multiset Nat,
      conditionals.card = n.all.countP branchNeedsSteps ∧
      functions.card = n.all.countP bodyNeedsSteps ∧
      conditionals + conditionals.map (· + 1) + functions =
        Multiset.Ico (s.drawn + 1) (s'.drawn + 1) ∧
      f.items = (n.all.map own).sum + (conditionals.map conditionalItems).sum +
        (functions.map functionItems).sum := by
  obtain ⟨conditionals, functions, hcs, hfs, -, hnumbers, hitems⟩ := isAccounted_of_compiles h
  rw [Multiset.coe_countP] at hcs hfs
  rw [Multiset.map_coe, Multiset.sum_coe] at hitems
  exact ⟨conditionals, functions, by simpa using hcs, by simpa using hfs, hnumbers, hitems⟩

/-- A conditional with a branch of two expressions, and a function with a body of two:
`[<if>p <do>"a" 1</do></if> <fn* k=:d>[x] x <f k=2>x</f></fn*>]`. -/
def conditionalAndFunction : Node :=
  .list
    [.element ((Element.named "if").addChildren
      [.symbol "p",
        .element ((Element.named "do").addChildren [.string "a", .integer 1 .decimal])]),
    .element (((Element.named "fn*").setAttribute "k" (.keyword "d")).addChildren
      [.list [.symbol "x"], .symbol "x",
        .element (((Element.named "f").setAttribute "k" (.integer 2 .decimal)).addChild
          (.symbol "x"))])]

theorem items_compile_conditionalAndFunction :
    conditionalAndFunction.all.countP branchNeedsSteps = 1 ∧
    conditionalAndFunction.all.countP bodyNeedsSteps = 1 ∧
    ∃ f s', conditionalAndFunction.compile ⟨0⟩ = .ok f s' ∧ s'.drawn = 3 ∧
      ∃ conditionals functions : Multiset Nat, conditionals.card = 1 ∧ functions.card = 1 ∧
        conditionals + conditionals.map (· + 1) + functions = {1, 2, 3} ∧
        f.items = (conditionalAndFunction.all.map own).sum +
          (conditionals.map conditionalItems).sum + (functions.map functionItems).sum := by
  have hconditionals : conditionalAndFunction.all.countP branchNeedsSteps = 1 := by decide
  have hfunctions : conditionalAndFunction.all.countP bodyNeedsSteps = 1 := by decide
  refine ⟨hconditionals, hfunctions, _, _, rfl, rfl, ?_⟩
  obtain ⟨cs, fs, hcs, hfs, hnumbers, hitems⟩ :=
    items_compile (n := conditionalAndFunction) (s := ⟨0⟩) rfl
  exact ⟨cs, fs, hcs.trans hconditionals, hfs.trans hfunctions, hnumbers, hitems⟩

end Node

end TagLang
