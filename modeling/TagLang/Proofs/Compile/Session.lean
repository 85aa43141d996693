import TagLang.Proofs.Compile.Contents
import TagLang.Proofs.Compile.Names
import TagLang.Proofs.Compile.Traversal

/-!
# Names over the life of a compiler

A compiler is asked for one node or program after the other and keeps its supply of names all the
time. Some requests may fail; the names that they drew stay drawn. `session` is the list of what
happens, request by request.

No name is given out twice (`session_names`): what a request introduces has exactly the numbers that
it draws. A function is defined in one place, and a variable is assigned in two, at the ends of the
two blocks of one choice. All this is read off the items of the result (`Accounted`).
-/

namespace TagLang

open NameSupply (funcName varName funcName_injective varName_injective funcName_ne_varName)

/-! ## Names that a block introduces -/

namespace Stmt

def defines (name : String) : Stmt → Bool
  | .define ident _ _ => ident == name
  | _ => false

def assigns (name : String) : Stmt → Bool
  | .assign target _ => target == name
  | _ => false

/-- The names that the statements of a block introduce, at any depth. -/
def introduced (block : List Stmt) : List String :=
  (allOf block).filterMap definedName?

/-- A function of this name is defined in one place. -/
structure DefinedOnce (block : List Stmt) (name : String) : Prop where
  definitions : (allOf block).countP (defines name) = 1
  assignments : (allOf block).countP (assigns name) = 0

/-- A variable of this name is assigned in two places, the ends of the two blocks of a choice. -/
structure AssignedInBranches (block : List Stmt) (name : String) : Prop where
  definitions : (allOf block).countP (defines name) = 0
  assignments : (allOf block).countP (assigns name) = 2
  ends : ∃ test yes no, Stmt.branch test yes no ∈ allOf block ∧ lastAssigned? yes = some name ∧
    lastAssigned? no = some name

end Stmt

/-! ## Requests -/

/-- What a compiler is asked for. -/
inductive Request where
  | node (n : Node)
  | program (nodes : List Node)

namespace Request

/-- The nodes to be compiled. -/
def nodes : Request → List Node
  | .node n => [n]
  | .program nodes => nodes

/-- The statements that come out: the steps of a fragment, or a program. -/
def statements : Request → CompileM (List Stmt)
  | .node n => return (← n.compile).steps
  | .program nodes => return (← Program.ofNodes nodes).body

end Request

/-- What happens when a compiler gets a request. -/
structure Turn where
  request : Request
  before : NameSupply
  output : Except CompileError (List Stmt)
  after : NameSupply

/-- What a request does with a supply. -/
def Turn.of (request : Request) (s : NameSupply) : Turn :=
  match request.statements s with
  | .ok block s' => ⟨request, s, .ok block, s'⟩
  | .error e s' => ⟨request, s, .error e, s'⟩

/-- What happens with one request after the other. -/
def session (s : NameSupply) : List Request → List Turn
  | [] => []
  | request :: rest => Turn.of request s :: session (Turn.of request s).after rest

/-! ## The numbers of introduced names -/

/-- Items that come up `m` times for one number and not for others are counted by numbers. -/
theorem count_sum_map_numbers {numbers : Multiset Nat} {g : Nat → Multiset Item} {f : Nat → Nat}
    {item : Item} {k m : Nat} (h : ∀ j, (g j).count item = if f j = k then m else 0) :
    (numbers.map g).sum.count item = m * (numbers.map f).count k := by
  induction numbers using Multiset.induction_on with
  | empty => simp
  | cons j numbers ih =>
    rw [Multiset.map_cons, Multiset.sum_cons, Multiset.count_add, ih, h, Multiset.map_cons,
      Multiset.count_cons, Nat.mul_add, Nat.add_comm]
    by_cases hj : f j = k
    · rw [if_pos hj, if_pos hj.symm, Nat.mul_one]
    · rw [if_neg hj, if_neg (Ne.symm hj), Nat.mul_zero]

theorem count_define_conditionalItems (j k : Nat) :
    (conditionalItems j).count (.define (funcName k)) = if j = k then 1 else 0 := by
  by_cases hj : j = k
  · simp [conditionalItems, hj]
  · have hne : funcName k ≠ funcName j := fun h => hj (funcName_injective h).symm
    simp [conditionalItems, hj, hne]

theorem count_define_functionItems (j k : Nat) :
    (functionItems j).count (.define (funcName k)) = if j = k then 1 else 0 := by
  by_cases hj : j = k
  · simp [functionItems, hj]
  · have hne : funcName k ≠ funcName j := fun h => hj (funcName_injective h).symm
    simp [functionItems, hj, hne]

theorem count_assign_conditionalItems (j k : Nat) :
    (conditionalItems j).count (.assign (varName k)) = if j + 1 = k then 2 else 0 := by
  by_cases hj : j + 1 = k
  · simp [conditionalItems, hj]
  · have hne : varName k ≠ varName (j + 1) := fun h => hj (varName_injective h).symm
    simp [conditionalItems, hj, hne]

theorem count_assign_functionItems (j : Nat) (name : String) :
    (functionItems j).count (.assign name) = 0 := by
  simp [functionItems]

namespace Accounted

variable {nodes : Multiset Node} {items : Multiset Item} {s s' : NameSupply}

/-- Nodes introduce no name, so a name is introduced as often as the made-up functions do so. -/
theorem count_own_eq_zero {item : Item} (hitem : item.isStatement = true) (hne : item ≠ .eval) :
    (nodes.map Node.own).sum.count item = 0 := by
  rw [Multiset.count_eq_zero]
  intro h
  obtain ⟨n, -, hmem⟩ := Multiset.mem_bind.1 h
  exact hne (Node.eq_eval_of_mem_own hmem hitem)

/-- A number that is drawn belongs to one function or to one variable, others to none. -/
theorem count_numbers (h : Accounted nodes s items s') (k : Nat) :
    ∃ func var, items.count (.define (funcName k)) = func ∧
      items.count (.assign (varName k)) = 2 * var ∧
      (func + var = if s.drawn < k ∧ k ≤ s'.drawn then 1 else 0) ∧
      (var ≠ 0 → .branch (some (varName k)) (some (varName k)) ∈ items) := by
  obtain ⟨cs, fs, -, -, -, hnumbers, rfl⟩ := h
  refine ⟨cs.count k + fs.count k, (cs.map (· + 1)).count k, ?_, ?_, ?_, ?_⟩
  · rw [Multiset.count_add, Multiset.count_add, count_own_eq_zero rfl (by simp),
      count_sum_map_numbers (f := id) fun j => count_define_conditionalItems j k,
      count_sum_map_numbers (f := id) fun j => count_define_functionItems j k,
      Multiset.map_id, Multiset.map_id]
    omega
  · have hfs : (fs.map functionItems).sum.count (.assign (varName k)) = 0 * (fs.map id).count k :=
      count_sum_map_numbers fun j => by rw [count_assign_functionItems, ite_self]
    rw [Multiset.count_add, Multiset.count_add, count_own_eq_zero rfl (by simp), hfs,
      count_sum_map_numbers fun j => count_assign_conditionalItems j k]
    omega
  · have hcount := congrArg (Multiset.count k) hnumbers
    rw [Multiset.count_add, Multiset.count_add, Multiset.count_eq_of_nodup Multiset.nodup_Ico]
      at hcount
    simp only [Multiset.mem_Ico] at hcount
    rw [Nat.add_right_comm, hcount]
    exact if_congr (by omega) rfl rfl
  · intro hvar
    obtain ⟨j, hj, rfl⟩ := Multiset.mem_map.1 (Multiset.count_ne_zero.1 hvar)
    refine Multiset.mem_add.2 (.inl (Multiset.mem_add.2 (.inr (Multiset.mem_bind.2 ⟨j, hj, ?_⟩))))
    simp [conditionalItems]

theorem exists_of_define_mem {name : String} (h : Accounted nodes s items s')
    (hmem : .define name ∈ items) :
    ∃ k, s.drawn < k ∧ k ≤ s'.drawn ∧ name = funcName k := by
  rcases h.mem_cases hmem with ⟨n, -, hn⟩ | ⟨k, hlt, hle, hk⟩ | ⟨k, hlt, hle, hk⟩
  · cases Node.eq_eval_of_mem_own hn rfl
  · exact ⟨k, hlt, by omega, by simpa [conditionalItems] using hk⟩
  · exact ⟨k, hlt, hle, by simpa [functionItems] using hk⟩

theorem exists_of_assign_mem {name : String} (h : Accounted nodes s items s')
    (hmem : .assign name ∈ items) :
    ∃ k, s.drawn < k ∧ k ≤ s'.drawn ∧ name = varName k := by
  rcases h.mem_cases hmem with ⟨n, -, hn⟩ | ⟨k, hlt, hle, hk⟩ | ⟨k, hlt, hle, hk⟩
  · cases Node.eq_eval_of_mem_own hn rfl
  · exact ⟨k + 1, by omega, by omega, by simpa [conditionalItems] using hk⟩
  · simp [functionItems] at hk

theorem count_define_varName (h : Accounted nodes s items s') (k : Nat) :
    items.count (.define (varName k)) = 0 := by
  rw [Multiset.count_eq_zero]
  intro hmem
  obtain ⟨j, -, -, hj⟩ := h.exists_of_define_mem hmem
  exact funcName_ne_varName hj.symm

theorem count_assign_funcName (h : Accounted nodes s items s') (k : Nat) :
    items.count (.assign (funcName k)) = 0 := by
  rw [Multiset.count_eq_zero]
  intro hmem
  obtain ⟨j, -, -, hj⟩ := h.exists_of_assign_mem hmem
  exact funcName_ne_varName hj

/-- As many names are drawn as the nodes need. -/
theorem drawn_eq (h : Accounted nodes s items s') :
    s'.drawn = s.drawn + 2 * nodes.countP (·.branchNeedsSteps) +
      nodes.countP (·.bodyNeedsSteps) := by
  obtain ⟨cs, fs, hcs, hfs, hle, hnumbers, -⟩ := h
  have hcard := congrArg Multiset.card hnumbers
  have hIco : (Multiset.Ico (s.drawn + 1) (s'.drawn + 1)).card = s'.drawn + 1 - (s.drawn + 1) :=
    Nat.card_Ico _ _
  rw [Multiset.card_add, Multiset.card_add, Multiset.card_map, hIco] at hcard
  omega

end Accounted

/-! ## The statements of a block -/

namespace Stmt

variable {block : List Stmt} {name : String}

theorem count_define :
    (itemsOf block).count (.define name) = (allOf block).countP (defines name) := by
  refine count_itemsOf rfl fun s => ?_
  cases s with
  | define ident params body =>
    by_cases h : ident = name
    · simp [own, defines, Params.item, h]
    · simp [own, defines, Params.item, h, Ne.symm h]
  | _ => simp [own, defines]

theorem count_assign :
    (itemsOf block).count (.assign name) = (allOf block).countP (assigns name) := by
  refine count_itemsOf rfl fun s => ?_
  cases s with
  | assign target value =>
    by_cases h : target = name
    · simp [own, assigns, h]
    · simp [own, assigns, h, Ne.symm h]
  | _ => simp [own, assigns, Params.item]

/-- Names are introduced by definitions and by assignments. -/
theorem mem_introduced_iff : name ∈ introduced block ↔
    .define name ∈ itemsOf block ∨ .assign name ∈ itemsOf block := by
  rw [introduced, List.mem_filterMap, mem_itemsOf_iff rfl, mem_itemsOf_iff rfl, ← exists_or]
  refine exists_congr fun s => ?_
  rw [← and_or_left]
  refine and_congr_right fun _ => ?_
  cases s <;> simp [definedName?, own, Params.item, eq_comm]

/-- The item of a choice tells what the last statements of its blocks assign. -/
theorem exists_of_branch_mem {yes no : Option String} (h : .branch yes no ∈ itemsOf block) :
    ∃ test yes' no', Stmt.branch test yes' no' ∈ allOf block ∧ lastAssigned? yes' = yes ∧
      lastAssigned? no' = no := by
  obtain ⟨s, hs, hitem⟩ := (mem_itemsOf_iff rfl).1 h
  cases s with
  | branch test yes' no' =>
    obtain ⟨rfl, rfl⟩ := Item.branch.inj (Multiset.mem_singleton.1 hitem)
    exact ⟨test, yes', no', hs, rfl, rfl⟩
  | _ => simp [own, Params.item] at hitem

end Stmt

/-! ## One request -/

/-- Items tell what a block introduces: apart from evaluations, they are its statements. -/
def Introducing (block : List Stmt) (items : Multiset Item) : Prop :=
  ∀ item : Item, item.isStatement = true → item ≠ .eval →
    (Stmt.itemsOf block).count item = items.count item

namespace Introducing

variable {block : List Stmt} {items : Multiset Item} {name : String}

theorem countP_defines (h : Introducing block items) :
    (Stmt.allOf block).countP (Stmt.defines name) = items.count (.define name) := by
  rw [← Stmt.count_define, h _ rfl (by simp)]

theorem countP_assigns (h : Introducing block items) :
    (Stmt.allOf block).countP (Stmt.assigns name) = items.count (.assign name) := by
  rw [← Stmt.count_assign, h _ rfl (by simp)]

theorem mem_introduced_iff (h : Introducing block items) : name ∈ Stmt.introduced block ↔
    items.count (.define name) ≠ 0 ∨ items.count (.assign name) ≠ 0 := by
  rw [Stmt.mem_introduced_iff, ← Multiset.count_ne_zero, ← Multiset.count_ne_zero,
    h _ rfl (by simp), h _ rfl (by simp)]

variable {nodes : Multiset Node} {s s' : NameSupply}

/-- Each number that is drawn is that of one function or of one variable. -/
theorem definedOnce_or_assignedInBranches (h : Introducing block items)
    (haccounted : Accounted nodes s items s') {k : Nat} (hk : s.drawn < k ∧ k ≤ s'.drawn) :
    (Stmt.DefinedOnce block (funcName k) ∧ varName k ∉ Stmt.introduced block) ∨
      Stmt.AssignedInBranches block (varName k) ∧ funcName k ∉ Stmt.introduced block := by
  obtain ⟨func, var, hfunc, hvar, hsum, hends⟩ := haccounted.count_numbers k
  rw [if_pos hk] at hsum
  have hnovar := haccounted.count_define_varName k
  have hnofunc := haccounted.count_assign_funcName k
  by_cases hzero : var = 0
  · refine .inl ⟨⟨?_, ?_⟩, ?_⟩
    · rw [h.countP_defines, hfunc]
      omega
    · rw [h.countP_assigns, hnofunc]
    · rw [h.mem_introduced_iff]
      omega
  · refine .inr ⟨⟨?_, ?_, ?_⟩, ?_⟩
    · rw [h.countP_defines, hnovar]
    · rw [h.countP_assigns, hvar]
      omega
    · apply Stmt.exists_of_branch_mem
      rw [← Multiset.count_pos, h _ rfl (by simp), Multiset.count_pos]
      exact hends hzero
    · rw [h.mem_introduced_iff]
      omega

/-- Nothing else is introduced. -/
theorem exists_number (h : Introducing block items) (haccounted : Accounted nodes s items s')
    (hname : name ∈ Stmt.introduced block) :
    ∃ k, s.drawn < k ∧ k ≤ s'.drawn ∧ (name = funcName k ∨ name = varName k) := by
  rcases h.mem_introduced_iff.1 hname with hdefine | hassign
  · obtain ⟨k, hlt, hle, hk⟩ := haccounted.exists_of_define_mem (Multiset.count_ne_zero.1 hdefine)
    exact ⟨k, hlt, hle, .inl hk⟩
  · obtain ⟨k, hlt, hle, hk⟩ := haccounted.exists_of_assign_mem (Multiset.count_ne_zero.1 hassign)
    exact ⟨k, hlt, hle, .inr hk⟩

end Introducing

namespace Request

variable {request : Request} {s s' : NameSupply} {block : List Stmt}

/-- A compiled fragment and its steps introduce the same. -/
theorem count_items_eq_steps {f : Fragment Expr} {item : Item} (hitem : item.isStatement = true) :
    f.items.count item = (Stmt.itemsOf f.steps).count item := by
  rw [Fragment.items, Multiset.count_add, Nat.add_eq_left, Multiset.count_eq_zero]
  intro h
  rw [Expr.isStatement_of_mem_items h] at hitem
  cases hitem

/-- What the result of a request introduces is accounted for by its nodes. -/
theorem exists_accounted (h : request.statements s = .ok block s') :
    ∃ items, Accounted (request.nodes.flatMap Node.all) s items s' ∧ Introducing block items := by
  cases request with
  | node n =>
    obtain ⟨f, _, hf, hblock⟩ := CompileM.bind_eq_ok.1 h
    obtain ⟨rfl, rfl⟩ := CompileM.pure_eq_ok.1 hblock
    refine ⟨f.items, ?_, fun item hitem _ => (count_items_eq_steps hitem).symm⟩
    rw [nodes, List.flatMap_singleton]
    exact Node.isAccounted_of_compiles hf
  | program nodes =>
    obtain ⟨p, _, hp, hblock⟩ := CompileM.bind_eq_ok.1 h
    obtain ⟨rfl, rfl⟩ := CompileM.pure_eq_ok.1 hblock
    obtain ⟨items, haccounted, hitems⟩ := Node.exists_accounted_of_ofNodes hp
    refine ⟨items, haccounted, fun item _ hne => ?_⟩
    rw [hitems, Multiset.count_add, Nat.add_eq_right, Multiset.count_eq_zero]
    intro h
    exact hne (Multiset.eq_of_mem_replicate h)

/-- What a request that succeeds introduces: each number that it draws is that of one function or of
one variable, and nothing else is introduced. -/
structure Introduces (request : Request) (s : NameSupply) (block : List Stmt) (s' : NameSupply) :
    Prop where
  each : ∀ k, s.drawn < k → k ≤ s'.drawn →
    (Stmt.DefinedOnce block (funcName k) ∧ varName k ∉ Stmt.introduced block) ∨
      Stmt.AssignedInBranches block (varName k) ∧ funcName k ∉ Stmt.introduced block
  only : ∀ name ∈ Stmt.introduced block, ∃ k, s.drawn < k ∧ k ≤ s'.drawn ∧
    (name = funcName k ∨ name = varName k)
  drawn : s'.drawn = s.drawn + 2 * (request.nodes.flatMap Node.all).countP Node.branchNeedsSteps +
    (request.nodes.flatMap Node.all).countP Node.bodyNeedsSteps

theorem introduces_of_statements (h : request.statements s = .ok block s') :
    request.Introduces s block s' := by
  obtain ⟨items, haccounted, hintroducing⟩ := exists_accounted h
  refine ⟨fun k hlt hle => ?_, fun name hname => ?_, ?_⟩
  · exact hintroducing.definedOnce_or_assignedInBranches haccounted ⟨hlt, hle⟩
  · exact hintroducing.exists_number haccounted hname
  · have hdrawn := haccounted.drawn_eq
    rw [Multiset.coe_countP, Multiset.coe_countP] at hdrawn
    simpa using hdrawn

theorem drawn_le (h : request.statements.Leaves s s') : s.drawn ≤ s'.drawn := by
  have hruns : CompileM.RunsBeside 0 (request.nodes.flatMap Node.checks) (fun _ _ => True)
      request.statements request.statements := by
    cases request with
    | node n =>
      rw [nodes, List.flatMap_singleton]
      refine (n.runsAlike NameSupply.shifts_id fun _ _ => rfl).bind_nil fun _ _ _ => ?_
      exact .pure trivial
    | program nodes =>
      refine .bind_nil (Program.runsBeside_ofNodes NameSupply.shifts_id fun _ _ => rfl) ?_
      exact fun _ _ _ => .pure trivial
  exact hruns.drawn_le h

end Request

/-! ## A whole session -/

namespace Turn

variable (request : Request) (s : NameSupply)

theorem of_request : (of request s).request = request := by
  unfold of
  split
  · rfl
  · rfl

theorem of_before : (of request s).before = s := by
  unfold of
  split
  · rfl
  · rfl

/-- A request never gives names back, whether it succeeds or fails. -/
theorem of_drawn_le : s.drawn ≤ (of request s).after.drawn := by
  unfold of
  split
  · next block s' hrun => exact Request.drawn_le (.inl ⟨block, hrun⟩)
  · next e s' hrun => exact Request.drawn_le (.inr ⟨e, hrun⟩)

theorem of_introduces {block : List Stmt} (h : (of request s).output = .ok block) :
    request.Introduces s block (of request s).after := by
  unfold of at h ⊢
  split
  · next block' s' hrun =>
    rw [hrun] at h
    obtain rfl := Except.ok.inj h
    exact Request.introduces_of_statements hrun
  · next e s' hrun =>
    rw [hrun] at h
    cases h

end Turn

/-- A turn of a session is what its request does with a supply that comes from the first one. -/
theorem exists_of_mem_session {s : NameSupply} {requests : List Request} {t : Turn}
    (h : t ∈ session s requests) :
    ∃ request s₁, t = Turn.of request s₁ ∧ s.drawn ≤ s₁.drawn := by
  induction requests generalizing s with
  | nil => cases h
  | cons request rest ih =>
    rcases List.mem_cons.1 h with rfl | h
    · exact ⟨request, s, rfl, Nat.le_refl _⟩
    · obtain ⟨later, s₁, rfl, hle⟩ := ih h
      exact ⟨later, s₁, rfl, Nat.le_trans (Turn.of_drawn_le request s) hle⟩

/-- What comes later in a session starts with the supply that was left, or with a larger one. -/
theorem session_pairwise (s : NameSupply) (requests : List Request) :
    (session s requests).Pairwise fun t t' => t.after.drawn ≤ t'.before.drawn := by
  induction requests generalizing s with
  | nil => exact .nil
  | cons request rest ih =>
    refine .cons (fun t ht => ?_) (ih _)
    obtain ⟨later, s₁, rfl, hle⟩ := exists_of_mem_session ht
    rw [Turn.of_before]
    exact hle

/-- **No name is given out twice.** In every session, each request leaves a supply from which at
least as many names are drawn. One that succeeds introduces exactly the names with the numbers that
it draws: functions, defined once, and variables, assigned at the ends of the blocks of one choice.
So no name is introduced by two requests. -/
theorem session_names (s : NameSupply) (requests : List Request) :
    (∀ t ∈ session s requests, t.before.drawn ≤ t.after.drawn ∧
      ∀ block, t.output = .ok block → t.request.Introduces t.before block t.after) ∧
    (session s requests).Pairwise fun t t' => ∀ block block', t.output = .ok block →
      t'.output = .ok block' → ∀ name ∈ Stmt.introduced block, name ∉ Stmt.introduced block' := by
  have hturns : ∀ t ∈ session s requests, t.before.drawn ≤ t.after.drawn ∧
      ∀ block, t.output = .ok block → t.request.Introduces t.before block t.after := by
    intro t ht
    obtain ⟨request, s₁, rfl, -⟩ := exists_of_mem_session ht
    rw [Turn.of_before, Turn.of_request]
    exact ⟨Turn.of_drawn_le request s₁, fun block => Turn.of_introduces request s₁⟩
  refine ⟨hturns, (session_pairwise s requests).imp_of_mem ?_⟩
  intro t t' ht ht' hle block block' hblock hblock' name hname hname'
  obtain ⟨k, -, hk, hkname⟩ := ((hturns t ht).2 block hblock).only name hname
  obtain ⟨k', hk', -, hkname'⟩ := ((hturns t' ht').2 block' hblock').only name hname'
  have hnumbers : k = k' := by
    rcases hkname with rfl | rfl
    · rcases hkname' with h | h
      · exact funcName_injective h
      · exact absurd h funcName_ne_varName
    · rcases hkname' with h | h
      · exact absurd h.symm funcName_ne_varName
      · exact varName_injective h
  omega

/-- A choice whose branch is two expressions: `<if>p <do>p p</do></if>`. -/
def Node.choice : Node :=
  .element ((Element.named "if").addChildren
    [.symbol "p", .element ((Element.named "do").addChildren [.symbol "p", .symbol "p"])])

/-- A request that fails in between keeps the two names that it drew. -/
theorem session_names_afterFailure :
    ∃ first second third : Turn,
      session ⟨0⟩ [.node .choice, .program [.choice, .element (Element.named "do")],
        .program [.choice]] = [first, second, third] ∧
      (∃ block, first.output = .ok block ∧
        Stmt.introduced block = [funcName 1, varName 2, varName 2] ∧
        first.request.Introduces ⟨0⟩ block ⟨2⟩) ∧
      (∃ e, second.output = .error e ∧ second.before = ⟨2⟩ ∧ second.after = ⟨4⟩) ∧
      (∃ block, third.output = .ok block ∧
        Stmt.introduced block = [funcName 5, varName 6, varName 6] ∧
        third.request.Introduces ⟨4⟩ block ⟨6⟩) := by
  have hnames := session_names ⟨0⟩
    [.node .choice, .program [.choice, .element (Element.named "do")], .program [.choice]]
  refine ⟨_, _, _, rfl, ⟨_, rfl, rfl, ?_⟩, ⟨_, rfl, rfl, rfl⟩, ⟨_, rfl, rfl, ?_⟩⟩
  · exact (hnames.1 _ (.head _)).2 _ rfl
  · exact (hnames.1 _ (.tail _ (.tail _ (.head _)))).2 _ rfl

end TagLang
