import TagLang.Proofs.Meaning.Stage

/-!
# The order of calls

Which calls a fragment performs, and in which order, compared with the calls of its node. The nodes
here are made of literals, names, lists, calls, sequences and operators (`Node.Plain`).

The backend is one that records calls. Its values are expressions that stand for themselves, so a
recorded call tells what is called and with which arguments. Not every call has to be recorded:
`watched` chooses by what is called.

A fragment performs the calls of its node, each as often as the node does. It performs them in
another order if steps overtake values: in `<f><a/> <do><b/> 1</do></f>` the call of `b` is a step
and the call of `a` is part of the value (`Node.calls_overtaken`). `Node.CallsInOrder` rules that
out, and where all calls are different nothing weaker does (`Node.performed_compile`).
-/

namespace TagLang

/-! ## A backend that records calls -/

/-- Computations that record calls. -/
abbrev Recording := StateM (List Expr)

/-- Records calls and gives a value. -/
def record {α : Type} (calls : List Expr) (value : α) : Recording α := do
  modify (· ++ calls)
  return value

/-- Records the calls of what is watched. Tests and functions are out of its reach. -/
def recorder (watched : Expr → Bool) : Backend Recording Expr where
  string := .str
  integer := .int
  float := .float
  complex := .complex
  nothing := .nothing
  list := .list
  read name := return .name name
  operate op left right := return .binOp op left right
  truth _ := return true
  function _ _ := .nothing
  call func args keywords :=
    let call := .call func args keywords
    record (if watched func then [call] else []) call
  calleeFirst := false

/-- The calls that a fragment performs. -/
def Fragment.performed (watched : Expr → Bool) (f : Fragment Expr) : List Expr :=
  (StateT.run (f.run (recorder watched) []) []).2

/-- The calls that a node means, from left to right. -/
def Node.calls (watched : Expr → Bool) (n : Node) : List Expr :=
  (StateT.run (n.meaning (recorder watched)) []).2

/-- What is recorded of a call. -/
def watchedCall (watched : Expr → Bool) (name : String) (args : List Expr)
    (keywords : List (String × Expr)) : List Expr :=
  if watched (.name name) then [.call (.name name) args keywords] else []

section Record

variable {α β : Type} {calls calls' : List Expr} {v : α} {w : β}

theorem pure_eq_record : (pure v : Recording α) = record [] v := by
  funext log
  show (v, log) = (v, log ++ [])
  rw [List.append_nil]

theorem record_bind {k : α → Recording β} (h : k v = record calls' w) :
    record calls v >>= k = record (calls ++ calls') w := by
  funext log
  show k v (log ++ calls) = (w, log ++ (calls ++ calls'))
  rw [h, ← List.append_assoc]
  rfl

theorem record_bind_pure {g : α → β} :
    (record calls v >>= fun v => pure (g v)) = record calls (g v) := by
  rw [record_bind (k := fun v => pure (g v)) pure_eq_record, List.append_nil]

theorem invoke_recorder {watched : Expr → Bool} (name : String) (args : Recording (List Expr))
    (keywords : Recording (List (String × Expr))) :
    (recorder watched).invoke ((recorder watched).read name) args keywords =
      (do let a ← args; return (a, ← keywords)) >>= fun p =>
        record (watchedCall watched name p.1 p.2) (.call (.name name) p.1 p.2) := by
  simp only [bind_assoc, pure_bind]
  rfl

theorem watchedCall_ne_nil_iff {watched : Expr → Bool} {name : String} {args : List Expr}
    {keywords : List (String × Expr)} :
    watchedCall watched name args keywords ≠ [] ↔ watched (.name name) = true := by
  simp [watchedCall]

end Record

/-! ## Calls of steps, values and sources -/

/-- The calls of the steps of a fragment, those of its value, and those of what it is made from. -/
structure Calls where
  steps : List Expr
  value : List Expr
  source : List Expr

namespace Calls

variable {c c' : Calls}

def InOrder (c : Calls) : Prop := c.steps ++ c.value = c.source

def Complete (c : Calls) : Prop := (c.steps ++ c.value).Perm c.source

/-- The steps of both come before the values of both. -/
def beside (c c' : Calls) : Calls :=
  ⟨c.steps ++ c'.steps, c.value ++ c'.value, c.source ++ c'.source⟩

/-- The value of the first is computed among the steps. -/
def before (c c' : Calls) : Calls :=
  ⟨c.steps ++ c.value ++ c'.steps, c'.value, c.source ++ c'.source⟩

theorem append_ne_nil_iff {calls calls' : List Expr} :
    calls ++ calls' ≠ [] ↔ calls ≠ [] ∨ calls' ≠ [] := by
  rw [Ne, List.append_eq_nil_iff, Classical.not_and_iff_not_or_not]

theorem Complete.beside (h : c.Complete) (h' : c'.Complete) : (c.beside c').Complete := by
  have hswap : (c.steps ++ c'.steps ++ (c.value ++ c'.value)).Perm
      ((c.steps ++ c.value) ++ (c'.steps ++ c'.value)) := by
    simp only [List.append_assoc]
    refine List.Perm.append_left _ ?_
    simp only [← List.append_assoc]
    exact List.perm_append_comm.append_right _
  exact hswap.trans (h.append h')

theorem Complete.before (h : c.Complete) (h' : c'.Complete) : (c.before c').Complete := by
  have happend := h.append h'
  rw [← List.append_assoc] at happend
  exact happend

theorem InOrder.beside (h : c.InOrder) (h' : c'.InOrder) (hrow : c.value ≠ [] → ¬ c'.steps ≠ []) :
    (c.beside c').InOrder := by
  unfold InOrder Calls.beside at *
  rw [← h, ← h']
  by_cases hvalue : c.value = []
  · simp [hvalue]
  · simp [Classical.not_not.1 (hrow hvalue)]

/-- If calls come in order and none occurs twice, no steps overtake a value: the first call of later
steps would be among the calls of what stands before them. -/
theorem keepsApart_of_beside (h : c.Complete) (hnodup : (c.beside c').source.Nodup)
    (horder : (c.beside c').InOrder) (hvalue : c.value ≠ []) : c'.steps = [] := by
  cases hsteps : c'.steps with
  | nil => rfl
  | cons y ys =>
    exfalso
    have hall : c.steps ++ (y :: (ys ++ (c.value ++ c'.value))) = c.source ++ c'.source := by
      rw [← show _ = c.source ++ c'.source from horder]
      simp [Calls.beside, hsteps]
    -- the calls of the first are as many as its steps and value perform, so they reach past its
    -- steps, to where the call of the later steps stands
    have hlength : c.steps.length + c.value.length = c.source.length := by
      rw [← List.length_append, h.length_eq]
    have hpos : 0 < c.value.length := List.length_pos_iff.2 hvalue
    have hy : y ∈ c.source := by
      rcases List.append_eq_append_iff.1 hall with ⟨a, hsource, hrest⟩ | ⟨a, hsteps, -⟩
      · cases a with
        | nil =>
          rw [hsource, List.append_nil] at hlength
          omega
        | cons z a =>
          obtain ⟨rfl, -⟩ := List.cons.inj hrest
          rw [hsource]
          exact List.mem_append_right _ List.mem_cons_self
      · have := congrArg List.length hsteps
        rw [List.length_append] at this
        omega
    have hnodup : (c.steps ++ (y :: (ys ++ (c.value ++ c'.value)))).Nodup := hall ▸ hnodup
    obtain ⟨-, htail, hdisjoint⟩ := List.nodup_append.1 hnodup
    rcases List.mem_append.1 (h.mem_iff.2 hy) with hmem | hmem
    · exact hdisjoint y hmem y List.mem_cons_self rfl
    · refine (List.nodup_cons.1 htail).1 ?_
      exact List.mem_append_right _ (List.mem_append_left _ hmem)

theorem inOrder_of_beside (h : c.Complete) (hnodup : (c.beside c').source.Nodup)
    (horder : (c.beside c').InOrder) :
    c.InOrder ∧ c'.InOrder ∧ (c.value ≠ [] → ¬ c'.steps ≠ []) := by
  have hrow := keepsApart_of_beside h hnodup horder
  have hall : (c.steps ++ c.value) ++ (c'.steps ++ c'.value) = c.source ++ c'.source := by
    rw [← show _ = c.source ++ c'.source from horder]
    by_cases hvalue : c.value = []
    · simp [Calls.beside, hvalue]
    · simp [Calls.beside, hrow hvalue]
  obtain ⟨hfirst, hsecond⟩ := List.append_inj hall h.length_eq
  exact ⟨hfirst, hsecond, fun hvalue => not_not_intro (hrow hvalue)⟩

theorem inOrder_before_iff (h : c.Complete) :
    (c.before c').InOrder ↔ c.InOrder ∧ c'.InOrder := by
  unfold InOrder Calls.before
  rw [List.append_assoc]
  constructor
  · exact fun horder => List.append_inj horder h.length_eq
  · rintro ⟨h, h'⟩
    rw [h, h']

end Calls

/-! ## Traces of fragments -/

section Traced

variable {watched : Expr → Bool} {T T' : Type}

/-- A fragment performs calls, and what it is made from means a value and calls. -/
structure Performs (watched : Expr → Bool) (compute : Scope Expr → T → Recording T)
    (x : Recording T) (f : Fragment T) (c : Calls) : Prop where
  run_steps : Stmt.runAll (recorder watched) [] f.steps = record c.steps (.next [])
  compute_value : compute [] f.value = record c.value f.value
  meaning : x = record c.source f.value
  complete : c.Complete

/-- A fragment performs calls; `steps` says whether its steps do so and `value` whether its value
does, and `order` whether they come in order. -/
def Traced (watched : Expr → Bool) (compute : Scope Expr → T → Recording T) (x : Recording T)
    (steps value order : Prop) (f : Fragment T) : Prop :=
  ∃ c : Calls, Performs watched compute x f c ∧ (c.steps ≠ [] ↔ steps) ∧ (c.value ≠ [] ↔ value) ∧
    (order → c.InOrder) ∧ (c.source.Nodup → c.InOrder → order)

namespace Traced

variable {compute : Scope Expr → T → Recording T} {compute' : Scope Expr → T' → Recording T'}
  {x : Recording T} {x' : Recording T'} {steps value order steps' value' order' : Prop}
  {f : Fragment T} {f' : Fragment T'}

theorem of_iff (h : Traced watched compute x steps value order f) (hsteps : steps ↔ steps')
    (hvalue : value ↔ value') (horder : order ↔ order') :
    Traced watched compute x steps' value' order' f := by
  rw [← propext hsteps, ← propext hvalue, ← propext horder]
  exact h

/-- A value that performs some calls, and no steps. -/
theorem pure {t : T} {calls : List Expr} (hcompute : compute [] t = record calls t)
    (hx : x = record calls t) :
    Traced watched compute x False (calls ≠ []) True (.pure t) := by
  refine ⟨⟨[], calls, calls⟩, ⟨?_, hcompute, hx, .refl _⟩, by simp, Iff.rfl, fun _ => rfl, ?_⟩
  · exact pure_eq_record
  · exact fun _ _ => trivial

theorem zip (h : Traced watched compute x steps value order f)
    (h' : Traced watched compute' x' steps' value' order' f') :
    Traced watched (Stage.both compute compute') (do let t ← x; return (t, ← x')) (steps ∨ steps')
      (value ∨ value') (order ∧ order' ∧ (value → ¬ steps')) (f.zip f') := by
  obtain ⟨c, hc, hsteps, hvalue, hto, hfrom⟩ := h
  obtain ⟨c', hc', hsteps', hvalue', hto', hfrom'⟩ := h'
  refine ⟨c.beside c', ⟨?_, ?_, ?_, hc.complete.beside hc'.complete⟩, ?_, ?_, ?_, ?_⟩
  · show Stmt.runAll _ [] (f.steps ++ f'.steps) = _
    rw [Stmt.runAll_append, hc.run_steps]
    exact record_bind hc'.run_steps
  · show Stage.both compute compute' [] (f.value, f'.value) = _
    rw [Stage.both, hc.compute_value, hc'.compute_value]
    exact record_bind record_bind_pure
  · rw [hc.meaning, hc'.meaning]
    exact record_bind record_bind_pure
  · rw [← hsteps, ← hsteps']
    exact Calls.append_ne_nil_iff
  · rw [← hvalue, ← hvalue']
    exact Calls.append_ne_nil_iff
  · rintro ⟨horder, horder', hrow⟩
    exact (hto horder).beside (hto' horder') (by rwa [hvalue, hsteps'])
  · intro hnodup horder
    obtain ⟨hfirst, hsecond, hrow⟩ := Calls.inOrder_of_beside hc.complete hnodup horder
    obtain ⟨hn, hn', -⟩ := List.nodup_append.1 hnodup
    rw [hvalue, hsteps'] at hrow
    exact ⟨hfrom hn hfirst, hfrom' hn' hsecond, hrow⟩

/-- What is made of a value may perform calls of its own, after all others. -/
theorem map (h : Traced watched compute x steps value order f) {g : T → T'}
    {calls : List Expr} {k : T → Recording T'} (hk : k f.value = record calls (g f.value))
    (hcompute : compute' [] (g f.value) = compute [] f.value >>= k) :
    Traced watched compute' (x >>= k) steps (value ∨ calls ≠ []) order (f.map g) := by
  obtain ⟨c, hc, hsteps, hvalue, hto, hfrom⟩ := h
  have hcall : Calls.Complete ⟨[], calls, calls⟩ := .refl _
  refine ⟨c.beside ⟨[], calls, calls⟩, ⟨?_, ?_, ?_, hc.complete.beside hcall⟩, ?_, ?_, ?_, ?_⟩
  · rw [Calls.beside, List.append_nil]
    exact hc.run_steps
  · show compute' [] (g f.value) = _
    rw [hcompute, hc.compute_value]
    exact record_bind hk
  · rw [hc.meaning]
    exact record_bind hk
  · simpa [Calls.beside] using hsteps
  · rw [← hvalue]
    exact Calls.append_ne_nil_iff
  · exact fun horder => (hto horder).beside rfl fun _ h => h rfl
  · intro hnodup horder
    have hfirst := (Calls.inOrder_of_beside hc.complete hnodup horder).1
    exact hfrom (List.nodup_append.1 hnodup).1 hfirst

theorem followedBy {x x' : Recording Expr} {f f' : Fragment Expr}
    (h : Traced watched (Expr.eval (recorder watched)) x steps value order f)
    (h' : Traced watched (Expr.eval (recorder watched)) x' steps' value' order' f') :
    Traced watched (Expr.eval (recorder watched)) (do let _ ← x; x') (steps ∨ value ∨ steps') value'
      (order ∧ order') (f.followedBy f') := by
  obtain ⟨c, hc, hsteps, hvalue, hto, hfrom⟩ := h
  obtain ⟨c', hc', hsteps', hvalue', hto', hfrom'⟩ := h'
  have hcomplete := hc.complete.before hc'.complete
  refine ⟨c.before c', ⟨?_, hc'.compute_value, ?_, hcomplete⟩, ?_, hvalue', ?_, ?_⟩
  · show Stmt.runAll _ [] ((f.steps ++ [.eval f.value]) ++ f'.steps) = _
    have heval : Stmt.runAll (recorder watched) [] [.eval f.value] = record c.value (.next []) := by
      rw [Stmt.runAll_singleton, Stmt.run, hc.compute_value]
      exact record_bind_pure
    have hfirst : Stmt.runAll (recorder watched) [] (f.steps ++ [.eval f.value]) =
        record (c.steps ++ c.value) (.next []) := by
      rw [Stmt.runAll_append, hc.run_steps]
      exact record_bind heval
    rw [Stmt.runAll_append, hfirst]
    exact record_bind hc'.run_steps
  · rw [hc.meaning, hc'.meaning]
    exact record_bind rfl
  · rw [← hsteps, ← hvalue, ← hsteps']
    rw [← or_assoc, ← Calls.append_ne_nil_iff, ← Calls.append_ne_nil_iff]
    rfl
  · rintro ⟨horder, horder'⟩
    exact (Calls.inOrder_before_iff hc.complete).2 ⟨hto horder, hto' horder'⟩
  · intro hnodup horder
    obtain ⟨hfirst, hsecond⟩ := (Calls.inOrder_before_iff hc.complete).1 horder
    obtain ⟨hn, hn', -⟩ := List.nodup_append.1 hnodup
    exact ⟨hfrom hn hfirst, hfrom' hn' hsecond⟩

theorem andReturn (h : Traced watched compute x steps value order f) {g : T → T'}
    (hcompute : compute' [] (g f.value) = compute [] f.value >>= fun t => Pure.pure (g t)) :
    Traced watched compute' (x >>= fun t => Pure.pure (g t)) steps value order (f.map g) := by
  refine (h.map pure_eq_record hcompute).of_iff Iff.rfl ?_ Iff.rfl
  simp

end Traced

/-- Items in a row are in order if each of them is and no steps overtake a value. -/
theorem traced_collect {α : Type} (compute : Scope Expr → T → Recording T)
    (computeAll : Scope Expr → List T → Recording (List T)) (hnil : computeAll [] [] = pure [])
    (hcons : ∀ t ts, computeAll [] (t :: ts) = (do
      let t ← compute [] t
      return t :: (← computeAll [] ts)))
    {x : α → Recording T} {steps value order : α → Prop} {items : List α} {fs : List (Fragment T)}
    {s s' : NameSupply}
    (h : Chain (fun a _ f _ => Traced watched compute (x a) (steps a) (value a) (order a) f) items s
      fs s') :
    Traced watched computeAll (inOrder (items.map x)) (∃ a ∈ items, steps a)
      (∃ a ∈ items, value a) ((∀ a ∈ items, order a) ∧ InRow value steps items)
      (Fragment.collect fs) := by
  induction h with
  | nil =>
    refine (Traced.pure (hnil.trans pure_eq_record) pure_eq_record).of_iff ?_ ?_ ?_
    · simp
    · simp
    · simp [InRow]
  | @cons a items f fs _ _ _ ha _ ih =>
    have hvalue : computeAll [] (f.value :: fs.map Fragment.value) =
        Stage.both compute computeAll [] (f.value, fs.map Fragment.value) >>=
          fun p => pure (p.1 :: p.2) := by
      simp only [hcons, Stage.both, bind_assoc, pure_bind]
    have hzip := (ha.zip ih).andReturn (g := fun p => p.1 :: p.2) hvalue
    simp only [bind_assoc, pure_bind] at hzip
    refine hzip.of_iff ?_ ?_ ?_
    · simp
    · simp
    · rw [InRow, InRow, List.pairwise_cons, List.forall_mem_cons]
      constructor
      · rintro ⟨ho, ⟨hos, hrow⟩, hcross⟩
        exact ⟨⟨ho, hos⟩, fun b hb hv hs => hcross hv ⟨b, hb, hs⟩, hrow⟩
      · rintro ⟨⟨ho, hos⟩, hcross, hrow⟩
        refine ⟨ho, ⟨hos, hrow⟩, ?_⟩
        rintro hv ⟨b, hb, hs⟩
        exact hcross b hb hv hs

end Traced

/-! ## Calls of nodes -/

namespace Node

/-- What is left of a node when its steps are carried out still performs a call. -/
inductive CallsInValue (watched : Expr → Bool) : Node → Prop
  | keyword {text : String} : watched (.name "Keyword") = true →
      CallsInValue watched (.keyword text)
  | callee {e : Element Node} : Form.ofName? e.name = none → watched (.name e.name) = true →
      CallsInValue watched (.element e)
  | operand {n a : Node} : a ∈ n.operands false → a.CallsInValue watched → n.CallsInValue watched
  | last {e : Element Node} {a : Node} : Form.ofName? e.name = some .sequence →
      e.children.getLast? = some a → a.CallsInValue watched → CallsInValue watched (.element e)

/-- The steps of a node perform a call. -/
inductive CallsInSteps (watched : Expr → Bool) : Node → Prop
  | operand {n a : Node} : a ∈ n.operands false → a.CallsInSteps watched → n.CallsInSteps watched
  | child {e : Element Node} {a : Node} : Form.ofName? e.name = some .sequence →
      a ∈ e.children → a.CallsInSteps watched → CallsInSteps watched (.element e)
  | statement {e : Element Node} {a : Node} : Form.ofName? e.name = some .sequence →
      a ∈ e.children.dropLast → a.CallsInValue watched → CallsInSteps watched (.element e)

/-- Nowhere in a node do steps that perform a call overtake a value that performs one. -/
def CallsInOrder (watched : Expr → Bool) : Node → Prop :=
  KeepsApart false (CallsInValue watched) (CallsInSteps watched)

/-- A node without conditionals and functions. -/
def Plain (n : Node) : Prop :=
  ∀ e : Element Node, (Node.element e).Within n →
    Form.ofName? e.name ≠ some .conditional ∧ Form.ofName? e.name ≠ some .function

variable {watched : Expr → Bool}

theorem Plain.of_part {n p : Node} (h : n.Plain) (hp : p ∈ n.parts) : p.Plain :=
  fun e he => h e (.part hp he)

theorem plain_of_parts {n : Node} (hn : ∀ e, n = .element e →
      Form.ofName? e.name ≠ some .conditional ∧ Form.ofName? e.name ≠ some .function)
    (hparts : ∀ p ∈ n.parts, p.Plain) : n.Plain := by
  intro e he
  cases he with
  | refl => exact hn e rfl
  | part hp he => exact hparts _ hp e he

/-- A node has the trace that is told by its calls. -/
def IsTraced (watched : Expr → Bool) (n : Node) (_ : NameSupply) (f : Fragment Expr)
    (_ : NameSupply) : Prop :=
  Traced watched (Expr.eval (recorder watched)) (n.meaning (recorder watched))
    (n.CallsInSteps watched) (n.CallsInValue watched) (n.CallsInOrder watched) f

/-! ## Where a node performs its calls -/

variable {n : Node} {nodes : List Node}

theorem callsInSteps_iff (hoperands : n.operands false = nodes)
    (hn : ∀ e, n = .element e → Form.ofName? e.name ≠ some .sequence) :
    n.CallsInSteps watched ↔ ∃ a ∈ nodes, a.CallsInSteps watched := by
  subst hoperands
  constructor
  · intro h
    cases h with
    | operand ha h => exact ⟨_, ha, h⟩
    | child hform | statement hform => exact absurd hform (hn _ rfl)
  · rintro ⟨a, ha, h⟩
    exact .operand ha h

/-- What performs no call of its own leaves the calls to its operands. -/
theorem callsInValue_iff (hoperands : n.operands false = nodes)
    (hn : ∀ e, n = .element e → Form.ofName? e.name ≠ none ∧ Form.ofName? e.name ≠ some .sequence)
    (hkeyword : ∀ text, n ≠ .keyword text) :
    n.CallsInValue watched ↔ ∃ a ∈ nodes, a.CallsInValue watched := by
  subst hoperands
  constructor
  · intro h
    cases h with
    | keyword => exact absurd rfl (hkeyword _)
    | callee hform => exact absurd hform (hn _ rfl).1
    | operand ha h => exact ⟨_, ha, h⟩
    | last hform => exact absurd hform (hn _ rfl).2
  · rintro ⟨a, ha, h⟩
    exact .operand ha h

theorem callsInOrder_iff (hoperands : n.operands false = nodes) (hparts : n.parts = nodes) :
    n.CallsInOrder watched ↔ (∀ a ∈ nodes, a.CallsInOrder watched) ∧
      InRow (CallsInValue watched) (CallsInSteps watched) nodes := by
  rw [CallsInOrder, keepsApart_iff, hoperands, hparts, and_comm]

/-! ## Traces of nodes -/

variable {s s₁ s' : NameSupply}

theorem isTraced_leaf {t : Expr} {calls : List Expr} (hoperands : n.operands false = [])
    (hparts : n.parts = []) (hn : ∀ e, n ≠ .element e)
    (heval : t.eval (recorder watched) [] = record calls t)
    (hmeaning : n.meaning (recorder watched) = record calls t)
    (hvalue : calls ≠ [] ↔ n.CallsInValue watched) : n.IsTraced watched s (.pure t) s := by
  refine (Traced.pure heval hmeaning).of_iff ?_ hvalue ?_
  · rw [callsInSteps_iff hoperands fun e he => absurd he (hn e)]
    simp
  · rw [callsInOrder_iff hoperands hparts]
    simp [InRow]

/-- A leaf that is no keyword performs no call. -/
theorem isTraced_literal {t : Expr} (hoperands : n.operands false = []) (hparts : n.parts = [])
    (hn : ∀ e, n ≠ .element e) (hkeyword : ∀ text, n ≠ .keyword text)
    (heval : t.eval (recorder watched) [] = pure t)
    (hmeaning : n.meaning (recorder watched) = pure t) : n.IsTraced watched s (.pure t) s := by
  refine isTraced_leaf hoperands hparts hn (heval.trans pure_eq_record)
    (hmeaning.trans pure_eq_record) ?_
  rw [callsInValue_iff hoperands (fun e he => absurd he (hn e)) hkeyword]
  simp

theorem isTraced_keyword {text : String} :
    (Node.keyword text).IsTraced watched s (.pure (.keyword text)) s := by
  have hcall : (recorder watched).invoke ((recorder watched).read "Keyword") (pure [.str text])
      (pure []) = record (watchedCall watched "Keyword" [.str text] []) (.keyword text) := by
    rw [invoke_recorder]
    rfl
  refine isTraced_leaf rfl rfl (by rintro _ ⟨⟩) hcall hcall ?_
  rw [watchedCall_ne_nil_iff]
  constructor
  · exact .keyword
  · intro h
    cases h with
    | keyword h => exact h
    | operand ha => cases ha

/-! ## Traces of nodes with operands -/

variable {fs : List (Fragment Expr)}

theorem traced_operands (h : Chain (IsTraced watched) nodes s fs s') :
    Traced watched (Expr.evalAll (recorder watched)) (inOrder (meanings (recorder watched) nodes))
      (∃ a ∈ nodes, a.CallsInSteps watched) (∃ a ∈ nodes, a.CallsInValue watched)
      ((∀ a ∈ nodes, a.CallsInOrder watched) ∧
        InRow (CallsInValue watched) (CallsInSteps watched) nodes) (Fragment.collect fs) := by
  rw [meanings_eq_map]
  exact traced_collect (Expr.eval (recorder watched)) (Expr.evalAll (recorder watched))
    (x := meaning (recorder watched)) rfl (fun _ _ => rfl) h

theorem traced_fields {fields : List (String × Node)} {gs : List (Fragment (String × Expr))}
    (h : Chain (KeyedBy (IsTraced watched)) fields s gs s') :
    Traced watched (Expr.evalFields (recorder watched))
      (fieldsInOrder (fieldMeanings (recorder watched) fields))
      (∃ a ∈ fields.map Prod.snd, a.CallsInSteps watched)
      (∃ a ∈ fields.map Prod.snd, a.CallsInValue watched)
      ((∀ a ∈ fields.map Prod.snd, a.CallsInOrder watched) ∧
        InRow (CallsInValue watched) (CallsInSteps watched) (fields.map Prod.snd))
      (Fragment.collect gs) := by
  have hchain : Chain (fun field _ g _ => Traced watched (Expr.evalField (recorder watched))
      (fieldMeaning (recorder watched) field) (field.2.CallsInSteps watched)
      (field.2.CallsInValue watched) (field.2.CallsInOrder watched) g) fields s gs s' := by
    refine h.imp fun field _ _ g _ ⟨f, hf, hg⟩ => ?_
    rw [hg, fieldMeaning, map_eq_pure_bind]
    exact hf.andReturn (map_eq_pure_bind _ _)
  rw [fieldsInOrder_eq]
  refine (traced_collect (Expr.evalField (recorder watched)) (Expr.evalFields (recorder watched))
    rfl (Expr.evalFields_cons _ _) hchain).of_iff exists_field_iff exists_field_iff ?_
  rw [InRow, InRow, List.pairwise_map, List.forall_mem_map]

theorem isTraced_list (h : Chain (IsTraced watched) nodes s fs s') :
    (Node.list nodes).IsTraced watched s ((Fragment.collect fs).map .list) s' := by
  refine ((traced_operands h).andReturn (g := Expr.list) rfl).of_iff ?_ ?_ ?_
  · rw [callsInSteps_iff rfl (by rintro _ ⟨⟩)]
    rfl
  · rw [callsInValue_iff rfl (by rintro _ ⟨⟩) (by rintro _ ⟨⟩)]
    rfl
  · rw [callsInOrder_iff rfl rfl]
    rfl

variable {name : String} {attributes : List (String × Node)} {children : List Node}
  {position : Position}

theorem isTraced_call {args : List (Fragment Expr)} {keywords : List (Fragment (String × Expr))}
    (hform : Form.ofName? name = none) (hargs : Chain (IsTraced watched) children s args s₁)
    (hkeywords : Chain (KeyedBy (IsTraced watched)) attributes s₁ keywords s') :
    (Node.element ⟨name, attributes, children, position⟩).IsTraced watched s
      (((Fragment.collect args).zip (Fragment.collect keywords)).map fun (args, keywords) =>
        .call (.name name) args keywords) s' := by
  have hoperands : (Node.element ⟨name, attributes, children, position⟩).operands false =
      children ++ attributes.map Prod.snd := operands_call false hform
  have hparts : (Node.element ⟨name, attributes, children, position⟩).parts =
      children ++ attributes.map Prod.snd := by
    simp [parts, hform]
  have hvalue : (Expr.call (.name name) (Fragment.collect args).value
      (Fragment.collect keywords).value).eval (recorder watched) [] =
        Stage.both (Expr.evalAll (recorder watched)) (Expr.evalFields (recorder watched)) []
          ((Fragment.collect args).value, (Fragment.collect keywords).value) >>= fun p =>
            record (watchedCall watched name p.1 p.2) (.call (.name name) p.1 p.2) :=
    invoke_recorder name _ _
  have hcall := ((traced_operands hargs).zip (traced_fields hkeywords)).map
    (g := fun p => Expr.call (.name name) p.1 p.2) rfl hvalue
  rw [← invoke_recorder, ← meaning_call (recorder watched) hform] at hcall
  refine hcall.of_iff ?_ ?_ ?_
  · rw [callsInSteps_iff hoperands (by rintro _ ⟨⟩; simp [hform])]
    simp [or_and_right, exists_or]
  · rw [watchedCall_ne_nil_iff]
    constructor
    · rintro ((⟨a, ha, h⟩ | ⟨a, ha, h⟩) | h)
      · exact .operand (hoperands ▸ List.mem_append_left _ ha) h
      · exact .operand (hoperands ▸ List.mem_append_right _ ha) h
      · exact .callee hform h
    · intro h
      cases h with
      | callee _ h => exact .inr h
      | operand ha h =>
        rcases List.mem_append.1 (hoperands ▸ ha) with ha | ha
        · exact .inl (.inl ⟨_, ha, h⟩)
        · exact .inl (.inr ⟨_, ha, h⟩)
      | last hseq => rw [hform] at hseq; cases hseq
  · rw [callsInOrder_iff hoperands hparts, InRow.append_iff, List.forall_mem_append]
    constructor
    · rintro ⟨⟨h, hrow⟩, ⟨h', hrow'⟩, hcross⟩
      exact ⟨⟨h, h'⟩, hrow, hrow', hcross⟩
    · rintro ⟨⟨h, h'⟩, hrow, hrow', hcross⟩
      exact ⟨⟨h, hrow⟩, ⟨h', hrow'⟩, hcross⟩

theorem isTraced_operator {op : BinOp} {left right : Node} {l r : Fragment Expr}
    (hform : Form.ofName? name = some (.operator op)) (hl : left.IsTraced watched s l s₁)
    (hr : right.IsTraced watched s₁ r s') :
    (Node.element ⟨name, [], [left, right], position⟩).IsTraced watched s
      ((l.zip r).map fun (left, right) => .binOp op left right) s' := by
  have hoperands : (Node.element ⟨name, [], [left, right], position⟩).operands false =
      [left, right] := operands_operator false hform
  have hparts : (Node.element ⟨name, [], [left, right], position⟩).parts = [left, right] := by
    simp [parts, hform]
  have hvalue : (Expr.binOp op l.value r.value).eval (recorder watched) [] =
      Stage.both (Expr.eval (recorder watched)) (Expr.eval (recorder watched)) []
        (l.value, r.value) >>= fun p => pure (.binOp op p.1 p.2) := by
    simp only [Expr.eval, Stage.both, bind_assoc, pure_bind]
    rfl
  have hmeaning : (Node.element ⟨name, [], [left, right], position⟩).meaning (recorder watched) =
      (do
        let a ← left.meaning (recorder watched)
        return (a, ← right.meaning (recorder watched))) >>= fun p => pure (.binOp op p.1 p.2) := by
    simp only [meaning_operator (recorder watched) hform, bind_assoc, pure_bind]
    rfl
  have hzip := (hl.zip hr).andReturn (g := fun p => Expr.binOp op p.1 p.2) hvalue
  rw [← hmeaning] at hzip
  refine hzip.of_iff ?_ ?_ ?_
  · rw [callsInSteps_iff hoperands (by rintro _ ⟨⟩; simp [hform])]
    simp
  · rw [callsInValue_iff hoperands (by rintro _ ⟨⟩; simp [hform]) (by rintro _ ⟨⟩)]
    simp
  · rw [callsInOrder_iff hoperands hparts]
    simp [InRow, and_assoc]

/-! ## Traces of sequences -/

theorem traced_sequence (hne : nodes ≠ []) (h : Chain (IsTraced watched) nodes s fs s') :
    Traced watched (Expr.eval (recorder watched))
      (lastInOrder (recorder watched) (meanings (recorder watched) nodes))
      ((∃ a ∈ nodes, a.CallsInSteps watched) ∨ ∃ a ∈ nodes.dropLast, a.CallsInValue watched)
      (∃ a, nodes.getLast? = some a ∧ a.CallsInValue watched)
      (∀ a ∈ nodes, a.CallsInOrder watched) (Fragment.sequence fs) := by
  induction h with
  | nil => exact absurd rfl hne
  | @cons n nodes f fs _ _ _ hn hrest ih =>
    cases hrest with
    | nil =>
      refine Traced.of_iff hn ?_ ?_ ?_
      · simp
      · simp
      · simp
    | @cons next rest g gs _ _ _ hnext hrest =>
      refine (Traced.followedBy hn (ih (List.cons_ne_nil _ _))).of_iff ?_ ?_ ?_
      · rw [List.dropLast_cons_of_ne_nil (List.cons_ne_nil _ _)]
        simp only [List.mem_cons (b := n), or_and_right, exists_or, exists_eq_left]
        simp only [or_assoc, or_left_comm]
      · rw [List.getLast?_cons_cons]
      · rw [List.forall_mem_cons (a := n)]

theorem isTraced_sequence (hform : Form.ofName? name = some .sequence) (hne : children ≠ [])
    (h : Chain (IsTraced watched) children s fs s') :
    (Node.element ⟨name, [], children, position⟩).IsTraced watched s (Fragment.sequence fs) s' := by
  have hoperands : (Node.element ⟨name, [], children, position⟩).operands false = [] := by
    simp [operands, hform]
  have hparts : (Node.element ⟨name, [], children, position⟩).parts = children := by
    simp [parts, hform]
  have hsequence := traced_sequence hne h
  rw [← meaning_sequence (recorder watched) hform] at hsequence
  refine hsequence.of_iff ?_ ?_ ?_
  · constructor
    · rintro (⟨a, ha, h⟩ | ⟨a, ha, h⟩)
      · exact .child hform ha h
      · exact .statement hform ha h
    · intro h
      cases h with
      | operand ha => rw [hoperands] at ha; cases ha
      | child _ ha h => exact .inl ⟨_, ha, h⟩
      | statement _ ha h => exact .inr ⟨_, ha, h⟩
  · constructor
    · rintro ⟨a, ha, h⟩
      exact .last hform ha h
    · intro h
      cases h with
      | callee hnone => rw [hform] at hnone; cases hnone
      | operand ha => rw [hoperands] at ha; cases ha
      | last _ ha h => exact ⟨_, ha, h⟩
  · rw [CallsInOrder, keepsApart_iff, hoperands, hparts]
    exact (and_iff_right List.Pairwise.nil).symm

/-! ## Compiled nodes -/

theorem isTraced_of_compiles {f : Fragment Expr} (h : n.Compiles s f s') (hplain : n.Plain) :
    n.IsTraced watched s f s' := by
  refine compile_induction (motive := fun n s f s' => n.Plain → n.IsTraced watched s f s')
    (fun n s f s' h hplain => ?_) n s f s' h hplain
  have hparts : Compilation (IsTraced watched) n s f s' :=
    h.imp fun p hp s f s' ⟨_, htraced⟩ => htraced (hplain.of_part hp)
  clear h
  cases hparts with
  | symbol => exact isTraced_literal rfl rfl (by rintro _ ⟨⟩) (by rintro _ ⟨⟩) rfl rfl
  | keyword => exact isTraced_keyword
  | string => exact isTraced_literal rfl rfl (by rintro _ ⟨⟩) (by rintro _ ⟨⟩) rfl rfl
  | integer => exact isTraced_literal rfl rfl (by rintro _ ⟨⟩) (by rintro _ ⟨⟩) rfl rfl
  | float => exact isTraced_literal rfl rfl (by rintro _ ⟨⟩) (by rintro _ ⟨⟩) rfl rfl
  | complex => exact isTraced_literal rfl rfl (by rintro _ ⟨⟩) (by rintro _ ⟨⟩) rfl rfl
  | list hitems => exact isTraced_list hitems
  | call hform hargs hkeywords => exact isTraced_call hform hargs hkeywords
  | sequence hform hne hfs => exact isTraced_sequence hform hne hfs
  | operator hform hl hr => exact isTraced_operator hform hl hr
  | conditional hform | branches hform => exact absurd hform (hplain _ (.refl _)).1
  | lambda hform | function hform => exact absurd hform (hplain _ (.refl _)).2

theorem performed_eq {x : Recording Expr} {f : Fragment Expr} {c : Calls}
    (h : Performs watched (Expr.eval (recorder watched)) x f c) :
    f.performed watched = c.steps ++ c.value := by
  have hrun : f.run (recorder watched) [] = record (c.steps ++ c.value) f.value := by
    rw [Fragment.run, h.run_steps]
    exact record_bind h.compute_value
  rw [Fragment.performed, hrun]
  rfl

theorem calls_eq {f : Fragment Expr} {c : Calls}
    (h : Performs watched (Expr.eval (recorder watched)) (n.meaning (recorder watched)) f c) :
    n.calls watched = c.source := by
  rw [calls, h.meaning]
  rfl

/-- **The calls of a compiled node.** A fragment performs the calls of its node. It performs them in
the order of the node if no steps overtake a value, and if all calls are different, only then. -/
theorem performed_compile (watched : Expr → Bool) {f : Fragment Expr}
    (h : n.compile s = .ok f s') (hplain : n.Plain) :
    (f.performed watched).Perm (n.calls watched) ∧
      (n.CallsInOrder watched → f.performed watched = n.calls watched) ∧
      ((n.calls watched).Nodup → f.performed watched = n.calls watched →
        n.CallsInOrder watched) := by
  have htraced : n.IsTraced watched s f s' := isTraced_of_compiles h hplain
  obtain ⟨c, hc, -, -, hto, hfrom⟩ := htraced
  rw [performed_eq hc, calls_eq hc]
  exact ⟨hc.complete, hto, hfrom⟩

/-! ## Steps after a text and after a call -/

/-- Steps after a first operand: `<f>` first `<do><b/> 1</do></f>`. -/
def stepsAfter (first : Node) : Node := tag "f" [first, tag "do" [tag "b" [], .integer 1 .decimal]]

theorem stepsAfter_plain {first : Node} (h : first.Plain) : (stepsAfter first).Plain := by
  have hleaf : (Node.integer 1 .decimal).Plain :=
    plain_of_parts (by rintro _ ⟨⟩) (by rintro _ ⟨⟩)
  have hb : (tag "b" []).Plain := plain_of_parts (by rintro _ ⟨⟩; decide) (by rintro _ ⟨⟩)
  have hdo : (tag "do" [tag "b" [], .integer 1 .decimal]).Plain := by
    refine plain_of_parts (by rintro _ ⟨⟩; decide) ?_
    exact List.forall_mem_cons.2 ⟨hb, List.forall_mem_singleton.2 hleaf⟩
  refine plain_of_parts ?_ ?_
  · rintro _ ⟨⟩
    show Form.ofName? "f" ≠ _ ∧ Form.ofName? "f" ≠ _
    decide
  · exact List.forall_mem_cons.2 ⟨h, List.forall_mem_singleton.2 hdo⟩

theorem stepsAfter_text_callsInOrder (watched : Expr → Bool) :
    (stepsAfter (.string "x")).CallsInOrder watched := by
  have hleaf : ∀ n : Node, (n.operands false).length ≤ 1 → n.parts = [] → n.CallsInOrder watched :=
    fun n hn hparts => keepsApart_of_length_le hn (by simp [hparts])
  refine keepsApart_iff.2 ⟨.cons ?_ (List.pairwise_singleton _ _), ?_⟩
  · intro b _ h
    cases h with
    | operand ha => cases ha
  · refine List.forall_mem_cons.2 ⟨hleaf _ (by decide) rfl, List.forall_mem_singleton.2 ?_⟩
    refine keepsApart_of_length_le (by decide) ?_
    exact List.forall_mem_cons.2 ⟨hleaf _ (by decide) rfl,
      List.forall_mem_singleton.2 (hleaf _ (by decide) rfl)⟩

theorem performed_stepsAfter_text : ∃ f s', (stepsAfter (.string "x")).compile ⟨0⟩ = .ok f s' ∧
    (stepsAfter (.string "x")).Plain ∧ f.isPure = false ∧
    f.performed (fun _ => true) = (stepsAfter (.string "x")).calls fun _ => true := by
  have hplain : (stepsAfter (.string "x")).Plain :=
    stepsAfter_plain (plain_of_parts (by rintro _ ⟨⟩) (by rintro _ ⟨⟩))
  refine ⟨_, _, rfl, hplain, rfl, ?_⟩
  exact (performed_compile _ (s := ⟨0⟩) rfl hplain).2.1 (stepsAfter_text_callsInOrder _)

/-- After a call, the steps overtake: `b` is called before `a`. -/
theorem calls_overtaken : ∃ f s', (stepsAfter (tag "a" [])).compile ⟨0⟩ = .ok f s' ∧
    (stepsAfter (tag "a" [])).Plain ∧
    f.performed (fun _ => true) = [.call (.name "b") [] [], .call (.name "a") [] [],
      .call (.name "f") [.call (.name "a") [] [], .int 1] []] ∧
    (stepsAfter (tag "a" [])).calls (fun _ => true) = [.call (.name "a") [] [],
      .call (.name "b") [] [], .call (.name "f") [.call (.name "a") [] [], .int 1] []] ∧
    f.performed (fun _ => true) ≠ (stepsAfter (tag "a" [])).calls fun _ => true := by
  refine ⟨_, _, rfl, ?_, rfl, rfl, fun h => ?_⟩
  · exact stepsAfter_plain (plain_of_parts (by rintro _ ⟨⟩; decide) (by rintro _ ⟨⟩))
  · change [Expr.call (.name "b") [] [], _, _] = [Expr.call (.name "a") [] [], _, _] at h
    simp at h

end Node

end TagLang
