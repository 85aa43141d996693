import TagLang.Proofs.Meaning.Stage

/-!
# Compiling keeps the meaning

A node and its fragment mean the same on every backend, if the node looks up no made-up name and no
steps overtake what they must not (`Node.run_compile`).

The induction carries more than equal meanings: a compiled node has a stage (`Node.Realized`) whose
preparation does nothing if the steps of the node do nothing, and whose value is settled if the
value of the node does nothing. These are the two facts that put operands in a row.
-/

namespace TagLang

open NameSupply (Generated funcName varName)

variable {m : Type → Type} [Monad m] [LawfulMonad m] {V : Type} {B : Backend m V}
  {s s₁ s₂ s' : NameSupply}

/-! ## Stages of nodes -/

namespace Node

/-- A fragment has a stage that fits a node: it means what the node means, has nothing to prepare
if the steps of the node do nothing, and its value is settled if the node's does nothing. -/
def Realized (B : Backend m V) (n : Node) : NameSupply → Fragment Expr → NameSupply → Prop :=
  Stage.Realizes B (Expr.eval B) (n.meaning B) n.StepsAct n.ValueActs

omit [LawfulMonad m] in
theorem Realized.of_realizes {n : Node} {x : m V} {steps acts : Prop} {f : Fragment Expr}
    (h : Stage.Realizes B (Expr.eval B) x steps acts s f s') (hx : n.meaning B = x)
    (hsteps : steps → n.StepsAct) (hacts : acts → n.ValueActs) : n.Realized B s f s' := by
  rw [Realized, hx]
  exact h.mono hsteps hacts

/-! ## Lists of nodes -/

variable {nodes : List Node} {fs : List (Fragment Expr)}

theorem realizes_operands (h : Chain (Realized B) nodes s fs s')
    (hrow : InRow ValueActs StepsAct nodes) :
    Stage.Realizes B (Expr.evalAll B) (inOrder (meanings B nodes)) (∃ n ∈ nodes, n.StepsAct)
      (∃ n ∈ nodes, n.ValueActs) s (Fragment.collect fs) s' := by
  rw [meanings_eq_map]
  exact Stage.realizes_collect (Expr.eval B) (Expr.evalAll B) (x := meaning B) (fun _ => rfl)
    (fun _ _ _ => rfl) h hrow

theorem realizes_fields {fields : List (String × Node)} {gs : List (Fragment (String × Expr))}
    (h : Chain (KeyedBy (Realized B)) fields s gs s')
    (hrow : InRow ValueActs StepsAct (fields.map Prod.snd)) :
    Stage.Realizes B (Expr.evalFields B) (fieldsInOrder (fieldMeanings B fields))
      (∃ n ∈ fields.map Prod.snd, n.StepsAct) (∃ n ∈ fields.map Prod.snd, n.ValueActs) s
      (Fragment.collect gs) s' := by
  have hchain : Chain (fun field => Stage.Realizes B (Expr.evalField B) (fieldMeaning B field)
      field.2.StepsAct field.2.ValueActs) fields s gs s' := by
    refine h.imp fun field _ s g s' ⟨f, hf, hg⟩ => ?_
    rw [hg, fieldMeaning, map_eq_pure_bind]
    exact hf.andReturn (Nat.le_refl _) fun scope _ => map_eq_pure_bind _ _
  rw [fieldsInOrder_eq]
  exact (Stage.realizes_collect (Expr.evalField B) (Expr.evalFields B) (fun _ => rfl)
    (Expr.evalFields_cons B) hchain (List.pairwise_map.1 hrow)).mono exists_field_iff.1
    exists_field_iff.1

/-- Nodes one after the other are carried out one after the other. -/
theorem realizes_sequence (hne : nodes ≠ []) (h : Chain (Realized B) nodes s fs s') :
    Stage.Realizes B (Expr.eval B) (lastInOrder B (meanings B nodes))
      ((∃ n ∈ nodes, n.StepsAct) ∨ ∃ n ∈ nodes.dropLast, n.ValueActs)
      (∃ n, nodes.getLast? = some n ∧ n.ValueActs) s (Fragment.sequence fs) s' := by
  induction h with
  | nil => exact absurd rfl hne
  | @cons n nodes f fs _ _ _ hn hrest ih =>
    cases hrest with
    | nil => exact hn.mono (fun h => .inl ⟨n, List.mem_cons_self, h⟩) fun h => ⟨n, rfl, h⟩
    | @cons next rest g gs _ _ _ hnext hrest =>
      refine (hn.followedBy (ih (List.cons_ne_nil _ _))).mono ?_ ?_
      · rintro (h | h | ⟨a, ha, h⟩ | ⟨a, ha, h⟩)
        · exact .inl ⟨n, List.mem_cons_self, h⟩
        · exact .inr ⟨n, List.mem_cons_self, h⟩
        · exact .inl ⟨a, List.mem_cons_of_mem _ ha, h⟩
        · exact .inr ⟨a, List.mem_cons_of_mem _ ha, h⟩
      · rintro ⟨a, ha, h⟩
        exact ⟨a, by simpa using ha, h⟩

/-! ## Nodes with operands -/

variable {name : String} {attributes : List (String × Node)} {children : List Node}
  {position : Position}

theorem StepsAct.of_operands {n : Node} {nodes : List Node} (hnodes : n.operands false = nodes)
    (h : ∃ a ∈ nodes, a.StepsAct) : n.StepsAct := by
  obtain ⟨a, ha, hsteps⟩ := h
  exact .operand (hnodes ▸ ha) hsteps

theorem realized_list (h : Chain (Realized B) nodes s fs s')
    (hrow : InRow ValueActs StepsAct nodes) :
    (Node.list nodes).Realized B s ((Fragment.collect fs).map .list) s' := by
  refine .of_realizes ((realizes_operands h hrow).andReturn (g := Expr.list) (Nat.le_refl _)
    fun scope _ => rfl) rfl (StepsAct.of_operands rfl) ?_
  rintro ⟨a, ha, h⟩
  exact .item ha h

end Node

/-- A call whose arguments are computed together. -/
def Backend.invokeWith (B : Backend m V) (callee : m V) (args : m (List V × List (String × V))) :
    m V :=
  if B.calleeFirst then do
    let f ← callee
    let p ← args
    B.call f p.1 p.2
  else do
    let p ← args
    B.call (← callee) p.1 p.2

theorem Backend.invoke_eq_invokeWith (callee : m V) (args : m (List V))
    (keywords : m (List (String × V))) :
    B.invoke callee args keywords = B.invokeWith callee (do
      let a ← args
      return (a, ← keywords)) := by
  cases h : B.calleeFirst <;>
    simp only [invoke, invokeWith, h, Bool.false_eq_true, ↓reduceIte, bind_assoc, pure_bind]

/-- A call is made when its arguments are prepared, and so is the look-up of what it calls. Where
the look-up comes first, nothing may be prepared after it. -/
theorem Stage.Realizes.invokeWith {f : Fragment (List Expr × List (String × Expr))}
    {args : m (List V × List (String × V))} {steps acts : Prop} {name : String}
    (h : Stage.Realizes B (Stage.both (Expr.evalAll B) (Expr.evalFields B)) args steps acts s f s')
    (hname : ¬ Generated name) (hfirst : B.calleeFirst = true → ¬ steps) :
    Stage.Realizes B (Expr.eval B) (B.invokeWith (B.read name) args) steps True s
      (f.map fun (args, keywords) => .call (.name name) args keywords) s' := by
  have hvalue : ∀ scope : Scope V, scope.Clean →
      (Expr.call (.name name) f.value.1 f.value.2).eval B scope =
        B.invokeWith (B.read name)
          (Stage.both (Expr.evalAll B) (Expr.evalFields B) scope f.value) := by
    intro scope hscope
    rw [Expr.eval, Backend.invoke_eq_invokeWith, Expr.eval, hscope.lookup_eq_none hname]
    rfl
  cases hcallee : B.calleeFirst with
  | true => exact h.map (hfirst hcallee) hvalue
  | false =>
    simp only [Backend.invokeWith, hcallee, Bool.false_eq_true, ↓reduceIte] at hvalue ⊢
    exact h.andThen (Nat.le_refl _) hvalue

namespace Node

variable {fs : List (Fragment Expr)} {name : String} {attributes : List (String × Node)}
  {children : List Node} {position : Position}

theorem realized_call {args : List (Fragment Expr)} {keywords : List (Fragment (String × Expr))}
    (hform : Form.ofName? name = none) (hname : ¬ Generated name)
    (hargs : Chain (Realized B) children s args s₁)
    (hkeywords : Chain (KeyedBy (Realized B)) attributes s₁ keywords s')
    (hrow : InRow ValueActs StepsAct
      ((Node.element ⟨name, attributes, children, position⟩).operands B.calleeFirst)) :
    (Node.element ⟨name, attributes, children, position⟩).Realized B s
      (((Fragment.collect args).zip (Fragment.collect keywords)).map fun (args, keywords) =>
        .call (.name name) args keywords) s' := by
  rw [operands_call _ hform] at hrow
  obtain ⟨-, hrow, hcallee⟩ := InRow.append_iff.1 hrow
  obtain ⟨hchildren, hattributes, hcross⟩ := InRow.append_iff.1 hrow
  have hsteps : ((∃ a ∈ children, a.StepsAct) ∨ ∃ a ∈ attributes.map Prod.snd, a.StepsAct) →
      ∃ a ∈ children ++ attributes.map Prod.snd, a.StepsAct := by
    rintro (⟨a, ha, h⟩ | ⟨a, ha, h⟩)
    · exact ⟨a, List.mem_append_left _ ha, h⟩
    · exact ⟨a, List.mem_append_right _ ha, h⟩
  have hzip := ((realizes_operands hargs hchildren).zip (realizes_fields hkeywords hattributes)
    hcross).mono hsteps fun h => h
  refine .of_realizes (hzip.invokeWith hname fun hfirst => ?_) ?_
    (StepsAct.of_operands (operands_call _ hform)) fun _ => ?_
  · refine hcallee ⟨.symbol name, ?_, .symbol⟩
    rw [hfirst]
    exact List.mem_cons_self
  · rw [meaning_call B hform, Backend.invoke_eq_invokeWith]
  · exact .element (by simp [hform]) (by simp [hform])

theorem realized_operator {op : BinOp} {left right : Node} {l r : Fragment Expr}
    (hform : Form.ofName? name = some (.operator op)) (hl : left.Realized B s l s₁)
    (hr : right.Realized B s₁ r s') (hrow : InRow ValueActs StepsAct [left, right]) :
    (Node.element ⟨name, attributes, [left, right], position⟩).Realized B s
      ((l.zip r).map fun (left, right) => .binOp op left right) s' := by
  have hcross : left.ValueActs → ¬ right.StepsAct :=
    (List.pairwise_cons.1 hrow).1 right List.mem_cons_self
  have hvalue : ∀ scope : Scope V, scope.Clean → (Expr.binOp op l.value r.value).eval B scope =
      Stage.both (Expr.eval B) (Expr.eval B) scope (l.value, r.value) >>=
        fun p => B.operate op p.1 p.2 := by
    intro scope _
    simp only [Expr.eval, Stage.both, bind_assoc, pure_bind]
  refine .of_realizes ((hl.zip hr hcross).andThen (Nat.le_refl _) hvalue) ?_ ?_ fun _ => ?_
  · rw [meaning_operator B hform]
    simp only [bind_assoc, pure_bind]
  · rintro (h | h)
    · exact .of_operands (operands_operator _ hform) ⟨left, List.mem_cons_self, h⟩
    · exact .of_operands (operands_operator _ hform)
        ⟨right, List.mem_cons_of_mem _ List.mem_cons_self, h⟩
  · exact .element (by simp [hform]) (by simp [hform])

/-! ## Sequences and conditionals -/

theorem realized_sequence (hform : Form.ofName? name = some .sequence) (hne : children ≠ [])
    (h : Chain (Realized B) children s fs s') :
    (Node.element ⟨name, attributes, children, position⟩).Realized B s (Fragment.sequence fs)
      s' := by
  refine .of_realizes (realizes_sequence hne h) (meaning_sequence B hform) ?_ ?_
  · rintro (⟨a, ha, h⟩ | ⟨a, ha, h⟩)
    · exact .child hform ha h
    · exact .statement hform ha h
  · rintro ⟨a, ha, h⟩
    exact .last hform ha h

/-- What a conditional does if its test fails. -/
def elseMeaning (B : Backend m V) : List Node → m V
  | [] => pure B.nothing
  | node :: _ => node.meaning B

omit [LawfulMonad m] in
theorem meaning_otherwise {R : Node → NameSupply → Fragment Expr → NameSupply → Prop}
    {test yes : Node} {no : List Node} {n : Fragment Expr}
    (hform : Form.ofName? name = some .conditional) (h : Otherwise R no s n s') :
    (Node.element ⟨name, attributes, test :: yes :: no, position⟩).meaning B =
      B.choose (test.meaning B) (yes.meaning B) (elseMeaning B no) := by
  cases h with
  | missing => exact meaning_conditional_missing B hform
  | given _ => exact meaning_conditional B hform

theorem run_otherwise {no : List Node} {n : Fragment Expr} (h : Otherwise (Realized B) no s n s')
    {scope : Scope V} (hscope : scope.Clean) : n.run B scope = elseMeaning B no := by
  cases h with
  | missing => rw [Fragment.run_of_isPure B scope rfl]; rfl
  | given hn => exact hn.run_eq hscope

omit [LawfulMonad m] in
theorem drawn_le_otherwise {no : List Node} {n : Fragment Expr}
    (h : Otherwise (Realized B) no s n s') : s.drawn ≤ s'.drawn := by
  cases h with
  | missing => exact Nat.le_refl _
  | given hn => exact hn.drawn_le

section Conditional

variable {test yes : Node} {no : List Node} {t y n : Fragment Expr}

theorem realized_conditional (hform : Form.ofName? name = some .conditional)
    (ht : test.Realized B s t s₁) (hy : yes.Realized B s₁ y s₂)
    (hn : Otherwise (Realized B) no s₂ n s') (hyp : y.isPure = true) (hnp : n.isPure = true) :
    (Node.element ⟨name, attributes, test :: yes :: no, position⟩).Realized B s
      (t.map fun test => .ifExp test y.value n.value) s' := by
  have hs : s₁.drawn ≤ s'.drawn := Nat.le_trans hy.drawn_le (drawn_le_otherwise hn)
  have hvalue : ∀ scope : Scope V, scope.Clean →
      (Expr.ifExp t.value y.value n.value).eval B scope =
        t.value.eval B scope >>= fun v => B.truth v >>= fun b =>
          if b then yes.meaning B else elseMeaning B no := by
    intro scope hscope
    rw [Expr.eval, ← Fragment.run_of_isPure B scope hyp, ← Fragment.run_of_isPure B scope hnp,
      hy.run_eq hscope, run_otherwise hn hscope]
    rfl
  exact .of_realizes (ht.andThen hs hvalue) (meaning_otherwise hform hn) (.test hform rfl)
    fun _ => .element (by simp [hform]) (by simp [hform])

theorem realized_branches (hB : B.CallsBodies) (hform : Form.ofName? name = some .conditional)
    (ht : test.Realized B s t s₁) (hy : yes.Realized B s₁ y s₂)
    (hn : Otherwise (Realized B) no s₂ n s') (var : String) :
    (Node.element ⟨name, attributes, test :: yes :: no, position⟩).Realized B s
      (t.andThen fun test =>
        ⟨[.define (funcName (s'.drawn + 1)) {}
          [.branch test (y.assignTo var) (n.assignTo var), .ret (.name var)]],
          .call (.name (funcName (s'.drawn + 1))) [] []⟩) ⟨s'.drawn + 2⟩ := by
  have hs : s₁.drawn ≤ s'.drawn := Nat.le_trans hy.drawn_le (drawn_le_otherwise hn)
  exact .of_realizes (ht.branches hB hs var (fun _ => hy.run_eq) fun _ => run_otherwise hn)
    (meaning_otherwise hform hn) (.test hform rfl)
    fun _ => .element (by simp [hform]) (by simp [hform])

end Conditional

/-! ## Functions -/

section Function

variable {entries body : List Node} {params : Params Expr}
  {defaults : List (Fragment (String × Expr))}

theorem realized_lambda (hform : Form.ofName? name = some .function)
    (hparams : Params.ofNodes entries = .ok params) (hne : body ≠ [])
    (hdefaults : Chain (KeyedBy (Realized B)) attributes s defaults s₁)
    (hbody : Chain (Realized B) body s₁ fs s') (hpure : (Fragment.sequence fs).isPure = true)
    (hneeds : ¬ SequenceNeedsSteps body)
    (hrow : InRow ValueActs StepsAct (attributes.map Prod.snd)) :
    (Node.element ⟨name, attributes, .list entries :: body, position⟩).Realized B s
      ⟨(Fragment.collect defaults).steps,
        .lambda { params with keywords := (Fragment.collect defaults).value }
          (Fragment.sequence fs).value⟩ s' := by
  have hbody := realizes_sequence hne hbody
  have hvalue : ∀ scope : Scope V, scope.Clean →
      (Expr.lambda { params with keywords := (Fragment.collect defaults).value }
          (Fragment.sequence fs).value).eval B scope =
        Expr.evalFields B scope (Fragment.collect defaults).value >>= fun ds =>
          pure (B.function ⟨params.positional, params.rest, ds⟩
            (lastInOrder B (meanings B body))) := by
    intro scope hscope
    rw [Expr.eval, ← Fragment.run_of_isPure B scope hpure, hbody.run_eq hscope]
  refine .of_realizes ((realizes_fields hdefaults hrow).andReturn
    (g := fun keywords => Expr.lambda { params with keywords } (Fragment.sequence fs).value)
    hbody.drawn_le hvalue) (meaning_function B hform hparams)
    (StepsAct.of_operands (operands_function _ hform)) ?_
  rintro ⟨a, ha, h⟩
  exact .default hform hneeds ha h

theorem realized_function (hform : Form.ofName? name = some .function)
    (hparams : Params.ofNodes entries = .ok params) (hne : body ≠ [])
    (hdefaults : Chain (KeyedBy (Realized B)) attributes s defaults s₁)
    (hbody : Chain (Realized B) body s₁ fs s') (hneeds : SequenceNeedsSteps body)
    (hrow : InRow ValueActs StepsAct (attributes.map Prod.snd)) :
    (Node.element ⟨name, attributes, .list entries :: body, position⟩).Realized B s
      ⟨(Fragment.collect defaults).steps ++ [.define (funcName (s'.drawn + 1))
        { params with keywords := (Fragment.collect defaults).value }
        (Fragment.sequence fs).functionBody], .name (funcName (s'.drawn + 1))⟩ ⟨s'.drawn + 1⟩ := by
  have hbody := realizes_sequence hne hbody
  refine .of_realizes ((realizes_fields hdefaults hrow).define hbody.drawn_le params
    fun _ => hbody.run_eq) (meaning_function B hform hparams) ?_ False.elim
  rintro (h | ⟨a, ha, h⟩)
  · exact .of_operands (operands_function _ hform) h
  · exact .default hform hneeds ha h

end Function

/-! ## Compiled nodes -/

theorem realized_symbol {name : String} (hname : ¬ Generated name) :
    (Node.symbol name).Realized B s (.pure (.name name)) s := by
  refine .pure (fun scope hscope => ?_) fun hn => absurd .symbol hn
  rw [Expr.eval, hscope.lookup_eq_none hname, meaning]

theorem realized_keyword {text : String} :
    (Node.keyword text).Realized B s (.pure (.keyword text)) s := by
  refine .pure (fun scope hscope => ?_) fun hn => absurd .keyword hn
  have hlookup := hscope.lookup_eq_none NameSupply.not_generated_keyword
  simp only [Expr.keyword, Expr.eval, Expr.evalAll, Expr.evalFields, hlookup, meaning, pure_bind]

theorem sequenceNeedsSteps_iff {body : List Node} (hne : body ≠ [])
    (hbody : Chain Compiles body s fs s') :
    (Fragment.sequence fs).isPure = true ↔ ¬ SequenceNeedsSteps body :=
  isPure_sequence_iff hne (hbody.imp fun _ _ _ _ _ h => isPure_iff h)

/-- **Every compiled node has a stage that fits it.** -/
theorem realized_of_compiles (hB : B.CallsBodies) {n : Node} {f : Fragment Expr}
    (h : n.Compiles s f s') (hnames : ∀ name ∈ n.reads, ¬ Generated name)
    (hsafe : n.HoistSafe B.calleeFirst) : n.Realized B s f s' := by
  refine compile_induction (motive := fun n s f s' => (∀ name ∈ n.reads, ¬ Generated name) →
    n.HoistSafe B.calleeFirst → n.Realized B s f s') (fun n s f s' h hnames hsafe => ?_)
    n s f s' h hnames hsafe
  have hsafe := keepsApart_iff.1 hsafe
  have hrow := hsafe.1
  -- whether the body of a function is pure is a fact about compiled nodes, so both are kept
  have hparts : Compilation (fun n s f s' => n.Compiles s f s' ∧ n.Realized B s f s') n s f s' :=
    h.imp fun p hp s f s' ⟨hcompiles, hrealized⟩ =>
      ⟨hcompiles, hrealized (fun name h => hnames name (mem_reads_of_part hp h)) (hsafe.2 p hp)⟩
  clear h
  cases hparts with
  | symbol => exact realized_symbol (hnames _ List.mem_cons_self)
  | keyword => exact realized_keyword
  | string => exact .pure (fun _ _ => rfl) fun _ => ⟨_, rfl⟩
  | integer => exact .pure (fun _ _ => rfl) fun _ => ⟨_, rfl⟩
  | float => exact .pure (fun _ _ => rfl) fun _ => ⟨_, rfl⟩
  | complex => exact .pure (fun _ _ => rfl) fun _ => ⟨_, rfl⟩
  | list hitems => exact realized_list (hitems.imp fun _ _ _ _ _ h => h.2) hrow
  | call hform hargs hkeywords =>
    exact realized_call hform (hnames _ (by rw [reads_element]; simp [hform]))
      (hargs.imp fun _ _ _ _ _ h => h.2) (chain_keyedBy_imp hkeywords fun _ _ _ _ _ h => h.2) hrow
  | sequence hform hne hfs =>
    exact realized_sequence hform hne (hfs.imp fun _ _ _ _ _ h => h.2)
  | operator hform hl hr =>
    rw [operands_operator _ hform] at hrow
    exact realized_operator hform hl.2 hr.2 hrow
  | conditional hform ht hy hn hyp hnp =>
    exact realized_conditional hform ht.2 hy.2 (otherwise_imp hn fun _ _ _ _ _ h => h.2) hyp hnp
  | branches hform ht hy hn _ =>
    exact realized_branches hB hform ht.2 hy.2 (otherwise_imp hn fun _ _ _ _ _ h => h.2) _
  | lambda hform hparams hne hds hfs _ hp =>
    rw [operands_function _ hform] at hrow
    have hneeds := (sequenceNeedsSteps_iff hne (hfs.imp fun _ _ _ _ _ h => h.1)).1 hp
    exact realized_lambda hform hparams hne (chain_keyedBy_imp hds fun _ _ _ _ _ h => h.2)
      (hfs.imp fun _ _ _ _ _ h => h.2) hp hneeds hrow
  | function hform hparams hne hds hfs _ hp =>
    rw [operands_function _ hform] at hrow
    have hneeds := mt (sequenceNeedsSteps_iff hne (hfs.imp fun _ _ _ _ _ h => h.1)).2 (by simp [hp])
    exact realized_function hform hparams hne (chain_keyedBy_imp hds fun _ _ _ _ _ h => h.2)
      (hfs.imp fun _ _ _ _ _ h => h.2) (Classical.not_not.1 hneeds) hrow

/-- **Compiling keeps the meaning.** Whatever the backend is, if calling a function without
parameters carries out its body: the fragment of a node, in any scope of made-up names, does what
the node does and gives what the node gives. -/
theorem run_compile (hB : B.CallsBodies) {n : Node} {f : Fragment Expr}
    (h : n.compile s = .ok f s') (hnames : ∀ name ∈ n.reads, ¬ Generated name)
    (hsafe : n.HoistSafe B.calleeFirst) {scope : Scope V} (hscope : scope.Clean) :
    f.run B scope = n.meaning B :=
  (realized_of_compiles hB h hnames hsafe).run_eq hscope

end Node

/-! ## A machine whose states hold values -/

/-- A computation only adds to what is stored: what it gives and adds does not hang on what is there
already. -/
def Adds {α β : Type} (x : StateM (List α) β) : Prop :=
  ∀ store, x.run store = ((x.run []).1, (x.run []).2 ++ store)

namespace Adds

variable {α β γ : Type}

theorem pure (b : β) : Adds (pure b : StateM (List α) β) := fun _ => rfl

theorem bind {x : StateM (List α) β} {f : β → StateM (List α) γ} (hx : Adds x)
    (hf : ∀ b, Adds (f b)) : Adds (x >>= f) := by
  intro store
  have hrun : ∀ s, (x >>= f).run s = (f (x.run s).1).run (x.run s).2 := fun _ => rfl
  rw [hrun, hrun, hx store, hf _ (_ ++ store), hf _ (x.run []).2, List.append_assoc]

theorem map {x : StateM (List α) β} (hx : Adds x) (f : β → γ) : Adds (f <$> x) := by
  rw [map_eq_pure_bind]
  exact hx.bind fun b => .pure (f b)

end Adds

/-- Whatever a backend does, it only adds to what is stored. -/
structure Backend.OnlyAdds {α : Type} (B : Backend (StateM (List α)) V) : Prop where
  read : ∀ name, Adds (B.read name)
  operate : ∀ op left right, Adds (B.operate op left right)
  truth : ∀ value, Adds (B.truth value)
  call : ∀ callee args keywords, Adds (B.call callee args keywords)

section OnlyAdds

variable {α : Type} {B : Backend (StateM (List α)) V}

theorem Backend.OnlyAdds.choose (hB : B.OnlyAdds) {test yes no : StateM (List α) V}
    (htest : Adds test) (hyes : Adds yes) (hno : Adds no) : Adds (B.choose test yes no) := by
  refine htest.bind fun value => (hB.truth value).bind fun b => ?_
  cases b with
  | true => exact hyes
  | false => exact hno

theorem Backend.OnlyAdds.invoke (hB : B.OnlyAdds) {callee : StateM (List α) V}
    {args : StateM (List α) (List V)} {keywords : StateM (List α) (List (String × V))}
    (hcallee : Adds callee) (hargs : Adds args) (hkeywords : Adds keywords) :
    Adds (B.invoke callee args keywords) := by
  rw [Backend.invoke]
  split
  · exact hcallee.bind fun _ => hargs.bind fun _ => hkeywords.bind fun _ => hB.call _ _ _
  · exact hargs.bind fun _ => hkeywords.bind fun _ => hcallee.bind fun _ => hB.call _ _ _

mutual

theorem Expr.adds_eval (hB : B.OnlyAdds) (scope : Scope V) : ∀ e : Expr, Adds (e.eval B scope)
  | .name ident => by
    rw [Expr.eval]
    split
    · exact .pure _
    · exact hB.read ident
  | .str _ => .pure _
  | .int _ => .pure _
  | .float _ => .pure _
  | .complex _ _ => .pure _
  | .nothing => .pure _
  | .list items => (Expr.adds_evalAll hB scope items).bind fun _ => .pure _
  | .call func args keywords =>
    hB.invoke (func.adds_eval hB scope) (Expr.adds_evalAll hB scope args)
      (Expr.adds_evalFields hB scope keywords)
  | .binOp op left right =>
    (left.adds_eval hB scope).bind fun l =>
      (right.adds_eval hB scope).bind fun r => hB.operate op l r
  | .ifExp test yes no =>
    hB.choose (test.adds_eval hB scope) (yes.adds_eval hB scope) (no.adds_eval hB scope)
  | .lambda ⟨_, _, keywords⟩ _ => (Expr.adds_evalFields hB scope keywords).bind fun _ => .pure _

theorem Expr.adds_evalAll (hB : B.OnlyAdds) (scope : Scope V) :
    ∀ items : List Expr, Adds (Expr.evalAll B scope items)
  | [] => .pure _
  | e :: rest =>
    (e.adds_eval hB scope).bind fun _ => (Expr.adds_evalAll hB scope rest).bind fun _ => .pure _

theorem Expr.adds_evalFields (hB : B.OnlyAdds) (scope : Scope V) :
    ∀ fields : List (String × Expr), Adds (Expr.evalFields B scope fields)
  | [] => .pure _
  | (_, e) :: rest =>
    (e.adds_eval hB scope).bind fun _ => (Expr.adds_evalFields hB scope rest).bind fun _ => .pure _

end

mutual

theorem Stmt.adds_run (hB : B.OnlyAdds) : ∀ (scope : Scope V) (s : Stmt), Adds (s.run B scope)
  | scope, .eval value => (value.adds_eval hB scope).bind fun _ => .pure _
  | scope, .assign _ value => (value.adds_eval hB scope).bind fun _ => .pure _
  | scope, .define _ params _ =>
    (Expr.adds_evalFields hB scope params.keywords).bind fun _ => .pure _
  | scope, .branch test yes no => by
    refine (test.adds_eval hB scope).bind fun value => (hB.truth value).bind fun b => ?_
    cases b with
    | true => exact Stmt.adds_runAll hB scope yes
    | false => exact Stmt.adds_runAll hB scope no
  | scope, .ret value => (value.adds_eval hB scope).bind fun _ => .pure _

theorem Stmt.adds_runAll (hB : B.OnlyAdds) :
    ∀ (scope : Scope V) (body : List Stmt), Adds (Stmt.runAll B scope body)
  | _, [] => .pure _
  | scope, s :: rest => by
    refine (s.adds_run hB scope).bind fun flow => ?_
    cases flow with
    | next scope => exact Stmt.adds_runAll hB scope rest
    | returned value => exact .pure _

end

end OnlyAdds

/-- Values of a machine that stores values under names. A function is kept as what it gives and what
it stores when it is called. -/
inductive Stored where
  | plain
  | text (value : String)
  | list (items : List Stored)
  | named (name : String)
  | function (value : Stored) (stores : List (String × Stored))

/-- A call by a name stores the arguments under the name. -/
def Stored.call : Stored → List Stored → StateM (List (String × Stored)) Stored
  | .function value stores, [] => modifyGet fun store => (value, stores ++ store)
  | .named name, args => modifyGet fun store => (.plain, (name, .list args) :: store)
  | _, _ => return .plain

theorem Stored.adds_call (callee : Stored) (args : List Stored) : Adds (callee.call args) := by
  fun_cases Stored.call callee args with
  | case1 value stores =>
    intro store
    show (value, stores ++ store) = (value, (stores ++ []) ++ store)
    rw [List.append_nil]
  | case2 name => exact fun _ => rfl
  | case3 => exact .pure _

/-- Keeps what it is called with, and passes every test. -/
def keeper : Backend (StateM (List (String × Stored))) Stored where
  string := .text
  integer _ := .plain
  float _ := .plain
  complex _ _ := .plain
  nothing := .plain
  list := .list
  read name := return .named name
  operate _ _ _ := return .plain
  truth _ := return true
  function _ body := .function (body.run []).1 (body.run []).2
  call callee args _ := callee.call args
  calleeFirst := false

theorem keeper_onlyAdds : keeper.OnlyAdds where
  read _ := .pure _
  operate _ _ _ := .pure _
  truth _ := .pure _
  call callee args _ := callee.adds_call args

theorem keeper_callsBodies : keeper.CallsBodies := by
  intro scope body
  funext store
  exact ((Stmt.adds_runAll keeper_onlyAdds scope body).map keeper.result store).symm

namespace Node

/-- A text, and a conditional whose branch calls `g` with a function:
`["x" <if <p/> <do><g><fn*>[] "z"</fn*></g> "y"</do></if>]`. -/
def guarded : Node :=
  .list [.string "x", tag "if" [tag "p" [],
    tag "do" [tag "g" [tag "fn*" [.list [], .string "z"]], .string "y"]]]

theorem guarded_reads : ∀ name ∈ guarded.reads, ¬ Generated name := by
  have hreads : ∀ name ∈ guarded.reads, name.toList.head? ≠ some '_' := by decide
  exact fun name hname hgenerated => hreads name hname hgenerated.head?

theorem guarded_hoistSafe : guarded.HoistSafe false := by
  have hleaf : ∀ n : Node, (n.operands false).length ≤ 1 → n.parts = [] → n.HoistSafe false :=
    fun n hn hparts => keepsApart_of_length_le hn (by simp [hparts])
  have hcall : (tag "g" [tag "fn*" [.list [], .string "z"]]).HoistSafe false := by
    refine keepsApart_of_length_le (by decide) (List.forall_mem_singleton.2 ?_)
    exact keepsApart_of_length_le (by decide)
      (List.forall_mem_singleton.2 (hleaf _ (by decide) rfl))
  refine keepsApart_iff.2 ⟨.cons (by rintro _ - ⟨⟩) (List.pairwise_singleton _ _), ?_⟩
  refine List.forall_mem_cons.2 ⟨hleaf _ (by decide) rfl, List.forall_mem_singleton.2 ?_⟩
  refine keepsApart_of_length_le (by decide) ?_
  refine List.forall_mem_cons.2 ⟨hleaf _ (by decide) rfl, List.forall_mem_singleton.2 ?_⟩
  refine keepsApart_of_length_le (by decide) ?_
  exact List.forall_mem_cons.2 ⟨hcall, List.forall_mem_singleton.2 (hleaf _ (by decide) rfl)⟩

theorem run_compile_guarded : (∀ name ∈ guarded.reads, ¬ Generated name) ∧
    guarded.HoistSafe false ∧ ∃ f s', guarded.compile ⟨0⟩ = .ok f s' ∧ f.isPure = false ∧
      f.run keeper [] = guarded.meaning keeper ∧
      ((f.run keeper []).run []).2 =
        [("g", .list [.function (.text "z") []]), ("p", .list [])] := by
  have h := run_compile keeper_callsBodies (s := ⟨0⟩) rfl guarded_reads guarded_hoistSafe .nil
  refine ⟨guarded_reads, guarded_hoistSafe, _, _, rfl, rfl, h, ?_⟩
  rw [h]
  rfl

end Node

end TagLang
