import TagLang.Proofs.Compile.Induction

/-!
# Which nodes need steps

Whether a node becomes an expression alone is decided by its shape: it does not if somewhere in it
nodes are carried out one after the other (`NeedsSteps`). The compiled fragment is pure exactly if
the node needs no steps (`Node.isPure_iff`).
-/

namespace TagLang

/-! ## Pure fragments -/

namespace Fragment

variable {α β : Type}

theorem isPure_pure (value : α) : (Fragment.pure value).isPure = true := rfl

theorem isPure_map (g : α → β) (f : Fragment α) : (f.map g).isPure = f.isPure := rfl

theorem isPure_zip (f : Fragment α) (g : Fragment β) :
    (f.zip g).isPure = (f.isPure && g.isPure) := by
  rw [Bool.eq_iff_iff, Bool.and_eq_true]
  simp [isPure, zip, andThen, Fragment.map]

theorem isPure_collect_cons (f : Fragment α) (fs : List (Fragment α)) :
    (collect (f :: fs)).isPure = (f.isPure && (collect fs).isPure) := by
  rw [Bool.eq_iff_iff, Bool.and_eq_true]
  simp [isPure, collect]

theorem isPure_followedBy (f g : Fragment Expr) : (f.followedBy g).isPure = false := by
  simp [isPure, followedBy, statements]

end Fragment

namespace Node

/-- A node cannot be written as an expression alone. -/
inductive NeedsSteps : Node → Prop
  | part {n p : Node} : p ∈ n.parts → p.NeedsSteps → n.NeedsSteps
  | sequence {e : Element Node} :
      Form.ofName? e.name = some .sequence → 1 < e.children.length → NeedsSteps (.element e)
  | body {e : Element Node} :
      Form.ofName? e.name = some .function → 1 < e.children.tail.length → NeedsSteps (.element e)

/-- Nodes one after the other cannot be written as an expression alone. -/
def SequenceNeedsSteps (nodes : List Node) : Prop :=
  1 < nodes.length ∨ ∃ n ∈ nodes, n.NeedsSteps

/-! ## Where the steps of a node come from -/

theorem needsSteps_of_parts {n : Node} (hn : ∀ e, n = .element e →
      Form.ofName? e.name ≠ some .sequence ∧ Form.ofName? e.name ≠ some .function) :
    n.NeedsSteps ↔ ∃ p ∈ n.parts, p.NeedsSteps := by
  constructor
  · intro h
    cases h with
    | part hp h => exact ⟨_, hp, h⟩
    | sequence hform _ => exact absurd hform (hn _ rfl).1
    | body hform _ => exact absurd hform (hn _ rfl).2
  · rintro ⟨p, hp, h⟩
    exact .part hp h

theorem needsSteps_sequence {e : Element Node} (hform : Form.ofName? e.name = some .sequence)
    (hattr : e.attributes = []) :
    (Node.element e).NeedsSteps ↔ SequenceNeedsSteps e.children := by
  have hparts : (Node.element e).parts = e.children := by simp [parts, hform, hattr]
  constructor
  · intro h
    cases h with
    | part hp h => exact .inr ⟨_, hparts ▸ hp, h⟩
    | sequence _ hlength => exact .inl hlength
    | body hform' _ => rw [hform] at hform'; cases hform'
  · rintro (hlength | ⟨p, hp, h⟩)
    · exact .sequence hform hlength
    · exact .part (hparts ▸ hp) h

theorem needsSteps_function {e : Element Node} (hform : Form.ofName? e.name = some .function) :
    (Node.element e).NeedsSteps ↔
      (∃ p ∈ e.attributes.map Prod.snd, p.NeedsSteps) ∨ SequenceNeedsSteps e.children.tail := by
  have hparts : (Node.element e).parts = e.children.tail ++ e.attributes.map Prod.snd := by
    simp [parts, hform]
  constructor
  · intro h
    cases h with
    | part hp h =>
      rcases List.mem_append.1 (hparts ▸ hp) with hp | hp
      · exact .inr (.inr ⟨_, hp, h⟩)
      · exact .inl ⟨_, hp, h⟩
    | sequence hform' _ => rw [hform] at hform'; cases hform'
    | body _ hlength => exact .inr (.inl hlength)
  · rintro (⟨p, hp, h⟩ | hlength | ⟨p, hp, h⟩)
    · exact .part (hparts ▸ List.mem_append_right _ hp) h
    · exact .body hform hlength
    · exact .part (hparts ▸ List.mem_append_left _ hp) h

/-! ## Compiled lists of nodes -/

/-- The fragment of a node is pure exactly if the node needs no steps. -/
def PureAsNeeded (n : Node) (_ : NameSupply) (f : Fragment Expr) (_ : NameSupply) : Prop :=
  f.isPure = true ↔ ¬ n.NeedsSteps

theorem PureAsNeeded.iff {n : Node} {f : Fragment Expr} {s s' : NameSupply}
    (h : n.PureAsNeeded s f s') : f.isPure = true ↔ ¬ n.NeedsSteps := h

variable {s s' : NameSupply} {nodes : List Node} {fs : List (Fragment Expr)}

theorem isPure_collect_iff (h : Chain PureAsNeeded nodes s fs s') :
    (Fragment.collect fs).isPure = true ↔ ¬ ∃ n ∈ nodes, n.NeedsSteps := by
  induction h with
  | nil => simp [Fragment.collect, Fragment.isPure]
  | cons hn _ ih =>
    rw [Fragment.isPure_collect_cons, Bool.and_eq_true, ih, hn.iff]
    simp [not_or]

theorem isPure_collect_fields_iff {fields : List (String × Node)}
    {gs : List (Fragment (String × Expr))} (h : Chain (KeyedBy PureAsNeeded) fields s gs s') :
    (Fragment.collect gs).isPure = true ↔ ¬ ∃ n ∈ fields.map Prod.snd, n.NeedsSteps := by
  induction h with
  | nil => simp [Fragment.collect, Fragment.isPure]
  | cons hn _ ih =>
    obtain ⟨f, hf, rfl⟩ := hn
    rw [Fragment.isPure_collect_cons, Bool.and_eq_true, ih, Fragment.isPure_map, hf.iff]
    simp [not_or]

theorem isPure_sequence_iff (hne : nodes ≠ []) (h : Chain PureAsNeeded nodes s fs s') :
    (Fragment.sequence fs).isPure = true ↔ ¬ SequenceNeedsSteps nodes := by
  cases h with
  | nil => exact absurd rfl hne
  | cons hn hrest =>
    cases hrest with
    | nil =>
      rw [Fragment.sequence, hn.iff]
      simp [SequenceNeedsSteps]
    | cons _ _ =>
      rw [Fragment.sequence, Fragment.isPure_followedBy]
      simp [SequenceNeedsSteps]

theorem isPure_otherwise {n : Fragment Expr} (h : Otherwise PureAsNeeded nodes s n s') :
    n.isPure = true ↔ ¬ ∃ n ∈ nodes, n.NeedsSteps := by
  cases h with
  | missing => simp [Fragment.isPure_pure]
  | given hn => rw [hn.iff]; simp

theorem exists_needsSteps_of_branches {yes : Node} {y n : Fragment Expr} {s₁ : NameSupply}
    (hy : yes.PureAsNeeded s y s₁) (hn : Otherwise PureAsNeeded nodes s₁ n s')
    (hp : (y.isPure && n.isPure) = false) : ∃ p ∈ yes :: nodes, p.NeedsSteps := by
  apply Classical.byContradiction
  intro h
  have hyp : y.isPure = true := hy.iff.2 fun hsteps => h ⟨yes, List.mem_cons_self, hsteps⟩
  have hnp : n.isPure = true := (isPure_otherwise hn).2 fun ⟨p, hmem, hsteps⟩ =>
    h ⟨p, List.mem_cons_of_mem _ hmem, hsteps⟩
  rw [hyp, hnp] at hp
  cases hp

/-! ## Compiled nodes -/

/-- **The fragment of a node is pure exactly if the node needs no steps.** -/
theorem isPure_iff {n : Node} {f : Fragment Expr} (h : n.Compiles s f s') :
    f.isPure = true ↔ ¬ n.NeedsSteps := by
  refine compile_induction (motive := PureAsNeeded) (fun n s f s' h => ?_) n s f s' h
  have h := h.imp fun p _ s f s' hp => hp.2
  unfold PureAsNeeded
  cases h with
  | symbol | keyword | string | integer | float | complex =>
    rw [needsSteps_of_parts (by rintro _ ⟨⟩)]
    simp [parts, Fragment.isPure_pure]
  | list hitems =>
    rw [needsSteps_of_parts (by rintro _ ⟨⟩), Fragment.isPure_map, isPure_collect_iff hitems]
    rfl
  | call hform hargs hkeywords =>
    rw [needsSteps_of_parts (by rintro _ ⟨⟩; simp [hform]), Fragment.isPure_map,
      Fragment.isPure_zip, Bool.and_eq_true, isPure_collect_iff hargs,
      isPure_collect_fields_iff hkeywords]
    simp [parts, hform, or_imp, forall_and]
  | sequence hform hne hfs => rw [needsSteps_sequence hform rfl, isPure_sequence_iff hne hfs]
  | operator hform hl hr =>
    rw [needsSteps_of_parts (by rintro _ ⟨⟩; simp [hform]), Fragment.isPure_map,
      Fragment.isPure_zip, Bool.and_eq_true, hl.iff, hr.iff]
    simp [parts, hform]
  | conditional hform ht hy hn hyp hnp =>
    have hy := hy.iff.1 hyp
    have hn := (isPure_otherwise hn).1 hnp
    rw [needsSteps_of_parts (by rintro _ ⟨⟩; simp [hform]), Fragment.isPure_map, ht.iff]
    simp_all [parts]
  | branches hform ht hy hn hp =>
    obtain ⟨p, hmem, hsteps⟩ := exists_needsSteps_of_branches hy hn hp
    constructor
    · intro hpure
      simp [Fragment.isPure, Fragment.andThen] at hpure
    · intro hn
      refine absurd (.part ?_ hsteps) hn
      simp only [parts, hform, Option.some.injEq, reduceCtorEq, ↓reduceIte, List.map_nil,
        List.append_nil]
      exact List.mem_cons_of_mem _ hmem
  | lambda hform hparams hne hds hfs hdup hp =>
    have hbody := (isPure_sequence_iff hne hfs).1 hp
    rw [needsSteps_function hform]
    dsimp only [List.tail_cons]
    rw [or_iff_left hbody, ← isPure_collect_fields_iff hds]
    rfl
  | function hform hparams hne hds hfs hdup hp =>
    have hbody := isPure_sequence_iff hne hfs
    rw [hp] at hbody
    have hbody : SequenceNeedsSteps _ := Classical.not_not.1 fun h => Bool.false_ne_true (hbody.2 h)
    rw [needsSteps_function hform]
    simp [Fragment.isPure, hbody]

/-! ## Deciding which nodes need steps -/

/-- Whether a node itself carries out several nodes one after the other. -/
def carriesOutSeveral : Node → Bool
  | .element e =>
    match Form.ofName? e.name with
    | some .sequence => 1 < e.children.length
    | some .function => 1 < e.children.tail.length
    | _ => false
  | _ => false

/-- Whether a node cannot be written as an expression alone. -/
def needsSteps (n : Node) : Bool := n.all.any carriesOutSeveral

/-- Whether nodes one after the other cannot be written as an expression alone. -/
def sequenceNeedsSteps (nodes : List Node) : Bool := 1 < nodes.length || nodes.any needsSteps

theorem needsSteps_of_carriesOutSeveral {n : Node} (h : n.carriesOutSeveral = true) :
    n.NeedsSteps := by
  unfold carriesOutSeveral at h
  split at h
  · split at h
    · next hform => exact .sequence hform (of_decide_eq_true h)
    · next hform => exact .body hform (of_decide_eq_true h)
    · cases h
  · cases h

theorem carriesOutSeveral_sequence {e : Element Node} (hform : Form.ofName? e.name = some .sequence)
    (h : 1 < e.children.length) : (Node.element e).carriesOutSeveral = true := by
  simp [carriesOutSeveral, hform, h]

theorem carriesOutSeveral_function {e : Element Node} (hform : Form.ofName? e.name = some .function)
    (h : 1 < e.children.tail.length) : (Node.element e).carriesOutSeveral = true := by
  simp only [carriesOutSeveral, hform, h, decide_true]

theorem needsSteps_iff {n : Node} : n.needsSteps = true ↔ n.NeedsSteps := by
  rw [needsSteps, List.any_eq_true]
  constructor
  · rintro ⟨e, he, hseveral⟩
    have hwithin := mem_all_iff.1 he
    clear he
    induction hwithin with
    | refl => exact needsSteps_of_carriesOutSeveral hseveral
    | part hp _ ih => exact .part hp ih
  · intro h
    induction h with
    | @part n p hp _ ih =>
      obtain ⟨e, he, hseveral⟩ := ih
      exact ⟨e, mem_all_iff.2 (.part hp (mem_all_iff.1 he)), hseveral⟩
    | sequence hform hlength =>
      exact ⟨_, mem_all_iff.2 (.refl _), carriesOutSeveral_sequence hform hlength⟩
    | body hform hlength =>
      exact ⟨_, mem_all_iff.2 (.refl _), carriesOutSeveral_function hform hlength⟩

theorem sequenceNeedsSteps_eq_true_iff {nodes : List Node} :
    sequenceNeedsSteps nodes = true ↔ SequenceNeedsSteps nodes := by
  simp [sequenceNeedsSteps, SequenceNeedsSteps, needsSteps_iff]

theorem isPure_eq {n : Node} {f : Fragment Expr} (h : n.Compiles s f s') :
    f.isPure = !n.needsSteps := by
  rw [Bool.eq_iff_iff, Bool.not_eq_true', isPure_iff h, ← needsSteps_iff, Bool.not_eq_true]

theorem isPure_sequence_eq (hne : nodes ≠ []) (h : Chain Compiles nodes s fs s') :
    (Fragment.sequence fs).isPure = !sequenceNeedsSteps nodes := by
  have hpure := isPure_sequence_iff hne (h.imp fun _ _ _ _ _ h => isPure_iff h)
  rw [Bool.eq_iff_iff, Bool.not_eq_true', hpure, ← sequenceNeedsSteps_eq_true_iff,
    Bool.not_eq_true]

end Node

end TagLang
