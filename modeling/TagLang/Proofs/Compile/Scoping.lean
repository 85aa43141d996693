import TagLang.Proofs.Compile.Names
import TagLang.Proofs.Meaning.Node
import TagLang.Proofs.Program.Contents

/-!
# Made-up names are bound

The steps of a fragment go to the place where the fragment is needed, and its value goes elsewhere:
into arguments, tests, defaults and lambdas. No reference gets lost on the way
(`Program.names_bound`). A made-up function is mentioned only after its definition, in the same
block or in one inside of it. A made-up variable is mentioned only where it is returned, directly
after the choice whose blocks assign it. A lambda mentions no made-up name in its body.

`Stmt.Stands` tells what comes before a statement, in its own block and in the blocks around it, and
`Stmt.Scoped` says that every statement of a block is fine where it stands. A compiled node gives
steps that are `Scoped` and a value that is `Bound` after them.
-/

namespace TagLang

open NameSupply (funcName varName Generated)

/-! ## Where statements stand -/

namespace Stmt

/-- A statement stands in a block, or in a block of one of its statements. The first list is what
comes before it in the blocks around its own, and the second what comes before it in its own. -/
inductive Stands (s : Stmt) : List Stmt → List Stmt → List Stmt → Prop
  | here (before rest : List Stmt) : Stands s (before ++ s :: rest) [] before
  | inside (first rest : List Stmt) {t : Stmt} {block outer before : List Stmt} :
      block ∈ t.blocks → Stands s block outer before →
      Stands s (first ++ t :: rest) (first ++ outer) before

theorem Stands.append_left {s : Stmt} {block outer before : List Stmt} (first : List Stmt)
    (h : Stands s block outer before) :
    ∃ outer' before', Stands s (first ++ block) outer' before' := by
  cases h with
  | here before rest =>
    refine ⟨[], first ++ before, ?_⟩
    rw [← List.append_assoc]
    exact .here (first ++ before) rest
  | @inside first' rest t block outer before hmem hinner =>
    refine ⟨first ++ first' ++ outer, before, ?_⟩
    rw [← List.append_assoc]
    exact .inside (first ++ first') rest hmem hinner

mutual

theorem stands_of_mem_all {s : Stmt} : ∀ t : Stmt, s ∈ t.all →
    s = t ∨ ∃ block ∈ t.blocks, ∃ outer before, Stands s block outer before
  | .eval _, h => .inl (List.mem_singleton.1 h)
  | .assign _ _, h => .inl (List.mem_singleton.1 h)
  | .ret _, h => .inl (List.mem_singleton.1 h)
  | .define _ _ body, h => by
    rcases List.mem_cons.1 h with rfl | h
    · exact .inl rfl
    · exact .inr ⟨body, .head _, exists_stands body h⟩
  | .branch _ yes no, h => by
    rcases List.mem_cons.1 h with rfl | h
    · exact .inl rfl
    · rcases List.mem_append.1 h with h | h
      · exact .inr ⟨yes, .head _, exists_stands yes h⟩
      · exact .inr ⟨no, .tail _ (.head _), exists_stands no h⟩

/-- Every statement of a block, at any depth, stands somewhere in it. -/
theorem exists_stands {s : Stmt} : ∀ block : List Stmt, s ∈ allOf block →
    ∃ outer before, Stands s block outer before
  | [], h => by cases h
  | t :: rest, h => by
    rcases List.mem_append.1 h with h | h
    · rcases stands_of_mem_all t h with rfl | ⟨block, hblock, outer, before, hs⟩
      · exact ⟨[], [], .here [] rest⟩
      · exact ⟨[] ++ outer, before, .inside [] rest hblock hs⟩
    · obtain ⟨outer, before, hs⟩ := exists_stands rest h
      exact hs.append_left [t]

end

end Stmt

/-! ## What may be mentioned -/

/-- An expression that comes after some statements mentions a made-up function only if one of them
defines it. It mentions no made-up variable, and no made-up name at all in the body of a lambda. -/
structure Expr.Bound (before : List Stmt) (e : Expr) : Prop where
  func : ∀ k, .name (funcName k) ∈ e.all →
    ∃ params body, .define (funcName k) params body ∈ before
  var : ∀ k, .name (varName k) ∉ e.all
  lambda : ∀ params body, .lambda params body ∈ e.all →
    ∀ name, Generated name → .name name ∉ body.all

namespace Expr

variable {before before' : List Stmt} {e : Expr}

theorem Bound.mono (h : e.Bound before) (hsub : before ⊆ before') : e.Bound before' := by
  refine ⟨fun k hk => ?_, h.var, h.lambda⟩
  obtain ⟨params, body, hdefine⟩ := h.func k hk
  exact ⟨params, body, hsub hdefine⟩

/-- An expression other than a name is bound if its parts are. A lambda asks for more. -/
theorem Bound.of_parts (hname : e.name? = none)
    (hlambda : ∀ params body, e = .lambda params body →
      ∀ name, Generated name → .name name ∉ body.all)
    (hparts : ∀ p ∈ e.parts, p.Bound before) : e.Bound before := by
  have hall : ∀ x, x ∈ e.all → x = e ∨ ∃ p ∈ e.parts, x ∈ p.all := by
    intro x hx
    rw [all_eq, List.mem_cons, List.mem_flatMap] at hx
    exact hx
  refine ⟨fun k hk => ?_, fun k hk => ?_, fun params body hmem => ?_⟩
  · rcases hall _ hk with rfl | ⟨p, hp, hk⟩
    · cases hname
    · exact (hparts p hp).func k hk
  · rcases hall _ hk with rfl | ⟨p, hp, hk⟩
    · cases hname
    · exact (hparts p hp).var k hk
  · rcases hall _ hmem with h | ⟨p, hp, hmem⟩
    · exact hlambda params body h.symm
    · exact (hparts p hp).lambda params body hmem

theorem bound_name {ident : String} (h : ¬ Generated ident) : (Expr.name ident).Bound before := by
  refine ⟨fun k hk => ?_, fun k hk => ?_, fun params body hmem => ?_⟩
  · obtain rfl := Expr.name.inj (List.mem_singleton.1 hk)
    exact absurd ⟨k, .inl rfl⟩ h
  · obtain rfl := Expr.name.inj (List.mem_singleton.1 hk)
    exact absurd ⟨k, .inr rfl⟩ h
  · cases List.mem_singleton.1 hmem

/-- The name of a function may be mentioned after its definition. -/
theorem bound_funcName {k : Nat} {params : Params Expr} {body : List Stmt}
    (h : .define (funcName k) params body ∈ before) : (Expr.name (funcName k)).Bound before := by
  refine ⟨fun j hj => ?_, fun j hj => ?_, fun params' body' hmem => ?_⟩
  · obtain hname := Expr.name.inj (List.mem_singleton.1 hj)
    rw [hname]
    exact ⟨params, body, h⟩
  · exact NameSupply.funcName_ne_varName (Expr.name.inj (List.mem_singleton.1 hj)).symm
  · cases List.mem_singleton.1 hmem

/-- What is bound without anything before it mentions no made-up name. -/
theorem Bound.not_mem_all (h : e.Bound []) {name : String} (hname : Generated name) :
    .name name ∉ e.all := by
  obtain ⟨k, rfl | rfl⟩ := hname
  · intro hmem
    obtain ⟨params, body, hdefine⟩ := h.func k hmem
    cases hdefine
  · exact h.var k

end Expr

/-! ## Statements in their places -/

namespace Stmt

/-- A statement returns a variable, directly after a choice whose blocks assign it at their ends. -/
def ReturnsChosen (s : Stmt) (k : Nat) (before : List Stmt) : Prop :=
  s = .ret (.name (varName k)) ∧ ∃ earlier test yes no,
    before = earlier ++ [.branch test yes no] ∧ lastAssigned? yes = some (varName k) ∧
      lastAssigned? no = some (varName k)

/-- A statement is fine where it stands. -/
def BoundAt (s : Stmt) (outer before : List Stmt) : Prop :=
  (∀ e ∈ s.exprs, e.Bound (outer ++ before)) ∨ ∃ k, s.ReturnsChosen k before

/-- The statements of a block are fine where they stand, if the block itself comes after others. -/
def Scoped (first block : List Stmt) : Prop :=
  ∀ s outer before, Stands s block outer before → s.BoundAt (first ++ outer) before

theorem BoundAt.mono {s : Stmt} {outer outer' before : List Stmt} (h : s.BoundAt outer before)
    (hsub : outer ⊆ outer') : s.BoundAt outer' before := by
  refine h.imp_left fun hexprs e he => (hexprs e he).mono fun t ht => ?_
  rw [List.mem_append] at ht ⊢
  exact ht.imp_left fun ht => hsub ht

/-- What comes before in an earlier part of the same block comes before in the block. -/
theorem BoundAt.append {s : Stmt} {outer a before : List Stmt}
    (h : s.BoundAt (outer ++ a) before) : s.BoundAt outer (a ++ before) := by
  rcases h with hexprs | ⟨k, hret, earlier, test, yes, no, rfl, hassigned⟩
  · refine .inl fun e he => ?_
    rw [← List.append_assoc]
    exact hexprs e he
  · refine .inr ⟨k, hret, a ++ earlier, test, yes, no, ?_, hassigned⟩
    rw [List.append_assoc]

variable {first first' a b : List Stmt}

/-- A block is fine if each of its statements is, and if the blocks of that statement are, which
come after the same statements and after those before it. -/
theorem scoped_iff : Scoped first b ↔ ∀ before s rest, b = before ++ s :: rest →
    s.BoundAt first before ∧ ∀ block ∈ s.blocks, Scoped (first ++ before) block := by
  constructor
  · rintro h before s rest rfl
    refine ⟨?_, fun block hblock t outer before' ht => ?_⟩
    · have hs := h s [] before (.here before rest)
      rwa [List.append_nil] at hs
    · have hs := h t (before ++ outer) before' (.inside before rest hblock ht)
      rwa [← List.append_assoc] at hs
  · intro h s outer before hs
    cases hs with
    | here before rest =>
      rw [List.append_nil]
      exact (h before s rest rfl).1
    | @inside before' rest t block outer before hblock hs =>
      rw [← List.append_assoc]
      exact (h before' t rest rfl).2 block hblock s outer before hs

theorem Scoped.mono (h : Scoped first b) (hsub : first ⊆ first') : Scoped first' b := by
  intro s outer before hs
  refine (h s outer before hs).mono fun t ht => ?_
  rw [List.mem_append] at ht ⊢
  exact ht.imp_left fun ht => hsub ht

theorem scoped_nil : Scoped first [] := by
  refine scoped_iff.2 fun before s rest h => ?_
  simp at h

/-- A statement in two blocks, one after the other, is in the first or in the second. -/
theorem append_eq_append_cons {before rest : List Stmt} {s : Stmt}
    (h : a ++ b = before ++ s :: rest) :
    (∃ rest', a = before ++ s :: rest') ∨ ∃ c, before = a ++ c ∧ b = c ++ s :: rest := by
  rcases List.append_eq_append_iff.1 h with ⟨c, hbefore, hb⟩ | ⟨c, ha, hrest⟩
  · exact .inr ⟨c, hbefore, hb⟩
  · cases c with
    | nil => exact .inr ⟨[], by simpa using ha.symm, by simpa using hrest.symm⟩
    | cons s' c =>
      obtain ⟨rfl, -⟩ := List.cons.inj hrest
      exact .inl ⟨c, ha⟩

theorem Scoped.append (ha : Scoped first a) (hb : Scoped (first ++ a) b) :
    Scoped first (a ++ b) := by
  refine scoped_iff.2 fun before s rest h => ?_
  rcases append_eq_append_cons h with ⟨rest', ha'⟩ | ⟨c, rfl, hb'⟩
  · exact scoped_iff.1 ha before s rest' ha'
  · obtain ⟨hs, hblocks⟩ := scoped_iff.1 hb c s rest hb'
    rw [List.append_assoc] at hblocks
    exact ⟨hs.append, hblocks⟩

theorem scoped_singleton {s : Stmt} (hs : s.BoundAt first [])
    (hblocks : ∀ block ∈ s.blocks, Scoped first block) : Scoped first [s] := by
  refine scoped_iff.2 fun before t rest h => ?_
  obtain ⟨rfl, rfl, -⟩ : before = [] ∧ t = s ∧ rest = [] := by
    simpa [List.singleton_eq_append_iff] using h
  rw [List.append_nil]
  exact ⟨hs, hblocks⟩

theorem boundAt_nil {s : Stmt} (h : ∀ e ∈ s.exprs, e.Bound first) : s.BoundAt first [] := by
  refine .inl fun e he => ?_
  rw [List.append_nil]
  exact h e he

/-- A statement that is made of one expression. -/
theorem scoped_simple {s : Stmt} {e : Expr} (hexprs : s.exprs = [e]) (hblocks : s.blocks = [])
    (h : e.Bound first) : Scoped first [s] := by
  refine scoped_singleton (boundAt_nil ?_) ?_
  · rw [hexprs]
    exact List.forall_mem_singleton.2 h
  · rw [hblocks]
    exact List.forall_mem_nil _

theorem scoped_define {name : String} {params : Params Expr} {body : List Stmt}
    (hdefaults : ∀ e ∈ params.keywords.map Prod.snd, e.Bound first) (hbody : Scoped first body) :
    Scoped first [.define name params body] :=
  scoped_singleton (boundAt_nil hdefaults) (List.forall_mem_singleton.2 hbody)

/-- A choice that stores its value in a variable, and the return of this variable. -/
theorem scoped_chosen {test : Expr} {yes no : List Stmt} {k : Nat} (htest : test.Bound first)
    (hyes : Scoped first yes) (hno : Scoped first no)
    (hassigned : lastAssigned? yes = some (varName k) ∧ lastAssigned? no = some (varName k)) :
    Scoped first [.branch test yes no, .ret (.name (varName k))] := by
  have hbranch : Scoped first [.branch test yes no] := by
    refine scoped_singleton (boundAt_nil (List.forall_mem_singleton.2 htest)) ?_
    exact List.forall_mem_cons.2 ⟨hyes, List.forall_mem_singleton.2 hno⟩
  refine scoped_iff.2 fun before s rest h => ?_
  rcases append_eq_append_cons (a := [.branch test yes no]) h with ⟨rest', h⟩ | ⟨c, rfl, h⟩
  · exact scoped_iff.1 hbranch before s rest' h
  · obtain ⟨rfl, rfl, -⟩ : c = [] ∧ s = .ret (.name (varName k)) ∧ rest = [] := by
      simpa [List.singleton_eq_append_iff] using h
    exact ⟨.inr ⟨k, rfl, [], test, yes, no, rfl, hassigned⟩, List.forall_mem_nil _⟩

end Stmt

/-! ## Fragments -/

/-- Steps that are fine where they stand, and expressions that may come after them. -/
structure Binds (steps : List Stmt) (es : List Expr) : Prop where
  inPlace : Stmt.Scoped [] steps
  bound : ∀ e ∈ es, e.Bound steps

namespace Binds

variable {a b : List Stmt} {es es' : List Expr} {e : Expr}

theorem nil (h : ∀ e ∈ es, e.Bound []) : Binds [] es := ⟨Stmt.scoped_nil, h⟩

/-- The steps of several fragments come first, and then all of their values. -/
theorem append (ha : Binds a es) (hb : Binds b es') : Binds (a ++ b) (es ++ es') := by
  refine ⟨ha.inPlace.append (hb.inPlace.mono (List.nil_subset _)), fun e he => ?_⟩
  rcases List.mem_append.1 he with he | he
  · exact (ha.bound e he).mono (List.subset_append_left a b)
  · exact (hb.bound e he).mono (List.subset_append_right a b)

/-- An expression made of bound ones. -/
theorem value (h : Binds a es) (he : ∀ before, (∀ e ∈ es, e.Bound before) → e.Bound before) :
    Binds a [e] :=
  ⟨h.inPlace, List.forall_mem_singleton.2 (he a h.bound)⟩

theorem collect {α : Type} {fs : List (Fragment α)} (value : α → Expr)
    (h : ∀ f ∈ fs, Binds f.steps [value f.value]) :
    Binds (Fragment.collect fs).steps ((Fragment.collect fs).value.map value) := by
  induction fs with
  | nil => exact .nil (List.forall_mem_nil _)
  | cons f fs ih =>
    obtain ⟨hf, hfs⟩ := List.forall_mem_cons.1 h
    exact hf.append (ih hfs)

end Binds

namespace Fragment

/-- A fragment leaves nothing open. -/
def Closed (f : Fragment Expr) : Prop := Binds f.steps [f.value]

variable {f g : Fragment Expr} {fs : List (Fragment Expr)}

theorem Closed.value_bound (h : f.Closed) : f.value.Bound f.steps :=
  h.bound f.value List.mem_cons_self

theorem closed_pure {e : Expr} (h : e.Bound []) : (Fragment.pure e).Closed :=
  .nil (List.forall_mem_singleton.2 h)

theorem Closed.value_bound_of_isPure (h : f.Closed) (hp : f.isPure = true) : f.value.Bound [] := by
  have hsteps : f.steps = [] := List.isEmpty_iff.1 hp
  have hvalue := h.value_bound
  rwa [hsteps] at hvalue

theorem Closed.statements (h : f.Closed) : Binds f.statements [] :=
  ⟨h.inPlace.append (Stmt.scoped_simple rfl rfl h.value_bound), List.forall_mem_nil _⟩

theorem closed_sequence (h : ∀ f ∈ fs, f.Closed) : (sequence fs).Closed := by
  induction fs with
  | nil =>
    exact closed_pure (.of_parts rfl nofun (List.forall_mem_nil _))
  | cons f fs ih =>
    obtain ⟨hf, hfs⟩ := List.forall_mem_cons.1 h
    cases fs with
    | nil => exact hf
    | cons next rest => exact hf.statements.append (ih hfs)

/-- A branch comes after the steps of the test, and inside of a function. -/
theorem Closed.assignTo (h : f.Closed) (first : List Stmt) (target : String) :
    Stmt.Scoped first (f.assignTo target) := by
  refine (h.inPlace.mono (List.nil_subset first)).append (Stmt.scoped_simple rfl rfl ?_)
  exact h.value_bound.mono (List.subset_append_right first f.steps)

theorem Closed.functionBody (h : f.Closed) (first : List Stmt) :
    Stmt.Scoped first f.functionBody := by
  refine (h.inPlace.mono (List.nil_subset first)).append (Stmt.scoped_simple rfl rfl ?_)
  exact h.value_bound.mono (List.subset_append_right first f.steps)

/-- Pure branches mention no made-up name, so they may stand after any steps. -/
theorem Closed.conditional {test yes no : Fragment Expr} (htest : test.Closed) (hyes : yes.Closed)
    (hno : no.Closed) (hpure : yes.isPure = true ∧ no.isPure = true) :
    (test.map fun test => .ifExp test yes.value no.value).Closed := by
  have hyes := hyes.value_bound_of_isPure hpure.1
  have hno := hno.value_bound_of_isPure hpure.2
  refine htest.value fun before hes => .of_parts rfl nofun ?_
  refine List.forall_mem_cons.2 ⟨hes _ List.mem_cons_self, List.forall_mem_cons.2 ⟨?_, ?_⟩⟩
  · exact hyes.mono (List.nil_subset before)
  · exact List.forall_mem_singleton.2 (hno.mono (List.nil_subset before))

/-- Branches with steps go into a function, after the steps of the test. -/
theorem Closed.branches {test yes no : Fragment Expr} (htest : test.Closed) (hyes : yes.Closed)
    (hno : no.Closed) (j k : Nat) :
    (test.andThen fun test =>
      ⟨[.define (funcName j) {} [.branch test (yes.assignTo (varName k)) (no.assignTo (varName k)),
        .ret (.name (varName k))]], .call (.name (funcName j)) [] []⟩).Closed := by
  have hbody : Stmt.Scoped test.steps [.branch test.value (yes.assignTo (varName k))
      (no.assignTo (varName k)), .ret (.name (varName k))] := by
    refine Stmt.scoped_chosen htest.value_bound ?_ ?_ ⟨?_, ?_⟩
    · exact hyes.assignTo test.steps _
    · exact hno.assignTo test.steps _
    · exact Stmt.lastAssigned?_append_assign yes.steps _ yes.value
    · exact Stmt.lastAssigned?_append_assign no.steps _ no.value
  refine ⟨htest.inPlace.append (Stmt.scoped_define (List.forall_mem_nil _) hbody), ?_⟩
  refine List.forall_mem_singleton.2 (.of_parts rfl nofun (List.forall_mem_singleton.2 ?_))
  exact Expr.bound_funcName (List.mem_append_right _ List.mem_cons_self)

theorem closed_lambda {steps : List Stmt} {params : Params Expr} {body : Fragment Expr}
    (hdefaults : Binds steps (params.keywords.map Prod.snd)) (hbody : body.Closed)
    (hpure : body.isPure = true) : Closed ⟨steps, .lambda params body.value⟩ := by
  have hvalue := hbody.value_bound_of_isPure hpure
  refine hdefaults.value fun before hes => .of_parts rfl ?_ ?_
  · intro params' body' h name hname
    obtain ⟨-, rfl⟩ := Expr.lambda.inj h
    exact hvalue.not_mem_all hname
  · refine List.forall_mem_append.2 ⟨hes, List.forall_mem_singleton.2 ?_⟩
    exact hvalue.mono (List.nil_subset before)

theorem closed_function {steps : List Stmt} {params : Params Expr} {body : Fragment Expr}
    (hdefaults : Binds steps (params.keywords.map Prod.snd)) (hbody : body.Closed) (k : Nat) :
    Closed ⟨steps ++ [.define (funcName k) params body.functionBody], .name (funcName k)⟩ := by
  have hdefine : Stmt.Scoped steps [.define (funcName k) params body.functionBody] :=
    Stmt.scoped_define hdefaults.bound (hbody.functionBody steps)
  refine ⟨hdefaults.inPlace.append hdefine, List.forall_mem_singleton.2 ?_⟩
  exact Expr.bound_funcName (List.mem_append_right _ List.mem_cons_self)

end Fragment

/-! ## Compiled nodes -/

namespace Node

variable {s s' : NameSupply} {f : Fragment Expr}

theorem binds_of_chain {nodes : List Node} {fs : List (Fragment Expr)}
    (h : Chain (fun _ _ f _ => f.Closed) nodes s fs s') :
    Binds (Fragment.collect fs).steps (Fragment.collect fs).value := by
  have hbinds := Binds.collect id h.forall_mem
  rwa [List.map_id] at hbinds

theorem binds_of_fields {fields : List (String × Node)} {gs : List (Fragment (String × Expr))}
    (h : Chain (KeyedBy fun _ _ f _ => f.Closed) fields s gs s') :
    Binds (Fragment.collect gs).steps ((Fragment.collect gs).value.map Prod.snd) :=
  Binds.collect Prod.snd h.forall_mem_fields

theorem closed_of_otherwise {nodes : List Node}
    (h : Otherwise (fun _ _ f _ => f.Closed) nodes s f s') : f.Closed := by
  cases h with
  | missing => exact Fragment.closed_sequence (List.forall_mem_nil _)
  | given h => exact h

/-- One node, if its parts leave nothing open and its own name is not made up. -/
theorem closed_of_compilation {n : Node} (h : Compilation (fun _ _ f _ => f.Closed) n s f s')
    (hreads : ∀ name ∈ n.reads, ¬ Generated name) : f.Closed := by
  cases h with
  | symbol => exact Fragment.closed_pure (Expr.bound_name (hreads _ List.mem_cons_self))
  | keyword =>
    refine Fragment.closed_pure (.of_parts rfl nofun (List.forall_mem_cons.2 ⟨?_, ?_⟩))
    · exact Expr.bound_name NameSupply.not_generated_keyword
    · exact List.forall_mem_singleton.2 (.of_parts rfl nofun (List.forall_mem_nil _))
  | string | integer | float | complex =>
    exact Fragment.closed_pure (.of_parts rfl nofun (List.forall_mem_nil _))
  | list hitems => exact (binds_of_chain hitems).value fun before hes => .of_parts rfl nofun hes
  | @call name attributes children position args keywords _ _ _ hform hargs hkeywords =>
    have hname : name ∈ (Node.element ⟨name, attributes, children, position⟩).reads := by
      rw [reads_element, if_pos hform]
      exact List.mem_append_left _ List.mem_cons_self
    have hbinds := (binds_of_chain hargs).append (binds_of_fields hkeywords)
    refine hbinds.value fun before hes => .of_parts rfl nofun ?_
    exact List.forall_mem_cons.2 ⟨Expr.bound_name (hreads name hname), hes⟩
  | sequence hform hne hfs => exact Fragment.closed_sequence hfs.forall_mem
  | operator hform hl hr =>
    exact (Binds.append hl hr).value fun before hes => .of_parts rfl nofun hes
  | conditional hform ht hy hn hyp hnp =>
    exact Fragment.Closed.conditional ht hy (closed_of_otherwise hn) ⟨hyp, hnp⟩
  | branches hform ht hy hn hp =>
    exact Fragment.Closed.branches ht hy (closed_of_otherwise hn) _ _
  | lambda hform hparams hne hds hfs hdup hp =>
    exact Fragment.closed_lambda (binds_of_fields hds) (Fragment.closed_sequence hfs.forall_mem) hp
  | function hform hparams hne hds hfs hdup hp =>
    exact Fragment.closed_function (binds_of_fields hds)
      (Fragment.closed_sequence hfs.forall_mem) _

/-- **A compiled node leaves nothing open.** -/
theorem closed_of_compiles {n : Node} (h : n.Compiles s f s')
    (hreads : ∀ name ∈ n.reads, ¬ Generated name) : f.Closed := by
  refine compile_induction
    (motive := fun n _ f _ => (∀ name ∈ n.reads, ¬ Generated name) → f.Closed) ?_ n s f s' h hreads
  intro n s f s' hcompilation hreads
  refine closed_of_compilation (hcompilation.imp fun p hp s f s' hpart => ?_) hreads
  exact hpart.2 fun name hname => hreads name (mem_reads_of_part hp hname)

end Node

theorem Program.scoped_body {nodes : List Node} {p : Program} {s s' : NameSupply}
    (h : Program.ofNodes nodes s = .ok p s')
    (hreads : ∀ n ∈ nodes, ∀ name ∈ n.reads, ¬ Generated name) : Stmt.Scoped [] p.body := by
  obtain ⟨fs, hfs, hbody⟩ := Program.chain_of_ofNodes h
  have hclosed : ∀ f ∈ fs, f.Closed :=
    (hfs.imp fun n hn s f s' h => Node.closed_of_compiles h (hreads n hn)).forall_mem
  rw [hbody]
  clear hbody hfs
  induction fs with
  | nil => exact Stmt.scoped_nil
  | cons f fs ih =>
    obtain ⟨hf, hrest⟩ := List.forall_mem_cons.1 hclosed
    exact hf.statements.inPlace.append ((ih hrest).mono (List.nil_subset _))

/-- **Every reference to a made-up name is bound.** Take a compiled program whose nodes read no name
of the made-up form, and a statement anywhere in it. A made-up function that one of its expressions
mentions is defined before, in its block or in a block around it. A made-up variable is mentioned
only if the statement returns it, directly after a choice both of whose blocks end by assigning it.
No lambda mentions a made-up name in its body. -/
theorem Program.names_bound {nodes : List Node} {p : Program} {s s' : NameSupply}
    (h : Program.ofNodes nodes s = .ok p s')
    (hreads : ∀ n ∈ nodes, ∀ name ∈ n.reads, ¬ Generated name) :
    (∀ t ∈ Stmt.allOf p.body, ∃ outer before, t.Stands p.body outer before) ∧
    ∀ (t : Stmt) outer before, t.Stands p.body outer before → ∀ e ∈ t.exprs,
      (∀ k, .name (funcName k) ∈ e.all →
        ∃ params body, .define (funcName k) params body ∈ outer ++ before) ∧
      (∀ k, .name (varName k) ∈ e.all → t = .ret (.name (varName k)) ∧
        ∃ earlier test yes no, before = earlier ++ [.branch test yes no] ∧
          Stmt.lastAssigned? yes = some (varName k) ∧
          Stmt.lastAssigned? no = some (varName k)) ∧
      (∀ params body, .lambda params body ∈ e.all →
        ∀ name, Generated name → .name name ∉ body.all) := by
  refine ⟨fun t ht => Stmt.exists_stands p.body ht, fun t outer before ht e he => ?_⟩
  rcases Program.scoped_body h hreads t outer before ht with hexprs | ⟨k, rfl, hchosen⟩
  · obtain ⟨hfunc, hvar, hlambda⟩ := hexprs e he
    exact ⟨hfunc, fun k hk => absurd hk (hvar k), hlambda⟩
  · obtain rfl := List.mem_singleton.1 he
    refine ⟨fun j hj => ?_, fun j hj => ?_, fun params body hmem => ?_⟩
    · cases NameSupply.funcName_ne_varName (Expr.name.inj (List.mem_singleton.1 hj))
    · have hname := Expr.name.inj (List.mem_singleton.1 hj)
      rw [hname]
      exact ⟨rfl, hchosen⟩
    · cases List.mem_singleton.1 hmem

/-- A choice with steps as an argument: `<f><if>p <do>p p</do></if></f>`. -/
def Node.chosenArgument : Node :=
  tag "f" [tag "if" [.symbol "p", tag "do" [.symbol "p", .symbol "p"]]]

theorem Program.names_bound_chosenArgument :
    (∀ n ∈ [Node.chosenArgument], ∀ name ∈ n.reads, ¬ Generated name) ∧
    ∃ p s', Program.ofNodes [Node.chosenArgument] ⟨0⟩ = .ok p s' ∧
      ∃ definition call choice, p.body = [definition, .eval call] ∧
        definition.blocks = [[choice, .ret (.name (varName 2))]] ∧
        (∃ params body, .define (funcName 1) params body ∈ [definition]) ∧
        ∃ earlier test yes no, [choice] = earlier ++ [.branch test yes no] ∧
          Stmt.lastAssigned? yes = some (varName 2) ∧
          Stmt.lastAssigned? no = some (varName 2) := by
  have hreads : ∀ n ∈ [Node.chosenArgument], ∀ name ∈ n.reads, ¬ Generated name := by
    have hhead : ∀ name ∈ Node.chosenArgument.reads, name.toList.head? ≠ some '_' := by decide
    intro n hn name hname hgenerated
    obtain rfl := List.mem_singleton.1 hn
    exact hhead name hname hgenerated.head?
  refine ⟨hreads, _, _, rfl, _, _, _, rfl, rfl, ?_, ?_⟩
  · have hcall := (Program.names_bound (s := ⟨0⟩) rfl hreads).2 _ [] _ (.here [_] [])
    exact (hcall _ List.mem_cons_self).1 1 (.tail _ (.tail _ (.tail _ (.head _))))
  · have hret := (Program.names_bound (s := ⟨0⟩) rfl hreads).2 _ _ _
      (.inside [] _ List.mem_cons_self (.here [_] []))
    exact ((hret _ List.mem_cons_self).2.1 2 List.mem_cons_self).2

end TagLang
