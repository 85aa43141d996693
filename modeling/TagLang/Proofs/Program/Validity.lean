import TagLang.Program.Validity
import TagLang.Proofs.Program.Contents

/-!
# What validation decides

A program is well-formed if no function is left outside of one, no name in it is empty, and the
names of each parameter list differ. `Program.validate` accepts exactly the well-formed programs
(`Program.validate_eq_ok_iff`), and an error that it reports is one that the program has
(`Program.violates_of_validate_eq_error`); `Program.validate_decides` puts the two together.

Names and parameter lists are items of the program, so that the last two conditions speak of all its
items and not of the way in which statements and expressions are nested.
-/

namespace TagLang

/-! ## Well-formed programs -/

namespace Item

/-- The names in an item. -/
def names : Item → List String
  | .name ident => [ident]
  | .call _ _ keywords => keywords
  | .params positional rest keywords => positional ++ rest.toList ++ keywords
  | .assign target => [target]
  | .define ident => [ident]
  | _ => []

/-- The names of a parameter list differ. -/
def Distinct : Item → Prop
  | .params positional rest keywords => (positional ++ rest.toList ++ keywords).Nodup
  | _ => True

structure Valid (item : Item) : Prop where
  named : ∀ name ∈ item.names, name ≠ ""
  distinct : item.Distinct

end Item

/-- A statement leaves the function around it, itself or in one of its branches. -/
inductive Stmt.Leaves : Stmt → Prop
  | ret (value : Expr) : Leaves (.ret value)
  | yes {test : Expr} {yes no : List Stmt} {s : Stmt} :
      s ∈ yes → Leaves s → Leaves (.branch test yes no)
  | no {test : Expr} {yes no : List Stmt} {s : Stmt} :
      s ∈ no → Leaves s → Leaves (.branch test yes no)

/-- Nothing is wrong with a program, at any depth. -/
structure Program.WellFormed (p : Program) : Prop where
  /-- No function is left outside of one. -/
  returns : ∀ s ∈ p.body, ¬ s.Leaves
  /-- No name is empty. -/
  named : ∀ item ∈ Stmt.itemsOf p.body, ∀ name ∈ item.names, name ≠ ""
  /-- The names of a parameter list differ. -/
  distinct : ∀ item ∈ Stmt.itemsOf p.body, item.Distinct

/-! ## Checks one after the other -/

theorem check_bind_eq_ok_iff {x : Except ValidationError Unit} {y : Except ValidationError Unit} :
    (x >>= fun _ => y) = .ok () ↔ x = .ok () ∧ y = .ok () := by
  cases x with
  | error e => exact ⟨nofun, nofun⟩
  | ok u => exact ⟨fun h => ⟨rfl, h⟩, fun h => h.2⟩

theorem checkName_eq_ok_iff {name : String} : checkName name = .ok () ↔ name ≠ "" := by
  unfold checkName
  split
  · next h => exact ⟨nofun, fun hne => absurd h hne⟩
  · next h => exact ⟨fun _ => h, fun _ => rfl⟩

/-- The names seen are those of the same list that come before. -/
theorem firstDuplicate?_eq_none_iff {seen names : List String} :
    firstDuplicate? seen names = none ↔ names.Nodup ∧ ∀ name ∈ names, name ∉ seen := by
  induction names generalizing seen with
  | nil => simp [firstDuplicate?]
  | cons name names ih =>
    rw [firstDuplicate?]
    by_cases hseen : name ∈ seen
    · rw [if_pos (List.contains_iff_mem.2 hseen)]
      constructor
      · intro h
        cases h
      · intro h
        exact absurd hseen (h.2 name List.mem_cons_self)
    · rw [if_neg (mt List.contains_iff_mem.1 hseen), ih]
      constructor
      · rintro ⟨hnodup, hfresh⟩
        refine ⟨List.nodup_cons.2 ⟨?_, hnodup⟩,
          List.forall_mem_cons.2 ⟨hseen, fun other hother hmem => ?_⟩⟩
        · intro hmem
          exact hfresh name hmem List.mem_cons_self
        · exact hfresh other hother (List.mem_cons_of_mem name hmem)
      · rintro ⟨hnodup, hfresh⟩
        obtain ⟨hnot, hnodup⟩ := List.nodup_cons.1 hnodup
        refine ⟨hnodup, fun other hother hmem => ?_⟩
        rcases List.mem_cons.1 hmem with rfl | hmem
        · exact hnot hother
        · exact hfresh other (List.mem_cons_of_mem name hother) hmem

theorem checkNames_eq_ok_iff {seen names : List String} : checkNames seen names = .ok () ↔
    (∀ name ∈ names, name ≠ "") ∧ firstDuplicate? seen names = none := by
  induction names generalizing seen with
  | nil => simp [checkNames, firstDuplicate?]
  | cons name names ih =>
    rw [checkNames, check_bind_eq_ok_iff, checkName_eq_ok_iff, firstDuplicate?,
      List.forall_mem_cons, and_assoc, and_congr_right_iff]
    intro _
    cases seen.contains name with
    | true => exact ⟨nofun, fun h => nomatch h.2⟩
    | false => exact ih

theorem checkNames_names_eq_ok_iff {params : Params Expr} :
    checkNames [] params.names = .ok () ↔ params.item.Valid := by
  rw [checkNames_eq_ok_iff, firstDuplicate?_eq_none_iff]
  constructor
  · rintro ⟨hnames, hnodup, -⟩
    exact ⟨hnames, hnodup⟩
  · rintro ⟨hnames, hnodup⟩
    exact ⟨hnames, hnodup, fun name _ => List.not_mem_nil⟩

/-! ## Expressions -/

/-- All items of a multiset are valid. -/
def AllValid (items : Multiset Item) : Prop := ∀ item ∈ items, item.Valid

theorem allValid_zero : AllValid 0 := fun _ h => absurd h (Multiset.notMem_zero _)

theorem allValid_add {items more : Multiset Item} :
    AllValid (items + more) ↔ AllValid items ∧ AllValid more := by
  simp only [AllValid, Multiset.mem_add, or_imp, forall_and]

theorem allValid_singleton {item : Item} : AllValid {item} ↔ item.Valid := by
  simp only [AllValid, Multiset.mem_singleton, forall_eq]

/-- Only the names of an item can be wrong if it is no parameter list. -/
theorem allValid_singleton_of_distinct {item : Item} (hdistinct : item.Distinct) :
    AllValid {item} ↔ ∀ name ∈ item.names, name ≠ "" := by
  rw [allValid_singleton]
  exact ⟨fun h => h.named, fun h => ⟨h, hdistinct⟩⟩

theorem allValid_of_no_names {item : Item} (hnames : item.names = []) (hdistinct : item.Distinct) :
    AllValid {item} := by
  rw [allValid_singleton_of_distinct hdistinct, hnames]
  exact List.forall_mem_nil _

theorem allValid_of_one_name {item : Item} {name : String} (hnames : item.names = [name])
    (hdistinct : item.Distinct) : AllValid {item} ↔ name ≠ "" := by
  rw [allValid_singleton_of_distinct hdistinct, hnames, List.forall_mem_singleton]

namespace Expr

mutual

theorem validate_eq_ok_iff : ∀ e : Expr, e.validate = .ok () ↔ AllValid e.items
  | .name ident => by
    have hname : AllValid {.name ident} ↔ ident ≠ "" := allValid_of_one_name rfl trivial
    rw [validate, checkName_eq_ok_iff, items_name, hname]
  | .str value => iff_of_true rfl (allValid_of_no_names rfl trivial)
  | .int value => iff_of_true rfl (allValid_of_no_names rfl trivial)
  | .float value => iff_of_true rfl (allValid_of_no_names rfl trivial)
  | .complex re im => iff_of_true rfl (allValid_of_no_names rfl trivial)
  | .nothing => iff_of_true rfl (allValid_of_no_names rfl trivial)
  | .list items => by
    have hlist : AllValid {.list items.length} := allValid_of_no_names rfl trivial
    rw [validate, validateAll_eq_ok_iff items, items_list, allValid_add, and_iff_right hlist]
  | .call func args keywords => by
    have hcall : AllValid {.call func.name? args.length (keywords.map Prod.fst)} ↔
        ∀ key ∈ keywords.map Prod.fst, key ≠ "" := allValid_singleton_of_distinct trivial
    rw [validate, check_bind_eq_ok_iff, check_bind_eq_ok_iff, validate_eq_ok_iff func,
      validateAll_eq_ok_iff args, validateKeywords_eq_ok_iff keywords, items_call, allValid_add,
      allValid_add, allValid_add, hcall]
    tauto
  | .binOp op left right => by
    have hop : AllValid {.binOp op} := allValid_of_no_names rfl trivial
    rw [validate, check_bind_eq_ok_iff, validate_eq_ok_iff left, validate_eq_ok_iff right,
      items_binOp, allValid_add, allValid_add, and_iff_right hop]
  | .ifExp test yes no => by
    have hif : AllValid {.ifExp} := allValid_of_no_names rfl trivial
    rw [validate, check_bind_eq_ok_iff, check_bind_eq_ok_iff, validate_eq_ok_iff test,
      validate_eq_ok_iff yes, validate_eq_ok_iff no, items_ifExp, allValid_add, allValid_add,
      allValid_add, and_iff_right hif, and_assoc]
  | .lambda ⟨positional, rest, keywords⟩ body => by
    have hlambda : AllValid {.lambda} := allValid_of_no_names rfl trivial
    rw [validate, check_bind_eq_ok_iff, check_bind_eq_ok_iff, checkNames_names_eq_ok_iff,
      validateDefaults_eq_ok_iff keywords, validate_eq_ok_iff body, items_lambda, allValid_add,
      allValid_add, allValid_add, and_iff_right hlambda, allValid_singleton, and_assoc]

theorem validateAll_eq_ok_iff : ∀ es : List Expr, validateAll es = .ok () ↔ AllValid (itemsOf es)
  | [] => iff_of_true rfl allValid_zero
  | e :: es => by
    rw [validateAll, check_bind_eq_ok_iff, validate_eq_ok_iff e, validateAll_eq_ok_iff es,
      itemsOf_cons, allValid_add]

theorem validateKeywords_eq_ok_iff : ∀ fields : List (String × Expr),
    validateKeywords fields = .ok () ↔
      (∀ key ∈ fields.map Prod.fst, key ≠ "") ∧ AllValid (itemsOf (fields.map Prod.snd))
  | [] => iff_of_true rfl ⟨List.forall_mem_nil _, allValid_zero⟩
  | (key, e) :: fields => by
    rw [validateKeywords, check_bind_eq_ok_iff, check_bind_eq_ok_iff, checkName_eq_ok_iff,
      validate_eq_ok_iff e, validateKeywords_eq_ok_iff fields, List.map_cons, List.map_cons,
      List.forall_mem_cons, itemsOf_cons, allValid_add]
    tauto

theorem validateDefaults_eq_ok_iff : ∀ fields : List (String × Expr),
    validateDefaults fields = .ok () ↔ AllValid (itemsOf (fields.map Prod.snd))
  | [] => iff_of_true rfl allValid_zero
  | (key, e) :: fields => by
    rw [validateDefaults, check_bind_eq_ok_iff, validate_eq_ok_iff e,
      validateDefaults_eq_ok_iff fields, List.map_cons, itemsOf_cons, allValid_add]

end

end Expr

/-! ## Statements -/

namespace Stmt

theorem leaves_branch_iff {test : Expr} {yes no : List Stmt} :
    (Stmt.branch test yes no).Leaves ↔ (∃ s ∈ yes, s.Leaves) ∨ ∃ s ∈ no, s.Leaves := by
  constructor
  · intro h
    cases h with
    | yes hs h => exact .inl ⟨_, hs, h⟩
    | no hs h => exact .inr ⟨_, hs, h⟩
  · rintro (⟨s, hs, h⟩ | ⟨s, hs, h⟩)
    · exact .yes hs h
    · exact .no hs h

mutual

/-- A statement outside of functions must not leave one. -/
theorem validate_eq_ok_iff (inFunction : Bool) : ∀ s : Stmt, s.validate inFunction = .ok () ↔
    AllValid (itemsOf [s]) ∧ (s.Leaves → inFunction = true)
  | .eval value => by
    have heval : AllValid {.eval} := allValid_of_no_names rfl trivial
    rw [validate, Expr.validate_eq_ok_iff, itemsOf_eval, allValid_add, and_iff_right heval]
    exact (and_iff_left nofun).symm
  | .assign target value => by
    have hassign : AllValid {.assign target} ↔ target ≠ "" := allValid_of_one_name rfl trivial
    rw [validate, check_bind_eq_ok_iff, checkName_eq_ok_iff, Expr.validate_eq_ok_iff,
      itemsOf_assign, allValid_add, hassign]
    exact (and_iff_left nofun).symm
  | .define name params body => by
    have hdefine : AllValid {.define name} ↔ name ≠ "" := allValid_of_one_name rfl trivial
    rw [validate, Params.validate, check_bind_eq_ok_iff, check_bind_eq_ok_iff,
      check_bind_eq_ok_iff, checkName_eq_ok_iff, checkNames_names_eq_ok_iff,
      Expr.validateDefaults_eq_ok_iff, validateAll_eq_ok_iff true body, itemsOf_define,
      allValid_add, allValid_add, allValid_add, hdefine, allValid_singleton]
    have hleaves : ¬ (Stmt.define name params body).Leaves := nofun
    tauto
  | .branch test yes no => by
    have hbranch : AllValid {.branch (lastAssigned? yes) (lastAssigned? no)} :=
      allValid_of_no_names rfl trivial
    rw [validate, check_bind_eq_ok_iff, check_bind_eq_ok_iff, Expr.validate_eq_ok_iff,
      validateAll_eq_ok_iff inFunction yes, validateAll_eq_ok_iff inFunction no, itemsOf_branch,
      allValid_add, allValid_add, allValid_add, leaves_branch_iff, or_imp]
    tauto
  | .ret value => by
    have hret : AllValid {.ret} := allValid_of_no_names rfl trivial
    rw [validate, itemsOf_ret, allValid_add, and_iff_right hret]
    cases inFunction with
    | false => exact ⟨nofun, fun h => absurd (h.2 (.ret value)) Bool.false_ne_true⟩
    | true =>
      refine Iff.trans ?_ (and_iff_left fun _ => rfl).symm
      exact Expr.validate_eq_ok_iff value

theorem validateAll_eq_ok_iff (inFunction : Bool) : ∀ block : List Stmt,
    validateAll inFunction block = .ok () ↔
      AllValid (itemsOf block) ∧ ((∃ s ∈ block, s.Leaves) → inFunction = true)
  | [] => iff_of_true rfl ⟨allValid_zero, nofun⟩
  | s :: block => by
    have hitems : itemsOf (s :: block) = itemsOf [s] + itemsOf block := itemsOf_append [s] block
    rw [validateAll, check_bind_eq_ok_iff, validate_eq_ok_iff inFunction s,
      validateAll_eq_ok_iff inFunction block, hitems, allValid_add, List.exists_mem_cons_iff,
      or_imp]
    tauto

end

end Stmt

/-- **Validation decides well-formedness.** -/
theorem Program.validate_eq_ok_iff {p : Program} : p.validate = .ok () ↔ p.WellFormed := by
  rw [validate, Stmt.validateAll_eq_ok_iff]
  constructor
  · rintro ⟨hvalid, hleaves⟩
    refine ⟨fun s hs h => ?_, fun item hitem => (hvalid item hitem).named,
      fun item hitem => (hvalid item hitem).distinct⟩
    exact Bool.false_ne_true (hleaves ⟨s, hs, h⟩)
  · intro h
    refine ⟨fun item hitem => ⟨h.named item hitem, h.distinct item hitem⟩, ?_⟩
    rintro ⟨s, hs, hleaves⟩
    exact absurd hleaves (h.returns s hs)

/-! ## What is reported -/

/-- A parameter list has a name at least twice. -/
def Item.Repeats (name : String) : Item → Prop
  | .params positional rest keywords => 2 ≤ (positional ++ rest.toList ++ keywords).count name
  | _ => False

theorem Item.distinct_iff {item : Item} : item.Distinct ↔ ∀ name, ¬ item.Repeats name := by
  cases item with
  | params positional rest keywords =>
    simp only [Distinct, Repeats, List.nodup_iff_count_le_one, Nat.not_le, Nat.lt_succ_iff]
  | _ => exact iff_of_true trivial fun _ h => h

/-- What is wrong with a program, at any depth, in the words of an error. -/
inductive Program.Violates (p : Program) : ValidationError → Prop
  | returnOutsideFunction {s : Stmt} : s ∈ p.body → s.Leaves → Violates p .returnOutsideFunction
  | emptyIdentifier {item : Item} : item ∈ Stmt.itemsOf p.body → "" ∈ item.names →
      Violates p .emptyIdentifier
  | duplicateParameter {item : Item} {name : String} : item ∈ Stmt.itemsOf p.body →
      item.Repeats name → Violates p (.duplicateParameter name)

theorem Program.wellFormed_iff {p : Program} : p.WellFormed ↔ ∀ e, ¬ p.Violates e := by
  constructor
  · intro h e hviolates
    cases hviolates with
    | returnOutsideFunction hs hleaves => exact h.returns _ hs hleaves
    | emptyIdentifier hitem hname => exact h.named _ hitem _ hname rfl
    | duplicateParameter hitem hrepeats =>
      exact Item.distinct_iff.1 (h.distinct _ hitem) _ hrepeats
  · intro h
    refine ⟨fun s hs hleaves => h _ (.returnOutsideFunction hs hleaves), ?_, ?_⟩
    · rintro item hitem _ hname rfl
      exact h _ (.emptyIdentifier hitem hname)
    · intro item hitem
      exact Item.distinct_iff.2 fun name hrepeats => h _ (.duplicateParameter hitem hrepeats)

/-- A check that may be made in a program: it reports only what is wrong with the program. -/
def Program.Backs (p : Program) (check : Except ValidationError Unit) : Prop :=
  ∀ e, check = .error e → p.Violates e

section Reports

variable {p : Program}

theorem Program.backs_ok : p.Backs (.ok ()) := by
  rintro e ⟨⟩

theorem Program.Backs.bind {x y : Except ValidationError Unit} (hx : p.Backs x) (hy : p.Backs y) :
    p.Backs (x >>= fun _ => y) := by
  intro e h
  cases x with
  | error e' => exact hx e h
  | ok _ => exact hy e h

theorem backs_checkName {name : String} (h : name = "" → p.Violates .emptyIdentifier) :
    p.Backs (checkName name) := by
  intro e he
  unfold checkName at he
  split at he
  · next hname =>
    obtain rfl := Except.error.inj he
    exact h hname
  · cases he

/-- A name is reported if it is among the names seen or comes up again, so that it is twice in the
two lists together. -/
theorem backs_checkNames {seen names : List String}
    (hempty : "" ∈ names → p.Violates .emptyIdentifier)
    (htwice : ∀ name, 2 ≤ (seen ++ names).count name → p.Violates (.duplicateParameter name)) :
    p.Backs (checkNames seen names) := by
  induction names generalizing seen with
  | nil => exact Program.backs_ok
  | cons name names ih =>
    rw [checkNames]
    refine .bind (backs_checkName fun hname => hempty (hname ▸ List.mem_cons_self)) ?_
    by_cases hseen : name ∈ seen
    · rw [if_pos (List.contains_iff_mem.2 hseen)]
      rintro e ⟨⟩
      apply htwice
      have hone : 1 ≤ seen.count name := List.count_pos_iff.2 hseen
      rw [List.count_append, List.count_cons_self]
      omega
    · rw [if_neg (mt List.contains_iff_mem.1 hseen)]
      refine ih (fun hmem => hempty (List.mem_cons_of_mem name hmem)) fun other hother => ?_
      apply htwice
      rwa [List.perm_middle.count_eq]

theorem backs_checkNames_names {params : Params Expr} (h : params.item ∈ Stmt.itemsOf p.body) :
    p.Backs (checkNames [] params.names) :=
  backs_checkNames (fun hempty => .emptyIdentifier h hempty)
    fun _ htwice => .duplicateParameter h htwice

theorem items_add_subset_iff {items more whole : Multiset Item} :
    items + more ⊆ whole ↔ items ⊆ whole ∧ more ⊆ whole := by
  simp only [Multiset.subset_iff, Multiset.mem_add, or_imp, forall_and]

namespace Expr

mutual

theorem backs_validate : ∀ e : Expr, e.items ⊆ Stmt.itemsOf p.body → p.Backs e.validate
  | .name ident, h => by
    rw [validate]
    refine backs_checkName ?_
    rintro rfl
    exact .emptyIdentifier (Multiset.singleton_subset.1 h) List.mem_cons_self
  | .str _, _ | .int _, _ | .float _, _ | .complex _ _, _ | .nothing, _ => Program.backs_ok
  | .list items, h => by
    rw [items_list, items_add_subset_iff] at h
    rw [validate]
    exact backs_validateAll items h.2
  | .call func args keywords, h => by
    simp only [items_call, items_add_subset_iff, Multiset.singleton_subset] at h
    obtain ⟨⟨⟨hcall, hfunc⟩, hargs⟩, hkeywords⟩ := h
    rw [validate]
    refine (backs_validate func hfunc).bind ((backs_validateAll args hargs).bind ?_)
    exact backs_validateKeywords keywords (fun hempty => .emptyIdentifier hcall hempty) hkeywords
  | .binOp _ left right, h => by
    simp only [items_binOp, items_add_subset_iff] at h
    rw [validate]
    exact (backs_validate left h.1.2).bind (backs_validate right h.2)
  | .ifExp test yes no, h => by
    simp only [items_ifExp, items_add_subset_iff] at h
    obtain ⟨⟨⟨-, htest⟩, hyes⟩, hno⟩ := h
    rw [validate]
    exact (backs_validate test htest).bind ((backs_validate yes hyes).bind (backs_validate no hno))
  | .lambda ⟨positional, rest, keywords⟩ body, h => by
    simp only [items_lambda, items_add_subset_iff, Multiset.singleton_subset] at h
    obtain ⟨⟨⟨-, hparams⟩, hkeywords⟩, hbody⟩ := h
    rw [validate]
    refine (backs_checkNames_names hparams).bind ?_
    exact (backs_validateDefaults keywords hkeywords).bind (backs_validate body hbody)

theorem backs_validateAll :
    ∀ es : List Expr, itemsOf es ⊆ Stmt.itemsOf p.body → p.Backs (validateAll es)
  | [], _ => Program.backs_ok
  | e :: es, h => by
    rw [itemsOf_cons, items_add_subset_iff] at h
    rw [validateAll]
    exact (backs_validate e h.1).bind (backs_validateAll es h.2)

/-- The names of keyword arguments are in the item of the call. -/
theorem backs_validateKeywords : ∀ fields : List (String × Expr),
    ("" ∈ fields.map Prod.fst → p.Violates .emptyIdentifier) →
    itemsOf (fields.map Prod.snd) ⊆ Stmt.itemsOf p.body → p.Backs (validateKeywords fields)
  | [], _, _ => Program.backs_ok
  | (key, e) :: fields, hempty, h => by
    rw [List.map_cons, itemsOf_cons, items_add_subset_iff] at h
    rw [List.map_cons, List.mem_cons, or_imp] at hempty
    rw [validateKeywords]
    refine (backs_checkName fun hkey => hempty.1 hkey.symm).bind ((backs_validate e h.1).bind ?_)
    exact backs_validateKeywords fields hempty.2 h.2

theorem backs_validateDefaults : ∀ fields : List (String × Expr),
    itemsOf (fields.map Prod.snd) ⊆ Stmt.itemsOf p.body → p.Backs (validateDefaults fields)
  | [], _ => Program.backs_ok
  | (_, e) :: fields, h => by
    rw [List.map_cons, itemsOf_cons, items_add_subset_iff] at h
    rw [validateDefaults]
    exact (backs_validate e h.1).bind (backs_validateDefaults fields h.2)

end

end Expr

namespace Stmt

mutual

/-- Outside of functions it must be known that a statement which leaves one is wrong. -/
theorem backs_validate (inFunction : Bool) : ∀ s : Stmt, itemsOf [s] ⊆ itemsOf p.body →
    (inFunction = false → s.Leaves → p.Violates .returnOutsideFunction) →
    p.Backs (s.validate inFunction)
  | .eval value, h, _ => by
    rw [itemsOf_eval, items_add_subset_iff] at h
    rw [validate]
    exact Expr.backs_validate value h.2
  | .assign target value, h, _ => by
    rw [itemsOf_assign, items_add_subset_iff, Multiset.singleton_subset] at h
    rw [validate]
    refine (backs_checkName ?_).bind (Expr.backs_validate value h.2)
    rintro rfl
    exact .emptyIdentifier h.1 List.mem_cons_self
  | .define name params body, h, _ => by
    simp only [itemsOf_define, items_add_subset_iff, Multiset.singleton_subset] at h
    obtain ⟨⟨⟨hname, hparams⟩, hdefaults⟩, hbody⟩ := h
    rw [validate, Params.validate]
    refine (backs_checkName ?_).bind (.bind ?_ ?_)
    · rintro rfl
      exact .emptyIdentifier hname List.mem_cons_self
    · exact (backs_checkNames_names hparams).bind (Expr.backs_validateDefaults _ hdefaults)
    · exact backs_validateAll true body hbody fun hout => absurd hout.symm Bool.false_ne_true
  | .branch test yes no, h, hleaves => by
    simp only [itemsOf_branch, items_add_subset_iff] at h
    obtain ⟨⟨⟨-, htest⟩, hyes⟩, hno⟩ := h
    rw [validate]
    refine (Expr.backs_validate test htest).bind (.bind ?_ ?_)
    · exact backs_validateAll inFunction yes hyes fun hout s hs h => hleaves hout (.yes hs h)
    · exact backs_validateAll inFunction no hno fun hout s hs h => hleaves hout (.no hs h)
  | .ret value, h, hleaves => by
    rw [itemsOf_ret, items_add_subset_iff] at h
    rw [validate]
    cases inFunction with
    | false =>
      rintro e ⟨⟩
      exact hleaves rfl (.ret value)
    | true => exact Expr.backs_validate value h.2

theorem backs_validateAll (inFunction : Bool) : ∀ block : List Stmt,
    itemsOf block ⊆ itemsOf p.body →
    (inFunction = false → ∀ s ∈ block, s.Leaves → p.Violates .returnOutsideFunction) →
    p.Backs (validateAll inFunction block)
  | [], _, _ => Program.backs_ok
  | s :: block, h, hleaves => by
    have hitems : itemsOf (s :: block) = itemsOf [s] + itemsOf block := itemsOf_append [s] block
    rw [hitems, items_add_subset_iff] at h
    rw [validateAll]
    refine .bind (backs_validate inFunction s h.1 fun hout => hleaves hout s List.mem_cons_self) ?_
    exact backs_validateAll inFunction block h.2
      fun hout t ht => hleaves hout t (List.mem_cons_of_mem s ht)

end

end Stmt

end Reports

/-- An error that is reported is one that the program has. -/
theorem Program.violates_of_validate_eq_error {p : Program} {e : ValidationError}
    (h : p.validate = .error e) : p.Violates e :=
  Stmt.backs_validateAll false p.body (Multiset.Subset.refl _)
    (fun _ _ hs hleaves => .returnOutsideFunction hs hleaves) e h

/-- **Validation decides whether a program is well-formed**, and says why it is not. It accepts a
program exactly if no function is left outside of one, no name is empty and the names of each
parameter list differ, at any depth; and if it reports an error, the program has a fault of this
kind. A parameter that is reported stands at least twice in one list. -/
theorem Program.validate_decides (p : Program) :
    (p.validate = .ok () ↔ p.WellFormed) ∧ (p.WellFormed ↔ ∀ e, ¬ p.Violates e) ∧
      ∀ e, p.validate = .error e → p.Violates e :=
  ⟨validate_eq_ok_iff, wellFormed_iff, fun _ => violates_of_validate_eq_error⟩

-- the only fault is in the default of a parameter, in a branch that may not be taken
example : Program.validate ⟨[.branch (.name "p") [] [.define "f"
    { keywords := [("k", .lambda { positional := ["x"], rest := some "x" } .nothing)] } []]]⟩ =
      .error (.duplicateParameter "x") := rfl

end TagLang
