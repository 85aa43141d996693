import TagLang.Proofs.Reading.Grammar
import TagLang.Proofs.Reading.Prefix

/-!
# Names in closing tags

A reader can ask that a closing tag has the name of its element (`strict`) or not ask for it
(`permissive`). The two of them take the same steps except at the end of a closing tag with another
name: there, the strict one fails (`Reading.Clash`). So a strict reading is a permissive one up to
its first clash (`Reading.run_strict`).

A `ClosedElement` stands anywhere among tokens and is known by the grammar alone. In tokens that the
permissive reader accepts, the clashes are the closing tags of such elements that have other names
(`ClosedElement.clashesAt`, `Reading.ClashesAt.exists_closedElement`), since the reader takes what
the grammar derives for nothing else (`Derives.leadsTo`). Hence the strict reader fails on them
exactly if there is such a tag, and it reports the first one (`Node.ofTokens_strict`).
-/

namespace TagLang

/-- A closing tag must have the name of its element. -/
def ParseOptions.strict : ParseOptions := ⟨true⟩

open ParseOptions (permissive strict)

variable {options : ParseOptions} {nodes : List Node} {frames : List Frame} {r r' : Reading}
  {t : Token} {ts us : List Token} {e e' : ParseError} {n : Nat}

/-! ## Clashes -/

namespace Reading

theorem exists_of_run_append (h : run options r (ts ++ us) = .ok r') :
    ∃ next, run options r ts = .ok next ∧ run options next us = .ok r' := by
  rw [run_append] at h
  cases hrun : run options r ts with
  | error e => rw [hrun] at h; cases h
  | ok next =>
    rw [hrun] at h
    exact ⟨next, rfl, h⟩

theorem exists_of_run_cons (h : run options r (t :: ts) = .ok r') :
    ∃ next, Step options t r next ∧ run options next ts = .ok r' := by
  rw [run_cons] at h
  cases hstep : step options r t with
  | error e => rw [hstep] at h; cases h
  | ok next =>
    rw [hstep] at h
    exact ⟨next, step_eq_ok_iff.1 hstep, h⟩

/-- A token ends a closing tag that does not have the name of its element. -/
inductive Clash (t : Token) : Reading → ParseError → Prop
  | closingEnd {nodes done : List Node} {frames : List Frame} {tag : OpenTag} {closing : Position}
      {name : String} :
      t.kind = .tagClose → name ≠ tag.name →
      Clash t ⟨nodes, frames, .closingEnd tag done closing name⟩
        (.mismatchedTag tag.name name closing)

theorem Clash.step_strict (h : Clash t r e) : step strict r t = .error e := by
  obtain ⟨hkind, hname⟩ := h
  simp only [step, hkind]
  rw [if_pos]
  rw [Bool.and_eq_true, bne_iff_ne]
  exact ⟨rfl, hname⟩

/-- **One step.** The two readers differ only at a clash. -/
theorem step_strict_of_not_clash (h : ∀ e, ¬ Clash t r e) :
    step strict r t = step permissive r t := by
  obtain ⟨nodes, frames, awaiting⟩ := r
  cases awaiting with
  | term | tagName | attributes | attributeValue | closingName => rfl
  | closingEnd tag done closing name =>
    simp only [step]
    split
    · next hkind =>
      by_cases hname : name = tag.name
      · simp [hname]
      · exact absurd (.closingEnd hkind hname) (h _)
    · rfl

/-- After `n` tokens that the permissive reader takes, there is a clash. -/
inductive ClashesAt : Reading → List Token → Nat → ParseError → Prop
  | here {r : Reading} {t : Token} {ts : List Token} {e : ParseError} :
      Clash t r e → ClashesAt r (t :: ts) 0 e
  | later {r r' : Reading} {t : Token} {ts : List Token} {n : Nat} {e : ParseError} :
      Step permissive t r r' → ClashesAt r' ts n e → ClashesAt r (t :: ts) (n + 1) e

theorem ClashesAt.unique (h : ClashesAt r ts n e) (h' : ClashesAt r ts n e') : e = e' := by
  induction h with
  | here hclash =>
    cases h' with
    | here hclash' =>
      cases hclash
      cases hclash'
      rfl
  | later hstep _ ih =>
    cases h' with
    | later hstep' hrest =>
      obtain rfl := Except.ok.inj (hstep.eq_ok.symm.trans hstep'.eq_ok)
      exact ih hrest

theorem ClashesAt.exists_of_cons (h : ClashesAt r (t :: ts) n e) (hnone : ∀ e, ¬ Clash t r e) :
    ∃ m next, n = m + 1 ∧ step permissive r t = .ok next ∧ ClashesAt next ts m e := by
  cases h with
  | here hclash => exact absurd hclash (hnone e)
  | later hstep hrest => exact ⟨_, _, rfl, hstep.eq_ok, hrest⟩

theorem clashesAt_of_run (hrun : run permissive r ts = .ok r') (h : Clash t r' e)
    (after : List Token) : ClashesAt r (ts ++ t :: after) ts.length e := by
  induction ts generalizing r with
  | nil =>
    obtain rfl := Except.ok.inj hrun
    exact .here h
  | cons t ts ih =>
    obtain ⟨next, hstep, hrun⟩ := exists_of_run_cons hrun
    exact .later hstep (ih hrun)

theorem ClashesAt.exists_run (h : ClashesAt r ts n e) :
    ∃ before t after r', ts = before ++ t :: after ∧ before.length = n ∧
      run permissive r before = .ok r' ∧ Clash t r' e := by
  induction h with
  | here hclash => exact ⟨[], _, _, _, rfl, rfl, rfl, hclash⟩
  | later hstep _ ih =>
    obtain ⟨before, t, after, r', rfl, rfl, hrun, hclash⟩ := ih
    refine ⟨_ :: before, t, after, r', rfl, rfl, ?_, hclash⟩
    rw [hstep.run_cons]
    exact hrun

/-- **A strict reading is a permissive one up to its first clash.** -/
theorem run_strict (r : Reading) (ts : List Token) :
    (run strict r ts = run permissive r ts ∧ ∀ n e, ¬ ClashesAt r ts n e) ∨
      ∃ n e, run strict r ts = .error e ∧ ClashesAt r ts n e ∧
        ∀ m e', ClashesAt r ts m e' → n ≤ m := by
  induction ts generalizing r with
  | nil => exact .inl ⟨rfl, fun n e h => by cases h⟩
  | cons t ts ih =>
    by_cases hclash : ∃ e, Clash t r e
    · obtain ⟨e, hclash⟩ := hclash
      refine .inr ⟨0, e, ?_, .here hclash, fun m e' _ => Nat.zero_le m⟩
      rw [run_cons, hclash.step_strict]
      rfl
    · rw [not_exists] at hclash
      rw [run_cons, run_cons, step_strict_of_not_clash hclash]
      cases hstep : step permissive r t with
      | error e =>
        refine .inl ⟨rfl, fun n e' h => ?_⟩
        obtain ⟨m, next, -, hok, -⟩ := h.exists_of_cons hclash
        rw [hstep] at hok
        cases hok
      | ok next =>
        rcases ih next with ⟨hrun, hnone⟩ | ⟨n, e, hrun, hat, hfirst⟩
        · refine .inl ⟨hrun, fun n e h => ?_⟩
          obtain ⟨m, next', -, hok, hrest⟩ := h.exists_of_cons hclash
          obtain rfl := Except.ok.inj (hstep.symm.trans hok)
          exact hnone m e hrest
        · refine .inr ⟨n + 1, e, hrun, .later (step_eq_ok_iff.1 hstep) hat, fun m e' h => ?_⟩
          obtain ⟨m, next', rfl, hok, hrest⟩ := h.exists_of_cons hclash
          obtain rfl := Except.ok.inj (hstep.symm.trans hok)
          exact Nat.succ_le_succ (hfirst m e' hrest)

/-- There is room for what is opened. -/
theorem lt_of_run_cons (h : run options ⟨nodes, frames, .term⟩ (t :: ts) = .ok r)
    (hkind : t.kind = .tagOpen ∨ t.kind = .listOpen) : frames.length < maxDepth := by
  obtain ⟨next, hstep, -⟩ := exists_of_run_cons h
  cases hstep with
  | listOpen _ hlt | tagOpen _ hlt => exact hlt
  | string hkind' | identifier hkind' | listClose hkind' | closeOpen hkind' =>
    rw [hkind'] at hkind
    exact hkind.elim (fun h => by cases h) fun h => by cases h

/-- An element is opened only where a node may stand. -/
theorem eq_term_of_run_cons (hrun : run options r (t :: ts) = .ok r')
    (hkind : t.kind = .tagOpen) : ∃ nodes frames, r = ⟨nodes, frames, .term⟩ := by
  obtain ⟨next, hstep, -⟩ := exists_of_run_cons hrun
  cases hstep with
  | string | identifier | listOpen | listClose | tagOpen | closeOpen => exact ⟨_, _, rfl⟩
  | tagName h | attributeName h | equals h | selfClose h | tagClose h | closingName h
  | closingEnd h =>
    rw [hkind] at h
    cases h

end Reading

/-! ## Elements with closing tags -/

open Reading (run deliver Step exists_of_run_append lt_of_run_cons eq_term_of_run_cons)

/-- What a reading of a phrase leads to if it does not fail, wherever the phrase may stand. -/
def Phrase.LeadsTo (options : ParseOptions) (ts : List Token) : Phrase → Prop
  | .term node => ∀ nodes frames r,
      run options ⟨nodes, frames, .term⟩ ts = .ok r → r = deliver nodes frames node
  | .terms more => ∀ nodes frames r, Reading.TakesAll frames →
      run options ⟨nodes, frames, .term⟩ ts = .ok r → r = Reading.deliverAll nodes frames more
  | .attributes fields => ∀ nodes frames name position r,
      run options ⟨nodes, frames, .attributes ⟨name, position, []⟩⟩ ts = .ok r →
        r = ⟨nodes, frames, .attributes ⟨name, position, fields⟩⟩

/-- The tokens of an element lead to the end of its closing tag. -/
theorem run_closingEnd {opening name bracket closing closingName : Token} {fields : Fields Node}
    {children : List Node} {attributeTokens childTokens after : List Token}
    (hopen : opening.kind = .tagOpen) (hname : name.kind = .identifier)
    (hfields : (Phrase.attributes fields).LeadsTo options attributeTokens)
    (hbracket : bracket.kind = .tagClose)
    (hchildren : (Phrase.terms children).LeadsTo options childTokens)
    (hclosing : closing.kind = .closeOpen) (hclosingName : closingName.kind = .identifier)
    (hrun : run options ⟨nodes, frames, .term⟩ (opening :: name :: (attributeTokens ++
      bracket :: (childTokens ++ closing :: closingName :: after))) = .ok r) :
    run options ⟨nodes, frames, .closingEnd ⟨name.text, opening.position, fields⟩ children.reverse
      closing.position closingName.text⟩ after = .ok r := by
  rw [(Step.tagOpen hopen (lt_of_run_cons hrun (.inl hopen))).run_cons,
    (Step.tagName hname).run_cons] at hrun
  obtain ⟨next, hattributes, hrun⟩ := exists_of_run_append hrun
  obtain rfl := hfields _ _ _ _ next hattributes
  rw [(Step.tagClose hbracket).run_cons] at hrun
  obtain ⟨next, hterms, hrun⟩ := exists_of_run_append hrun
  obtain rfl := hchildren _ (.children _ [] :: frames) next trivial hterms
  simp only [Reading.deliverAll, List.append_nil] at hrun
  rw [(Step.closeOpen hclosing).run_cons, (Step.closingName hclosingName).run_cons] at hrun
  exact hrun

/-- **A phrase is not taken for anything else.** Unlike `Derives.runs`, there need not be room for
it: then the reader fails. -/
theorem Derives.leadsTo {depth : Nat} {phrase : Phrase} (h : Derives options depth phrase ts) :
    phrase.LeadsTo options ts := by
  induction h with
  | string hkind =>
    intro nodes frames r hrun
    rw [(Step.string hkind).run_cons] at hrun
    exact (Except.ok.inj hrun).symm
  | identifier hkind hnode =>
    intro nodes frames r hrun
    rw [(Step.identifier hkind hnode).run_cons] at hrun
    exact (Except.ok.inj hrun).symm
  | list hopen _ hclose ih =>
    intro nodes frames r hrun
    rw [(Step.listOpen hopen (lt_of_run_cons hrun (.inr hopen))).run_cons] at hrun
    obtain ⟨next, hitems, hrun⟩ := exists_of_run_append hrun
    obtain rfl := ih nodes (.items [] :: frames) next trivial hitems
    simp only [Reading.deliverAll, List.append_nil] at hrun
    rw [(Step.listClose hclose).run_cons, List.reverse_reverse] at hrun
    exact (Except.ok.inj hrun).symm
  | childless hopen hname _ hclose ih =>
    intro nodes frames r hrun
    rw [(Step.tagOpen hopen (lt_of_run_cons hrun (.inl hopen))).run_cons,
      (Step.tagName hname).run_cons] at hrun
    obtain ⟨next, hfields, hrun⟩ := exists_of_run_append hrun
    obtain rfl := ih _ _ _ _ next hfields
    rw [(Step.selfClose hclose).run_cons] at hrun
    exact (Except.ok.inj hrun).symm
  | element hopen hname _ hbracket _ hclosing hclosingName hclosingBracket hstrict ihfields
      ihchildren =>
    intro nodes frames r hrun
    have hend := run_closingEnd hopen hname ihfields hbracket ihchildren hclosing hclosingName hrun
    rw [(Step.closingEnd hclosingBracket hstrict).run_cons, List.reverse_reverse] at hend
    exact (Except.ok.inj hend).symm
  | noTerms =>
    intro nodes frames r _ hrun
    rw [Reading.deliverAll_nil]
    exact (Except.ok.inj hrun).symm
  | moreTerms _ _ ihterms ihterm =>
    intro nodes frames r htakes hrun
    obtain ⟨next, hterms, hrun⟩ := exists_of_run_append hrun
    obtain rfl := ihterms nodes frames next htakes hterms
    obtain ⟨nodes', frames', hall, -, hsnoc⟩ := Reading.deliverAll_snoc htakes _
    rw [hall] at hrun
    rw [hsnoc]
    exact ihterm nodes' frames' r hrun
  | noAttributes =>
    intro nodes frames name position r hrun
    exact (Except.ok.inj hrun).symm
  | moreAttributes _ hkey hsign _ ihfields ihterm =>
    intro nodes frames name position r hrun
    obtain ⟨next, hfields, hrun⟩ := exists_of_run_append hrun
    obtain rfl := ihfields nodes frames name position next hfields
    rw [(Step.attributeName hkey).run_cons, (Step.equals hsign).run_cons] at hrun
    exact ihterm nodes (.attribute _ _ :: frames) r hrun

/-- An element with a closing tag among tokens. -/
structure ClosedElement (ts : List Token) where
  before : List Token
  opening : Token
  name : Token
  attributeTokens : List Token
  bracket : Token
  childTokens : List Token
  closing : Token
  closingName : Token
  closingBracket : Token
  after : List Token
  tokens_eq : ts = before ++ opening :: name :: (attributeTokens ++ bracket :: (childTokens ++
    closing :: closingName :: closingBracket :: after))
  opening_kind : opening.kind = .tagOpen
  name_kind : name.kind = .identifier
  attributes : ∃ depth fields, Derives permissive depth (.attributes fields) attributeTokens
  bracket_kind : bracket.kind = .tagClose
  children : ∃ depth nodes, Derives permissive depth (.terms nodes) childTokens
  closing_kind : closing.kind = .closeOpen
  closingName_kind : closingName.kind = .identifier
  closingBracket_kind : closingBracket.kind = .tagClose

namespace ClosedElement

variable (element : ClosedElement ts)

/-- The tokens in front of the closing tag. -/
def front : List Token :=
  element.before ++ element.opening :: element.name :: (element.attributeTokens ++
    element.bracket :: element.childTokens)

/-- The closing tag does not have the name of the element. -/
def Mismatched : Prop := element.closingName.text ≠ element.name.text

/-- The closing tag comes first among those that do not have the names of their elements. -/
def IsFirstMismatch : Prop :=
  element.Mismatched ∧
    ∀ other : ClosedElement ts, other.Mismatched → element.front.length ≤ other.front.length

/-- The error that says that the names of an element and its closing tag differ. -/
def error : ParseError :=
  .mismatchedTag element.name.text element.closingName.text element.closing.position

theorem tokens_eq_append : ts = (element.front ++ [element.closing, element.closingName]) ++
    element.closingBracket :: element.after := by
  refine element.tokens_eq.trans ?_
  simp [front]

/-- **A closing tag of another name is a clash** when the reader comes to it. -/
theorem clashesAt (h : element.Mismatched) (hrun : run permissive Reading.start ts = .ok r) :
    Reading.ClashesAt Reading.start ts (element.front.length + 2) element.error := by
  obtain ⟨_, fields, hfields⟩ := element.attributes
  obtain ⟨_, children, hchildren⟩ := element.children
  rw [element.tokens_eq_append] at hrun
  obtain ⟨next, hnext, -⟩ := exists_of_run_append hrun
  have hrest := hnext
  simp only [front, List.append_assoc, List.cons_append] at hrest
  obtain ⟨start, -, hrest⟩ := exists_of_run_append hrest
  obtain ⟨nodes, frames, rfl⟩ := eq_term_of_run_cons hrest element.opening_kind
  have hend := run_closingEnd element.opening_kind element.name_kind hfields.leadsTo
    element.bracket_kind hchildren.leadsTo element.closing_kind element.closingName_kind hrest
  obtain rfl := Except.ok.inj hend
  have hat := Reading.clashesAt_of_run hnext (.closingEnd element.closingBracket_kind h)
    element.after
  rw [← element.tokens_eq_append, List.length_append] at hat
  exact hat

end ClosedElement

/-- **A clash is at the end of an element** whose closing tag has another name. -/
theorem Reading.ClashesAt.exists_closedElement (h : Reading.ClashesAt Reading.start ts n e) :
    ∃ element : ClosedElement ts,
      element.Mismatched ∧ element.error = e ∧ element.front.length + 2 = n := by
  obtain ⟨before, t, after, r, rfl, rfl, hrun, hclash⟩ := h.exists_run
  have hreads := Reading.reads_start.run hrun
  obtain ⟨hkind, hne⟩ := hclash
  cases hreads with
  | @closingEnd _ _ tag done closing closingName _ hopened hclosing hclosingName =>
    cases hopened with
    | @children _ _ _ depth bracket ts _ vs hopened _ htag hbracket hchildren =>
      obtain ⟨opening, name, us, hopening, hname, hfields, htag, rfl⟩ := htag
      rw [htag] at hne ⊢
      refine ⟨⟨ts, opening, name, us, bracket, vs, closing, closingName, t, after, ?_, hopening,
        hname, ⟨_, _, hfields⟩, hbracket, ⟨_, _, hchildren⟩, hclosing, hclosingName, hkind⟩, hne,
        rfl, ?_⟩
      · simp
      · simp +arith [ClosedElement.front]

/-- The first clash is at the first of the closing tags that have other names. -/
theorem Reading.ClashesAt.eq_iff (h : Reading.ClashesAt Reading.start ts n e)
    (hfirst : ∀ m e', Reading.ClashesAt Reading.start ts m e' → n ≤ m)
    (hrun : run permissive Reading.start ts = .ok r) (e' : ParseError) :
    e = e' ↔ ∃ element : ClosedElement ts, element.IsFirstMismatch ∧ e' = element.error := by
  obtain ⟨found, hmismatched, rfl, rfl⟩ := h.exists_closedElement
  constructor
  · rintro rfl
    refine ⟨found, ⟨hmismatched, fun other hother => ?_⟩, rfl⟩
    exact Nat.le_of_add_le_add_right (hfirst _ _ (other.clashesAt hother hrun))
  · rintro ⟨element, ⟨helement, hleast⟩, rfl⟩
    have hat := element.clashesAt helement hrun
    have hle := hleast found hmismatched
    have hge := hfirst _ _ hat
    rw [show element.front.length = found.front.length by omega] at hat
    exact h.unique hat

namespace Node

theorem exists_run_of_ofTokens (h : ofTokens options ts = .ok nodes) :
    ∃ r, run options Reading.start ts = .ok r := by
  rw [ofTokens_eq] at h
  cases hrun : run options Reading.start ts with
  | error e => rw [hrun] at h; cases h
  | ok r => exact ⟨r, rfl⟩

/-- Both readers answer the same, or the strict one reports the first clash. -/
theorem ofTokens_strict_cases (ts : List Token) :
    (ofTokens strict ts = ofTokens permissive ts ∧
        ∀ n e, ¬ Reading.ClashesAt Reading.start ts n e) ∨
      ∃ n e, ofTokens strict ts = .error e ∧ Reading.ClashesAt Reading.start ts n e ∧
        ∀ m e', Reading.ClashesAt Reading.start ts m e' → n ≤ m := by
  rw [ofTokens_eq, ofTokens_eq]
  rcases Reading.run_strict Reading.start ts with ⟨hrun, hnone⟩ | ⟨n, e, hrun, hfirst⟩
  · exact .inl ⟨by rw [hrun], hnone⟩
  · exact .inr ⟨n, e, by rw [hrun]; rfl, hfirst⟩

theorem exists_error_iff_mismatched (h : ofTokens permissive ts = .ok nodes) :
    (∃ e, ofTokens strict ts = .error e) ↔ ∃ element : ClosedElement ts, element.Mismatched := by
  obtain ⟨r, hrun⟩ := exists_run_of_ofTokens h
  rcases ofTokens_strict_cases ts with ⟨hagree, hnone⟩ | ⟨n, e, hfail, hat, -⟩
  · rw [hagree, h]
    refine iff_of_false ?_ ?_
    · rintro ⟨e, he⟩
      cases he
    · rintro ⟨element, hmismatched⟩
      exact hnone _ _ (element.clashesAt hmismatched hrun)
  · obtain ⟨found, hmismatched, -⟩ := hat.exists_closedElement
    exact iff_of_true ⟨e, hfail⟩ ⟨found, hmismatched⟩

theorem ofTokens_strict_eq_error_iff (h : ofTokens permissive ts = .ok nodes) (e : ParseError) :
    ofTokens strict ts = .error e ↔
      ∃ element : ClosedElement ts, element.IsFirstMismatch ∧ e = element.error := by
  obtain ⟨r, hrun⟩ := exists_run_of_ofTokens h
  rcases ofTokens_strict_cases ts with ⟨hagree, hnone⟩ | ⟨n, e', hfail, hat, hfirst⟩
  · rw [hagree, h]
    refine iff_of_false ?_ ?_
    · intro he
      cases he
    · rintro ⟨element, hmismatch, -⟩
      exact hnone _ _ (element.clashesAt hmismatch.1 hrun)
  · rw [hfail, Except.error.injEq]
    exact hat.eq_iff hfirst hrun e

/-- **Asking for the names of closing tags only adds errors about them.** Where the strict reader
succeeds or fails for another reason, the permissive one does the same. Where the permissive reader
succeeds, the strict one fails exactly if the closing tag of some element has another name, and then
it reports the element whose closing tag comes first among these. -/
theorem ofTokens_strict (ts : List Token) :
    (∀ nodes, ofTokens strict ts = .ok nodes → ofTokens permissive ts = .ok nodes) ∧
    (∀ e, ofTokens strict ts = .error e →
      (∀ opening closing position, e ≠ .mismatchedTag opening closing position) →
      ofTokens permissive ts = .error e) ∧
    ∀ nodes, ofTokens permissive ts = .ok nodes →
      ((∃ e, ofTokens strict ts = .error e) ↔ ∃ element : ClosedElement ts, element.Mismatched) ∧
      ∀ e, ofTokens strict ts = .error e ↔
        ∃ element : ClosedElement ts, element.IsFirstMismatch ∧ e = element.error := by
  refine ⟨fun nodes h => ?_, fun e h hother => ?_, fun nodes h =>
    ⟨exists_error_iff_mismatched h, ofTokens_strict_eq_error_iff h⟩⟩
  · rcases ofTokens_strict_cases ts with ⟨hagree, -⟩ | ⟨n, e, hfail, -⟩
    · rw [← hagree]
      exact h
    · rw [hfail] at h
      cases h
  · rcases ofTokens_strict_cases ts with ⟨hagree, -⟩ | ⟨n, e', hfail, hat, -⟩
    · rw [← hagree]
      exact h
    · obtain ⟨found, -, rfl, -⟩ := hat.exists_closedElement
      exact absurd (Except.error.inj (h.symm.trans hfail)) (hother _ _ _)

-- what is closed first is reported, not what is opened first
example : parse strict "<a><b></c></d>" = .error (.mismatchedTag "b" "c" ⟨1, 7⟩) := by
  cbv

end Node

end TagLang
