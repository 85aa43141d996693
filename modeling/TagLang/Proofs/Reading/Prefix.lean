import TagLang.Proofs.Reading.Steps

/-!
# Errors at the first possible token

Where closing tags may have any name, a reader that has not failed can always be brought to an end:
what is open can be closed, and nothing has to be opened for it (`Reading.completable`). So the
token at which it fails is the first one after which no continuation helps, and at the end of the
tokens it fails only if more tokens would have helped (`Node.ofTokens_error_first`).
-/

namespace TagLang

/-- Closing tags may have any name. -/
def ParseOptions.permissive : ParseOptions := ⟨false⟩

open ParseOptions (permissive)

/-- Tokens can be continued to tokens that are read. -/
def Node.Extendable (ts : List Token) : Prop :=
  ∃ us nodes, Node.ofTokens permissive (ts ++ us) = .ok nodes

/-- An error is about a token. -/
def ParseError.Reports : ParseError → Token → Prop
  | .unexpectedToken token _, t => token = t
  | .integerOutOfRange text position, t =>
    t.kind = .identifier ∧ t.text = text ∧ t.position = position
  | .nestingTooDeep position, t =>
    (t.kind = .tagOpen ∨ t.kind = .listOpen) ∧ t.position = position
  | _, _ => False

/-! ## Closing what is open -/

namespace Reading

/-- A reading can be brought to its end. -/
def Completable (r : Reading) : Prop :=
  ∃ us nodes, (run permissive r us >>= finish) = .ok nodes

variable {nodes : List Node} {frames : List Frame} {r r' : Reading} {t : Token}
  {ts us : List Token} {e : ParseError}

theorem Completable.of_step (h : Completable r') (hstep : Step permissive t r r') :
    Completable r := by
  obtain ⟨us, nodes, hok⟩ := h
  refine ⟨t :: us, nodes, ?_⟩
  rw [hstep.run_cons]
  exact hok

/-- Some token of a kind. -/
def someToken (kind : Token.Kind) : Token := ⟨kind, "x", 0, 1, ⟨1, 1⟩⟩

theorem completable_outside : Completable ⟨nodes, [], .term⟩ := ⟨[], nodes.reverse, rfl⟩

section

variable {tag : OpenTag} {done : List Node} {key name : String} {closing : Position}

theorem completable_attributes (h : ∀ node, Completable (deliver nodes frames node)) :
    Completable ⟨nodes, frames, .attributes tag⟩ :=
  (h _).of_step (t := someToken .selfClose) (.selfClose rfl)

theorem completable_closingEnd (h : ∀ node, Completable (deliver nodes frames node)) :
    Completable ⟨nodes, frames, .closingEnd tag done closing name⟩ :=
  (h _).of_step (t := someToken .tagClose) (.closingEnd rfl fun hstrict => by cases hstrict)

theorem completable_closingName (h : ∀ node, Completable (deliver nodes frames node)) :
    Completable ⟨nodes, frames, .closingName tag done closing⟩ :=
  (completable_closingEnd h).of_step (t := someToken .identifier) (.closingName rfl)

theorem completable_children (h : ∀ node, Completable (deliver nodes frames node)) :
    Completable ⟨nodes, .children tag done :: frames, .term⟩ :=
  (completable_closingName h).of_step (t := someToken .closeOpen) (.closeOpen rfl)

theorem completable_items (h : ∀ node, Completable (deliver nodes frames node)) :
    Completable ⟨nodes, .items done :: frames, .term⟩ :=
  (h _).of_step (t := someToken .listClose) (.listClose rfl)

theorem completable_value (h : ∀ node, Completable (deliver nodes frames node)) :
    Completable ⟨nodes, .attribute tag key :: frames, .term⟩ :=
  (completable_attributes h).of_step (t := someToken (.string "x")) (.string rfl)

end

/-- A node that goes to the innermost place leaves a reading that can be completed. The places
further out are closed one by one. -/
theorem completable_deliver (nodes : List Node) (frames : List Frame) (node : Node) :
    Completable (deliver nodes frames node) := by
  induction frames generalizing node with
  | nil => exact completable_outside
  | cons frame frames ih =>
    match frame with
    | .attribute tag key => exact completable_attributes ih
    | .children tag done => exact completable_children ih
    | .items done => exact completable_items ih

/-- **Every reading can be completed.** -/
theorem completable (r : Reading) : Completable r := by
  obtain ⟨nodes, frames, awaiting⟩ := r
  have hdeliver := completable_deliver nodes frames
  cases awaiting with
  | term =>
    match frames with
    | [] => exact completable_outside
    | .attribute tag key :: frames => exact completable_value (completable_deliver nodes frames)
    | .children tag done :: frames => exact completable_children (completable_deliver nodes frames)
    | .items done :: frames => exact completable_items (completable_deliver nodes frames)
  | tagName position =>
    exact (completable_attributes hdeliver).of_step (t := someToken .identifier) (.tagName rfl)
  | attributes tag => exact completable_attributes hdeliver
  | attributeValue tag key =>
    exact (completable_value hdeliver).of_step (t := someToken .equals) (.equals rfl)
  | closingName tag children closing => exact completable_closingName hdeliver
  | closingEnd tag children closing name => exact completable_closingEnd hdeliver

/-! ## The token of an error -/

theorem reports_of_term_eq_error (h : term nodes frames t = .error e) : e.Reports t := by
  unfold term at h
  split at h
  · cases h
  · cases h
  · next hkind =>
    split at h
    · cases h
    · obtain rfl := Except.error.inj h
      exact ⟨.inl hkind, rfl⟩
  · next hkind =>
    split at h
    · cases h
    · obtain rfl := Except.error.inj h
      exact ⟨.inr hkind, rfl⟩
  · cases h
  · next hkind =>
    split at h
    · cases h
    · obtain rfl := Except.error.inj h
      exact ⟨hkind, rfl, rfl⟩
  · obtain rfl := Except.error.inj h
    exact rfl

/-- **A step that fails** reports its token. -/
theorem reports_of_step_eq_error (h : step permissive r t = .error e) : e.Reports t := by
  obtain ⟨nodes, frames, awaiting⟩ := r
  cases awaiting with
  | term => exact reports_of_term_eq_error h
  | tagName | attributes | attributeValue | closingName | closingEnd =>
    -- all of them end in the same way; a closing name is never refused
    simp only [step] at h
    split at h <;> cases h
    exact rfl

/-- **A run that fails** does so at one of its tokens, after all those before it. -/
theorem exists_of_run_eq_error (h : run permissive r ts = .error e) :
    ∃ before t after r', ts = before ++ t :: after ∧ run permissive r before = .ok r' ∧
      step permissive r' t = .error e := by
  induction ts generalizing r with
  | nil => cases h
  | cons t ts ih =>
    rw [run_cons] at h
    cases hstep : step permissive r t with
    | error e' =>
      rw [hstep] at h
      obtain rfl : e' = e := Except.error.inj h
      exact ⟨[], t, ts, r, rfl, rfl, hstep⟩
    | ok next =>
      rw [hstep] at h
      obtain ⟨before, t', after, r', rfl, hrun, herror⟩ := ih h
      refine ⟨t :: before, t', after, r', rfl, ?_, herror⟩
      rw [run_cons, hstep]
      exact hrun

end Reading

namespace Node

open Reading (run start finish)

variable {ts : List Token} {e : ParseError}

/-- Tokens can be continued exactly if the reader does not fail on them. -/
theorem extendable_iff : Extendable ts ↔ ∃ r, run permissive start ts = .ok r := by
  constructor
  · rintro ⟨us, nodes, h⟩
    rw [ofTokens_eq, Reading.run_append] at h
    cases hrun : run permissive start ts with
    | error e => rw [hrun] at h; cases h
    | ok r => exact ⟨r, rfl⟩
  · rintro ⟨r, hrun⟩
    obtain ⟨us, nodes, h⟩ := r.completable
    refine ⟨us, nodes, ?_⟩
    rw [ofTokens_eq, Reading.run_append_of_ok hrun]
    exact h

theorem not_extendable_of_step {r : Reading} {before : List Token} {t : Token}
    (hrun : run permissive start before = .ok r) (hstep : r.step permissive t = .error e) :
    ¬ Extendable (before ++ [t]) := by
  rw [extendable_iff, Reading.run_append_of_ok hrun, Reading.run_cons, hstep]
  rintro ⟨r', h⟩
  cases h

/-- Where a reading ends too early, more tokens lead to the end. -/
theorem exists_of_finish_eq_error {r : Reading} (hrun : run permissive start ts = .ok r)
    (h : r.finish = .error e) :
    (∃ expected, e = .unexpectedEnd expected) ∧
      ∃ t us nodes, ofTokens permissive (ts ++ t :: us) = .ok nodes := by
  constructor
  · unfold Reading.finish at h
    split at h
    · cases h
    · exact ⟨_, (Except.error.inj h).symm⟩
  · obtain ⟨us, nodes, hok⟩ := r.completable
    cases us with
    | nil =>
      have hfinish : r.finish = .ok nodes := hok
      rw [h] at hfinish
      cases hfinish
    | cons t us =>
      refine ⟨t, us, nodes, ?_⟩
      rw [ofTokens_eq, Reading.run_append_of_ok hrun]
      exact hok

/-- **Errors come at the first possible token.** Where closing tags may have any name, reading fails
either at the end of the tokens, and then more tokens would be read; or at a token such that the
tokens before it can be continued to tokens that are read, but not with this one. -/
theorem ofTokens_error_first (h : ofTokens permissive ts = .error e) :
    ((∃ expected, e = .unexpectedEnd expected) ∧
      ∃ t us nodes, ofTokens permissive (ts ++ t :: us) = .ok nodes) ∨
    ∃ i t, ts[i]? = some t ∧ e.Reports t ∧ Extendable (ts.take i) ∧
      ¬ Extendable (ts.take (i + 1)) := by
  rw [ofTokens_eq] at h
  cases hrun : run permissive start ts with
  | ok r =>
    rw [hrun] at h
    exact .inl (exists_of_finish_eq_error hrun h)
  | error e' =>
    rw [hrun] at h
    obtain rfl : e' = e := Except.error.inj h
    obtain ⟨before, t, after, r, rfl, hbefore, hstep⟩ := Reading.exists_of_run_eq_error hrun
    refine .inr ⟨before.length, t, ?_, Reading.reports_of_step_eq_error hstep, ?_, ?_⟩
    · simp
    · rw [List.take_left]
      exact extendable_iff.2 ⟨r, hbefore⟩
    · rw [List.take_length_add_append]
      exact not_extendable_of_step hbefore hstep

/-- The tokens of `<x ]`. -/
def bracketInTag : List Token :=
  [Reading.someToken .tagOpen, Reading.someToken .identifier, Reading.someToken .listClose]

theorem ofTokens_error_first_bracketInTag :
    ∃ e, ofTokens permissive bracketInTag = .error e ∧
      ∃ i t, bracketInTag[i]? = some t ∧ e.Reports t ∧ Extendable (bracketInTag.take i) ∧
        ¬ Extendable (bracketInTag.take (i + 1)) := by
  have herror : ofTokens permissive bracketInTag =
      .error (.unexpectedToken (Reading.someToken .listClose) .tagEnd) := rfl
  refine ⟨_, herror, ?_⟩
  rcases ofTokens_error_first herror with ⟨⟨expected, hend⟩, -⟩ | hfirst
  · cases hend
  · exact hfirst

end Node

end TagLang
