import TagLang.Proofs.Compile.Traversal

/-!
# When compiling fails, and with which error

Compiling a node fails exactly if an element in it is malformed, whatever names are drawn
(`Node.compile_error_iff`). Which error is reported is a matter of order: it is what the first
failing check of the traversal finds, and that check explains the error (`Node.Explains`).
-/

namespace TagLang

namespace Node

/-- What a check finds makes its element malformed. -/
theorem malformed_of_finds {check : Check} {cause : CompileCause} (h : check.Finds cause) :
    check.element.Malformed := by
  cases check with
  | entry e => exact Element.EntryDefect.malformed h
  | exit e => exact Element.ExitDefect.malformed h

/-- A wrong number of children is one that the form of the element does not accept. -/
theorem argumentCount_of_finds {check : Check} {expected : Arity} {got : Nat}
    (h : check.Finds (.argumentCount expected got)) :
    ∃ form, Form.ofName? check.element.name = some form ∧ expected = form.arity ∧
      got = check.element.children.length ∧ expected.accepts got = false := by
  cases check with
  | entry e =>
    cases h with
    | childCount hform haccepts => exact ⟨_, hform, rfl, rfl, haccepts⟩
    | parameterList _ _ _ hdefect => cases hdefect
  | exit e => cases h

/-- A check of a node explains an error: it is the first that does not pass, and the error says what
it finds and where. -/
structure Explains (n : Node) (check : Check) (e : CompileError) : Prop where
  first : ∃ before after, n.checks = before ++ check :: after ∧ ∀ c ∈ before, c.Passes
  finds : check.Finds e.cause
  within : .element check.element ∈ n.all
  malformed : check.element.Malformed
  tag : e.tag = check.element.name
  position : e.position = check.element.position
  /-- A wrong number of children is reported with the numbers that the form accepts. -/
  childCount : ∀ expected got, e.cause = .argumentCount expected got →
    ∃ form, Form.ofName? e.tag = some form ∧ expected = form.arity ∧
      got = check.element.children.length ∧ expected.accepts got = false

theorem exists_explains_of_reports {n : Node} {e : CompileError} (h : Check.Reports n.checks e) :
    ∃ check, n.Explains check e := by
  obtain ⟨before, check, after, hchecks, hbefore, hfinds, htag, hposition⟩ := h
  have hmem : check ∈ n.checks := by
    rw [hchecks]
    exact List.mem_append_right _ List.mem_cons_self
  refine ⟨check, ⟨before, after, hchecks, hbefore⟩, hfinds, mem_checks_iff.1 hmem,
    malformed_of_finds hfinds, htag, hposition, fun expected got hcause => ?_⟩
  rw [hcause] at hfinds
  rw [htag]
  exact argumentCount_of_finds hfinds

/-- **Compiling fails exactly if an element is malformed, and the first defect is reported.** With
any supply of names, a node fails to compile if and only if an element in it is malformed. The error
is then what the first failing check of the traversal finds. -/
theorem compile_error_iff (n : Node) (s : NameSupply) :
    ((∃ e s', n.compile s = .error e s') ↔ ∃ m, .element m ∈ n.all ∧ m.Malformed) ∧
      ∀ e s', n.compile s = .error e s' → ∃ check, n.Explains check e := by
  have hruns := n.runsAlike NameSupply.shifts_id fun _ _ => rfl
  refine ⟨⟨?_, ?_⟩, fun e s' h => exists_explains_of_reports ((hruns.of_error h).2.1)⟩
  · rintro ⟨e, s', h⟩
    obtain ⟨check, hexplains⟩ := exists_explains_of_reports ((hruns.of_error h).2.1)
    exact ⟨check.element, hexplains.within, hexplains.malformed⟩
  · rintro ⟨m, hmem, hmalformed⟩
    cases h : n.compile s with
    | error e s' => exact ⟨e, s', rfl⟩
    | ok f s' =>
      have hpasses := (hruns.of_ok h).2.1
      rcases hmalformed.exists_defect with ⟨cause, hdefect⟩ | ⟨cause, hdefect⟩
      · exact absurd hdefect (hpasses (.entry m) (mem_checks_iff.2 hmem) cause)
      · exact absurd hdefect (hpasses (.exit m) (mem_checks_iff.2 hmem) cause)

/-- Three malformed elements: `<f a=<do/>><fn* x=<if a=1>p q</if>>[x & x] y</fn*></f>`. -/
def manyDefects : Node :=
  .element (((Element.named "f").setAttribute "a" (.element (Element.named "do"))).addChild
    (.element (((Element.named "fn*").setAttribute "x"
      (.element (((Element.named "if").setAttribute "a" (.integer 1 .decimal)).addChildren
        [.symbol "p", .symbol "q"]))).addChildren
      [.list [.symbol "x", .symbol "&", .symbol "x"], .symbol "y"])))

/-- The function is entered first, but its parameters are compared only after the conditional in its
attribute, and the attribute of the call comes last. -/
theorem compile_error_iff_manyDefects :
    ∃ e s', manyDefects.compile ⟨5⟩ = .error e s' ∧ e.tag = "if" ∧
      e.cause = .unexpectedAttribute "a" ∧ (∃ check, manyDefects.Explains check e) ∧
      ∃ m, .element m ∈ manyDefects.all ∧ m.Malformed := by
  have hiff := compile_error_iff manyDefects ⟨5⟩
  exact ⟨_, _, rfl, rfl, rfl, hiff.2 _ _ rfl, hiff.1.1 ⟨_, _, rfl⟩⟩

end Node

end TagLang
