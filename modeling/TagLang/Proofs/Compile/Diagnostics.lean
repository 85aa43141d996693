import TagLang.Compile.Source
import TagLang.Proofs.Compile.FirstError
import TagLang.Proofs.Reading.Positions
import TagLang.Proofs.Token.Positions

/-!
# Compile errors point into the text

An error of the compiler says where the element is that it finds fault with. The position goes a
long way: a token gets it, an element takes it from the token that opens its tag, and the check that
fails reports it. At its end it still leads to the tag (`Program.pointsInto_of_ofSource`): one finds
a `<` there by counting lines and characters, this is the text of a token, the next token is the
name in the error, and no other element of the text has the position.
-/

namespace TagLang

/-- An error points at one element of a text, given the tokens and the nodes of the text. -/
structure CompileError.PointsInto (e : CompileError) (source : String) (tokens : List Token)
    (nodes : List Node) : Prop where
  character : characterAt? source e.position = some '<'
  tag : ∃ before opening name after, tokens = before ++ opening :: name :: after ∧
    opening.kind = .tagOpen ∧ opening.text = "<" ∧ opening.StartsAt source e.position ∧
    opening.position = e.position ∧ name.kind = .identifier ∧ name.text = e.tag
  form : ∃ form, Form.ofName? e.tag = some form
  /-- Exactly one element, wherever it is in the nodes, stands at the position. -/
  element : ∃ element, (nodes.flatMap Node.elements).filter (·.position = e.position) = [element] ∧
    element.name = e.tag

section

variable {options : ParseOptions} {source : String} {tokens : List Token} {nodes : List Node}

/-- At most one tag is opened at a position. -/
theorem tagsAt_le_one (h : lex source = .ok tokens) (p : Position) : tagsAt p tokens ≤ 1 := by
  have hcount := List.nodup_iff_count_le_one.1 (nodup_positions_of_lex h) p
  rw [List.count, List.countP_map] at hcount
  refine le_trans (List.countP_mono_left fun t _ ht => ?_) hcount
  simpa using (of_decide_eq_true ht).2

/-- The only element at a position is the one that is known to stand there. -/
theorem filter_elements_eq (hlex : lex source = .ok tokens)
    (hnodes : Node.ofTokens options tokens = .ok nodes) {element : Element Node}
    (h : element ∈ nodes.flatMap Node.elements) :
    (nodes.flatMap Node.elements).filter (·.position = element.position) = [element] := by
  have hmem : element ∈ (nodes.flatMap Node.elements).filter (·.position = element.position) :=
    List.mem_filter.2 ⟨h, decide_eq_true rfl⟩
  have hle := (derives_of_ofTokens_eq_ok hnodes).elementsAt_le element.position
  have hone :
      ((nodes.flatMap Node.elements).filter (·.position = element.position)).length ≤ 1 := by
    rw [← List.countP_eq_length_filter]
    exact hle.trans (tagsAt_le_one hlex _)
  obtain ⟨other, hother⟩ := List.length_eq_one_iff.1
    (Nat.le_antisymm hone (List.length_pos_of_mem hmem))
  rw [hother] at hmem ⊢
  rw [List.mem_singleton.1 hmem]

/-- What is reported is the name and the position of an element of the text that is malformed. -/
theorem exists_malformed_of_fresh {e : CompileError}
    (h : (Program.ofNodes nodes).fresh = .error e) :
    ∃ element ∈ nodes.flatMap Node.elements, element.Malformed ∧ element.name = e.tag ∧
      element.position = e.position := by
  unfold CompileM.fresh at h
  split at h
  · cases h
  · next error s' hrun =>
    obtain rfl := Except.error.inj h
    obtain ⟨before, check, after, hchecks, -, hfinds, htag, hposition⟩ :=
      ((Program.runsBeside_ofNodes NameSupply.shifts_id fun _ _ => rfl).of_error hrun).2.1
    have hmem : check ∈ nodes.flatMap Node.checks := by
      rw [hchecks]
      exact List.mem_append_right _ List.mem_cons_self
    obtain ⟨n, hn, hcheck⟩ := List.mem_flatMap.1 hmem
    have helement := Node.mem_elements_of_mem_all (Node.mem_checks_iff.1 hcheck)
    exact ⟨check.element, List.mem_flatMap.2 ⟨n, hn, helement⟩, Node.malformed_of_finds hfinds,
      htag.symm, hposition.symm⟩

/-- Only forms are malformed. -/
theorem Element.Malformed.exists_form {e : Element Node} (h : e.Malformed) :
    ∃ form, Form.ofName? e.name = some form := by
  cases h with
  | _ hform => exact ⟨_, hform⟩

/-- A malformed element of a text is found where the text says. -/
theorem pointsInto_of_malformed (hlex : lex source = .ok tokens)
    (hnodes : Node.ofTokens options tokens = .ok nodes) {element : Element Node} {e : CompileError}
    (helement : element ∈ nodes.flatMap Node.elements) (hmalformed : element.Malformed)
    (htag : element.name = e.tag) (hposition : element.position = e.position) :
    e.PointsInto source tokens nodes := by
  obtain ⟨before, opening, name, after, hsplit, hkind, hopening, hname, htext⟩ :=
    (derives_of_ofTokens_eq_ok hnodes).isOpened element helement
  have hmem : opening ∈ tokens := by
    rw [hsplit]
    exact List.mem_append_right _ List.mem_cons_self
  have heq := hopening.trans hposition
  refine ⟨?_, ?_, htag ▸ hmalformed.exists_form, element, ?_, htag⟩
  · rw [← heq]
    exact characterAt?_of_tagOpen hlex hmem hkind
  · refine ⟨before, opening, name, after, hsplit, hkind, ?_, ?_, heq, hname, htext.trans htag⟩
    · exact (munches_of_lex hlex).text_of_tagOpen opening hmem hkind
    · exact heq ▸ startsAt_of_mem_lex hlex opening hmem
  · rw [← hposition]
    exact filter_elements_eq hlex hnodes helement

end

/-- **Compile errors point into the text.** If a text is read but not compiled, the error points at
the start of a tag with its name, which is that of a special form, and at one element only. -/
theorem Program.pointsInto_of_ofSource (options : ParseOptions) (source : String)
    (e : CompileError) (h : Program.ofSource options source = .error (.compile e)) :
    ∃ tokens nodes, lex source = .ok tokens ∧ Node.parse options source = .ok nodes ∧
      e.PointsInto source tokens nodes := by
  unfold Program.ofSource at h
  split at h
  · cases h
  · next nodes hparse =>
    split at h
    · next error hfresh =>
      obtain rfl : error = e := SourceError.compile.inj (Except.error.inj h)
      have hread := hparse
      unfold Node.parse at hread
      split at hread
      · next tokens hlex =>
        obtain ⟨element, helement, hmalformed, htag, hposition⟩ := exists_malformed_of_fresh hfresh
        exact ⟨tokens, nodes, hlex, hparse,
          pointsInto_of_malformed hlex hread helement hmalformed htag hposition⟩
      · cases hread
    · cases h

/-- The sequence without children is replaced before it is checked. The function behind it stands in
the second line, behind a character of two bytes. -/
def replacedDefect : String :=
  "é\n<f a=<do/> a=1>\"ü\" <fn*>[a &] a</fn*></f>"

theorem Program.pointsInto_of_ofSource_replacedDefect :
    ∃ e tokens nodes, Program.ofSource ⟨true⟩ replacedDefect = .error (.compile e) ∧
      e.message = "2:20: <fn*>: `&` must be followed by a rest parameter name" ∧
      lex replacedDefect = .ok tokens ∧ Node.parse ⟨true⟩ replacedDefect = .ok nodes ∧
      e.PointsInto replacedDefect tokens nodes := by
  have hfails : (Program.ofSource ⟨true⟩ replacedDefect).map (fun _ => ()) =
      .error (.compile ⟨⟨2, 20⟩, "fn*", .missingRestName⟩) := by
    decide +kernel
  cases h : Program.ofSource ⟨true⟩ replacedDefect with
  | ok p =>
    rw [h] at hfails
    cases hfails
  | error e =>
    rw [h] at hfails
    obtain rfl : e = .compile ⟨⟨2, 20⟩, "fn*", .missingRestName⟩ := Except.error.inj hfails
    obtain ⟨tokens, nodes, hlex, hparse, hpoints⟩ :=
      pointsInto_of_ofSource ⟨true⟩ replacedDefect _ h
    exact ⟨_, tokens, nodes, rfl, by decide +kernel, hlex, hparse, hpoints⟩

end TagLang
