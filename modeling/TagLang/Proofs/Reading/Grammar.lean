import TagLang.Proofs.Reading.Steps

/-!
# The grammar of nodes

Which tokens write which nodes, without a reader:

* a list of terms is any number of terms;
* a term is a string, an identifier, a list of terms in brackets, or an element;
* an element is `<`, a name, attributes, and then either `/>`, or `>`, terms, `</`, a name and `>`;
* attributes are any number of `key=term`, and one that comes up again replaces the one before.

`Derives` carries the number of elements and lists that may still be opened inside each other.
The reader reads nodes from tokens exactly if the grammar derives them (`Node.ofTokens_eq_ok_iff`).
In one direction, what is written by a derivation is read from any place (`Phrase.Runs`); in the
other, a reading keeps derivations of all that it has taken (`Reading.Reads`).
-/

namespace TagLang

/-- What the grammar derives, with its meaning. -/
inductive Phrase where
  | term (node : Node)
  | terms (nodes : List Node)
  | attributes (fields : Fields Node)

/-- Tokens write a phrase with at most `depth` elements and lists inside each other. -/
inductive Derives (options : ParseOptions) : Nat → Phrase → List Token → Prop
  | string {depth : Nat} {t : Token} {value : String} :
      t.kind = .string value → Derives options depth (.term (.string value)) [t]
  | identifier {depth : Nat} {t : Token} {node : Node} :
      t.kind = .identifier → Node.ofIdentifier? t.text = some node →
      Derives options depth (.term node) [t]
  | list {depth : Nat} {opening closing : Token} {items : List Node} {ts : List Token} :
      opening.kind = .listOpen → Derives options depth (.terms items) ts →
      closing.kind = .listClose →
      Derives options (depth + 1) (.term (.list items)) (opening :: (ts ++ [closing]))
  | childless {depth : Nat} {opening name closing : Token} {fields : Fields Node}
      {ts : List Token} :
      opening.kind = .tagOpen → name.kind = .identifier →
      Derives options depth (.attributes fields) ts → closing.kind = .selfClose →
      Derives options (depth + 1) (.term (.element ⟨name.text, fields, [], opening.position⟩))
        (opening :: name :: (ts ++ [closing]))
  | element {depth : Nat} {opening name bracket closing closingName closingBracket : Token}
      {fields : Fields Node} {children : List Node} {ts us : List Token} :
      opening.kind = .tagOpen → name.kind = .identifier →
      Derives options depth (.attributes fields) ts → bracket.kind = .tagClose →
      Derives options depth (.terms children) us → closing.kind = .closeOpen →
      closingName.kind = .identifier → closingBracket.kind = .tagClose →
      (options.strictTags = true → closingName.text = name.text) →
      Derives options (depth + 1) (.term (.element ⟨name.text, fields, children, opening.position⟩))
        (opening :: name :: (ts ++ bracket :: (us ++ [closing, closingName, closingBracket])))
  | noTerms {depth : Nat} : Derives options depth (.terms []) []
  | moreTerms {depth : Nat} {nodes : List Node} {node : Node} {ts us : List Token} :
      Derives options depth (.terms nodes) ts → Derives options depth (.term node) us →
      Derives options depth (.terms (nodes ++ [node])) (ts ++ us)
  | noAttributes {depth : Nat} : Derives options depth (.attributes []) []
  | moreAttributes {depth : Nat} {fields : Fields Node} {key sign : Token} {node : Node}
      {ts us : List Token} :
      Derives options depth (.attributes fields) ts → key.kind = .identifier →
      sign.kind = .equals → Derives options depth (.term node) us →
      Derives options depth (.attributes (Fields.insert fields key.text node))
        (ts ++ key :: sign :: us)

/-! ## Leaves and attributes -/

/-- Nodes that hold no other nodes. -/
def Node.isLeaf : Node → Bool
  | .list _ | .element _ => false
  | _ => true

/-- What an identifier stands for holds no other nodes. -/
theorem Literal.isLeaf_of_node? {literal : Literal} {n : Node} (h : literal.node? = some n) :
    n.isLeaf = true := by
  cases literal with
  | integer value base =>
    obtain ⟨value, -, rfl⟩ := Option.map_eq_some_iff.1 h
    rfl
  | float | complex | keyword | symbol =>
    obtain rfl := Option.some.inj h
    rfl

/-- The values of attributes after one more is given: those before, and that one. -/
theorem Fields.mem_values_insert {fields : Fields Node} {key : String} {node value : Node}
    (h : value ∈ (Fields.insert fields key node).map Prod.snd) :
    value ∈ fields.map Prod.snd ∨ value = node := by
  induction fields with
  | nil => exact .inr (List.mem_singleton.1 h)
  | cons field fields ih =>
    obtain ⟨old, first⟩ := field
    rw [Fields.insert] at h
    split at h
    · rcases List.mem_cons.1 h with h | h
      · exact .inr h
      · exact .inl (List.mem_cons_of_mem _ h)
    · rcases List.mem_cons.1 h with h | h
      · exact .inl (List.mem_cons.2 (.inl h))
      · exact (ih h).imp_left (List.mem_cons_of_mem _)

open Reading (run deliver Step run_append_of_ok)

variable {options : ParseOptions} {depth : Nat} {nodes : List Node} {frames : List Frame}
  {ts us : List Token}

/-! ## What the grammar derives is read -/

namespace Reading

/-- Places that take any number of nodes. -/
def TakesAll : List Frame → Prop
  | .attribute .. :: _ => False
  | _ => True

/-- Puts complete nodes into a place that takes any number. -/
def deliverAll (nodes : List Node) (frames : List Frame) (more : List Node) : Reading :=
  match frames with
  | [] => ⟨more.reverse ++ nodes, [], .term⟩
  | .children tag done :: frames => ⟨nodes, .children tag (more.reverse ++ done) :: frames, .term⟩
  | .items done :: frames => ⟨nodes, .items (more.reverse ++ done) :: frames, .term⟩
  | frames => ⟨nodes, frames, .term⟩

theorem deliverAll_nil : deliverAll nodes frames [] = ⟨nodes, frames, .term⟩ := by
  unfold deliverAll
  split <;> rfl

/-- Nodes are delivered one after the other, and no place is opened or left for it. -/
theorem deliverAll_snoc (h : TakesAll frames) (more : List Node) :
    ∃ nodes' frames', deliverAll nodes frames more = ⟨nodes', frames', .term⟩ ∧
      frames'.length = frames.length ∧
      ∀ node, deliverAll nodes frames (more ++ [node]) = deliver nodes' frames' node := by
  match frames, h with
  | [], _ => exact ⟨_, _, rfl, rfl, fun node => by simp [deliverAll, deliver]⟩
  | .children _ _ :: _, _ => exact ⟨_, _, rfl, rfl, fun node => by simp [deliverAll, deliver]⟩
  | .items _ :: _, _ => exact ⟨_, _, rfl, rfl, fun node => by simp [deliverAll, deliver]⟩

end Reading

/-- How a phrase is read, wherever it may stand. -/
def Phrase.Runs (options : ParseOptions) (depth : Nat) (ts : List Token) : Phrase → Prop
  | .term node => ∀ nodes frames, frames.length + depth ≤ maxDepth →
      run options ⟨nodes, frames, .term⟩ ts = .ok (deliver nodes frames node)
  | .terms more => ∀ nodes frames, frames.length + depth ≤ maxDepth → Reading.TakesAll frames →
      run options ⟨nodes, frames, .term⟩ ts = .ok (Reading.deliverAll nodes frames more)
  | .attributes fields => ∀ nodes frames name position, frames.length + depth < maxDepth →
      run options ⟨nodes, frames, .attributes ⟨name, position, []⟩⟩ ts =
        .ok ⟨nodes, frames, .attributes ⟨name, position, fields⟩⟩

/-- What the grammar derives is read from any place with room for it, rule by rule. -/
theorem Derives.runs {phrase : Phrase} (h : Derives options depth phrase ts) :
    phrase.Runs options depth ts := by
  induction h with
  | string hkind =>
    intro nodes frames _
    exact (Step.string hkind).run_cons
  | identifier hkind hnode =>
    intro nodes frames _
    exact (Step.identifier hkind hnode).run_cons
  | @list depth _ _ items ts hopen _ hclose ih =>
    intro nodes frames hdepth
    rw [(Step.listOpen hopen (by omega)).run_cons]
    have hitems := ih nodes (.items [] :: frames) (by rw [List.length_cons]; omega) trivial
    rw [run_append_of_ok hitems]
    -- the items wait newest first
    simp only [Reading.deliverAll, List.append_nil]
    rw [(Step.listClose hclose).run_cons, List.reverse_reverse]
    rfl
  | @childless depth _ name _ fields ts hopen hname _ hclose ih =>
    intro nodes frames hdepth
    rw [(Step.tagOpen hopen (by omega)).run_cons, (Step.tagName hname).run_cons,
      run_append_of_ok (ih nodes frames name.text _ (by omega)), (Step.selfClose hclose).run_cons]
    rfl
  | @element depth opening name _ _ _ _ fields children ts us hopen hname _ hbracket _ hclosing
      hclosingName hclosingBracket hstrict ihfields ihchildren =>
    intro nodes frames hdepth
    rw [(Step.tagOpen hopen (by omega)).run_cons, (Step.tagName hname).run_cons,
      run_append_of_ok (ihfields nodes frames name.text _ (by omega)),
      (Step.tagClose hbracket).run_cons]
    have hchildren := ihchildren nodes
      (.children ⟨name.text, opening.position, fields⟩ [] :: frames)
      (by rw [List.length_cons]; omega) trivial
    rw [run_append_of_ok hchildren]
    simp only [Reading.deliverAll, List.append_nil]
    rw [(Step.closeOpen hclosing).run_cons, (Step.closingName hclosingName).run_cons,
      (Step.closingEnd hclosingBracket hstrict).run_cons, List.reverse_reverse]
    rfl
  | noTerms =>
    intro nodes frames _ _
    rw [Reading.deliverAll_nil]
    rfl
  | moreTerms _ _ ihterms ihterm =>
    intro nodes frames hdepth htakes
    obtain ⟨nodes', frames', hall, hlength, hsnoc⟩ := Reading.deliverAll_snoc htakes _
    rw [run_append_of_ok (ihterms nodes frames hdepth htakes), hall, hsnoc]
    exact ihterm nodes' frames' (by omega)
  | noAttributes =>
    intro nodes frames name position _
    rfl
  | moreAttributes _ hkey hsign _ ihfields ihterm =>
    intro nodes frames name position hdepth
    rw [run_append_of_ok (ihfields nodes frames name position hdepth),
      (Step.attributeName hkey).run_cons, (Step.equals hsign).run_cons]
    exact ihterm nodes (.attribute _ _ :: frames) (by rw [List.length_cons]; omega)

theorem Derives.ofTokens_eq (h : Derives options maxDepth (.terms nodes) ts) :
    Node.ofTokens options ts = .ok nodes := by
  have hrun : run options Reading.start ts = .ok ⟨nodes.reverse ++ [], [], .term⟩ :=
    h.runs [] [] (by simp) trivial
  rw [Node.ofTokens_eq, hrun]
  show Except.ok (nodes.reverse ++ []).reverse = _
  rw [List.append_nil, List.reverse_reverse]

/-! ## What is read is derived -/

/-- Tokens write an opening tag without its end. -/
def OpenTag.Written (options : ParseOptions) (depth : Nat) (tag : OpenTag) (ts : List Token) :
    Prop :=
  ∃ opening name us, opening.kind = .tagOpen ∧ name.kind = .identifier ∧
    Derives options depth (.attributes tag.attributes) us ∧
    tag = ⟨name.text, opening.position, tag.attributes⟩ ∧ ts = opening :: name :: us

namespace Reading

/-- Tokens lead into the innermost of the places that wait for a node. -/
inductive Opened (options : ParseOptions) (nodes : List Node) : List Frame → List Token → Prop
  | outside {ts : List Token} :
      Derives options maxDepth (.terms nodes.reverse) ts → Opened options nodes [] ts
  | items {frames : List Frame} {done : List Node} {depth : Nat} {opening : Token}
      {ts us : List Token} :
      Opened options nodes frames ts → frames.length + depth + 1 = maxDepth →
      opening.kind = .listOpen → Derives options depth (.terms done.reverse) us →
      Opened options nodes (.items done :: frames) (ts ++ opening :: us)
  | children {frames : List Frame} {tag : OpenTag} {done : List Node} {depth : Nat}
      {bracket : Token} {ts us vs : List Token} :
      Opened options nodes frames ts → frames.length + depth + 1 = maxDepth →
      tag.Written options depth us → bracket.kind = .tagClose →
      Derives options depth (.terms done.reverse) vs →
      Opened options nodes (.children tag done :: frames) (ts ++ (us ++ bracket :: vs))
  | value {frames : List Frame} {tag : OpenTag} {depth : Nat} {key sign : Token}
      {ts us : List Token} :
      Opened options nodes frames ts → frames.length + depth + 1 = maxDepth →
      tag.Written options depth us → key.kind = .identifier → sign.kind = .equals →
      Opened options nodes (.attribute tag key.text :: frames) (ts ++ (us ++ [key, sign]))

/-- Tokens lead to a reading. -/
inductive Reads (options : ParseOptions) : Reading → List Token → Prop
  | term {nodes : List Node} {frames : List Frame} {ts : List Token} :
      Opened options nodes frames ts → Reads options ⟨nodes, frames, .term⟩ ts
  | tagName {nodes : List Node} {frames : List Frame} {opening : Token} {ts : List Token} :
      Opened options nodes frames ts → frames.length < maxDepth → opening.kind = .tagOpen →
      Reads options ⟨nodes, frames, .tagName opening.position⟩ (ts ++ [opening])
  | attributes {nodes : List Node} {frames : List Frame} {tag : OpenTag} {depth : Nat}
      {ts us : List Token} :
      Opened options nodes frames ts → frames.length + depth + 1 = maxDepth →
      tag.Written options depth us → Reads options ⟨nodes, frames, .attributes tag⟩ (ts ++ us)
  | attributeValue {nodes : List Node} {frames : List Frame} {tag : OpenTag} {depth : Nat}
      {key : Token} {ts us : List Token} :
      Opened options nodes frames ts → frames.length + depth + 1 = maxDepth →
      tag.Written options depth us → key.kind = .identifier →
      Reads options ⟨nodes, frames, .attributeValue tag key.text⟩ (ts ++ (us ++ [key]))
  | closingName {nodes : List Node} {frames : List Frame} {tag : OpenTag} {done : List Node}
      {closing : Token} {ts : List Token} :
      Opened options nodes (.children tag done :: frames) ts → closing.kind = .closeOpen →
      Reads options ⟨nodes, frames, .closingName tag done closing.position⟩ (ts ++ [closing])
  | closingEnd {nodes : List Node} {frames : List Frame} {tag : OpenTag} {done : List Node}
      {closing name : Token} {ts : List Token} :
      Opened options nodes (.children tag done :: frames) ts → closing.kind = .closeOpen →
      name.kind = .identifier →
      Reads options ⟨nodes, frames, .closingEnd tag done closing.position name.text⟩
        (ts ++ [closing, name])

theorem Opened.length_le (h : Opened options nodes frames ts) : frames.length ≤ maxDepth := by
  cases h with
  | outside => exact Nat.zero_le _
  | items _ hdepth | children _ hdepth | value _ hdepth => rw [List.length_cons]; omega

/-- A term that ends goes where it belongs. -/
theorem Opened.deliver {node : Node} (h : Opened options nodes frames ts)
    (hdepth : frames.length + depth = maxDepth) (hnode : Derives options depth (.term node) us) :
    Reads options (deliver nodes frames node) (ts ++ us) := by
  cases h with
  | outside hnodes =>
    obtain rfl : depth = maxDepth := by simpa using hdepth
    refine .term (.outside ?_)
    rw [List.reverse_cons]
    exact .moreTerms hnodes hnode
  | @items frames done depth' _ _ _ hopened hdepth' hopen hitems =>
    obtain rfl : depth = depth' := by rw [List.length_cons] at hdepth; omega
    rw [List.append_assoc, List.cons_append]
    refine .term (.items hopened hdepth' hopen ?_)
    rw [List.reverse_cons]
    exact .moreTerms hitems hnode
  | @children frames tag done depth' _ _ _ _ hopened hdepth' htag hbracket hchildren =>
    obtain rfl : depth = depth' := by rw [List.length_cons] at hdepth; omega
    rw [List.append_assoc, List.append_assoc, List.cons_append]
    refine .term (.children hopened hdepth' htag hbracket ?_)
    rw [List.reverse_cons]
    exact .moreTerms hchildren hnode
  | @value frames tag depth' key sign ts vs hopened hdepth' htag hkey hsign =>
    obtain rfl : depth = depth' := by rw [List.length_cons] at hdepth; omega
    obtain ⟨opening, name, ws, hopening, hname, hfields, htag, rfl⟩ := htag
    rw [List.append_assoc]
    refine .attributes hopened hdepth' ⟨opening, name, ws ++ key :: sign :: us, hopening, hname,
      .moreAttributes hfields hkey hsign hnode, ?_, ?_⟩
    · rw [htag]
    · simp

/-- A complete term that starts where a term may start. -/
theorem Opened.deliver_leaf {node : Node} {t : Token} (h : Opened options nodes frames ts)
    (hnode : ∀ depth, Derives options depth (.term node) [t]) :
    Reads options (Reading.deliver nodes frames node) (ts ++ [t]) := by
  have hdepth : frames.length + (maxDepth - frames.length) = maxDepth := by
    have := h.length_le
    omega
  exact h.deliver hdepth (hnode _)

variable {r r' : Reading} {t : Token}

/-- **One step** keeps the derivations of what has been read. -/
theorem Reads.step (h : Reads options r ts) (hstep : Step options t r r') :
    Reads options r' (ts ++ [t]) := by
  cases hstep with
  | string hkind =>
    cases h with
    | term hopened => exact hopened.deliver_leaf fun _ => .string hkind
  | identifier hkind hnode =>
    cases h with
    | term hopened => exact hopened.deliver_leaf fun _ => .identifier hkind hnode
  | @listOpen nodes frames hkind hlt =>
    cases h with
    | term hopened =>
      have hdepth : frames.length + (maxDepth - frames.length - 1) + 1 = maxDepth := by omega
      exact .term (.items hopened hdepth hkind .noTerms)
  | listClose hkind =>
    cases h with
    | term hopened =>
      cases hopened with
      | items hopened hdepth hopen hitems =>
        rw [List.append_assoc]
        exact hopened.deliver hdepth (.list hopen hitems hkind)
  | tagOpen hkind hlt =>
    cases h with
    | term hopened => exact .tagName hopened hlt hkind
  | @tagName nodes frames position hkind =>
    cases h with
    | @tagName _ _ opening ts hopened hlt hopen =>
      have hdepth : frames.length + (maxDepth - frames.length - 1) + 1 = maxDepth := by omega
      rw [List.append_assoc]
      exact .attributes hopened hdepth ⟨opening, t, [], hopen, hkind, .noAttributes, rfl, rfl⟩
  | attributeName hkind =>
    cases h with
    | attributes hopened hdepth htag =>
      rw [List.append_assoc]
      exact .attributeValue hopened hdepth htag hkind
  | equals hkind =>
    cases h with
    | attributeValue hopened hdepth htag hkey =>
      rw [List.append_assoc, List.append_assoc]
      exact .term (.value hopened hdepth htag hkey hkind)
  | selfClose hkind =>
    cases h with
    | attributes hopened hdepth htag =>
      obtain ⟨opening, name, us, hopening, hname, hfields, htag, rfl⟩ := htag
      rw [List.append_assoc, htag]
      exact hopened.deliver hdepth (.childless hopening hname hfields hkind)
  | tagClose hkind =>
    cases h with
    | attributes hopened hdepth htag =>
      rw [List.append_assoc]
      exact .term (.children hopened hdepth htag hkind .noTerms)
  | closeOpen hkind =>
    cases h with
    | term hopened => exact .closingName hopened hkind
  | closingName hkind =>
    cases h with
    | closingName hopened hclosing =>
      rw [List.append_assoc]
      exact .closingEnd hopened hclosing hkind
  | closingEnd hkind hstrict =>
    cases h with
    | closingEnd hopened hclosing hname' =>
      cases hopened with
      | children hopened hdepth htag hbracket hchildren =>
        obtain ⟨opening, name, us, hopening, hname, hfields, htag, rfl⟩ := htag
        rw [htag] at hstrict ⊢
        have hnode := Derives.element hopening hname hfields hbracket hchildren hclosing hname'
          hkind hstrict
        simp only [List.append_assoc, List.cons_append, List.nil_append]
        exact hopened.deliver hdepth hnode

/-- **A run** keeps the derivations of what has been read. -/
theorem Reads.run (h : Reads options r ts) (hrun : run options r us = .ok r') :
    Reads options r' (ts ++ us) := by
  induction us generalizing r ts with
  | nil =>
    obtain rfl := Except.ok.inj hrun
    rw [List.append_nil]
    exact h
  | cons t us ih =>
    rw [run_cons] at hrun
    cases hstep : Reading.step options r t with
    | error e => rw [hstep] at hrun; cases hrun
    | ok next =>
      rw [hstep] at hrun
      have hnext := ih (h.step (step_eq_ok_iff.1 hstep)) hrun
      rw [List.append_assoc] at hnext
      exact hnext

theorem reads_start : Reads options start [] := .term (.outside .noTerms)

/-- Nothing is missing at the end only if nothing is open. -/
theorem eq_of_finish_eq_ok (h : r.finish = .ok nodes) : r = ⟨nodes.reverse, [], .term⟩ := by
  obtain ⟨done, frames, awaiting⟩ := r
  cases awaiting with
  | term =>
    cases frames with
    | nil =>
      obtain rfl := Except.ok.inj (show Except.ok done.reverse = Except.ok nodes from h)
      rw [List.reverse_reverse]
    | cons frame frames => cases frame <;> cases h
  | _ => cases h

end Reading

theorem derives_of_ofTokens_eq_ok (h : Node.ofTokens options ts = .ok nodes) :
    Derives options maxDepth (.terms nodes) ts := by
  rw [Node.ofTokens_eq] at h
  cases hrun : run options Reading.start ts with
  | error e => rw [hrun] at h; cases h
  | ok r =>
    rw [hrun] at h
    obtain rfl := Reading.eq_of_finish_eq_ok h
    have hreads := Reading.reads_start.run hrun
    rw [List.nil_append] at hreads
    cases hreads with
    | term hopened =>
      cases hopened with
      | outside hnodes =>
        rw [List.reverse_reverse] at hnodes
        exact hnodes

/-- **The reader accepts exactly the grammar.** It reads nodes from tokens if and only if the
grammar derives them, with no more than `maxDepth` elements and lists inside each other; and no
tokens write two different lists of nodes. -/
theorem Node.ofTokens_eq_ok_iff (options : ParseOptions) (tokens : List Token) :
    (∀ nodes, Node.ofTokens options tokens = .ok nodes ↔
      Derives options maxDepth (.terms nodes) tokens) ∧
    ∀ nodes nodes', Derives options maxDepth (.terms nodes) tokens →
      Derives options maxDepth (.terms nodes') tokens → nodes = nodes' := by
  refine ⟨fun nodes => ⟨derives_of_ofTokens_eq_ok, Derives.ofTokens_eq⟩, ?_⟩
  intro nodes nodes' h h'
  exact Except.ok.inj (h.ofTokens_eq.symm.trans h'.ofTokens_eq)

end TagLang
