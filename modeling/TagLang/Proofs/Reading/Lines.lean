import TagLang.Proofs.Reading.Grammar
import TagLang.Proofs.Token.Lines

/-!
# Nodes of texts one below the other

A text below another is read as if it stood alone, only farther down (`Node.parse_below`). The upper
text leaves the reader outside all elements and lists, so the lower one starts where every text
starts; and the reader takes from a token nothing but its kind and its text, and only passes its
place on to elements and errors. So it does not matter to a step where the tokens stand
(`Reading.step_moved`), and neither to a run (`Reading.run_moved`).
-/

namespace TagLang

/-! ## Nodes, readings and errors that are moved -/

mutual

/-- The node with all its elements moved. -/
def Node.moved (m : Move) : Node → Node
  | .element ⟨name, attributes, children, position⟩ =>
    .element ⟨name, Node.movedFields m attributes, Node.movedAll m children, position.moved m⟩
  | .list items => .list (Node.movedAll m items)
  | node => node

def Node.movedAll (m : Move) : List Node → List Node
  | [] => []
  | node :: rest => node.moved m :: Node.movedAll m rest

def Node.movedFields (m : Move) : Fields Node → Fields Node
  | [] => []
  | (key, node) :: rest => (key, node.moved m) :: Node.movedFields m rest

end

/-- The error with every place in it moved. -/
def ParseError.moved (m : Move) : ParseError → ParseError
  | .lex e => .lex (e.moved m)
  | .unexpectedToken t expected => .unexpectedToken (t.moved m) expected
  | .unexpectedEnd expected => .unexpectedEnd expected
  | .mismatchedTag opening closing position => .mismatchedTag opening closing (position.moved m)
  | .integerOutOfRange text position => .integerOutOfRange text (position.moved m)
  | .nestingTooDeep position => .nestingTooDeep (position.moved m)

def OpenTag.moved (m : Move) (tag : OpenTag) : OpenTag :=
  ⟨tag.name, tag.position.moved m, Node.movedFields m tag.attributes⟩

def Frame.moved (m : Move) : Frame → Frame
  | .attribute tag key => .attribute (tag.moved m) key
  | .children tag done => .children (tag.moved m) (Node.movedAll m done)
  | .items done => .items (Node.movedAll m done)

def Awaiting.moved (m : Move) : Awaiting → Awaiting
  | .term => .term
  | .tagName position => .tagName (position.moved m)
  | .attributes tag => .attributes (tag.moved m)
  | .attributeValue tag key => .attributeValue (tag.moved m) key
  | .closingName tag children closing =>
    .closingName (tag.moved m) (Node.movedAll m children) (closing.moved m)
  | .closingEnd tag children closing name =>
    .closingEnd (tag.moved m) (Node.movedAll m children) (closing.moved m) name

/-- The reading of tokens that are moved, behind nodes that are complete before it starts. -/
def Reading.moved (m : Move) (before : List Node) (r : Reading) : Reading :=
  ⟨Node.movedAll m r.nodes ++ before, r.frames.map (Frame.moved m), r.awaiting.moved m⟩

/-- What becomes of a result and of an error. -/
def moveResult {α β : Type} (m : Move) (f : α → β) : Except ParseError α → Except ParseError β
  | .ok a => .ok (f a)
  | .error e => .error (e.moved m)

variable {m : Move} {before nodes : List Node} {frames : List Frame}

namespace Node

theorem movedAll_eq_map (nodes : List Node) : movedAll m nodes = nodes.map (moved m) := by
  induction nodes with
  | nil => rfl
  | cons node nodes ih => rw [movedAll, ih, List.map_cons]

theorem movedAll_reverse (nodes : List Node) :
    movedAll m nodes.reverse = (movedAll m nodes).reverse := by
  rw [movedAll_eq_map, movedAll_eq_map, List.map_reverse]

theorem movedFields_insert (fields : Fields Node) (key : String) (node : Node) :
    movedFields m (Fields.insert fields key node) =
      Fields.insert (movedFields m fields) key (node.moved m) := by
  induction fields with
  | nil => rfl
  | cons field fields ih =>
    obtain ⟨name, value⟩ := field
    unfold Fields.insert
    by_cases hname : name = key
    · rw [if_pos hname]
      show _ = if name = key then _ else _
      rw [if_pos hname]
      rfl
    · rw [if_neg hname]
      show _ = if name = key then _ else _
      rw [if_neg hname, ← ih]
      rfl

/-- Literals have no place. -/
theorem moved_of_node? {literal : Literal} {node : Node} (h : literal.node? = some node) :
    node.moved m = node := by
  have hleaf := Literal.isLeaf_of_node? h
  cases node with
  | list | element => cases hleaf
  | _ => rfl

end Node

theorem OpenTag.node_moved (tag : OpenTag) (children : List Node) :
    (tag.moved m).node (Node.movedAll m children) = (tag.node children).moved m := by
  obtain ⟨name, position, attributes⟩ := tag
  rfl

namespace Reading

/-! ## Steps and runs -/

theorem deliver_moved (m : Move) (before nodes : List Node) (frames : List Frame) (node : Node) :
    deliver (Node.movedAll m nodes ++ before) (frames.map (Frame.moved m)) (node.moved m) =
      (deliver nodes frames node).moved m before := by
  cases frames with
  | nil => rfl
  | cons frame frames =>
    rcases frame with ⟨tag, key⟩ | ⟨tag, done⟩ | ⟨done⟩
    · show Reading.mk _ _ (.attributes ⟨_, _, Fields.insert _ key (node.moved m)⟩) =
        Reading.mk _ _ (.attributes ⟨_, _, Node.movedFields m _⟩)
      rw [Node.movedFields_insert]
      rfl
    · rfl
    · rfl

theorem term_moved (t : Token) :
    term (Node.movedAll m nodes ++ before) (frames.map (Frame.moved m)) (t.moved m) =
      moveResult m (moved m before) (term nodes frames t) := by
  obtain ⟨kind, text, start, stop, position⟩ := t
  cases kind with
  | closeOpen =>
    cases frames with
    | nil => rfl
    | cons frame frames => cases frame <;> rfl
  | listClose =>
    cases frames with
    | nil => rfl
    | cons frame frames =>
      rcases frame with ⟨tag, key⟩ | ⟨tag, done⟩ | ⟨done⟩
      · rfl
      · rfl
      · have hlist : Node.list (Node.movedAll m done).reverse =
            (Node.list done.reverse).moved m := by
          rw [← Node.movedAll_reverse]
          rfl
        show Except.ok (deliver _ _ (.list (Node.movedAll m done).reverse)) = Except.ok _
        rw [hlist, deliver_moved]
  | tagOpen | listOpen =>
    simp only [term, Token.moved, List.length_map]
    split <;> rfl
  | string value => exact congrArg Except.ok (deliver_moved m before nodes frames (.string value))
  | identifier =>
    simp only [term, Token.moved]
    cases hnode : Node.ofIdentifier? text with
    | none => rfl
    | some node =>
      have hdeliver := deliver_moved m before nodes frames node
      rw [Node.moved_of_node? hnode] at hdeliver
      exact congrArg Except.ok hdeliver
  | selfClose | tagClose | equals | comment => rfl

/-- **A step does not depend on where its token stands.** -/
theorem step_moved (options : ParseOptions) (r : Reading) (t : Token) :
    step options (r.moved m before) (t.moved m) =
      moveResult m (moved m before) (step options r t) := by
  obtain ⟨nodes, frames, awaiting⟩ := r
  cases awaiting with
  | term => exact term_moved t
  | tagName position =>
    obtain ⟨kind, text, start, stop, position⟩ := t
    cases kind <;> rfl
  | attributes tag =>
    obtain ⟨kind, text, start, stop, position⟩ := t
    cases kind with
    | selfClose =>
      have hdeliver := deliver_moved m before nodes frames (tag.node [])
      rw [← OpenTag.node_moved] at hdeliver
      exact congrArg Except.ok hdeliver
    | _ => rfl
  | attributeValue tag key =>
    obtain ⟨kind, text, start, stop, position⟩ := t
    cases kind <;> rfl
  | closingName tag children closing =>
    obtain ⟨kind, text, start, stop, position⟩ := t
    cases kind <;> rfl
  | closingEnd tag children closing name =>
    obtain ⟨kind, text, start, stop, position⟩ := t
    cases kind with
    | tagClose =>
      simp only [step, moved, Awaiting.moved, Token.moved, OpenTag.moved]
      split
      · rfl
      · have hdeliver := deliver_moved m before nodes frames (tag.node children.reverse)
        rw [← OpenTag.node_moved, Node.movedAll_reverse] at hdeliver
        exact congrArg Except.ok hdeliver
    | _ => rfl

/-- **A run does not depend on where its tokens stand.** -/
theorem run_moved (m : Move) (before : List Node) (options : ParseOptions) (r : Reading)
    (tokens : List Token) :
    run options (r.moved m before) (tokens.map (Token.moved m)) =
      moveResult m (moved m before) (run options r tokens) := by
  induction tokens generalizing r with
  | nil => rfl
  | cons t tokens ih =>
    rw [List.map_cons, run_cons, run_cons, step_moved]
    cases step options r t with
    | ok r' => exact ih r'
    | error e => rfl

theorem finish_moved (m : Move) (before : List Node) (r : Reading) :
    (r.moved m before).finish =
      moveResult m (fun nodes => before.reverse ++ Node.movedAll m nodes) r.finish := by
  obtain ⟨nodes, frames, awaiting⟩ := r
  cases awaiting with
  | term =>
    cases frames with
    | nil =>
      show Except.ok (Node.movedAll m nodes ++ before).reverse =
        Except.ok (before.reverse ++ Node.movedAll m nodes.reverse)
      rw [List.reverse_append, Node.movedAll_reverse]
    | cons frame frames => cases frame <;> rfl
  | _ => rfl

end Reading

/-! ## One text below the other -/

namespace Node

variable {options : ParseOptions}

/-- Behind tokens that write nodes, tokens are read as if they stood alone, wherever they stand. -/
theorem ofTokens_append_moved {upper lower : List Token} (h : ofTokens options upper = .ok nodes) :
    ofTokens options (upper ++ lower.map (Token.moved m)) =
      moveResult m (fun more => nodes ++ movedAll m more) (ofTokens options lower) := by
  rw [ofTokens_eq] at h ⊢
  cases hrun : Reading.run options Reading.start upper with
  | error e =>
    rw [hrun] at h
    cases h
  | ok r =>
    rw [hrun] at h
    -- nothing is open behind the upper tokens
    obtain rfl := Reading.eq_of_finish_eq_ok h
    have hlower := Reading.run_moved m nodes.reverse options .start lower
    rw [Reading.run_append_of_ok hrun]
    refine (congrArg (· >>= Reading.finish) hlower).trans ?_
    rw [ofTokens_eq]
    cases Reading.run options Reading.start lower with
    | error e => rfl
    | ok r' =>
      have hfinish := Reading.finish_moved m nodes.reverse r'
      rw [List.reverse_reverse] at hfinish
      exact hfinish

theorem parse_below_eq {upper : String} (h : parse options upper = .ok nodes) (lower : String) :
    parse options (upper ++ "\n" ++ lower) =
      moveResult (.below upper) (fun more => nodes ++ movedAll (.below upper) more)
        (parse options lower) := by
  unfold parse at h
  cases hlex : lex upper with
  | error e =>
    rw [hlex] at h
    cases h
  | ok tokens =>
    rw [hlex] at h
    unfold parse
    cases hlower : lex lower with
    | error e =>
      rw [lex_below_error hlex hlower]
      rfl
    | ok more =>
      rw [lex_below_ok hlex hlower]
      exact ofTokens_append_moved h

/-- **A text below another is read as if it stood alone.** If the upper text writes nodes, then
those of the lower one follow them, farther down by the lines of the upper text and with their
columns unchanged; and if the lower text has an error, it is the error of both together, farther
down by those lines and farther on by the bytes of the upper text and of the line feed. -/
theorem parse_below {upper : String} (h : parse options upper = .ok nodes) (lower : String) :
    (∀ more, parse options lower = .ok more →
      parse options (upper ++ "\n" ++ lower) = .ok (nodes ++ more.map (moved (.below upper)))) ∧
    ∀ e, parse options lower = .error e →
      parse options (upper ++ "\n" ++ lower) = .error (e.moved (.below upper)) := by
  have hbelow := parse_below_eq h lower
  constructor
  · intro more hmore
    rw [hbelow, hmore, ← movedAll_eq_map]
    rfl
  · intro e herror
    rw [hbelow, herror]
    rfl

/-- An element on two lines, with a name of two bytes, above an element and above the end of one. -/
theorem parse_below_multibyte :
    parse ⟨true⟩ "<é>\n[1]</é>" =
        .ok [.element ⟨"é", [], [.list [.integer 1 .decimal]], ⟨1, 1⟩⟩] ∧
      parse ⟨true⟩ ("<é>\n[1]</é>" ++ "\n" ++ " <g/>") =
        .ok [.element ⟨"é", [], [.list [.integer 1 .decimal]], ⟨1, 1⟩⟩,
          .element ⟨"g", [], [], ⟨3, 2⟩⟩] ∧
      parse ⟨true⟩ ("<é>\n[1]</é>" ++ "\n" ++ " </g>") =
        .error (.unexpectedToken ⟨.closeOpen, "</", 15, 17, ⟨3, 2⟩⟩ .term) := by
  have htokens : lex "<é>\n[1]</é>" = .ok
      [⟨.tagOpen, "<", 0, 1, ⟨1, 1⟩⟩, ⟨.identifier, "é", 1, 3, ⟨1, 2⟩⟩,
        ⟨.tagClose, ">", 3, 4, ⟨1, 3⟩⟩, ⟨.listOpen, "[", 5, 6, ⟨2, 1⟩⟩,
        ⟨.identifier, "1", 6, 7, ⟨2, 2⟩⟩, ⟨.listClose, "]", 7, 8, ⟨2, 3⟩⟩,
        ⟨.closeOpen, "</", 8, 10, ⟨2, 4⟩⟩, ⟨.identifier, "é", 10, 12, ⟨2, 6⟩⟩,
        ⟨.tagClose, ">", 12, 13, ⟨2, 7⟩⟩] := by
    decide +kernel
  have hopen : lex " <g/>" = .ok [⟨.tagOpen, "<", 1, 2, ⟨1, 2⟩⟩,
      ⟨.identifier, "g", 2, 3, ⟨1, 3⟩⟩, ⟨.selfClose, "/>", 3, 5, ⟨1, 4⟩⟩] := by
    decide +kernel
  have hclose : lex " </g>" = .ok [⟨.closeOpen, "</", 1, 3, ⟨1, 2⟩⟩,
      ⟨.identifier, "g", 3, 4, ⟨1, 4⟩⟩, ⟨.tagClose, ">", 4, 5, ⟨1, 5⟩⟩] := by
    decide +kernel
  have hupper : parse ⟨true⟩ "<é>\n[1]</é>" =
      .ok [.element ⟨"é", [], [.list [.integer 1 .decimal]], ⟨1, 1⟩⟩] := by
    rw [parse, htokens]
    rfl
  have hlower : parse ⟨true⟩ " <g/>" = .ok [.element ⟨"g", [], [], ⟨1, 2⟩⟩] := by
    rw [parse, hopen]
    rfl
  have herror : parse ⟨true⟩ " </g>" =
      .error (.unexpectedToken ⟨.closeOpen, "</", 1, 3, ⟨1, 2⟩⟩ .term) := by
    rw [parse, hclose]
    rfl
  have hbelow : Move.below "<é>\n[1]</é>" = ⟨2, 14⟩ := by decide +kernel
  have hboth := parse_below hupper
  rw [hbelow] at hboth
  exact ⟨hupper, (hboth _).1 _ hlower, (hboth _).2 _ herror⟩

end Node

end TagLang
