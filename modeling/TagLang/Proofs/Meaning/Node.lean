import TagLang.Proofs.Compile.Purity
import TagLang.Proofs.Meaning.Program

/-!
# What nodes mean

The meaning of a node on a backend, without any compiler: the parts of a node are computed from left
to right, children before attributes, each of them completely before the next one.

A fragment computes in another order. It carries out the steps of all operands before it computes
the value of any of them, so that the steps of an operand overtake the values of those before it. A
node is `HoistSafe` if that goes unnoticed: wherever operands stand in a row, an operand whose value
does something is followed by no operand whose steps do something. `ValueActs` and `StepsAct` say on
the source which values and steps do so on some backend: they look up names, call, operate or test.
-/

namespace TagLang

/-! ## Computations one after the other -/

section

variable {m : Type → Type} [Monad m] {V : Type}

/-- Carries out computations from left to right. -/
def inOrder : List (m V) → m (List V)
  | [] => pure []
  | x :: rest => return (← x) :: (← inOrder rest)

/-- Carries out named computations from left to right. -/
def fieldsInOrder : List (String × m V) → m (List (String × V))
  | [] => pure []
  | (key, x) :: rest => return (key, ← x) :: (← fieldsInOrder rest)

/-- Carries out computations from left to right and keeps what the last one gives. -/
def lastInOrder (B : Backend m V) : List (m V) → m V
  | [] => pure B.nothing
  | [x] => x
  | x :: next :: rest => do
    let _ ← x
    lastInOrder B (next :: rest)

mutual

/-- The meaning of a node. Elements that no compiler accepts have the value of what has none. -/
def Node.meaning (B : Backend m V) : Node → m V
  | .symbol name => B.read name
  | .keyword text => B.invoke (B.read "Keyword") (pure [B.string text]) (pure [])
  | .string value => pure (B.string value)
  | .integer value _ => pure (B.integer value)
  | .float x => pure (B.float x)
  | .complex re im => pure (B.complex re im)
  | .list items => return B.list (← inOrder (Node.meanings B items))
  | .element ⟨name, attributes, children, _⟩ =>
    match Form.ofName? name with
    | none =>
      B.invoke (B.read name) (inOrder (Node.meanings B children))
        (fieldsInOrder (Node.fieldMeanings B attributes))
    | some .sequence => lastInOrder B (Node.meanings B children)
    | some .conditional =>
      match Node.meanings B children with
      | [test, yes, no] => B.choose test yes no
      | [test, yes] => B.choose test yes (pure B.nothing)
      | _ => pure B.nothing
    | some (.operator op) =>
      match Node.meanings B children with
      | [left, right] => do
        let l ← left
        let r ← right
        B.operate op l r
      | _ => pure B.nothing
    | some .function =>
      match children with
      | .list entries :: body =>
        match Params.ofNodes entries with
        | .ok params => do
          let defaults ← fieldsInOrder (Node.fieldMeanings B attributes)
          return B.function ⟨params.positional, params.rest, defaults⟩
            (lastInOrder B (Node.meanings B body))
        | .error _ => pure B.nothing
      | _ => pure B.nothing

def Node.meanings (B : Backend m V) : List Node → List (m V)
  | [] => []
  | node :: rest => node.meaning B :: Node.meanings B rest

def Node.fieldMeanings (B : Backend m V) : List (String × Node) → List (String × m V)
  | [] => []
  | (key, node) :: rest => (key, node.meaning B) :: Node.fieldMeanings B rest

end

/-! ## One equation for each form -/

namespace Node

variable (B : Backend m V) {name : String} {attributes : List (String × Node)}
  {children : List Node} {position : Position}

theorem meanings_eq_map (nodes : List Node) : meanings B nodes = nodes.map (meaning B) := by
  induction nodes with
  | nil => rfl
  | cons n nodes ih => rw [meanings, List.map_cons, ih]

/-- The meaning of a named node, with the name. -/
def fieldMeaning (field : String × Node) : m (String × V) :=
  (fun value => (field.1, value)) <$> field.2.meaning B

/-- Named computations in order are computations of named values in order. -/
theorem fieldsInOrder_eq [LawfulMonad m] (fields : List (String × Node)) :
    fieldsInOrder (fieldMeanings B fields) = inOrder (fields.map (fieldMeaning B)) := by
  induction fields with
  | nil => rfl
  | cons field fields ih =>
    simp only [fieldMeanings, fieldsInOrder, List.map_cons, inOrder, fieldMeaning, ih,
      map_eq_pure_bind, bind_assoc, pure_bind]

theorem meaning_call (hform : Form.ofName? name = none) :
    (Node.element ⟨name, attributes, children, position⟩).meaning B =
      B.invoke (B.read name) (inOrder (meanings B children))
        (fieldsInOrder (fieldMeanings B attributes)) := by
  rw [meaning.eq_def]
  simp only [hform]

theorem meaning_sequence (hform : Form.ofName? name = some .sequence) :
    (Node.element ⟨name, attributes, children, position⟩).meaning B =
      lastInOrder B (meanings B children) := by
  rw [meaning.eq_def]
  simp only [hform]

theorem meaning_conditional {test yes no : Node} (hform : Form.ofName? name = some .conditional) :
    (Node.element ⟨name, attributes, [test, yes, no], position⟩).meaning B =
      B.choose (test.meaning B) (yes.meaning B) (no.meaning B) := by
  rw [meaning.eq_def]
  simp only [hform, meanings]

theorem meaning_conditional_missing {test yes : Node}
    (hform : Form.ofName? name = some .conditional) :
    (Node.element ⟨name, attributes, [test, yes], position⟩).meaning B =
      B.choose (test.meaning B) (yes.meaning B) (pure B.nothing) := by
  rw [meaning.eq_def]
  simp only [hform, meanings]

theorem meaning_operator {op : BinOp} {left right : Node}
    (hform : Form.ofName? name = some (.operator op)) :
    (Node.element ⟨name, attributes, [left, right], position⟩).meaning B = (do
      let l ← left.meaning B
      let r ← right.meaning B
      B.operate op l r) := by
  rw [meaning.eq_def]
  simp only [hform, meanings]

theorem meaning_function {entries body : List Node} {params : Params Expr}
    (hform : Form.ofName? name = some .function) (hparams : Params.ofNodes entries = .ok params) :
    (Node.element ⟨name, attributes, .list entries :: body, position⟩).meaning B = (do
      let defaults ← fieldsInOrder (fieldMeanings B attributes)
      return B.function ⟨params.positional, params.rest, defaults⟩
        (lastInOrder B (meanings B body))) := by
  rw [meaning.eq_def]
  simp only [hform, hparams]

end Node

end

/-! ## Names and operands -/

mutual

/-- The names that a node looks up, as symbols and as what it calls. -/
def Node.reads : Node → List String
  | .symbol name => [name]
  | .list items => (Node.readsOfAll items).flatten
  | .element ⟨name, attributes, children, _⟩ =>
    (if Form.ofName? name = none then [name] else []) ++
      ((if Form.ofName? name = some .function then (Node.readsOfAll children).tail
        else Node.readsOfAll children) ++ Node.readsOfFields attributes).flatten
  | _ => []

def Node.readsOfAll : List Node → List (List String)
  | [] => []
  | node :: rest => node.reads :: Node.readsOfAll rest

def Node.readsOfFields : List (String × Node) → List (List String)
  | [] => []
  | (_, node) :: rest => node.reads :: Node.readsOfFields rest

end

namespace Node

theorem readsOfAll_eq_map (nodes : List Node) : readsOfAll nodes = nodes.map reads := by
  induction nodes with
  | nil => rfl
  | cons n nodes ih => rw [readsOfAll, ih, List.map_cons]

theorem readsOfFields_eq_map (fields : List (String × Node)) :
    readsOfFields fields = (fields.map Prod.snd).map reads := by
  induction fields with
  | nil => rfl
  | cons field fields ih => rw [readsOfFields, ih, List.map_cons, List.map_cons]

theorem reads_element (e : Element Node) :
    (Node.element e).reads = (if Form.ofName? e.name = none then [e.name] else []) ++
      ((Node.element e).parts.map reads).flatten := by
  rw [reads, readsOfAll_eq_map, readsOfFields_eq_map, parts, List.map_append,
    apply_ite (List.map reads), List.map_tail]

theorem mem_reads_of_part {n p : Node} {name : String} (hp : p ∈ n.parts) (h : name ∈ p.reads) :
    name ∈ n.reads := by
  have hflat : name ∈ (n.parts.map reads).flatten :=
    List.mem_flatten_of_mem (List.mem_map_of_mem hp) h
  cases n with
  | list items =>
    rw [reads, readsOfAll_eq_map]
    exact hflat
  | element e =>
    rw [reads_element]
    exact List.mem_append_right _ hflat
  | _ => exact absurd hp List.not_mem_nil

/-- The nodes in a row whose values a node puts together. Where a call starts with its callee, this
is the first of them. -/
def operands (calleeFirst : Bool) : Node → List Node
  | .list items => items
  | .element e =>
    match Form.ofName? e.name with
    | none =>
      (if calleeFirst then [.symbol e.name] else []) ++ (e.children ++ e.attributes.map Prod.snd)
    | some (.operator _) => e.children
    | some .function => e.attributes.map Prod.snd
    | _ => []
  | _ => []

section

variable {name : String} {attributes : List (String × Node)} {children : List Node}
  {position : Position}

theorem operands_call (first : Bool) (hform : Form.ofName? name = none) :
    (Node.element ⟨name, attributes, children, position⟩).operands first =
      (if first then [.symbol name] else []) ++ (children ++ attributes.map Prod.snd) := by
  simp only [operands, hform]

theorem operands_operator {op : BinOp} (first : Bool)
    (hform : Form.ofName? name = some (.operator op)) :
    (Node.element ⟨name, attributes, children, position⟩).operands first = children := by
  simp only [operands, hform]

theorem operands_function (first : Bool) (hform : Form.ofName? name = some .function) :
    (Node.element ⟨name, attributes, children, position⟩).operands first =
      attributes.map Prod.snd := by
  simp only [operands, hform]

end

end Node

theorem exists_field_iff {fields : List (String × Node)} {P : Node → Prop} :
    (∃ field ∈ fields, P field.2) ↔ ∃ a ∈ fields.map Prod.snd, P a := by
  constructor
  · rintro ⟨field, hfield, h⟩
    exact ⟨field.2, List.mem_map_of_mem hfield, h⟩
  · rintro ⟨a, ha, h⟩
    obtain ⟨field, hfield, rfl⟩ := List.mem_map.1 ha
    exact ⟨field, hfield, h⟩

/-- Items in a row such that no steps overtake a value that does something. -/
def InRow {α : Type} (acts steps : α → Prop) (items : List α) : Prop :=
  items.Pairwise fun a b => acts a → ¬ steps b

theorem InRow.append_iff {α : Type} {acts steps : α → Prop} {items more : List α} :
    InRow acts steps (items ++ more) ↔ InRow acts steps items ∧ InRow acts steps more ∧
      ((∃ a ∈ items, acts a) → ¬ ∃ b ∈ more, steps b) := by
  rw [InRow, List.pairwise_append]
  refine and_congr_right fun _ => and_congr_right fun _ => ⟨?_, ?_⟩
  · rintro h ⟨a, ha, hacts⟩ ⟨b, hb, hsteps⟩
    exact h a ha b hb hacts hsteps
  · intro h a ha b hb hacts hsteps
    exact h ⟨a, ha, hacts⟩ ⟨b, hb, hsteps⟩

namespace Node

/-- Nowhere in a node do operands stand in a row such that steps overtake a value. -/
def KeepsApart (calleeFirst : Bool) (acts steps : Node → Prop) (n : Node) : Prop :=
  ∀ e : Node, e.Within n → InRow acts steps (e.operands calleeFirst)

theorem keepsApart_iff {calleeFirst : Bool} {acts steps : Node → Prop} {n : Node} :
    n.KeepsApart calleeFirst acts steps ↔ InRow acts steps (n.operands calleeFirst) ∧
      ∀ p ∈ n.parts, p.KeepsApart calleeFirst acts steps := by
  constructor
  · exact fun h => ⟨h n (.refl n), fun p hp e he => h e (.part hp he)⟩
  · rintro ⟨hn, hparts⟩ e he
    cases he with
    | refl => exact hn
    | part hp he => exact hparts _ hp e he

/-- Up to one operand has nothing to overtake. -/
theorem keepsApart_of_length_le {calleeFirst : Bool} {acts steps : Node → Prop} {n : Node}
    (hn : (n.operands calleeFirst).length ≤ 1)
    (hparts : ∀ p ∈ n.parts, p.KeepsApart calleeFirst acts steps) :
    n.KeepsApart calleeFirst acts steps := by
  refine keepsApart_iff.2 ⟨?_, hparts⟩
  match n.operands calleeFirst, hn with
  | [], _ => exact .nil
  | [a], _ => exact List.pairwise_singleton _ a

/-- An element without attributes. -/
def tag (name : String) (children : List Node) : Node := .element ⟨name, [], children, ⟨1, 1⟩⟩

/-! ## Steps and values that do something -/

/-- What is left of a node when its steps are carried out still does something. -/
inductive ValueActs : Node → Prop
  | symbol {name : String} : ValueActs (.symbol name)
  | keyword {text : String} : ValueActs (.keyword text)
  /-- A call, an operator or a conditional. -/
  | element {e : Element Node} : Form.ofName? e.name ≠ some .sequence →
      Form.ofName? e.name ≠ some .function → ValueActs (.element e)
  | item {items : List Node} {a : Node} : a ∈ items → a.ValueActs → ValueActs (.list items)
  | last {e : Element Node} {a : Node} : Form.ofName? e.name = some .sequence →
      e.children.getLast? = some a → a.ValueActs → ValueActs (.element e)
  /-- A function that is an expression computes its defaults there. -/
  | default {e : Element Node} {a : Node} : Form.ofName? e.name = some .function →
      ¬ SequenceNeedsSteps e.children.tail → a ∈ e.attributes.map Prod.snd → a.ValueActs →
      ValueActs (.element e)

/-- The steps of a node do something. Steps that only define functions do nothing. -/
inductive StepsAct : Node → Prop
  | operand {n a : Node} : a ∈ n.operands false → a.StepsAct → n.StepsAct
  | test {e : Element Node} {a : Node} : Form.ofName? e.name = some .conditional →
      e.children.head? = some a → a.StepsAct → StepsAct (.element e)
  | child {e : Element Node} {a : Node} : Form.ofName? e.name = some .sequence →
      a ∈ e.children → a.StepsAct → StepsAct (.element e)
  | statement {e : Element Node} {a : Node} : Form.ofName? e.name = some .sequence →
      a ∈ e.children.dropLast → a.ValueActs → StepsAct (.element e)
  /-- A function that is defined by a statement computes its defaults there. -/
  | default {e : Element Node} {a : Node} : Form.ofName? e.name = some .function →
      SequenceNeedsSteps e.children.tail → a ∈ e.attributes.map Prod.snd → a.ValueActs →
      StepsAct (.element e)

/-- Nowhere in a node do steps that do something overtake a value that does something. -/
def HoistSafe (calleeFirst : Bool) : Node → Prop :=
  KeepsApart calleeFirst ValueActs StepsAct

end Node

end TagLang
