import TagLang.Proofs.Compile.Validity
import TagLang.Proofs.Program.RoundTrip
import TagLang.Proofs.Reading.Numbers

/-!
# Compiled programs read back from their JSON text

Compiling takes over the numbers of its nodes as they are and brings none of its own
(`Program.isFinite_ofNodes`). So the JSON text of a compiled program can be read exactly if the
nodes hold no infinity and the text is nested no deeper than readers go, and an infinity comes from
a numeral in the source that is too large for the format (`Program.ofJsonTextWithin?_ofSource`).
Such a numeral is accepted, unlike an integer that is too large, and the text that is written for it
is none of a program (`Program.ofJsonTextWithin?_overflow`).
-/

namespace TagLang

/-! ## Finite items -/

/-- Whether an item is no number that is not finite. -/
def Item.isFinite : Item → Bool
  | .float x => x.isFinite
  | .complex re im => re.isFinite && im.isFinite
  | _ => true

/-- All numbers among the items are finite. -/
def AllFinite (items : Multiset Item) : Prop := ∀ item ∈ items, item.isFinite = true

section AllFinite

variable {items more : Multiset Item} {item : Item}

@[simp] theorem allFinite_zero : AllFinite 0 := fun item h => absurd h (Multiset.notMem_zero item)

@[simp] theorem allFinite_singleton : AllFinite {item} ↔ item.isFinite = true := by
  simp [AllFinite]

@[simp] theorem allFinite_cons :
    AllFinite (item ::ₘ items) ↔ item.isFinite = true ∧ AllFinite items := by
  simp [AllFinite]

@[simp] theorem allFinite_add : AllFinite (items + more) ↔ AllFinite items ∧ AllFinite more := by
  simp only [AllFinite, Multiset.mem_add, or_imp, forall_and]

@[simp] theorem allFinite_replicate_eval (k : Nat) : AllFinite (Multiset.replicate k .eval) := by
  intro item h
  rw [Multiset.eq_of_mem_replicate h]
  rfl

theorem allFinite_sum_map {α : Type} {l : List α} {g : α → Multiset Item} :
    AllFinite (l.map g).sum ↔ ∀ a ∈ l, AllFinite (g a) := by
  induction l with
  | nil => simp
  | cons a l ih => simp [ih]

theorem allFinite_bind {ks : Multiset Nat} {g : Nat → Multiset Item} (h : ∀ k, AllFinite (g k)) :
    AllFinite (ks.map g).sum := by
  intro item hitem
  obtain ⟨k, -, hitem⟩ := Multiset.mem_bind.1 hitem
  exact h k item hitem

end AllFinite

/-! ## The numbers of a program -/

namespace Expr

theorem allFinite_own (e : Expr) : AllFinite e.own ↔ e.isFiniteValue = true := by
  cases e <;> simp [own, Item.isFinite, isFiniteValue, Params.item]

theorem allFinite_items (e : Expr) : AllFinite e.items ↔ e.isFinite = true := by
  rw [items, allFinite_sum_map, isFinite, List.all_eq_true]
  simp only [allFinite_own]

theorem allFinite_itemsOf (es : List Expr) :
    AllFinite (itemsOf es) ↔ es.all isFinite = true := by
  rw [itemsOf, allFinite_sum_map, List.all_eq_true]
  simp only [allFinite_items]

end Expr

theorem Stmt.allFinite_own (s : Stmt) : AllFinite s.own := by
  cases s <;> simp [own, Item.isFinite, Params.item]

theorem Stmt.allFinite_itemsOf (block : List Stmt) :
    AllFinite (itemsOf block) ↔ block.all isFinite = true := by
  have hstatement : ∀ s : Stmt, AllFinite (s.own + Expr.itemsOf s.exprs) ↔
      s.exprs.all Expr.isFinite = true := by
    intro s
    rw [allFinite_add, and_iff_right s.allFinite_own, Expr.allFinite_itemsOf]
  rw [itemsOf, allFinite_sum_map, allOf_eq_flatMap]
  simp only [hstatement]
  rw [← List.all_eq_true, List.all_flatMap]
  rfl

/-! ## The numbers of nodes -/

namespace Node

theorem allFinite_itemOfNodes (entries : List Node) (attributes : List (String × Node)) :
    AllFinite (Params.itemOfNodes entries attributes) := by
  unfold Params.itemOfNodes
  split
  · exact allFinite_singleton.2 rfl
  · exact allFinite_zero

/-- An element contributes no number itself. -/
theorem allFinite_own_element (e : Element Node) : AllFinite (Node.element e).own := by
  rw [own]
  split
  · simp [Item.isFinite]
  · simp [Item.isFinite]
  · simp
  · split_ifs <;> simp [Item.isFinite]
  · split
    · split_ifs <;> simp [Item.isFinite, allFinite_itemOfNodes]
    · exact allFinite_zero

theorem allFinite_own (n : Node) : AllFinite n.own ↔ n.isFiniteValue = true := by
  cases n with
  | element e => exact iff_of_true (allFinite_own_element e) rfl
  | symbol | keyword | string | integer | float | complex | list =>
    simp [own, Item.isFinite, isFiniteValue]

end Node

theorem allFinite_conditionalItems (k : Nat) : AllFinite (conditionalItems k) := by
  simp [conditionalItems, Item.isFinite]

theorem allFinite_functionItems (k : Nat) : AllFinite (functionItems k) := by
  simp [functionItems, Item.isFinite]

namespace Program

/-- **Compiling keeps the numbers.** A program is finite exactly if its nodes are. -/
theorem isFinite_ofNodes {nodes : List Node} {p : Program} {s s' : NameSupply}
    (h : Program.ofNodes nodes s = .ok p s') :
    p.isFinite = (nodes.flatMap Node.all).all Node.isFiniteValue := by
  -- The items of a program are those of its nodes and some that are made up, without numbers.
  obtain ⟨items, ⟨cs, fs, -, -, -, -, rfl⟩, hitems⟩ := Node.exists_accounted_of_ofNodes h
  have hconditionals : AllFinite (cs.map conditionalItems).sum :=
    allFinite_bind allFinite_conditionalItems
  have hfunctions : AllFinite (fs.map functionItems).sum := allFinite_bind allFinite_functionItems
  have hnodes :
      AllFinite (((nodes.flatMap Node.all : List Node) : Multiset Node).map Node.own).sum ↔
        ∀ n ∈ nodes.flatMap Node.all, n.isFiniteValue = true := by
    rw [Multiset.map_coe, Multiset.sum_coe, allFinite_sum_map]
    simp only [Node.allFinite_own]
  rw [Bool.eq_iff_iff, isFinite, ← Stmt.allFinite_itemsOf, hitems, List.all_eq_true, ← hnodes]
  simp [hconditionals, hfunctions]

/-- **When a compiled program is read back.** Each JSON text of a program that is compiled from a
source is read as that program if no number in the nodes of the source is infinite and the text is
not nested too deeply, and cannot be read else. If there is an infinite number, then an identifier
of the source has a numeral of `Binary64.integerBound` or more. -/
theorem ofJsonTextWithin?_ofSource {options : ParseOptions} {source : String} {p : Program}
    (h : Program.ofSource options source = .ok p) :
    ∃ tokens nodes, lex source = .ok tokens ∧ Node.parse options source = .ok nodes ∧
      (∀ text ∈ p.jsonTexts, ofJsonTextWithin? Json.maxNesting text =
        if (nodes.flatMap Node.all).all Node.isFiniteValue &&
          p.toJson.nestsWithin Json.maxNesting then some p else none) ∧
      ((nodes.flatMap Node.all).all Node.isFiniteValue = false →
        ∃ t ∈ tokens, t.kind = .identifier ∧ Literal.HasLargeNumeral t.text.toList) := by
  obtain ⟨nodes, s', hparse, hcompile⟩ := exists_of_ofSource h
  obtain ⟨tokens, hlex, hlarge⟩ := Node.exists_tokens_of_parse hparse
  refine ⟨tokens, nodes, hlex, hparse, fun text htext => ?_, fun hinfinite => ?_⟩
  · rw [p.ofJsonTextWithin?_jsonTexts htext, isFinite_ofNodes hcompile]
  · obtain ⟨n, hmem, hn⟩ := List.all_eq_false.1 hinfinite
    exact hlarge n hmem (Bool.eq_false_iff.2 hn)

/-- The largest numeral of 17 digits that is not too large, and one that is too small. -/
theorem ofJsonTextWithin?_ofSource_largest :
    ∃ p, Program.ofSource ⟨true⟩ "<f k=-0.0>[1.7976931348623158e308 1e-999j]</f>" = .ok p ∧
      ofJsonTextWithin? Json.maxNesting p.toJson.compact = some p ∧
      ofJsonTextWithin? Json.maxNesting p.toJson.pretty = some p := by
  have hfinite : (Node.parse ⟨true⟩ "<f k=-0.0>[1.7976931348623158e308 1e-999j]</f>").toOption.map
      (fun nodes => (nodes.flatMap Node.all).all Node.isFiniteValue) = some true := by
    decide +kernel
  have hnests : (Program.ofSource ⟨true⟩
      "<f k=-0.0>[1.7976931348623158e308 1e-999j]</f>").toOption.map
        (fun p => p.toJson.nestsWithin Json.maxNesting) = some true := by
    decide +kernel
  obtain ⟨p, h, hnests⟩ := exists_ofSource_of_map hnests
  obtain ⟨tokens, nodes, -, hparse, hread, -⟩ := ofJsonTextWithin?_ofSource h
  rw [hparse] at hfinite
  have hfinite : (nodes.flatMap Node.all).all Node.isFiniteValue = true := Option.some.inj hfinite
  rw [hfinite, hnests, Bool.and_self, if_pos rfl] at hread
  exact ⟨p, h, hread _ p.compact_mem_jsonTexts, hread _ p.pretty_mem_jsonTexts⟩

/-- Lists inside one another. -/
def nestedLists (depth : Nat) : String :=
  String.ofList (List.replicate depth '[' ++ List.replicate depth ']')

/-- A float that is too large is compiled to infinity, which is written as `null`, and a reader of
any depth refuses it. A list inside 62 others is compiled, and its text is nested too deeply. -/
theorem ofJsonTextWithin?_overflow :
    (∃ p, Program.ofSource ⟨true⟩ "1e999" = .ok p ∧
      p.toJson.compact = "\x7b\"body\":[\x7b\"expr\":\x7b\"float\":null\x7d\x7d]\x7d" ∧
      ∀ bound, ∀ text ∈ p.jsonTexts, ofJsonTextWithin? bound text = none) ∧
    ∃ p, Program.ofSource ⟨true⟩ (nestedLists 63) = .ok p ∧ p.isFinite = true ∧
      ∀ text ∈ p.jsonTexts, ofJsonTextWithin? Json.maxNesting text = none := by
  have hinfinite : (Program.ofSource ⟨true⟩ "1e999").toOption.map
      (fun p => (p.isFinite, p.toJson.compact)) =
        some (false, "\x7b\"body\":[\x7b\"expr\":\x7b\"float\":null\x7d\x7d]\x7d") := by
    decide +kernel
  have hdeep : (Program.ofSource ⟨true⟩ (nestedLists 63)).toOption.map
      (fun p => (p.isFinite, p.toJson.nestsWithin Json.maxNesting)) = some (true, false) := by
    decide +kernel
  constructor
  · obtain ⟨p, h, hp⟩ := exists_ofSource_of_map hinfinite
    obtain ⟨hfinite, htext⟩ := Prod.mk.inj hp
    refine ⟨p, h, htext, fun bound text hmem => ?_⟩
    rw [p.ofJsonTextWithin?_jsonTexts hmem, hfinite, Bool.false_and, if_neg Bool.false_ne_true]
  · obtain ⟨p, h, hp⟩ := exists_ofSource_of_map hdeep
    obtain ⟨hfinite, hnests⟩ := Prod.mk.inj hp
    refine ⟨p, h, hfinite, fun text hmem => ?_⟩
    rw [p.ofJsonTextWithin?_jsonTexts hmem, hnests, Bool.and_false, if_neg Bool.false_ne_true]

end Program

end TagLang
