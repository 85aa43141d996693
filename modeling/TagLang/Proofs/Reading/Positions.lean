import TagLang.Proofs.Compile.Contents
import TagLang.Proofs.Reading.Grammar

/-!
# Elements start at their tags

`Node.elements` lists the elements in a node, also those in parameter lists. In nodes that are read
from tokens, each of them is written by some of the tokens (`Derives.writesElement`), so that it
stands where its opening tag starts, and its name is the next token (`Derives.isOpened`). No tag
opens two elements: at no position are there more elements than opening tags
(`Derives.elementsAt_le`). There can be less, because an attribute that is given twice keeps its
last value only.
-/

namespace TagLang

/-! ## Elements in nodes -/

mutual

/-- All elements in a node. -/
def Node.elements : Node → List (Element Node)
  | .list items => Node.elementsOfAll items
  | .element ⟨name, attributes, children, position⟩ =>
    ⟨name, attributes, children, position⟩ ::
      (Node.elementsOfFields attributes ++ Node.elementsOfAll children)
  | _ => []

def Node.elementsOfAll : List Node → List (Element Node)
  | [] => []
  | node :: rest => node.elements ++ Node.elementsOfAll rest

def Node.elementsOfFields : List (String × Node) → List (Element Node)
  | [] => []
  | (_, node) :: rest => node.elements ++ Node.elementsOfFields rest

end

namespace Node

theorem elementsOfAll_eq_flatMap (nodes : List Node) :
    elementsOfAll nodes = nodes.flatMap elements := by
  induction nodes with
  | nil => rfl
  | cons n nodes ih => rw [elementsOfAll, ih, List.flatMap_cons]

theorem elementsOfFields_eq_flatMap (fields : List (String × Node)) :
    elementsOfFields fields = (fields.map Prod.snd).flatMap elements := by
  induction fields with
  | nil => rfl
  | cons field fields ih => rw [elementsOfFields, ih, List.map_cons, List.flatMap_cons]

theorem elements_list (items : List Node) :
    (Node.list items).elements = items.flatMap elements := by
  rw [elements, elementsOfAll_eq_flatMap]

theorem elements_element (e : Element Node) :
    (Node.element e).elements =
      e :: ((e.attributes.map Prod.snd).flatMap elements ++ e.children.flatMap elements) := by
  rw [elements, elementsOfFields_eq_flatMap, elementsOfAll_eq_flatMap]

/-- The elements in the parts of a node are in the node. -/
theorem mem_elements_of_part {n part : Node} {e : Element Node} (hpart : part ∈ n.parts)
    (he : e ∈ part.elements) : e ∈ n.elements := by
  cases n with
  | symbol _ | keyword _ | string _ | integer _ _ | float _ | complex _ _ => cases hpart
  | list items =>
    rw [elements_list]
    exact List.mem_flatMap.2 ⟨part, hpart, he⟩
  | element element =>
    rw [elements_element]
    apply List.mem_cons_of_mem
    rcases mem_parts_element hpart with hpart | hpart
    · exact List.mem_append_right _ (List.mem_flatMap.2 ⟨part, hpart, he⟩)
    · exact List.mem_append_left _ (List.mem_flatMap.2 ⟨part, hpart, he⟩)

theorem mem_elements_of_mem_all {n : Node} {e : Element Node} (h : .element e ∈ n.all) :
    e ∈ n.elements := by
  induction n using parts_induction with
  | step n ih =>
    rw [all_eq] at h
    rcases List.mem_cons.1 h with rfl | h
    · rw [elements_element]
      exact List.mem_cons_self
    · obtain ⟨part, hpart, h⟩ := List.mem_flatMap.1 h
      exact mem_elements_of_part hpart (ih part hpart h)

end Node

/-- What an identifier stands for is no element. -/
theorem Literal.elements_of_node? {literal : Literal} {n : Node} (h : literal.node? = some n) :
    n.elements = [] := by
  have hleaf := isLeaf_of_node? h
  cases n with
  | list | element => cases hleaf
  | _ => rfl

/-- The elements in what the grammar derives. -/
def Phrase.elements : Phrase → List (Element Node)
  | .term node => node.elements
  | .terms nodes => nodes.flatMap Node.elements
  | .attributes fields => (fields.map Prod.snd).flatMap Node.elements

/-! ## Opening tags -/

/-- An element stands where a tag starts, with its name behind. -/
def IsOpened (ts : List Token) (e : Element Node) : Prop :=
  ∃ before opening name after, ts = before ++ opening :: name :: after ∧
    opening.kind = .tagOpen ∧ opening.position = e.position ∧
    name.kind = .identifier ∧ name.text = e.name

theorem IsOpened.mono {ts us : List Token} {e : Element Node} (h : IsOpened ts e)
    (hpart : ts <:+: us) : IsOpened us e := by
  obtain ⟨before, opening, name, after, rfl, hopened⟩ := h
  obtain ⟨left, right, rfl⟩ := hpart
  refine ⟨left ++ before, opening, name, after ++ right, ?_, hopened⟩
  simp only [List.append_assoc, List.cons_append]

/-- The elements in attributes after one more is given: those before, and those of that one. -/
theorem Fields.mem_elements_insert {fields : Fields Node} {key : String} {node : Node}
    {e : Element Node}
    (h : e ∈ ((Fields.insert fields key node).map Prod.snd).flatMap Node.elements) :
    e ∈ (fields.map Prod.snd).flatMap Node.elements ∨ e ∈ node.elements := by
  obtain ⟨value, hvalue, he⟩ := List.mem_flatMap.1 h
  rcases Fields.mem_values_insert hvalue with hvalue | rfl
  · exact .inl (List.mem_flatMap.2 ⟨value, hvalue, he⟩)
  · exact .inr he

variable {options : ParseOptions} {depth : Nat} {phrase : Phrase} {ts us : List Token}
  {e : Element Node}

/-- Tokens that write an element stand among tokens, with no more room than these have. -/
def WritesElement (options : ParseOptions) (depth : Nat) (ts : List Token) (e : Element Node) :
    Prop :=
  ∃ depth' us, depth' ≤ depth ∧ us <:+: ts ∧ Derives options depth' (.term (.element e)) us

theorem WritesElement.mono {depth' : Nat} (h : WritesElement options depth ts e)
    (hdepth : depth ≤ depth') (hpart : ts <:+: us) : WritesElement options depth' us e := by
  obtain ⟨room, vs, hroom, hvs, hderives⟩ := h
  exact ⟨room, vs, hroom.trans hdepth, hvs.trans hpart, hderives⟩

/-- **Every element in what the grammar derives is written by some of the tokens**, rule by rule. -/
theorem Derives.writesElement (h : Derives options depth phrase ts) :
    ∀ e ∈ phrase.elements, WritesElement options depth ts e := by
  induction h with
  | string hkind => exact List.forall_mem_nil _
  | @identifier depth t node hkind hnode =>
    intro e he
    rw [Phrase.elements, Literal.elements_of_node? hnode] at he
    cases he
  | @list depth opening closing items ts hopen _ hclose ih =>
    intro e he
    rw [Phrase.elements, Node.elements_list] at he
    exact (ih e he).mono (Nat.le_succ _) ⟨[opening], [closing], rfl⟩
  | @childless depth opening tag closing fields ts hopen htag hfields hclose ih =>
    intro e he
    rw [Phrase.elements, Node.elements_element] at he
    rcases List.mem_cons.1 he with rfl | he
    · exact ⟨_, _, Nat.le_refl _, List.infix_rfl, .childless hopen htag hfields hclose⟩
    · rw [List.flatMap_nil, List.append_nil] at he
      exact (ih e he).mono (Nat.le_succ _) ⟨[opening, tag], [closing], rfl⟩
  | @element depth opening tag bracket closing closingName closingBracket fields children ts us
      hopen htag hfields hbracket hchildren hclosing hclosingName hclosingBracket hstrict ihfields
      ihchildren =>
    intro e he
    rw [Phrase.elements, Node.elements_element] at he
    rcases List.mem_cons.1 he with rfl | he
    · exact ⟨_, _, Nat.le_refl _, List.infix_rfl, .element hopen htag hfields hbracket hchildren
        hclosing hclosingName hclosingBracket hstrict⟩
    · rcases List.mem_append.1 he with he | he
      · refine (ihfields e he).mono (Nat.le_succ _) ⟨[opening, tag],
          bracket :: (us ++ [closing, closingName, closingBracket]), ?_⟩
        simp only [List.cons_append, List.nil_append]
      · refine (ihchildren e he).mono (Nat.le_succ _) ⟨opening :: tag :: (ts ++ [bracket]),
          [closing, closingName, closingBracket], ?_⟩
        simp only [List.cons_append, List.nil_append, List.append_assoc]
  | noTerms => exact List.forall_mem_nil _
  | @moreTerms depth nodes node ts us _ _ ihnodes ihnode =>
    intro e he
    rw [Phrase.elements, List.flatMap_append, List.flatMap_singleton] at he
    rcases List.mem_append.1 he with he | he
    · exact (ihnodes e he).mono (Nat.le_refl _) (List.prefix_append ts us).isInfix
    · exact (ihnode e he).mono (Nat.le_refl _) (List.suffix_append ts us).isInfix
  | noAttributes => exact List.forall_mem_nil _
  | @moreAttributes depth fields key sign node ts us _ hkey hsign _ ihfields ihnode =>
    intro e he
    rcases Fields.mem_elements_insert he with he | he
    · exact (ihfields e he).mono (Nat.le_refl _) (List.prefix_append ts _).isInfix
    · refine (ihnode e he).mono (Nat.le_refl _) ⟨ts ++ [key, sign], [], ?_⟩
      simp only [List.append_nil, List.append_assoc, List.cons_append, List.nil_append]

/-- The tokens of an element start with an opening tag, whose attributes are those of the
element. -/
theorem Derives.exists_openingTag (h : Derives options depth (.term (.element e)) ts) :
    ∃ room opening name us closing rest, room + 1 = depth ∧
      ts = opening :: name :: (us ++ closing :: rest) ∧ opening.kind = .tagOpen ∧
      opening.position = e.position ∧ name.kind = .identifier ∧ name.text = e.name ∧
      Derives options room (.attributes e.attributes) us ∧
      (closing.kind = .tagClose ∨ closing.kind = .selfClose) := by
  cases h with
  | identifier _ hnode => cases Literal.isLeaf_of_node? hnode
  | childless hopen hname hfields hclose =>
    exact ⟨_, _, _, _, _, [], rfl, rfl, hopen, rfl, hname, rfl, hfields, .inr hclose⟩
  | element hopen hname hfields hbracket =>
    exact ⟨_, _, _, _, _, _, rfl, rfl, hopen, rfl, hname, rfl, hfields, .inl hbracket⟩

/-- Every element in what the grammar derives stands where its tag starts. -/
theorem Derives.isOpened (h : Derives options depth phrase ts) :
    ∀ e ∈ phrase.elements, IsOpened ts e := by
  intro e he
  obtain ⟨_, us, -, hpart, hderives⟩ := h.writesElement e he
  obtain ⟨_, opening, name, attributeTokens, closing, rest, -, rfl, hopen, hposition, hname, htext,
    -⟩ := hderives.exists_openingTag
  exact IsOpened.mono ⟨[], opening, name, _, rfl, hopen, hposition, hname, htext⟩ hpart

/-! ## Counting -/

/-- How many elements stand at a position. -/
def elementsAt (p : Position) (elements : List (Element Node)) : Nat :=
  elements.countP fun e => e.position = p

/-- How many tags are opened at a position. -/
def tagsAt (p : Position) (ts : List Token) : Nat :=
  ts.countP fun t => t.kind = .tagOpen ∧ t.position = p

section

variable (p : Position)

@[simp]
theorem elementsAt_nil : elementsAt p [] = 0 := rfl

@[simp]
theorem elementsAt_cons (e : Element Node) (elements : List (Element Node)) :
    elementsAt p (e :: elements) = elementsAt p elements + if e.position = p then 1 else 0 := by
  rw [elementsAt, List.countP_cons]
  simp only [decide_eq_true_eq, elementsAt]

@[simp]
theorem elementsAt_append (elements more : List (Element Node)) :
    elementsAt p (elements ++ more) = elementsAt p elements + elementsAt p more :=
  List.countP_append

@[simp]
theorem tagsAt_append (ts us : List Token) : tagsAt p (ts ++ us) = tagsAt p ts + tagsAt p us :=
  List.countP_append

theorem tagsAt_cons_of_opening {t : Token} (h : t.kind = .tagOpen) (ts : List Token) :
    tagsAt p (t :: ts) = tagsAt p ts + if t.position = p then 1 else 0 := by
  rw [tagsAt, List.countP_cons]
  simp only [h, true_and, decide_eq_true_eq, tagsAt]

theorem tagsAt_le_cons (t : Token) (ts : List Token) : tagsAt p ts ≤ tagsAt p (t :: ts) :=
  (List.sublist_cons_self t ts).countP_le

/-- An attribute that is given again loses the elements of its first value. -/
theorem elementsAt_insert_le (fields : Fields Node) (key : String) (node : Node) :
    elementsAt p (((Fields.insert fields key node).map Prod.snd).flatMap Node.elements) ≤
      elementsAt p ((fields.map Prod.snd).flatMap Node.elements) + elementsAt p node.elements := by
  induction fields with
  | nil => simp [Fields.insert]
  | cons field fields ih =>
    obtain ⟨old, first⟩ := field
    rw [Fields.insert]
    split
    · simp only [List.map_cons, List.flatMap_cons, elementsAt_append]
      omega
    · simp only [List.map_cons, List.flatMap_cons, elementsAt_append]
      omega

end

/-- **No tag opens two elements**, rule by rule. -/
theorem Derives.elementsAt_le {options : ParseOptions} {depth : Nat} {phrase : Phrase}
    {ts : List Token} (h : Derives options depth phrase ts) (p : Position) :
    elementsAt p phrase.elements ≤ tagsAt p ts := by
  induction h with
  | string hkind => exact Nat.zero_le _
  | @identifier depth t node hkind hnode =>
    rw [Phrase.elements, Literal.elements_of_node? hnode]
    exact Nat.zero_le _
  | @list depth opening closing items ts hopen _ hclose ih =>
    rw [Phrase.elements, Node.elements_list]
    have hcons := tagsAt_le_cons p opening (ts ++ [closing])
    rw [tagsAt_append] at hcons
    exact (Nat.le_add_right_of_le ih).trans hcons
  | @childless depth opening tag closing fields ts hopen htag _ hclose ih =>
    have hname := tagsAt_le_cons p tag (ts ++ [closing])
    rw [tagsAt_append] at hname
    rw [tagsAt_cons_of_opening p hopen]
    simp only [Phrase.elements, Node.elements_element, elementsAt_cons, elementsAt_append,
      List.flatMap_nil, elementsAt_nil] at ih ⊢
    omega
  | @element depth opening tag bracket closing closingName closingBracket fields children ts us
      hopen htag _ hbracket _ hclosing hclosingName hclosingBracket hstrict ihfields ihchildren =>
    have hchildren := tagsAt_le_cons p bracket (us ++ [closing, closingName, closingBracket])
    have hname := tagsAt_le_cons p tag
      (ts ++ bracket :: (us ++ [closing, closingName, closingBracket]))
    rw [tagsAt_append] at hname hchildren
    rw [tagsAt_cons_of_opening p hopen]
    simp only [Phrase.elements, Node.elements_element, elementsAt_cons, elementsAt_append]
      at ihfields ihchildren ⊢
    omega
  | noTerms => exact Nat.zero_le _
  | @moreTerms depth nodes node ts us _ _ ihnodes ihnode =>
    rw [Phrase.elements, List.flatMap_append, List.flatMap_singleton, elementsAt_append,
      tagsAt_append]
    exact Nat.add_le_add ihnodes ihnode
  | noAttributes => exact Nat.zero_le _
  | @moreAttributes depth fields key sign node ts us _ hkey hsign _ ihfields ihnode =>
    have hinsert := elementsAt_insert_le p fields key.text node
    have hkey := tagsAt_le_cons p key (sign :: us)
    have hsign := tagsAt_le_cons p sign us
    rw [tagsAt_append]
    simp only [Phrase.elements] at ihfields ihnode ⊢
    omega

end TagLang
