import TagLang.Proofs.Reading.ClosingTags
import TagLang.Proofs.Reading.Positions

/-!
# Attributes that are given more than once

Attributes are given one after the other, and a name can come up again. What is left of them is an
ordered map (`Fields.IsMapOf`): each name once, in the order in which the names first come up, with
the value that is given last. One more attribute keeps this (`Fields.IsMapOf.insert`), so it holds
of an element that is built step by step (`Element.IsBuilt.isMapOf`) and of one that is read
(`Element.IsWritten.isMapOf`).

For the reader two things have to be known: the tokens of attributes lead it to their map
(`WritesAttributes.leadsTo`), and the element that it makes in the end has the map of its opening
tag, whatever its children are (`Reading.Holds`).
-/

namespace TagLang

/-! ## Ordered maps -/

namespace Fields

variable {α : Type} {fields : Fields α} {given : List (String × α)} {name : String} {value : α}

/-- Fields are the ordered map of what is given, from left to right. -/
structure IsMapOf (fields : Fields α) (given : List (String × α)) : Prop where
  nodup : fields.names.Nodup
  mem_names : ∀ name, name ∈ fields.names ↔ name ∈ names given
  /-- Names are in the order of their first occurrences. -/
  ordered : fields.names.Pairwise fun a b => (names given).idxOf a < (names given).idxOf b
  /-- The value of a name is the one at its last occurrence. -/
  mem_iff : ∀ name value, (name, value) ∈ fields ↔ given.reverse.lookup name = some value

@[simp]
theorem names_cons (name : String) (value : α) (fields : Fields α) :
    names ((name, value) :: fields) = name :: fields.names := rfl

theorem names_append_singleton (given : List (String × α)) (name : String) (value : α) :
    names (given ++ [(name, value)]) = names given ++ [name] :=
  List.map_append

theorem names_insert (fields : Fields α) (name : String) (value : α) :
    (fields.insert name value).names =
      if name ∈ fields.names then fields.names else fields.names ++ [name] := by
  induction fields with
  | nil => rfl
  | cons field fields ih =>
    obtain ⟨key, old⟩ := field
    rw [insert]
    by_cases hkey : key = name
    · subst hkey
      rw [if_pos rfl, names_cons, names_cons, if_pos List.mem_cons_self]
    · rw [if_neg hkey, names_cons, names_cons, ih]
      simp only [List.mem_cons, Ne.symm hkey, false_or]
      split <;> rfl

/-- What is under the other names stays; this takes names that come up once. -/
theorem mem_insert_iff (h : fields.names.Nodup) {key : String} {v : α} :
    (key, v) ∈ fields.insert name value ↔
      key = name ∧ v = value ∨ key ≠ name ∧ (key, v) ∈ fields := by
  induction fields with
  | nil => simp [insert]
  | cons field fields ih =>
    obtain ⟨first, old⟩ := field
    obtain ⟨hfirst, hrest⟩ := List.nodup_cons.1 h
    rw [insert]
    by_cases heq : first = name
    · subst heq
      have hother : (key, v) ∈ fields → key ≠ first := by
        rintro hmem rfl
        exact hfirst (List.mem_map.2 ⟨_, hmem, rfl⟩)
      rw [if_pos rfl]
      simp only [List.mem_cons, Prod.mk.injEq]
      grind
    · rw [if_neg heq, List.mem_cons, List.mem_cons, ih hrest, Prod.mk.injEq]
      have hne : key = first → key ≠ name := fun hkey hname => heq (hkey.symm.trans hname)
      grind

namespace IsMapOf

theorem nil : IsMapOf ([] : Fields α) [] :=
  ⟨.nil, fun _ => Iff.rfl, .nil, fun _ _ => by simp⟩

theorem idxOf_append_of_mem_names (h : fields.IsMapOf given) (more : List String) {key : String}
    (hkey : key ∈ fields.names) :
    (names given ++ more).idxOf key = (names given).idxOf key := by
  rw [List.idxOf_append, if_pos ((h.mem_names key).1 hkey)]

/-- The names are still in the order of their first occurrences; a new one comes last. -/
theorem ordered_insert (h : fields.IsMapOf given) (name : String) (value : α) :
    (fields.insert name value).names.Pairwise fun a b =>
      (names given ++ [name]).idxOf a < (names given ++ [name]).idxOf b := by
  have hold : fields.names.Pairwise fun a b =>
      (names given ++ [name]).idxOf a < (names given ++ [name]).idxOf b := by
    refine h.ordered.imp_of_mem fun ha hb hlt => ?_
    rw [h.idxOf_append_of_mem_names _ ha, h.idxOf_append_of_mem_names _ hb]
    exact hlt
  rw [names_insert]
  split
  · exact hold
  · next hnew =>
    refine List.pairwise_append.2 ⟨hold, List.pairwise_singleton _ _, fun a ha b hb => ?_⟩
    obtain rfl := List.mem_singleton.1 hb
    rw [h.idxOf_append_of_mem_names _ ha, List.idxOf_append,
      if_neg fun hmem => hnew ((h.mem_names _).2 hmem)]
    exact Nat.lt_add_left _ (List.idxOf_lt_length_of_mem ((h.mem_names a).1 ha))

/-- **One more value** is put into the map. -/
theorem insert (h : fields.IsMapOf given) (name : String) (value : α) :
    (fields.insert name value).IsMapOf (given ++ [(name, value)]) := by
  refine ⟨?_, fun key => ?_, ?_, fun key v => ?_⟩
  · rw [names_insert]
    split
    · exact h.nodup
    · next hnew => exact List.nodup_append_comm.1 (List.nodup_cons.2 ⟨hnew, h.nodup⟩)
  · rw [names_insert, names_append_singleton, List.mem_append, ← h.mem_names, List.mem_singleton]
    split
    · next hold => exact ⟨.inl, fun hkey => hkey.elim id fun heq => heq ▸ hold⟩
    · rw [List.mem_append, List.mem_singleton]
  · rw [names_append_singleton]
    exact h.ordered_insert name value
  · rw [mem_insert_iff h.nodup, h.mem_iff, List.reverse_append, List.reverse_singleton,
      List.singleton_append, List.lookup_cons]
    by_cases hkey : key = name
    · simp [hkey, eq_comm]
    · simp [hkey, beq_false_of_ne hkey]

/-- What is given has only one map: names and last values determine it. -/
theorem unique {fields' : Fields α} {given' : List (String × α)} (h : fields.IsMapOf given)
    (h' : fields'.IsMapOf given') (hnames : names given = names given')
    (hlast : ∀ name, given.reverse.lookup name = given'.reverse.lookup name) :
    fields = fields' := by
  have hperm : fields.Perm fields' := by
    refine (List.perm_ext_iff_of_nodup h.nodup.of_map h'.nodup.of_map).2 fun field => ?_
    rw [h.mem_iff, h'.mem_iff, hlast]
  have hordered := List.pairwise_map.1 h.ordered
  have hordered' := List.pairwise_map.1 h'.ordered
  rw [← hnames] at hordered'
  exact hperm.eq_of_pairwise (fun _ _ _ _ hlt hgt => absurd hlt hgt.asymm) hordered hordered'

end IsMapOf

end Fields

/-! ## Elements that are built -/

/-- An element is built step by step. These attributes are given to it, from left to right. -/
inductive Element.IsBuilt {α : Type} : List (String × α) → Element α → Prop
  | named (name : String) : IsBuilt [] (named name)
  | locate {given : List (String × α)} {e : Element α} (position : Position) :
      IsBuilt given e → IsBuilt given (e.locate position)
  | addChildren {given : List (String × α)} {e : Element α} (children : List α) :
      IsBuilt given e → IsBuilt given (e.addChildren children)
  | setAttribute {given : List (String × α)} {e : Element α} (name : String) (value : α) :
      IsBuilt given e → IsBuilt (given ++ [(name, value)]) (e.setAttribute name value)

theorem Element.IsBuilt.isMapOf {α : Type} {e : Element α} {given : List (String × α)}
    (h : IsBuilt given e) : Fields.IsMapOf e.attributes given := by
  induction h with
  | named => exact .nil
  | locate _ _ ih | addChildren _ _ ih => exact ih
  | setAttribute name value _ ih => exact ih.insert name value

/-! ## Attributes that are read -/

/-- Tokens write attributes, from left to right: for each of them a name, an equals sign and what is
read as its value. -/
inductive WritesAttributes (options : ParseOptions) : List (String × Node) → List Token → Prop
  | nil : WritesAttributes options [] []
  | snoc {given : List (String × Node)} {key sign : Token} {node : Node} {ts us : List Token} :
      WritesAttributes options given ts → key.kind = .identifier → sign.kind = .equals →
      Node.ofTokens options us = .ok [node] →
      WritesAttributes options (given ++ [(key.text, node)]) (ts ++ key :: sign :: us)

/-- Tokens are read as an element. The attributes in its opening tag, which goes up to `closing`,
are these. -/
inductive Element.IsWritten (options : ParseOptions) (e : Element Node)
    (given : List (String × Node)) : List Token → Prop
  | intro {opening name closing : Token} {us rest : List Token} :
      Node.ofTokens options (opening :: name :: (us ++ closing :: rest)) = .ok [.element e] →
      WritesAttributes options given us →
      closing.kind = .tagClose ∨ closing.kind = .selfClose →
      IsWritten options e given (opening :: name :: (us ++ closing :: rest))

variable {options : ParseOptions} {depth : Nat} {node : Node} {nodes : List Node}
  {frames : List Frame} {ts us : List Token} {t : Token} {r r' : Reading} {e : Element Node}
  {given : List (String × Node)} {tag : OpenTag}

theorem Derives.terms_cases (h : Derives options depth (.terms nodes) ts) :
    (nodes = [] ∧ ts = []) ∨ ∃ front last us vs, nodes = front ++ [last] ∧ ts = us ++ vs ∧
      Derives options depth (.terms front) us ∧ Derives options depth (.term last) vs := by
  generalize hphrase : Phrase.terms nodes = phrase at h
  cases h with
  | noTerms =>
    cases hphrase
    exact .inl ⟨rfl, rfl⟩
  | moreTerms hfront hlast =>
    cases hphrase
    exact .inr ⟨_, _, _, _, rfl, rfl, hfront, hlast⟩
  | _ => cases hphrase

/-- Tokens that are read as one node write a term. -/
theorem derives_term_of_ofTokens (h : Node.ofTokens options ts = .ok [node]) :
    Derives options maxDepth (.term node) ts := by
  rcases (derives_of_ofTokens_eq_ok h).terms_cases with
    ⟨hnil, -⟩ | ⟨front, last, us, vs, hnodes, rfl, hfront, hlast⟩
  · cases hnil
  · obtain ⟨rfl, rfl⟩ : front = [] ∧ last = node := by
      rw [← List.nil_append [node], eq_comm] at hnodes
      exact List.append_singleton_inj.1 hnodes
    rcases hfront.terms_cases with ⟨-, rfl⟩ | ⟨front, last, _, _, hnil, -⟩
    · exact hlast
    · exact absurd hnil.symm (List.append_ne_nil_of_right_ne_nil _ (List.cons_ne_nil _ _))

theorem Derives.ofTokens_term (h : Derives options depth (.term node) ts)
    (hdepth : depth ≤ maxDepth) : Node.ofTokens options ts = .ok [node] := by
  have hrun := h.runs [] [] (by rwa [List.length_nil, Nat.zero_add])
  rw [Node.ofTokens_eq]
  exact congrArg (· >>= Reading.finish) hrun

/-- **The tokens of attributes lead to their map.** -/
theorem WritesAttributes.leadsTo (h : WritesAttributes options given ts) :
    ∃ fields : Fields Node, fields.IsMapOf given ∧
      (Phrase.attributes fields).LeadsTo options ts := by
  induction h with
  | nil =>
    refine ⟨[], .nil, ?_⟩
    intro nodes frames name position r hrun
    exact (Except.ok.inj hrun).symm
  | @snoc given key sign node ts us _ hkey hsign hvalue ih =>
    obtain ⟨fields, hmap, hfields⟩ := ih
    refine ⟨_, hmap.insert key.text node, ?_⟩
    intro nodes frames name position r hrun
    obtain ⟨next, hbefore, hrun⟩ := Reading.exists_of_run_append hrun
    obtain rfl := hfields nodes frames name position next hbefore
    rw [(Reading.Step.attributeName hkey).run_cons, (Reading.Step.equals hsign).run_cons] at hrun
    exact (derives_term_of_ofTokens hvalue).leadsTo nodes (.attribute _ _ :: frames) r hrun

/-- Attributes that the grammar derives are written one after the other. -/
theorem Derives.exists_writesAttributes {fields : Fields Node}
    (h : Derives options depth (.attributes fields) ts) (hdepth : depth ≤ maxDepth) :
    ∃ given, WritesAttributes options given ts := by
  generalize hphrase : Phrase.attributes fields = phrase at h
  induction h generalizing fields with
  | noAttributes => exact ⟨[], .nil⟩
  | moreAttributes _ hkey hsign hvalue ih =>
    obtain ⟨given, hgiven⟩ := ih hdepth rfl
    exact ⟨_, hgiven.snoc hkey hsign (hvalue.ofTokens_term hdepth)⟩
  | _ => cases hphrase

/-! ## Elements that are read -/

namespace Reading

/-- An element with this opening tag is open outside of all others, or it is the first node. -/
inductive Holds (tag : OpenTag) : Reading → Prop
  | inside (frames : List Frame) {done : List Node} {awaiting : Awaiting} :
      Holds tag ⟨[], frames ++ [.children tag done], awaiting⟩
  | closingName {done : List Node} {closing : Position} :
      Holds tag ⟨[], [], .closingName tag done closing⟩
  | closingEnd {done : List Node} {closing : Position} {name : String} :
      Holds tag ⟨[], [], .closingEnd tag done closing name⟩
  | complete (nodes : List Node) {children : List Node} {frames : List Frame}
      {awaiting : Awaiting} : Holds tag ⟨nodes ++ [tag.node children], frames, awaiting⟩

theorem Holds.deliver_inside (done : List Node) :
    Holds tag (deliver [] (frames ++ [.children tag done]) node) := by
  cases frames with
  | nil => exact .inside []
  | cons frame frames =>
    obtain ⟨inner, key⟩ | ⟨inner, more⟩ | more := frame
    · exact .inside _
    · exact .inside (.children inner (node :: more) :: frames)
    · exact .inside (.items (node :: more) :: frames)

theorem Holds.deliver_complete (nodes children : List Node) :
    Holds tag (deliver (nodes ++ [tag.node children]) frames node) := by
  cases frames with
  | nil => exact .complete (node :: nodes)
  | cons frame frames => cases frame <;> exact .complete _

/-- **One step** keeps the element. -/
theorem Holds.step (h : Holds tag r) (hstep : Step options t r r') : Holds tag r' := by
  cases h with
  | @inside frames =>
    generalize hframes : frames ++ [Frame.children tag _] = all at hstep
    cases hstep with
    | string | identifier | selfClose | closingEnd =>
      subst hframes
      exact deliver_inside _
    | listOpen =>
      subst hframes
      exact .inside (.items [] :: frames)
    | @tagClose _ _ inner =>
      subst hframes
      exact .inside (.children inner [] :: frames)
    | @equals _ _ inner key =>
      subst hframes
      exact .inside (.attribute inner key :: frames)
    | tagOpen | tagName | attributeName | closingName =>
      subst hframes
      exact .inside _
    | listClose =>
      cases frames with
      | nil => cases hframes
      | cons frame frames =>
        cases hframes
        exact deliver_inside _
    | closeOpen =>
      cases frames with
      | nil =>
        cases hframes
        exact .closingName
      | cons frame frames =>
        cases hframes
        exact .inside _
  | closingName =>
    cases hstep with
    | closingName => exact .closingEnd
  | closingEnd =>
    cases hstep with
    | closingEnd => exact .complete []
  | complete =>
    generalize hnodes : _ ++ [tag.node _] = all at hstep
    cases hstep with
    | string | identifier | listClose | selfClose | closingEnd =>
      subst hnodes
      exact deliver_complete _ _
    | _ =>
      subst hnodes
      exact .complete _

/-- **A run** keeps the element. -/
theorem Holds.run (h : Holds tag r) (hrun : run options r ts = .ok r') : Holds tag r' := by
  induction ts generalizing r with
  | nil =>
    obtain rfl := Except.ok.inj hrun
    exact h
  | cons t ts ih =>
    obtain ⟨next, hstep, hrun⟩ := exists_of_run_cons hrun
    exact ih (h.step hstep) hrun

/-- The end of an opening tag leaves its element open, or completes it. -/
theorem holds_of_run_cons (hkind : t.kind = .tagClose ∨ t.kind = .selfClose)
    (hrun : run options ⟨[], [], .attributes tag⟩ (t :: ts) = .ok r) : Holds tag r := by
  rcases hkind with hkind | hkind
  · rw [(Step.tagClose hkind).run_cons] at hrun
    exact Holds.run (.inside []) hrun
  · rw [(Step.selfClose hkind).run_cons] at hrun
    exact Holds.run (.complete []) hrun

/-- If nothing is open and there is only one node, it is the element of the tag. -/
theorem Holds.exists_eq (h : Holds tag ⟨[node], [], .term⟩) :
    ∃ children, node = tag.node children := by
  generalize hr : Reading.mk [node] [] .term = r at h
  cases h with
  | @inside frames =>
    cases frames <;> cases hr
  | closingName | closingEnd => cases hr
  | @complete nodes children =>
    simp only [Reading.mk.injEq] at hr
    rw [← List.nil_append [node], eq_comm] at hr
    exact ⟨children, (List.append_singleton_inj.1 hr.1).2.symm⟩

end Reading

/-- **The attributes of an element that is read are the map of those in its opening tag.** -/
theorem Element.IsWritten.isMapOf (h : e.IsWritten options given ts) :
    Fields.IsMapOf e.attributes given := by
  obtain ⟨hread, hgiven, hclosing⟩ := h
  obtain ⟨fields, hmap, hfields⟩ := hgiven.leadsTo
  have hderives := derives_term_of_ofTokens hread
  obtain ⟨_, _, _, _, _, _, -, htokens, hopen, -, hname, -⟩ := hderives.exists_openingTag
  obtain ⟨rfl, hrest⟩ := List.cons.inj htokens
  obtain ⟨rfl, -⟩ := List.cons.inj hrest
  have hrun := hderives.runs [] [] (Nat.le_of_eq (Nat.zero_add _))
  rw [(Reading.Step.tagOpen hopen (by decide)).run_cons, (Reading.Step.tagName hname).run_cons]
    at hrun
  obtain ⟨next, hattributes, hrun⟩ := Reading.exists_of_run_append hrun
  obtain rfl := hfields _ _ _ _ next hattributes
  obtain ⟨children, hnode⟩ := (Reading.holds_of_run_cons hclosing hrun).exists_eq
  cases hnode
  exact hmap

/-- Every element in nodes that are read is written by some of the tokens, and these give it its
attributes. -/
theorem exists_isWritten_of_ofTokens (h : Node.ofTokens options ts = .ok nodes) :
    ∀ e ∈ nodes.flatMap Node.elements, ∃ given us, us <:+: ts ∧ e.IsWritten options given us := by
  intro e he
  obtain ⟨depth, us, hdepth, hpart, hderives⟩ := (derives_of_ofTokens_eq_ok h).writesElement e he
  obtain ⟨room, opening, name, vs, closing, rest, hroom, rfl, -, -, -, -, hfields, hclosing⟩ :=
    hderives.exists_openingTag
  obtain ⟨given, hgiven⟩ := hfields.exists_writesAttributes (by omega)
  exact ⟨given, _, hpart, .intro (hderives.ofTokens_term hdepth) hgiven hclosing⟩

end TagLang
