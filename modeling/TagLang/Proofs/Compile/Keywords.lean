import TagLang.Proofs.Compile.Induction
import TagLang.Proofs.Reading.Attributes

/-!
# Attributes become keyword arguments

A call is compiled from its children and the values of its attributes, and from nothing else
(`Node.compile_call`). The attributes of an element are the ordered map of those that it is given,
so a value that is given up for a later one of the same name is not compiled: it adds no step, draws
no name and causes no error (`Element.keywords_of_given`).

As in `Compile/Sequence`, the statements are equations between compilations, which cover errors and
the supply of names.
-/

namespace TagLang

variable {e : Element Node} {s s' : NameSupply} {f : Fragment Expr}

/-- The call of an element whose children and values of attributes have become these fragments. -/
def Element.callOf (e : Element Node) (args values : List (Fragment Expr)) : Fragment Expr :=
  ⟨args.flatMap Fragment.steps ++ values.flatMap Fragment.steps,
    .call (.name e.name) (args.map Fragment.value)
      ((Fields.names e.attributes).zip (values.map Fragment.value))⟩

namespace Node

theorem compileAll_eq_mapM (nodes : List Node) : compileAll nodes = nodes.mapM compile := by
  induction nodes with
  | nil => rfl
  | cons n nodes ih => rw [compileAll, List.mapM_cons, ih]

/-- Attributes are compiled for their values, whatever follows; the names are put back
afterwards. -/
theorem bind_compileFields {α : Type} (fields : List (String × Node))
    (next : Fragment (List (String × Expr)) → CompileM α) :
    (compileFields fields >>= fun gs => next (.collect gs)) =
      (fields.map Prod.snd).mapM compile >>= fun values =>
        next ⟨values.flatMap Fragment.steps,
          (Fields.names fields).zip (values.map Fragment.value)⟩ := by
  induction fields generalizing next with
  | nil => rfl
  | cons field fields ih =>
    obtain ⟨key, node⟩ := field
    simp only [compileFields, List.map_cons, List.mapM_cons, bind_assoc, pure_bind]
    refine bind_congr fun f => ?_
    exact ih fun rest => next ⟨f.steps ++ rest.steps, (key, f.value) :: rest.value⟩

/-- **A call is compiled from its children and the values of its attributes.** -/
theorem compile_call (hform : Form.ofName? e.name = none) :
    (Node.element e).compile = do
      let args ← e.children.mapM compile
      let values ← (e.attributes.map Prod.snd).mapM compile
      return e.callOf args values := by
  obtain ⟨name, attributes, children, position⟩ := e
  rw [compile]
  simp only [hform]
  rw [compileAll_eq_mapM]
  refine bind_congr fun args => ?_
  exact bind_compileFields attributes fun keywords =>
    pure (((Fragment.collect args).zip keywords).map fun given =>
      Expr.call (.name name) given.1 given.2)

/-- In a call that is compiled, the values of the attributes are compiled one after the other,
behind the children, and each of them goes under its name. -/
theorem exists_keywords_of_call (hform : Form.ofName? e.name = none)
    (h : (Node.element e).compile s = .ok f s') :
    ∃ args values keywords s₁, Chain Compiles e.children s args s₁ ∧
      Chain Compiles (e.attributes.map Prod.snd) s₁ values s' ∧
      f.steps = args.flatMap Fragment.steps ++ values.flatMap Fragment.steps ∧
      f.value = .call (.name e.name) (args.map Fragment.value) keywords ∧
      Fields.names keywords = Fields.names e.attributes ∧
      keywords.map Prod.snd = values.map Fragment.value := by
  simp only [compile_call hform, ← compileAll_eq_mapM, CompileM.bind_eq_ok, CompileM.pure_eq_ok]
    at h
  obtain ⟨args, s₁, hargs, values, _, hvalues, rfl, rfl⟩ := h
  have hchain := chain_of_compileAll hvalues
  have hlength : (Fields.names e.attributes).length = (values.map Fragment.value).length := by
    rw [Fields.names, List.length_map, List.length_map, hchain.length_eq, List.length_map]
  exact ⟨args, values, _, s₁, chain_of_compileAll hargs, hchain, rfl, rfl,
    List.map_fst_zip hlength.le, List.map_snd_zip hlength.ge⟩

end Node

namespace Element

variable {given given' : List (String × Node)} {e' : Element Node}

/-- An element comes by its attributes one after the other: it is read or built. -/
inductive IsGiven (e : Element Node) (given : List (String × Node)) : Prop
  | read {options : ParseOptions} {ts : List Token} : e.IsWritten options given ts → IsGiven e given
  | built : IsBuilt given e → IsGiven e given

theorem IsGiven.isMapOf (h : e.IsGiven given) : Fields.IsMapOf e.attributes given := by
  cases h with
  | read hwritten => exact hwritten.isMapOf
  | built hbuilt => exact hbuilt.isMapOf

/-- The names of what is given and the last value under each of them decide what a call becomes. -/
theorem compile_eq_of_last (hform : Form.ofName? e.name = none) (h : e.IsGiven given)
    (h' : e'.IsGiven given') (hname : e'.name = e.name) (hchildren : e'.children = e.children)
    (hnames : Fields.names given' = Fields.names given)
    (hlast : ∀ name, given'.reverse.lookup name = given.reverse.lookup name) :
    (Node.element e').compile = (Node.element e).compile := by
  have hattributes : e'.attributes = e.attributes := h'.isMapOf.unique h.isMapOf hnames hlast
  rw [Node.compile_call hform, Node.compile_call (hname ▸ hform), hchildren, hattributes]
  unfold callOf
  rw [hname, hattributes]

/-- **Attributes are an ordered map, from the tokens to the call.** To every element that is read,
some of the tokens give attributes. An element that is read or built has each name of what it is
given once, in the order of the first occurrences, with the value of the last occurrence.

If it is a call, its children and these values are compiled, and nothing else; the keyword arguments
have the same names in the same order, and the values that these nodes have become. Other values do
not matter: with another value in the place of one that is given up, also one that needs steps or
names or that cannot be compiled, the compilation is the same. -/
theorem keywords_of_given :
    (∀ options tokens nodes, Node.ofTokens options tokens = .ok nodes →
      ∀ e ∈ nodes.flatMap Node.elements,
        ∃ given ts, ts <:+: tokens ∧ e.IsWritten options given ts) ∧
    ∀ (e : Element Node) (given : List (String × Node)), e.IsGiven given →
      Fields.IsMapOf e.attributes given ∧
      (Form.ofName? e.name = none →
        ((Node.element e).compile = do
          let args ← e.children.mapM Node.compile
          let values ← (e.attributes.map Prod.snd).mapM Node.compile
          return e.callOf args values) ∧
        (∀ s f s', (Node.element e).compile s = .ok f s' → ∃ args values keywords s₁,
          Chain Node.Compiles e.children s args s₁ ∧
          Chain Node.Compiles (e.attributes.map Prod.snd) s₁ values s' ∧
          f.steps = args.flatMap Fragment.steps ++ values.flatMap Fragment.steps ∧
          f.value = .call (.name e.name) (args.map Fragment.value) keywords ∧
          Fields.names keywords = Fields.names e.attributes ∧
          keywords.map Prod.snd = values.map Fragment.value) ∧
        ∀ (e' : Element Node) (given' : List (String × Node)), e'.IsGiven given' →
          e'.name = e.name → e'.children = e.children →
          Fields.names given' = Fields.names given →
          (∀ name, given'.reverse.lookup name = given.reverse.lookup name) →
          (Node.element e').compile = (Node.element e).compile) := by
  refine ⟨fun options tokens nodes => exists_isWritten_of_ofTokens, fun e given h => ?_⟩
  refine ⟨h.isMapOf, fun hform => ⟨Node.compile_call hform, ?_, ?_⟩⟩
  · intro s f s'
    exact Node.exists_keywords_of_call hform
  · intro e' given'
    exact compile_eq_of_last hform h

/-- A token without its place. -/
def unplaced (kind : Token.Kind) (text : String) : Token := ⟨kind, text, 0, 0, .start⟩

/-- The tokens of `<f a=<if/> b=2 a=3/>`. -/
def overwriting : List Token :=
  [unplaced .tagOpen "<", unplaced .identifier "f", unplaced .identifier "a", unplaced .equals "=",
    unplaced .tagOpen "<", unplaced .identifier "if", unplaced .selfClose "/>",
    unplaced .identifier "b", unplaced .equals "=", unplaced .identifier "2",
    unplaced .identifier "a", unplaced .equals "=", unplaced .identifier "3",
    unplaced .selfClose "/>"]

/-- The element that they write. -/
def overwriter : Element Node :=
  ⟨"f", [("a", .integer 3 .decimal), ("b", .integer 2 .decimal)], [], .start⟩

/-- The attributes that they give to it. The first cannot be compiled. -/
def overwritten : List (String × Node) :=
  [("a", .element ⟨"if", [], [], .start⟩), ("b", .integer 2 .decimal), ("a", .integer 3 .decimal)]

/-- A function that needs steps and draws a name, `<fn*>[] x y</fn*>`. -/
def discarded : Node :=
  .element ((named "fn*").addChildren [.list [], .symbol "x", .symbol "y"])

/-- The same call, with this function as the first value of `a`. -/
def rebuilt : Element Node :=
  (((named "f").setAttribute "a" discarded).setAttribute "b" (.integer 2 .decimal)).setAttribute "a"
    (.integer 3 .decimal)

theorem isWritten_overwriter : overwriter.IsWritten {} overwritten overwriting := by
  have hsign : (unplaced .equals "=").kind = .equals := rfl
  have ha : (unplaced .identifier "a").kind = .identifier := rfl
  have hb : (unplaced .identifier "b").kind = .identifier := rfl
  have hif : Node.ofTokens {}
      [unplaced .tagOpen "<", unplaced .identifier "if", unplaced .selfClose "/>"] =
      .ok [.element ⟨"if", [], [], .start⟩] := rfl
  have htwo : Node.ofTokens {} [unplaced .identifier "2"] = .ok [.integer 2 .decimal] := rfl
  have hthree : Node.ofTokens {} [unplaced .identifier "3"] = .ok [.integer 3 .decimal] := rfl
  have hread : Node.ofTokens {} overwriting = .ok [.element overwriter] := rfl
  exact .intro hread (((WritesAttributes.nil.snoc ha hsign hif).snoc hb hsign htwo).snoc ha hsign
    hthree) (.inr rfl)

/-- Neither of the first values is compiled: the call needs no steps, and it draws no name. -/
theorem keywords_of_given_overwritten :
    (∃ given ts, ts <:+: overwriting ∧ overwriter.IsWritten {} given ts) ∧
      Fields.IsMapOf overwriter.attributes overwritten ∧
      (Node.element overwriter).compile ⟨7⟩ =
        .ok ⟨[], .call (.name "f") [] [("a", .int 3), ("b", .int 2)]⟩ ⟨7⟩ ∧
      (Node.element rebuilt).compile = (Node.element overwriter).compile := by
  have hwritten := keywords_of_given.1 {} overwriting [.element overwriter] rfl overwriter
    List.mem_cons_self
  obtain ⟨hmap, hcall⟩ := keywords_of_given.2 overwriter overwritten (.read isWritten_overwriter)
  obtain ⟨heq, -, hsame⟩ := hcall rfl
  have hbuilt : IsBuilt [("a", discarded), ("b", .integer 2 .decimal), ("a", .integer 3 .decimal)]
      rebuilt := .setAttribute _ _ (.setAttribute _ _ (.setAttribute _ _ (.named "f")))
  refine ⟨hwritten, hmap, ?_, ?_⟩
  · rw [heq]
    rfl
  · refine hsame rebuilt _ (.built hbuilt) rfl rfl rfl fun name => ?_
    by_cases hname : name = "a"
    · rw [hname]
      rfl
    · simp [overwritten, List.lookup_cons, beq_false_of_ne hname]

end Element

end TagLang
