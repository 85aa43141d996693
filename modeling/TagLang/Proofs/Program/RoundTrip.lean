import TagLang.Program.Json
import TagLang.Proofs.Json.RoundTrip
import TagLang.Proofs.Program.Contents

/-!
# Programs read back from their JSON text

A program whose numbers are all finite is read back from its JSON text as it was, from either of
the two texts (`Program.ofJsonText?_inverts`), so two such programs never have the same text. A
number that is not finite has no JSON text, and then the text of the program is not one of a program
at all: what is read is settled by `Program.isFinite` alone (`Program.ofJsonText?_jsonTexts`).

Reading is followed from the whole to its parts, expressions by `Expr.parts_induction` and
statements by `Stmt.parts_induction`; what each kind is read as is stated once for each kind.
-/

namespace TagLang

/-! ## Part by part -/

theorem Expr.sizeOf_part_lt {e part : Expr} (h : part ∈ e.parts) : sizeOf part < sizeOf e := by
  have hfield : ∀ {fields : List (String × Expr)}, part ∈ fields.map Prod.snd →
      sizeOf part < sizeOf fields := by
    intro fields hmem
    obtain ⟨⟨key, value⟩, hfield, rfl⟩ := List.mem_map.1 hmem
    have hlt := List.sizeOf_lt_of_mem hfield
    rw [Prod.mk.sizeOf_spec] at hlt
    dsimp only
    omega
  cases e with
  | list items =>
    have hlt : sizeOf part < sizeOf items := List.sizeOf_lt_of_mem h
    rw [Expr.list.sizeOf_spec]
    omega
  | call func args keywords =>
    rw [Expr.call.sizeOf_spec]
    rcases List.mem_cons.1 h with rfl | h
    · omega
    · rcases List.mem_append.1 h with h | h
      · have hlt := List.sizeOf_lt_of_mem h
        omega
      · have hlt := hfield h
        omega
  | binOp op left right =>
    rw [Expr.binOp.sizeOf_spec]
    simp only [parts, List.mem_cons, List.not_mem_nil, or_false] at h
    rcases h with rfl | rfl <;> omega
  | ifExp test yes no =>
    rw [Expr.ifExp.sizeOf_spec]
    simp only [parts, List.mem_cons, List.not_mem_nil, or_false] at h
    rcases h with rfl | rfl | rfl <;> omega
  | lambda params body =>
    obtain ⟨positional, rest, keywords⟩ := params
    rw [Expr.lambda.sizeOf_spec, Params.mk.sizeOf_spec]
    rcases List.mem_append.1 h with h | h
    · have hlt : sizeOf part < sizeOf keywords := hfield h
      omega
    · rw [List.mem_singleton.1 h]
      omega
  | _ => cases h

/-- A fact on expressions is proved from their parts. -/
theorem Expr.parts_induction {motive : Expr → Prop}
    (step : ∀ e : Expr, (∀ part ∈ e.parts, motive part) → motive e) (e : Expr) : motive e :=
  step e fun part _ => parts_induction step part
termination_by sizeOf e
decreasing_by exact sizeOf_part_lt ‹_›

theorem Stmt.sizeOf_part_lt {s part : Stmt} {block : List Stmt} (hblock : block ∈ s.blocks)
    (h : part ∈ block) : sizeOf part < sizeOf s := by
  have hlt := List.sizeOf_lt_of_mem h
  cases s with
  | define name params body =>
    rw [List.mem_singleton.1 hblock] at hlt
    rw [Stmt.define.sizeOf_spec]
    omega
  | branch test yes no =>
    rw [Stmt.branch.sizeOf_spec]
    simp only [blocks, List.mem_cons, List.not_mem_nil, or_false] at hblock
    rcases hblock with rfl | rfl <;> omega
  | _ => cases hblock

/-- A fact on statements is proved from the statements of their blocks. -/
theorem Stmt.parts_induction {motive : Stmt → Prop}
    (step : ∀ s : Stmt, (∀ block ∈ s.blocks, ∀ part ∈ block, motive part) → motive s) (s : Stmt) :
    motive s :=
  step s fun block _ part _ => parts_induction step part
termination_by sizeOf s
decreasing_by exact sizeOf_part_lt ‹_› ‹_›

/-! ## Finite programs -/

/-- Whether an expression is no number that is not finite. -/
def Expr.isFiniteValue : Expr → Bool
  | .float x => x.isFinite
  | .complex re im => re.isFinite && im.isFinite
  | _ => true

/-- Whether every number in an expression is finite. -/
def Expr.isFinite (e : Expr) : Bool := e.all.all isFiniteValue

/-- Whether every number in a statement is finite. -/
def Stmt.isFinite (s : Stmt) : Bool := s.all.all fun part => part.exprs.all Expr.isFinite

/-- Whether every number in a program is finite. -/
def Program.isFinite (p : Program) : Bool := p.body.all Stmt.isFinite

theorem Expr.isFinite_eq (e : Expr) : e.isFinite = (e.isFiniteValue && e.parts.all isFinite) := by
  rw [isFinite, all_eq, List.all_cons, List.all_flatMap]
  rfl

theorem Stmt.isFinite_eq (s : Stmt) : s.isFinite =
    (s.exprs.all Expr.isFinite && s.blocks.all fun block => block.all isFinite) := by
  have hblock : ∀ block : List Stmt, ((allOf block).all fun part => part.exprs.all Expr.isFinite) =
      block.all isFinite := by
    intro block
    rw [allOf_eq_flatMap, List.all_flatMap]
    rfl
  rw [isFinite, all_eq, List.all_cons, List.all_flatMap]
  simp only [hblock]

/-! ## Reading expressions -/

namespace Expr

/-- An expression is read back from what can be written of it, if its numbers are finite. -/
def ReadsBack (e : Expr) : Prop :=
  ofJson? e.toJson.settled = if e.isFinite then some e else none

theorem listOfJson?_settled {es : List Expr} (h : ∀ e ∈ es, e.ReadsBack) :
    listOfJson? (Json.settledItems (listToJson es)) =
      if es.all isFinite then some es else none := by
  induction es with
  | nil => rw [listToJson, Json.settledItems, listOfJson?]; rfl
  | cons e es ih =>
    obtain ⟨he, hes⟩ := List.forall_mem_cons.1 h
    rw [listToJson, Json.settledItems, listOfJson?, he, ih hes, List.all_cons]
    cases e.isFinite <;> cases es.all isFinite <;> rfl

theorem recordPart?_eq {names : List String} {json value : Json} {name : String}
    (h : json.recordField? names name = some value) :
    json.recordPart? names name = some ⟨value, Json.sizeOf_recordField?_lt h⟩ := by
  unfold Json.recordPart?
  split
  · next found hfound =>
    obtain rfl := Option.some.inj (hfound.symm.trans h)
    rfl
  · next hnone =>
    rw [hnone] at h
    cases h

theorem keywordsOfJson?_cons {slot : String} (hslot : slot ≠ "name") (key : String) (content : Json)
    (rest : List Json) :
    keywordsOfJson? slot (.obj [("name", .str key), (slot, content)] :: rest) =
      (ofJson? content).bind fun e => (keywordsOfJson? slot rest).bind fun fields =>
        some ((key, e) :: fields) := by
  have hcontent :
      (Json.obj [("name", .str key), (slot, content)]).recordField? ["name", slot] slot =
        some content := by
    have hne : (slot == "name") = false := beq_eq_false_iff_ne.2 hslot
    show List.lookup slot _ = _
    rw [List.lookup_cons, hne, List.lookup_cons, beq_self_eq_true]
  rw [keywordsOfJson?, recordPart?_eq hcontent]
  rfl

theorem keywordsOfJson?_settled {slot : String} (hslot : slot ≠ "name")
    {fields : List (String × Expr)} (h : ∀ e ∈ fields.map Prod.snd, e.ReadsBack) :
    keywordsOfJson? slot (Json.settledItems (keywordsToJson slot fields)) =
      if (fields.map Prod.snd).all isFinite then some fields else none := by
  induction fields with
  | nil => rw [keywordsToJson, Json.settledItems, keywordsOfJson?]; rfl
  | cons field fields ih =>
    obtain ⟨key, e⟩ := field
    obtain ⟨he, hfields⟩ := List.forall_mem_cons.1 h
    have hread : ofJson? e.toJson.settled = if e.isFinite then some e else none := he
    rw [keywordsToJson, Json.settledItems]
    refine (keywordsOfJson?_cons hslot key e.toJson.settled _).trans ?_
    rw [hread, ih hfields, List.map_cons, List.all_cons]
    cases e.isFinite <;> cases (fields.map Prod.snd).all isFinite <;> rfl

/-! What each kind of expression is read as. -/

theorem ofJson?_int (value : Json) :
    ofJson? (.obj [("int", value)]) = value.int64?.bind fun value => some (.int value) := by
  rw [ofJson?]
  rfl

theorem ofJson?_float (x : Json) :
    ofJson? (.obj [("float", x)]) = x.number?.bind fun x => some (.float x) := by
  rw [ofJson?]
  rfl

theorem ofJson?_complex (re im : Json) :
    ofJson? (.obj [("complex", .obj [("re", re), ("im", im)])]) =
      re.number?.bind fun re => im.number?.bind fun im => some (.complex re im) := by
  rw [ofJson?]
  rfl

theorem ofJson?_list (items : List Json) :
    ofJson? (.obj [("list", .arr items)]) =
      (listOfJson? items).bind fun items => some (.list items) := by
  rw [ofJson?]
  rfl

theorem ofJson?_call (func : Json) (args keywords : List Json) :
    ofJson? (.obj [("call",
        .obj [("func", func), ("args", .arr args), ("keywords", .arr keywords)])]) =
      (ofJson? func).bind fun func => (listOfJson? args).bind fun args =>
        (keywordsOfJson? "value" keywords).bind fun keywords =>
          some (.call func args keywords) := by
  rw [ofJson?]
  rfl

theorem ofJson?_binOp (op : BinOp) (left right : Json) :
    ofJson? (.obj [("bin_op", .obj [("op", .str op.name), ("left", left), ("right", right)])]) =
      (ofJson? left).bind fun left => (ofJson? right).bind fun right =>
        some (.binOp op left right) := by
  rw [ofJson?]
  cases op <;> rfl

theorem ofJson?_ifExp (test yes no : Json) :
    ofJson? (.obj [("if_exp", .obj [("test", test), ("then", yes), ("orelse", no)])]) =
      (ofJson? test).bind fun test => (ofJson? yes).bind fun yes => (ofJson? no).bind fun no =>
        some (.ifExp test yes no) := by
  rw [ofJson?]
  rfl

end Expr

namespace Params

variable {params : Params Expr}

/-- The names of parameters are read back, whatever their defaults are. -/
theorem positionalOfJson?_toJsonWith (keywords : List Json) :
    positionalOfJson? (params.toJsonWith keywords).settled = some params.positional := by
  show (Json.settledItems (params.positional.map .str)).mapM Json.str? = _
  generalize params.positional = names
  induction names with
  | nil => rfl
  | cons name names ih =>
    rw [List.map_cons, Json.settledItems, List.mapM_cons, ih]
    rfl

theorem restOfJson?_toJsonWith (keywords : List Json) :
    restOfJson? (params.toJsonWith keywords).settled = some params.rest := by
  obtain ⟨positional, rest, fields⟩ := params
  cases rest <;> rfl

end Params

namespace Expr

theorem ofJson?_lambda (params : Params Expr) (keywords : List Json) (body : Json) :
    ofJson? (.obj [("lambda",
        .obj [("params", (params.toJsonWith keywords).settled), ("body", body)])]) =
      (keywordsOfJson? "default" (Json.settledItems keywords)).bind fun keywords =>
        (ofJson? body).bind fun body =>
          some (.lambda ⟨params.positional, params.rest, keywords⟩ body) := by
  have hpositional := params.positionalOfJson?_toJsonWith keywords
  have hrest := params.restOfJson?_toJsonWith keywords
  rw [ofJson?]
  show (Params.positionalOfJson? (params.toJsonWith keywords).settled).bind (fun positional =>
    (Params.restOfJson? (params.toJsonWith keywords).settled).bind fun rest =>
      (keywordsOfJson? "default" (Json.settledItems keywords)).bind fun keywords =>
        (ofJson? body).bind fun body => some (lambda ⟨positional, rest, keywords⟩ body)) = _
  rw [hpositional, hrest]
  rfl

theorem int64?_settled (value : Int64) : (Json.int value.toInt).settled.int64? = some value := by
  have hlow : Int64.minValue.toInt ≤ value.toInt := value.minValue_le_toInt
  have hhigh : value.toInt ≤ Int64.maxValue.toInt := value.toInt_le
  show Text.int64? value.toInt = _
  rw [Text.int64?, if_pos ⟨hlow, hhigh⟩, Int64.ofInt_toInt]

theorem number?_settled (x : Binary64) :
    (Json.float x).settled.number? = if x.isFinite then some x else none := by
  rw [Json.settled]
  cases x.isFinite <;> rfl

/-- **An expression is read back** exactly if its numbers are finite. -/
theorem readsBack (e : Expr) : e.ReadsBack := by
  induction e using parts_induction with
  | step e ih =>
    unfold ReadsBack
    rw [isFinite_eq]
    -- Reading stops at the first part that is not finite, so the tests of all parts are compared.
    cases e with
    | name ident | str value | nothing =>
      rw [toJson, ofJson?]
      rfl
    | int value =>
      refine (ofJson?_int _).trans ?_
      rw [int64?_settled]
      rfl
    | float x =>
      refine (ofJson?_float _).trans ?_
      rw [number?_settled, isFiniteValue]
      cases x.isFinite <;> rfl
    | complex re im =>
      refine (ofJson?_complex _ _).trans ?_
      rw [number?_settled, number?_settled, isFiniteValue]
      cases re.isFinite <;> cases im.isFinite <;> rfl
    | list items =>
      have hitems : ∀ item ∈ items, item.ReadsBack := ih
      refine (ofJson?_list _).trans ?_
      rw [listOfJson?_settled hitems]
      show _ = if items.all isFinite then _ else _
      cases items.all isFinite <;> rfl
    | call func args keywords =>
      obtain ⟨hfunc, hrest⟩ := List.forall_mem_cons.1 ih
      obtain ⟨hargs, hkeywords⟩ := List.forall_mem_append.1 hrest
      refine (ofJson?_call _ _ _).trans ?_
      rw [hfunc, listOfJson?_settled hargs, keywordsOfJson?_settled (by decide) hkeywords, parts,
        List.all_cons, List.all_append]
      cases func.isFinite <;> cases args.all isFinite <;>
        cases (keywords.map Prod.snd).all isFinite <;> rfl
    | binOp op left right =>
      obtain ⟨hleft, hright⟩ := List.forall_mem_cons.1 ih
      rw [List.forall_mem_singleton] at hright
      refine (ofJson?_binOp _ _ _).trans ?_
      rw [hleft, hright, parts, List.all_cons, List.all_cons]
      cases left.isFinite <;> cases right.isFinite <;> rfl
    | ifExp test yes no =>
      obtain ⟨htest, hrest⟩ := List.forall_mem_cons.1 ih
      obtain ⟨hyes, hno⟩ := List.forall_mem_cons.1 hrest
      rw [List.forall_mem_singleton] at hno
      refine (ofJson?_ifExp _ _ _).trans ?_
      rw [htest, hyes, hno, parts, List.all_cons, List.all_cons, List.all_cons]
      cases test.isFinite <;> cases yes.isFinite <;> cases no.isFinite <;> rfl
    | lambda params body =>
      obtain ⟨hkeywords, hbody⟩ := List.forall_mem_append.1 ih
      rw [List.forall_mem_singleton] at hbody
      refine (ofJson?_lambda params _ _).trans ?_
      rw [keywordsOfJson?_settled (by decide) hkeywords, hbody, parts, List.all_append,
        List.all_cons]
      cases (params.keywords.map Prod.snd).all isFinite <;> cases body.isFinite <;> rfl

end Expr

/-! ## Reading statements -/

theorem Params.ofJson?_toJson (params : Params Expr) : Params.ofJson? params.toJson.settled =
    if (params.keywords.map Prod.snd).all Expr.isFinite then some params else none := by
  have hkeywords : Expr.keywordsOfJson? "default"
      (Json.settledItems (Expr.keywordsToJson "default" params.keywords)) =
        if (params.keywords.map Prod.snd).all Expr.isFinite then some params.keywords else none :=
    Expr.keywordsOfJson?_settled (by decide) fun e _ => e.readsBack
  show (positionalOfJson? params.toJson.settled).bind (fun positional =>
    (restOfJson? params.toJson.settled).bind fun rest =>
      (Expr.keywordsOfJson? "default"
        (Json.settledItems (Expr.keywordsToJson "default" params.keywords))).bind fun keywords =>
          some (Params.mk positional rest keywords)) = _
  rw [toJson, positionalOfJson?_toJsonWith, restOfJson?_toJsonWith, hkeywords]
  cases (params.keywords.map Prod.snd).all Expr.isFinite <;> rfl

namespace Stmt

/-- A statement is read back from what can be written of it, if its numbers are finite. -/
def ReadsBack (s : Stmt) : Prop :=
  ofJson? s.toJson.settled = if s.isFinite then some s else none

theorem listOfJson?_settled {block : List Stmt} (h : ∀ s ∈ block, s.ReadsBack) :
    listOfJson? (Json.settledItems (listToJson block)) =
      if block.all isFinite then some block else none := by
  induction block with
  | nil => rw [listToJson, Json.settledItems, listOfJson?]; rfl
  | cons s block ih =>
    obtain ⟨hs, hblock⟩ := List.forall_mem_cons.1 h
    rw [listToJson, Json.settledItems, listOfJson?, hs, ih hblock, List.all_cons]
    cases s.isFinite <;> cases block.all isFinite <;> rfl

theorem ofJson?_eval (value : Json) :
    ofJson? (.obj [("expr", value)]) =
      (Expr.ofJson? value).bind fun value => some (.eval value) := by
  rw [ofJson?]
  rfl

theorem ofJson?_ret (value : Json) :
    ofJson? (.obj [("return", value)]) =
      (Expr.ofJson? value).bind fun value => some (.ret value) := by
  rw [ofJson?]
  rfl

theorem ofJson?_assign (target : String) (value : Json) :
    ofJson? (.obj [("assign", .obj [("target", .str target), ("value", value)])]) =
      (Expr.ofJson? value).bind fun value => some (.assign target value) := by
  rw [ofJson?]
  rfl

theorem ofJson?_define (name : String) (params : Json) (body : List Json) :
    ofJson? (.obj [("function_def",
        .obj [("name", .str name), ("params", params), ("body", .arr body)])]) =
      (Params.ofJson? params).bind fun params => (listOfJson? body).bind fun body =>
        some (.define name params body) := by
  rw [ofJson?]
  rfl

theorem ofJson?_branch (test : Json) (yes no : List Json) :
    ofJson? (.obj [("if", .obj [("test", test), ("then", .arr yes), ("orelse", .arr no)])]) =
      (Expr.ofJson? test).bind fun test => (listOfJson? yes).bind fun yes =>
        (listOfJson? no).bind fun no => some (.branch test yes no) := by
  rw [ofJson?]
  rfl

/-- **A statement is read back** exactly if its numbers are finite. -/
theorem readsBack (s : Stmt) : s.ReadsBack := by
  induction s using parts_induction with
  | step s ih =>
    unfold ReadsBack
    rw [isFinite_eq]
    cases s with
    | eval value =>
      refine (ofJson?_eval _).trans ?_
      rw [value.readsBack, exprs, List.all_cons]
      cases value.isFinite <;> rfl
    | ret value =>
      refine (ofJson?_ret _).trans ?_
      rw [value.readsBack, exprs, List.all_cons]
      cases value.isFinite <;> rfl
    | assign target value =>
      refine (ofJson?_assign _ _).trans ?_
      rw [value.readsBack, exprs, List.all_cons]
      cases value.isFinite <;> rfl
    | define name params body =>
      have hbody : ∀ s ∈ body, s.ReadsBack := ih body (List.mem_singleton_self body)
      refine (ofJson?_define _ _ _).trans ?_
      rw [params.ofJson?_toJson, listOfJson?_settled hbody, exprs, blocks, List.all_cons]
      cases (params.keywords.map Prod.snd).all Expr.isFinite <;> cases body.all isFinite <;> rfl
    | branch test yes no =>
      have hyes : ∀ s ∈ yes, s.ReadsBack := ih yes List.mem_cons_self
      have hno : ∀ s ∈ no, s.ReadsBack := ih no (List.mem_cons_of_mem _ List.mem_cons_self)
      refine (ofJson?_branch _ _ _).trans ?_
      rw [test.readsBack, listOfJson?_settled hyes, listOfJson?_settled hno, exprs, blocks,
        List.all_cons, List.all_cons, List.all_cons]
      cases test.isFinite <;> cases yes.all isFinite <;> cases no.all isFinite <;> rfl

end Stmt

/-- **What is read of a program** once what has no text is gone. -/
theorem Program.ofJson?_settled (p : Program) :
    ofJson? p.toJson.settled = if p.isFinite then some p else none := by
  have hbody : Stmt.listOfJson? (Json.settledItems (Stmt.listToJson p.body)) =
      if p.body.all Stmt.isFinite then some p.body else none :=
    Stmt.listOfJson?_settled fun s _ => s.readsBack
  show (Stmt.listOfJson? (Json.settledItems (Stmt.listToJson p.body))).bind
    (fun body => some (Program.mk body)) = _
  rw [hbody, isFinite]
  cases p.body.all Stmt.isFinite <;> rfl

/-! ## Every integer of a program has a text of its own -/

namespace Expr

theorem natAbs_toInt_lt (value : Int64) : value.toInt.natAbs < Binary64.integerBound := by
  have hlow := value.le_toInt
  have hhigh := value.toInt_lt
  have hbound : 2 ^ 63 < Binary64.integerBound := by decide +kernel
  omega

theorem itemsFit_listToJson {es : List Expr} (h : ∀ e ∈ es, e.toJson.fits = true) :
    Json.itemsFit (listToJson es) = true := by
  induction es with
  | nil => rfl
  | cons e es ih =>
    obtain ⟨he, hes⟩ := List.forall_mem_cons.1 h
    simp [listToJson, Json.itemsFit, he, ih hes]

theorem itemsFit_keywordsToJson {slot : String} {fields : List (String × Expr)}
    (h : ∀ e ∈ fields.map Prod.snd, e.toJson.fits = true) :
    Json.itemsFit (keywordsToJson slot fields) = true := by
  induction fields with
  | nil => rfl
  | cons field fields ih =>
    obtain ⟨key, e⟩ := field
    obtain ⟨he, hfields⟩ := List.forall_mem_cons.1 h
    have he' : e.toJson.fits = true := he
    simp [keywordsToJson, Json.itemsFit, Json.fits, Json.fieldsFit, he', ih hfields]

end Expr

theorem Params.fits_toJsonWith {params : Params Expr} {keywords : List Json}
    (h : Json.itemsFit keywords = true) : (params.toJsonWith keywords).fits = true := by
  have hpositional : Json.itemsFit (params.positional.map .str) = true := by
    refine Json.itemsFit_iff.2 (List.forall_mem_map.2 fun name _ => ?_)
    rfl
  have hrest : ((params.rest.map Json.str).getD .null).fits = true := by
    cases params.rest <;> rfl
  simp [toJsonWith, Json.fits, Json.fieldsFit, hpositional, hrest, h]

theorem Expr.fits_toJson (e : Expr) : e.toJson.fits = true := by
  induction e using parts_induction with
  | step e ih =>
    cases e with
    | name | str | float | complex | nothing => rfl
    | int value => simp [toJson, Json.fits, Json.fieldsFit, natAbs_toInt_lt]
    | list items =>
      have hitems : Json.itemsFit (listToJson items) = true := itemsFit_listToJson ih
      simp [toJson, Json.fits, Json.fieldsFit, hitems]
    | call func args keywords =>
      obtain ⟨hfunc, hrest⟩ := List.forall_mem_cons.1 ih
      obtain ⟨hargs, hkeywords⟩ := List.forall_mem_append.1 hrest
      simp [toJson, Json.fits, Json.fieldsFit, hfunc, itemsFit_listToJson hargs,
        itemsFit_keywordsToJson hkeywords]
    | binOp op left right =>
      obtain ⟨hleft, hright⟩ := List.forall_mem_cons.1 ih
      rw [List.forall_mem_singleton] at hright
      simp [toJson, Json.fits, Json.fieldsFit, hleft, hright]
    | ifExp test yes no =>
      obtain ⟨htest, hrest⟩ := List.forall_mem_cons.1 ih
      obtain ⟨hyes, hno⟩ := List.forall_mem_cons.1 hrest
      rw [List.forall_mem_singleton] at hno
      simp [toJson, Json.fits, Json.fieldsFit, htest, hyes, hno]
    | lambda params body =>
      obtain ⟨hkeywords, hbody⟩ := List.forall_mem_append.1 ih
      rw [List.forall_mem_singleton] at hbody
      simp [toJson, Json.fits, Json.fieldsFit, hbody,
        Params.fits_toJsonWith (itemsFit_keywordsToJson hkeywords)]

namespace Stmt

theorem itemsFit_listToJson {block : List Stmt} (h : ∀ s ∈ block, s.toJson.fits = true) :
    Json.itemsFit (listToJson block) = true := by
  induction block with
  | nil => rfl
  | cons s block ih =>
    obtain ⟨hs, hblock⟩ := List.forall_mem_cons.1 h
    simp [listToJson, Json.itemsFit, hs, ih hblock]

theorem fits_toJson (s : Stmt) : s.toJson.fits = true := by
  induction s using parts_induction with
  | step s ih =>
    cases s with
    | eval value | ret value | assign target value =>
      simp [toJson, Json.fits, Json.fieldsFit, value.fits_toJson]
    | define name params body =>
      have hkeywords : Json.itemsFit (Expr.keywordsToJson "default" params.keywords) = true :=
        Expr.itemsFit_keywordsToJson fun e _ => e.fits_toJson
      have hbody := itemsFit_listToJson (ih body (List.mem_singleton_self body))
      simp [toJson, Json.fits, Json.fieldsFit, Params.toJson, Params.fits_toJsonWith hkeywords,
        hbody]
    | branch test yes no =>
      have hyes := itemsFit_listToJson (ih yes List.mem_cons_self)
      have hno := itemsFit_listToJson (ih no (List.mem_cons_of_mem _ List.mem_cons_self))
      simp [toJson, Json.fits, Json.fieldsFit, test.fits_toJson, hyes, hno]

end Stmt

theorem Program.fits_toJson (p : Program) : p.toJson.fits = true := by
  have hbody : Json.itemsFit (Stmt.listToJson p.body) = true :=
    Stmt.itemsFit_listToJson fun s _ => s.fits_toJson
  simp [toJson, Json.fits, Json.fieldsFit, hbody]

/-! ## Reading the texts of a program -/

namespace Program

/-- The JSON texts of a program: on one line, and indented. -/
def jsonTexts (p : Program) : List String := [p.toJson.compact, p.toJson.pretty]

theorem compact_mem_jsonTexts (p : Program) : p.toJson.compact ∈ p.jsonTexts :=
  List.mem_cons_self

theorem pretty_mem_jsonTexts (p : Program) : p.toJson.pretty ∈ p.jsonTexts :=
  List.mem_cons_of_mem _ List.mem_cons_self

theorem parse?_jsonTexts (p : Program) {text : String} (h : text ∈ p.jsonTexts) :
    Json.parse? text = some p.toJson.settled := by
  simp only [jsonTexts, List.mem_cons, List.not_mem_nil, or_false] at h
  rcases h with rfl | rfl
  · exact Json.parse?_compact p.fits_toJson
  · exact Json.parse?_pretty p.fits_toJson

/-- **What is read of the texts of a program** is the program if its numbers are finite, and else is
no program. -/
theorem ofJsonText?_jsonTexts (p : Program) {text : String} (h : text ∈ p.jsonTexts) :
    ofJsonText? text = if p.isFinite then some p else none := by
  rw [ofJsonText?, p.parse?_jsonTexts h]
  exact p.ofJson?_settled

/-- A reader that goes down to a bound reads the same programs, if they are nested within it. -/
theorem ofJsonTextWithin?_jsonTexts (p : Program) {text : String} (h : text ∈ p.jsonTexts)
    (bound : Nat) : ofJsonTextWithin? bound text =
      if p.isFinite && p.toJson.nestsWithin bound then some p else none := by
  rw [ofJsonTextWithin?, Json.parseWithin?, p.parse?_jsonTexts h, Option.filter_some,
    Json.nestsWithin_settled]
  cases p.toJson.nestsWithin bound with
  | true =>
    rw [Bool.and_true]
    exact p.ofJson?_settled
  | false =>
    rw [Bool.and_false]
    rfl

/-- **Programs read back.** Each text of a program whose numbers are all finite is read as that same
program, and no other such program has that text. -/
theorem ofJsonText?_inverts {p : Program} (h : p.isFinite = true) :
    ∀ text ∈ p.jsonTexts, ofJsonText? text = some p ∧
      ∀ q : Program, q.isFinite = true → text ∈ q.jsonTexts → q = p := by
  have hread : ∀ q : Program, q.isFinite = true → ∀ text ∈ q.jsonTexts,
      ofJsonText? text = some q := by
    intro q hq text htext
    rw [q.ofJsonText?_jsonTexts htext, if_pos hq]
  intro text htext
  refine ⟨hread p h text htext, fun q hq hother => ?_⟩
  exact Option.some.inj ((hread q hq text hother).symm.trans (hread p h text htext))

/-- A program with the ends of the ranges of integers and of finite numbers, a control character,
characters that are escaped and ones that are not, both kinds of functions and a value left out. -/
def extremes (zero : Binary64) : Program :=
  ⟨[.define "f" ⟨["a", "é\u0001"], some "rest", [("k", .float zero)]⟩
      [.branch (.binOp .shiftLeft (.name "x") (.int Int64.minValue)) [.ret .nothing]
        [.assign "name" (.str "\n\"\\\u007f😀")]],
    .eval (.lambda ⟨[], none, []⟩ (.complex ⟨1⟩ ⟨0x7FEFFFFFFFFFFFFF⟩))]⟩

theorem ofJsonText?_inverts_extremes :
    (extremes ⟨0x8000000000000000⟩).isFinite = true ∧
      ofJsonText? (extremes ⟨0x8000000000000000⟩).toJson.pretty =
        some (extremes ⟨0x8000000000000000⟩) ∧
      (extremes ⟨0x8000000000000000⟩).toJson.pretty ≠ (extremes ⟨0⟩).toJson.pretty := by
  have hfinite : (extremes ⟨0x8000000000000000⟩).isFinite = true := by decide +kernel
  obtain ⟨hread, hunique⟩ := ofJsonText?_inverts hfinite _ (pretty_mem_jsonTexts _)
  refine ⟨hfinite, hread, fun htext => ?_⟩
  have hmem := (extremes ⟨0⟩).pretty_mem_jsonTexts
  rw [← htext] at hmem
  have hsame := hunique (extremes ⟨0⟩) (by decide +kernel) hmem
  -- The two zeros are told apart by their sign bit.
  simp [extremes] at hsame

end Program

end TagLang
