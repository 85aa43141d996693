import Mathlib.Algebra.BigOperators.Group.Multiset.Basic
import Mathlib.Tactic.Abel
import TagLang.Compile.Basic

/-!
# What a program contains

`Expr.all` and `Stmt.all` list the expressions in an expression and the statements in a statement,
at any depth. An `Item` is what one of them is, apart from those in it: a literal with its value, a
call with the name that it calls, the number of its arguments and its keywords, a definition with
its name. `Stmt.itemsOf` and `Fragment.items` are the multisets of all items of a block and of a
fragment, so that nothing can get lost or come up twice without a change of these multisets.

Items add up: the items of blocks one after the other, of an expression and its parts, and of
fragments put together are sums (`Stmt.itemsOf_append`, `Fragment.items_collect`, …).
-/

namespace TagLang

/-! ## Everything in an expression and in a block -/

mutual

/-- All expressions in an expression, itself first. -/
def Expr.all : Expr → List Expr
  | .name ident => [.name ident]
  | .str value => [.str value]
  | .int value => [.int value]
  | .float value => [.float value]
  | .complex re im => [.complex re im]
  | .nothing => [.nothing]
  | .list items => .list items :: Expr.allOf items
  | .call func args keywords =>
    .call func args keywords :: (func.all ++ Expr.allOf args ++ Expr.allOfFields keywords)
  | .binOp op left right => .binOp op left right :: (left.all ++ right.all)
  | .ifExp test yes no => .ifExp test yes no :: (test.all ++ yes.all ++ no.all)
  | .lambda ⟨positional, rest, keywords⟩ body =>
    .lambda ⟨positional, rest, keywords⟩ body :: (Expr.allOfFields keywords ++ body.all)

def Expr.allOf : List Expr → List Expr
  | [] => []
  | e :: rest => e.all ++ Expr.allOf rest

def Expr.allOfFields : List (String × Expr) → List Expr
  | [] => []
  | (_, e) :: rest => e.all ++ Expr.allOfFields rest

end

mutual

/-- All statements in a statement, itself first. -/
def Stmt.all : Stmt → List Stmt
  | .eval value => [.eval value]
  | .assign target value => [.assign target value]
  | .define name params body => .define name params body :: Stmt.allOf body
  | .branch test yes no => .branch test yes no :: (Stmt.allOf yes ++ Stmt.allOf no)
  | .ret value => [.ret value]

/-- All statements of a block, at any depth. -/
def Stmt.allOf : List Stmt → List Stmt
  | [] => []
  | s :: rest => s.all ++ Stmt.allOf rest

end

/-- The expressions that an expression is made of. -/
def Expr.parts : Expr → List Expr
  | .list items => items
  | .call func args keywords => func :: (args ++ keywords.map Prod.snd)
  | .binOp _ left right => [left, right]
  | .ifExp test yes no => [test, yes, no]
  | .lambda params body => params.keywords.map Prod.snd ++ [body]
  | _ => []

/-- The expressions that a statement holds itself, not in another statement. -/
def Stmt.exprs : Stmt → List Expr
  | .eval value => [value]
  | .assign _ value => [value]
  | .define _ params _ => params.keywords.map Prod.snd
  | .branch test _ _ => [test]
  | .ret value => [value]

/-- The blocks of a statement. -/
def Stmt.blocks : Stmt → List (List Stmt)
  | .define _ _ body => [body]
  | .branch _ yes no => [yes, no]
  | _ => []

theorem Expr.allOf_eq_flatMap (es : List Expr) : allOf es = es.flatMap all := by
  induction es with
  | nil => rfl
  | cons e es ih => rw [allOf, ih, List.flatMap_cons]

theorem Expr.allOfFields_eq_flatMap (fields : List (String × Expr)) :
    allOfFields fields = (fields.map Prod.snd).flatMap all := by
  induction fields with
  | nil => rfl
  | cons field fields ih => rw [allOfFields, ih, List.map_cons, List.flatMap_cons]

/-- An expression and all expressions in its parts. -/
theorem Expr.all_eq (e : Expr) : e.all = e :: e.parts.flatMap all := by
  cases e with
  | list items => rw [all, allOf_eq_flatMap, parts]
  | call func args keywords =>
    rw [all, allOf_eq_flatMap, allOfFields_eq_flatMap, parts, List.flatMap_cons,
      List.flatMap_append, List.append_assoc]
  | binOp op left right => rw [all, parts, List.flatMap_cons, List.flatMap_singleton]
  | ifExp test yes no =>
    rw [all, parts, List.flatMap_cons, List.flatMap_cons, List.flatMap_singleton,
      List.append_assoc]
  | lambda params body =>
    rw [all, allOfFields_eq_flatMap, parts, List.flatMap_append, List.flatMap_singleton]
  | _ => rfl

theorem Stmt.allOf_eq_flatMap (block : List Stmt) : allOf block = block.flatMap all := by
  induction block with
  | nil => rfl
  | cons s block ih => rw [allOf, ih, List.flatMap_cons]

theorem Stmt.allOf_append (first rest : List Stmt) :
    allOf (first ++ rest) = allOf first ++ allOf rest := by
  rw [allOf_eq_flatMap, allOf_eq_flatMap, allOf_eq_flatMap, List.flatMap_append]

/-- A statement and all statements in its blocks. -/
theorem Stmt.all_eq (s : Stmt) : s.all = s :: s.blocks.flatMap allOf := by
  cases s with
  | define name params body => rw [all, blocks, List.flatMap_singleton]
  | branch test yes no => rw [all, blocks, List.flatMap_cons, List.flatMap_singleton]
  | _ => rfl

/-! ## Items -/

/-- What an expression or a statement is, apart from the expressions and statements in it. -/
inductive Item where
  | name (ident : String)
  | str (value : String)
  | int (value : Int64)
  | float (value : Binary64)
  | complex (re im : Binary64)
  | nothing
  | list (length : Nat)
  /-- A call: the name that it calls, how many positional arguments it has, and its keywords. -/
  | call (callee : Option String) (args : Nat) (keywords : List String)
  | binOp (op : BinOp)
  | ifExp
  | lambda
  /-- The parameters of a lambda or of a definition. -/
  | params (positional : List String) (rest : Option String) (keywords : List String)
  | eval
  | assign (target : String)
  | define (name : String)
  /-- A choice between two blocks, with the variables that their last statements assign. -/
  | branch (yes no : Option String)
  | ret
  deriving DecidableEq

/-- Whether an item is a statement. -/
def Item.isStatement : Item → Bool
  | .eval | .assign _ | .define _ | .branch _ _ | .ret => true
  | _ => false

/-- Whether an item is an expression or an evaluation and has no names in it. -/
def Item.isPlain : Item → Bool
  | .name _ | .call _ _ _ | .params _ _ _ | .assign _ | .define _ | .branch _ _ | .ret => false
  | _ => true

/-- The variable that the last statement of a block assigns. -/
def Stmt.lastAssigned? (block : List Stmt) : Option String :=
  match block.getLast? with
  | some (.assign target _) => some target
  | _ => none

def Params.item (params : Params Expr) : Item :=
  .params params.positional params.rest (params.keywords.map Prod.fst)

namespace Expr

/-- What an expression itself is. -/
def own : Expr → Multiset Item
  | .name ident => {.name ident}
  | .str value => {.str value}
  | .int value => {.int value}
  | .float value => {.float value}
  | .complex re im => {.complex re im}
  | .nothing => {.nothing}
  | .list items => {.list items.length}
  | .call func args keywords => {.call func.name? args.length (keywords.map Prod.fst)}
  | .binOp op _ _ => {.binOp op}
  | .ifExp _ _ _ => {.ifExp}
  | .lambda params _ => {.lambda} + {params.item}

/-- The items of an expression. -/
def items (e : Expr) : Multiset Item := (e.all.map own).sum

/-- The items of several expressions. -/
def itemsOf (es : List Expr) : Multiset Item := (es.map items).sum

end Expr

namespace Stmt

/-- What a statement itself is, without its expressions. -/
def own : Stmt → Multiset Item
  | .eval _ => {.eval}
  | .assign target _ => {.assign target}
  | .define name params _ => {.define name} + {params.item}
  | .branch _ yes no => {.branch (lastAssigned? yes) (lastAssigned? no)}
  | .ret _ => {.ret}

/-- The items of a block: of its statements at any depth and of their expressions. -/
def itemsOf (block : List Stmt) : Multiset Item :=
  ((allOf block).map fun s => s.own + Expr.itemsOf s.exprs).sum

end Stmt

/-- The items of a fragment: of its steps and of its value. -/
def Fragment.items (f : Fragment Expr) : Multiset Item :=
  Stmt.itemsOf f.steps + f.value.items

/-! ## Sums of items -/

theorem mem_sum_map_iff {α β : Type} {l : List α} {g : α → Multiset β} {b : β} :
    b ∈ (l.map g).sum ↔ ∃ a ∈ l, b ∈ g a := by
  induction l with
  | nil => simp
  | cons a l ih => simp [ih]

theorem count_sum_map {α β : Type} [DecidableEq β] {l : List α} {g : α → Multiset β} {b : β}
    {p : α → Bool} (h : ∀ a, (g a).count b = if p a then 1 else 0) :
    (l.map g).sum.count b = l.countP p := by
  induction l with
  | nil => rfl
  | cons a l ih =>
    rw [List.map_cons, List.sum_cons, Multiset.count_add, ih, h, List.countP_cons, Nat.add_comm]

/-! ## Items of expressions -/

namespace Expr

theorem itemsOf_nil : itemsOf [] = 0 := rfl

theorem itemsOf_cons (e : Expr) (es : List Expr) : itemsOf (e :: es) = e.items + itemsOf es := rfl

theorem itemsOf_append (es more : List Expr) :
    itemsOf (es ++ more) = itemsOf es + itemsOf more := by
  rw [itemsOf, List.map_append, List.sum_append]
  rfl

/-- The items of an expression are its own and those of its parts. -/
theorem items_eq (e : Expr) : e.items = e.own + itemsOf e.parts := by
  have hparts : ∀ es : List Expr, ((es.flatMap all).map own).sum = itemsOf es := by
    intro es
    induction es with
    | nil => rfl
    | cons e es ih =>
      rw [List.flatMap_cons, List.map_append, List.sum_append, ih]
      rfl
  rw [items, all_eq, List.map_cons, List.sum_cons, hparts]

theorem items_name (ident : String) : (Expr.name ident).items = {.name ident} := rfl

theorem items_list (items : List Expr) :
    (Expr.list items).items = {.list items.length} + itemsOf items := items_eq _

theorem items_call (func : Expr) (args : List Expr) (keywords : List (String × Expr)) :
    (Expr.call func args keywords).items =
      {.call func.name? args.length (keywords.map Prod.fst)} + func.items + itemsOf args +
        itemsOf (keywords.map Prod.snd) := by
  rw [items_eq, parts, itemsOf_cons, itemsOf_append, own]
  abel

theorem items_binOp (op : BinOp) (left right : Expr) :
    (Expr.binOp op left right).items = {.binOp op} + left.items + right.items := by
  rw [items_eq, parts, itemsOf_cons, itemsOf_cons, itemsOf_nil, own]
  abel

theorem items_ifExp (test yes no : Expr) :
    (Expr.ifExp test yes no).items = {.ifExp} + test.items + yes.items + no.items := by
  rw [items_eq, parts, itemsOf_cons, itemsOf_cons, itemsOf_cons, itemsOf_nil, own]
  abel

theorem items_lambda (params : Params Expr) (body : Expr) :
    (Expr.lambda params body).items =
      {.lambda} + {params.item} + itemsOf (params.keywords.map Prod.snd) + body.items := by
  rw [items_eq, parts, itemsOf_append, itemsOf_cons, itemsOf_nil, own]
  abel

/-- No statement stands in an expression. -/
theorem isStatement_of_mem_items {e : Expr} {item : Item} (h : item ∈ e.items) :
    item.isStatement = false := by
  obtain ⟨part, -, hitem⟩ := mem_sum_map_iff.1 h
  cases part with
  | lambda params body =>
    rcases Multiset.mem_add.1 hitem with hitem | hitem
    · rw [Multiset.mem_singleton.1 hitem]
      rfl
    · rw [Multiset.mem_singleton.1 hitem]
      rfl
  | _ =>
    rw [Multiset.mem_singleton.1 hitem]
    rfl

end Expr

/-! ## Items of blocks -/

namespace Stmt

theorem itemsOf_nil : itemsOf [] = 0 := rfl

theorem itemsOf_append (first rest : List Stmt) :
    itemsOf (first ++ rest) = itemsOf first + itemsOf rest := by
  rw [itemsOf, allOf_append, List.map_append, List.sum_append]
  rfl

/-- The items of a statement are its own, those of its expressions and those of its blocks. -/
theorem itemsOf_singleton (s : Stmt) :
    itemsOf [s] = s.own + Expr.itemsOf s.exprs + (s.blocks.map itemsOf).sum := by
  have hblocks : ∀ blocks : List (List Stmt),
      ((blocks.flatMap allOf).map fun s => s.own + Expr.itemsOf s.exprs).sum =
        (blocks.map itemsOf).sum := by
    intro blocks
    induction blocks with
    | nil => rfl
    | cons block blocks ih =>
      rw [List.flatMap_cons, List.map_append, List.sum_append, ih]
      rfl
  rw [itemsOf, allOf, allOf, List.append_nil, all_eq, List.map_cons, List.sum_cons, hblocks]

theorem itemsOf_eval (value : Expr) : itemsOf [.eval value] = {.eval} + value.items := by
  rw [itemsOf_singleton]
  simp [own, exprs, blocks, Expr.itemsOf]

theorem itemsOf_assign (target : String) (value : Expr) :
    itemsOf [.assign target value] = {.assign target} + value.items := by
  rw [itemsOf_singleton]
  simp [own, exprs, blocks, Expr.itemsOf]

theorem itemsOf_ret (value : Expr) : itemsOf [.ret value] = {.ret} + value.items := by
  rw [itemsOf_singleton]
  simp [own, exprs, blocks, Expr.itemsOf]

theorem itemsOf_define (name : String) (params : Params Expr) (body : List Stmt) :
    itemsOf [.define name params body] = {.define name} + {params.item} +
      Expr.itemsOf (params.keywords.map Prod.snd) + itemsOf body := by
  rw [itemsOf_singleton, blocks, List.map_singleton, List.sum_singleton]
  rfl

theorem itemsOf_branch (test : Expr) (yes no : List Stmt) :
    itemsOf [.branch test yes no] = {.branch (lastAssigned? yes) (lastAssigned? no)} +
      test.items + itemsOf yes + itemsOf no := by
  rw [itemsOf_singleton]
  simp [own, exprs, blocks, Expr.itemsOf, add_assoc]

section

variable {block : List Stmt} {item : Item}

/-- The expressions of a block hold no statement. -/
theorem mem_itemsOf_iff (hitem : item.isStatement = true) :
    item ∈ itemsOf block ↔ ∃ s ∈ allOf block, item ∈ s.own := by
  rw [itemsOf, mem_sum_map_iff]
  refine exists_congr fun s => and_congr_right fun _ => ?_
  rw [Multiset.mem_add, or_iff_left]
  intro h
  obtain ⟨e, -, he⟩ := mem_sum_map_iff.1 h
  rw [Expr.isStatement_of_mem_items he] at hitem
  cases hitem

/-- A kind of statement is found in a block as often as its item. -/
theorem count_itemsOf (hitem : item.isStatement = true) {p : Stmt → Bool}
    (hp : ∀ s : Stmt, s.own.count item = if p s then 1 else 0) :
    (itemsOf block).count item = (allOf block).countP p := by
  refine count_sum_map fun s => ?_
  have hexprs : (Expr.itemsOf s.exprs).count item = 0 := by
    rw [Multiset.count_eq_zero]
    intro h
    obtain ⟨e, -, he⟩ := mem_sum_map_iff.1 h
    rw [Expr.isStatement_of_mem_items he] at hitem
    cases hitem
  rw [Multiset.count_add, hexprs, hp, Nat.add_zero]

end

theorem lastAssigned?_append_assign (block : List Stmt) (target : String) (value : Expr) :
    lastAssigned? (block ++ [.assign target value]) = some target := by
  rw [lastAssigned?, List.getLast?_append]
  rfl

end Stmt

/-! ## Items of fragments -/

namespace Fragment

variable {α : Type}

theorem items_statements (f : Fragment Expr) : Stmt.itemsOf f.statements = {.eval} + f.items := by
  rw [statements, Stmt.itemsOf_append, Stmt.itemsOf_eval, items]
  abel

/-- Fragments next to each other contain what each of them contains. The values may hold more than
their expressions, such as the name of a keyword. -/
theorem items_collect (value : α → Expr) (fs : List (Fragment α)) :
    Stmt.itemsOf (collect fs).steps + Expr.itemsOf ((collect fs).value.map value) =
      (fs.map fun f => (f.map value).items).sum := by
  induction fs with
  | nil => rfl
  | cons f fs ih =>
    rw [List.map_cons, List.sum_cons, ← ih]
    show Stmt.itemsOf (f.steps ++ (collect fs).steps) +
      ((value f.value).items + Expr.itemsOf ((collect fs).value.map value)) = _
    rw [Stmt.itemsOf_append, items]
    show _ = Stmt.itemsOf f.steps + (value f.value).items + _
    abel

theorem items_assignTo (f : Fragment Expr) (target : String) :
    Stmt.itemsOf (f.assignTo target) = {.assign target} + f.items := by
  rw [assignTo, Stmt.itemsOf_append, Stmt.itemsOf_assign, items]
  abel

theorem items_functionBody (f : Fragment Expr) :
    Stmt.itemsOf f.functionBody = {.ret} + f.items := by
  rw [functionBody, Stmt.itemsOf_append, Stmt.itemsOf_ret, items]
  abel

end Fragment

end TagLang
