import Mathlib.Tactic.ByContra
import TagLang.Compile.Basic
import TagLang.Proofs.Compile.Names

/-!
# Renaming

Renaming is by a function on all names (`Program.rename`), so that it passes through everything that
fragments are put together with. `NameSupply.renumber` is such a function: it changes the numbers of
made-up names and leaves other names alone.
-/

namespace TagLang

/-! ## Renumbered names -/

namespace NameSupply

/-- The number that a name ends with, behind so many characters. -/
def numberBehind (stem : Nat) (name : String) : Nat :=
  Nat.ofDigitChars 10 (name.toList.drop stem) 0

/-- Adds `k` to the number of a made-up name; other names stay as they are. -/
def renumber (k : Nat) (name : String) : String :=
  if name = funcName (numberBehind 11 name) then funcName (numberBehind 11 name + k)
  else if name = varName (numberBehind 10 name) then varName (numberBehind 10 name + k)
  else name

theorem numberBehind_append (stem : String) (n : Nat) :
    numberBehind stem.length (stem ++ Text.natText n) = n := by
  unfold numberBehind
  rw [String.toList_append, ← String.length_toList, List.drop_left, Text.natText,
    String.toList_ofList, Nat.ofDigitChars_ten_toDigits]

theorem numberBehind_funcName (n : Nat) : numberBehind 11 (funcName n) = n :=
  numberBehind_append "_temp_func_" n

theorem numberBehind_varName (n : Nat) : numberBehind 10 (varName n) = n :=
  numberBehind_append "_temp_var_" n

theorem renumber_funcName (k n : Nat) : renumber k (funcName n) = funcName (n + k) := by
  unfold renumber
  rw [numberBehind_funcName, if_pos rfl]

theorem renumber_varName (k n : Nat) : renumber k (varName n) = varName (n + k) := by
  unfold renumber
  rw [numberBehind_varName, if_neg funcName_ne_varName.symm, if_pos rfl]

theorem renumber_of_not_generated {name : String} (k : Nat) (h : ¬ Generated name) :
    renumber k name = name := by
  unfold renumber
  rw [if_neg fun hfunc => h ⟨_, .inl hfunc⟩, if_neg fun hvar => h ⟨_, .inr hvar⟩]

/-- Made-up names are those that get another number. -/
theorem generated_iff_renumber_ne {name : String} : Generated name ↔ renumber 1 name ≠ name := by
  constructor
  · rintro ⟨n, rfl | rfl⟩
    · rw [renumber_funcName]
      intro h
      exact absurd (funcName_injective h) (by omega)
    · rw [renumber_varName]
      intro h
      exact absurd (varName_injective h) (by omega)
  · intro h
    by_contra hname
    exact h (renumber_of_not_generated 1 hname)

instance (name : String) : Decidable (Generated name) :=
  decidable_of_iff _ generated_iff_renumber_ne.symm

/-- The supply after `k` names more. -/
def skip (k : Nat) (s : NameSupply) : NameSupply := ⟨s.drawn + k⟩

/-- A change of names that adds `k` to the number of made-up names and keeps the name of the
function for keywords. -/
structure Shifts (k : Nat) (r : String → String) : Prop where
  func : ∀ n, r (funcName n) = funcName (n + k)
  var : ∀ n, r (varName n) = varName (n + k)
  keyword : r "Keyword" = "Keyword"

theorem shifts_renumber (k : Nat) : Shifts k (renumber k) :=
  ⟨renumber_funcName k, renumber_varName k, renumber_of_not_generated k not_generated_keyword⟩

theorem shifts_id : Shifts 0 id :=
  ⟨fun _ => rfl, fun _ => rfl, rfl⟩

end NameSupply

/-! ## Renamed programs -/

mutual

/-- Renames all that an expression refers to. Parameters and keywords are no references. -/
def Expr.rename (g : String → String) : Expr → Expr
  | .name ident => .name (g ident)
  | .str value => .str value
  | .int value => .int value
  | .float value => .float value
  | .complex re im => .complex re im
  | .nothing => .nothing
  | .list items => .list (Expr.renameAll g items)
  | .call func args keywords =>
    .call (func.rename g) (Expr.renameAll g args) (Expr.renameFields g keywords)
  | .binOp op left right => .binOp op (left.rename g) (right.rename g)
  | .ifExp test yes no => .ifExp (test.rename g) (yes.rename g) (no.rename g)
  | .lambda ⟨positional, rest, keywords⟩ body =>
    .lambda ⟨positional, rest, Expr.renameFields g keywords⟩ (body.rename g)

def Expr.renameAll (g : String → String) : List Expr → List Expr
  | [] => []
  | e :: rest => e.rename g :: Expr.renameAll g rest

def Expr.renameFields (g : String → String) : List (String × Expr) → List (String × Expr)
  | [] => []
  | (key, e) :: rest => (key, e.rename g) :: Expr.renameFields g rest

end

/-- Renames what the defaults of parameters refer to. -/
def Params.rename (g : String → String) (params : Params Expr) : Params Expr :=
  { params with keywords := Expr.renameFields g params.keywords }

mutual

/-- Renames all that a statement defines, assigns and refers to. -/
def Stmt.rename (g : String → String) : Stmt → Stmt
  | .eval value => .eval (value.rename g)
  | .assign target value => .assign (g target) (value.rename g)
  | .define name params body => .define (g name) (params.rename g) (Stmt.renameAll g body)
  | .branch test yes no => .branch (test.rename g) (Stmt.renameAll g yes) (Stmt.renameAll g no)
  | .ret value => .ret (value.rename g)

def Stmt.renameAll (g : String → String) : List Stmt → List Stmt
  | [] => []
  | s :: rest => s.rename g :: Stmt.renameAll g rest

end

def Program.rename (g : String → String) (p : Program) : Program :=
  ⟨Stmt.renameAll g p.body⟩

theorem Expr.renameAll_eq_map (g : String → String) (es : List Expr) :
    renameAll g es = es.map (rename g) := by
  induction es with
  | nil => rfl
  | cons e es ih => rw [renameAll, ih, List.map_cons]

theorem Expr.renameFields_eq_map (g : String → String) (fields : List (String × Expr)) :
    renameFields g fields = fields.map fun field => (field.1, field.2.rename g) := by
  induction fields with
  | nil => rfl
  | cons field fields ih => rw [renameFields, ih, List.map_cons]

theorem Stmt.renameAll_eq_map (g : String → String) (block : List Stmt) :
    renameAll g block = block.map (rename g) := by
  induction block with
  | nil => rfl
  | cons s block ih => rw [renameAll, ih, List.map_cons]

@[simp] theorem Stmt.renameAll_append (g : String → String) (first rest : List Stmt) :
    renameAll g (first ++ rest) = renameAll g first ++ renameAll g rest := by
  rw [renameAll_eq_map, renameAll_eq_map, renameAll_eq_map, List.map_append]

/-- Renamed parameters have the same names. -/
theorem Params.names_rename (g : String → String) (params : Params Expr) :
    (params.rename g).names = params.names := by
  simp only [names, rename, Expr.renameFields_eq_map, List.map_map]
  rfl

/-! ## Renamed fragments -/

namespace Fragment

variable {α β : Type}

/-- Renames in the steps; `g` is what becomes of the value. -/
def renameWith (r : String → String) (g : α → β) (f : Fragment α) : Fragment β :=
  ⟨Stmt.renameAll r f.steps, g f.value⟩

/-- Renames in the steps and in the value. -/
def rename (r : String → String) (f : Fragment Expr) : Fragment Expr :=
  f.renameWith r (Expr.rename r)

variable (r : String → String)

theorem isPure_renameWith (g : α → β) (f : Fragment α) : (f.renameWith r g).isPure = f.isPure := by
  rw [isPure, isPure, renameWith, Stmt.renameAll_eq_map, List.isEmpty_map]

theorem collect_renameWith (g : α → β) (fs : List (Fragment α)) :
    collect (fs.map (renameWith r g)) = (collect fs).renameWith r (List.map g) := by
  induction fs with
  | nil => rfl
  | cons f fs ih =>
    have hsteps := congrArg steps ih
    have hvalue := congrArg value ih
    simp only [collect, renameWith, List.map_cons, List.flatMap_cons, Stmt.renameAll_append] at *
    rw [hsteps, hvalue]

theorem rename_followedBy (f next : Fragment Expr) :
    (f.followedBy next).rename r = (f.rename r).followedBy (next.rename r) := by
  simp [rename, renameWith, followedBy, statements, Stmt.renameAll, Stmt.rename]

theorem rename_program (f : Fragment Expr) : f.program.rename r = (f.rename r).program := by
  simp [Program.rename, rename, renameWith, program, statements, Stmt.renameAll, Stmt.rename]

/-- The values of attributes are renamed, and their keys stay. -/
theorem renameFields_collect (fs : List (Fragment (String × Expr))) :
    collect (fs.map (renameWith r fun field => (field.1, field.2.rename r))) =
      (collect fs).renameWith r (Expr.renameFields r) := by
  rw [collect_renameWith, renameWith, renameWith, Expr.renameFields_eq_map]

end Fragment

end TagLang
