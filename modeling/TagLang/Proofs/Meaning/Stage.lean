import TagLang.Proofs.Compile.Names
import TagLang.Proofs.Meaning.Node

/-!
# Stages of a fragment

A fragment is carried out in two stages: its steps prepare something, and its value is computed from
what they have prepared. `Stage` takes the two apart. The steps bind made-up functions and nothing
else; what they bind is known from what they prepare; and the value comes out the same in every
scope that still has these functions. So a fragment may be carried out with the steps of others in
between, as long as these bind other names, and each way to put fragments together is a way to put
stages together.

The meaning of a stage is preparation and value, one right after the other. Two stages in a row give
the meaning of both in a row if the value of the first is settled or the second has nothing to do in
its preparation (`Stage.meaning_zip`).
-/

namespace TagLang

open NameSupply (Generated funcName varName)

/-! ## Scopes of made-up names -/

namespace Scope

variable {V : Type}

/-- Only made-up names are bound. -/
def Clean (scope : Scope V) : Prop := ∀ p ∈ scope, Generated p.1

/-- What is bound in a scope is bound to the same in another. -/
def Extends (scope base : Scope V) : Prop :=
  ∀ name value, base.lookup name = some value → scope.lookup name = some value

/-- Only names of functions with numbers after `s` and up to `s'` are bound. -/
def DrawnBetween (s s' : NameSupply) (scope : Scope V) : Prop :=
  ∀ p ∈ scope, ∃ k, s.drawn < k ∧ k ≤ s'.drawn ∧ p.1 = funcName k

variable {scope base later : Scope V} {s s₁ s' : NameSupply} {name : String} {value : V}

theorem Clean.nil : Clean ([] : Scope V) := fun _ h => absurd h List.not_mem_nil

theorem Clean.append (hlater : later.Clean) (h : scope.Clean) : Clean (later ++ scope) := by
  intro p hp
  rcases List.mem_append.1 hp with hp | hp
  · exact hlater p hp
  · exact h p hp

/-- A name that is not made up is not bound. -/
theorem Clean.lookup_eq_none (h : scope.Clean) (hname : ¬ Generated name) :
    scope.lookup name = none := by
  rw [List.lookup_eq_none_iff]
  intro p hp
  rw [bne_iff_ne]
  rintro rfl
  exact hname (h p hp)

theorem Extends.append_right : Extends (base ++ scope) base := by
  intro name value h
  rw [List.lookup_append, h]
  rfl

theorem DrawnBetween.clean (h : scope.DrawnBetween s s') : scope.Clean := by
  intro p hp
  obtain ⟨k, -, -, hk⟩ := h p hp
  exact ⟨k, .inl hk⟩

theorem DrawnBetween.mono {t t' : NameSupply} (h : scope.DrawnBetween s s')
    (hs : t.drawn ≤ s.drawn) (hs' : s'.drawn ≤ t'.drawn) : scope.DrawnBetween t t' := by
  intro p hp
  obtain ⟨k, hlt, hle, hk⟩ := h p hp
  exact ⟨k, by omega, by omega, hk⟩

theorem DrawnBetween.append {t : NameSupply} (hlater : later.DrawnBetween s₁ s')
    (h : scope.DrawnBetween s t) (hs : s.drawn ≤ s₁.drawn) (ht : t.drawn ≤ s'.drawn) :
    DrawnBetween s s' (later ++ scope) := by
  intro p hp
  rcases List.mem_append.1 hp with hp | hp
  · exact hlater.mono hs (Nat.le_refl _) p hp
  · exact h.mono (Nat.le_refl _) ht p hp

theorem DrawnBetween.cons (h : scope.DrawnBetween s s₁) (hs : s.drawn ≤ s₁.drawn)
    (hs' : s₁.drawn < s'.drawn) :
    DrawnBetween s s' ((funcName (s₁.drawn + 1), value) :: scope) := by
  intro p hp
  rcases List.mem_cons.1 hp with rfl | hp
  · exact ⟨s₁.drawn + 1, by omega, by omega, rfl⟩
  · exact h.mono (Nat.le_refl _) (by omega) p hp

/-- Names drawn later do not hide those drawn before. -/
theorem DrawnBetween.extends_append (hlater : later.DrawnBetween s₁ s')
    (h : base.DrawnBetween s s₁) : Extends (later ++ base) base := by
  intro name value hvalue
  have hnone : later.lookup name = none := by
    rw [List.lookup_eq_none_iff]
    intro p hp
    rw [bne_iff_ne]
    rintro rfl
    obtain ⟨k, hk, -, hname⟩ := hlater p hp
    obtain ⟨l₁, l₂, rfl, -⟩ := List.lookup_eq_some_iff.1 hvalue
    obtain ⟨j, -, hj, hname'⟩ := h (p.1, value) (by simp)
    have : k = j := NameSupply.funcName_injective (hname.symm.trans hname')
    omega
  rw [List.lookup_append, hnone, hvalue]
  rfl

theorem Extends.trans {inner : Scope V} (h : scope.Extends base) (h' : base.Extends inner) :
    scope.Extends inner :=
  fun name value hv => h name value (h' name value hv)

end Scope

/-! ## Bodies of made-up functions -/

section

variable {m : Type → Type} [Monad m] [LawfulMonad m] {V : Type} (B : Backend m V)
  (scope : Scope V)

/-- A fragment without steps is carried out as its value. -/
theorem Fragment.run_of_isPure {f : Fragment Expr} (h : f.isPure = true) :
    f.run B scope = f.value.eval B scope := by
  rw [Fragment.run, List.isEmpty_iff.1 h, Stmt.runAll, pure_bind]

/-- A function whose body is a fragment carries out the fragment. -/
theorem Fragment.result_functionBody (f : Fragment Expr) :
    B.result <$> Stmt.runAll B scope f.functionBody = f.run B scope := by
  rw [Fragment.functionBody, Stmt.runAll_append, Fragment.run, map_bind]
  congr 1
  funext flow
  cases flow with
  | next scope => simp [Stmt.runAll, Stmt.run, Backend.result]
  | returned value => simp [Backend.result]

/-- A branch that is stored in a variable, which is then returned, carries out the branch. -/
theorem Fragment.result_assignTo (f : Fragment Expr) (var : String) :
    (do
      match ← Stmt.runAll B scope (f.assignTo var) with
      | .next scope => B.result <$> Stmt.runAll B scope [.ret (.name var)]
      | .returned value => return value) = f.run B scope := by
  rw [Fragment.assignTo, Stmt.runAll_append, Fragment.run, bind_assoc]
  congr 1
  funext flow
  cases flow with
  | next scope => simp [Stmt.runAll, Stmt.run, Expr.eval, Backend.result]
  | returned value => simp

/-- The function made up for a conditional carries out one of its branches. -/
theorem Stmt.result_branch (test : Expr) (yes no : Fragment Expr) (var : String) :
    B.result <$> Stmt.runAll B scope
        [.branch test (yes.assignTo var) (no.assignTo var), .ret (.name var)] =
      B.choose (test.eval B scope) (yes.run B scope) (no.run B scope) := by
  rw [← yes.result_assignTo B scope var, ← no.result_assignTo B scope var, Stmt.runAll, Stmt.run]
  simp only [Backend.choose, bind_assoc, map_bind]
  congr 1
  funext t
  congr 1
  funext b
  cases b with
  | true =>
    simp only [↓reduceIte]
    congr 1
    funext flow
    cases flow <;> simp [Backend.result]
  | false =>
    simp only [Bool.false_eq_true, ↓reduceIte]
    congr 1
    funext flow
    cases flow <;> simp [Backend.result]

end

/-! ## Stages -/

/-- What the steps of a fragment prepare and how its value is computed from it. -/
structure Stage {m : Type → Type} [Monad m] {V : Type} (B : Backend m V) {T U : Type}
    (compute : Scope V → T → m U) (f : Fragment T) (s s' : NameSupply) where
  Prepared : Type
  prepare : m Prepared
  bindings : Prepared → Scope V
  value : Prepared → m U
  drawn_le : s.drawn ≤ s'.drawn
  drawnBetween : ∀ a, (bindings a).DrawnBetween s s'
  run_steps : ∀ scope : Scope V, scope.Clean →
    Stmt.runAll B scope f.steps = (do return .next (bindings (← prepare) ++ scope))
  compute_value : ∀ (a : Prepared) (scope : Scope V), scope.Clean → scope.Extends (bindings a) →
    compute scope f.value = value a

namespace Stage

variable {m : Type → Type} [Monad m] {V : Type} {B : Backend m V} {T T' U U' : Type}
  {compute : Scope V → T → m U} {f : Fragment T} {s s₁ s' : NameSupply}

/-- Preparation, and right after it the value. -/
def meaning (S : Stage B compute f s s') : m U := do
  S.value (← S.prepare)

/-- The steps do nothing. -/
def Quiet (S : Stage B compute f s s') : Prop :=
  ∃ a, S.prepare = pure a

/-- The value is settled when the steps are carried out. -/
def Settled (S : Stage B compute f s s') : Prop :=
  ∃ g : S.Prepared → U, ∀ a, S.value a = pure (g a)

variable [LawfulMonad m]

/-- A fragment means what its stage means, in every scope of made-up names. -/
theorem run_eq_meaning {f : Fragment Expr} (S : Stage B (Expr.eval B) f s s') {scope : Scope V}
    (hscope : scope.Clean) : f.run B scope = S.meaning := by
  rw [Fragment.run, S.run_steps scope hscope, meaning, bind_assoc]
  congr 1
  funext a
  rw [pure_bind]
  exact S.compute_value a _ ((S.drawnBetween a).clean.append hscope) Scope.Extends.append_right

/-- Names may be drawn, and left alone, after the fragment is made. -/
def widen (S : Stage B compute f s s₁) (hs : s₁.drawn ≤ s'.drawn) : Stage B compute f s s' where
  Prepared := S.Prepared
  prepare := S.prepare
  bindings := S.bindings
  value := S.value
  drawn_le := Nat.le_trans S.drawn_le hs
  drawnBetween a := (S.drawnBetween a).mono (Nat.le_refl _) hs
  run_steps := S.run_steps
  compute_value := S.compute_value

/-! ## A value, and a value made from another -/

/-- The stage of a value that is computed the same in all scopes. -/
def pure (s : NameSupply) (t : T) (x : m U) (h : ∀ scope, scope.Clean → compute scope t = x) :
    Stage B compute (.pure t) s s where
  Prepared := Unit
  prepare := Pure.pure ()
  bindings _ := []
  value _ := x
  drawn_le := Nat.le_refl _
  drawnBetween _ _ hp := absurd hp List.not_mem_nil
  run_steps scope _ := by simp [Fragment.pure, Stmt.runAll]
  compute_value _ scope hscope _ := h scope hscope

/-- The stage of a value that is made from another one. -/
def map (S : Stage B compute f s s') {g : T → T'} {compute' : Scope V → T' → m U'}
    (k : m U → m U')
    (h : ∀ scope, scope.Clean → compute' scope (g f.value) = k (compute scope f.value)) :
    Stage B compute' (f.map g) s s' where
  Prepared := S.Prepared
  prepare := S.prepare
  bindings := S.bindings
  value a := k (S.value a)
  drawn_le := S.drawn_le
  drawnBetween := S.drawnBetween
  run_steps := S.run_steps
  compute_value a scope hscope hext := by
    rw [← S.compute_value a scope hscope hext]
    exact h scope hscope

/-- A computation of any kind can be made after a preparation that does nothing. -/
theorem meaning_map_of_quiet (S : Stage B compute f s s') {g : T → T'}
    {compute' : Scope V → T' → m U'} {k : m U → m U'}
    (h : ∀ scope, scope.Clean → compute' scope (g f.value) = k (compute scope f.value))
    (hq : S.Quiet) : (S.map k h).meaning = k S.meaning := by
  obtain ⟨a, ha⟩ := hq
  simp only [meaning, map, ha, pure_bind]

/-- The stage of a value that is computed from another one. -/
def andThen (S : Stage B compute f s s') {g : T → T'} {compute' : Scope V → T' → m U'}
    {k : U → m U'}
    (h : ∀ scope, scope.Clean → compute' scope (g f.value) = compute scope f.value >>= k) :
    Stage B compute' (f.map g) s s' :=
  S.map (· >>= k) h

/-- What is computed from a value comes after the preparation, whatever that does. -/
theorem meaning_andThen (S : Stage B compute f s s') {g : T → T'}
    {compute' : Scope V → T' → m U'} {k : U → m U'}
    (h : ∀ scope, scope.Clean → compute' scope (g f.value) = compute scope f.value >>= k) :
    (S.andThen h).meaning = S.meaning >>= k := by
  simp only [meaning, andThen, map, bind_assoc]

theorem settled_andThen {S : Stage B compute f s s'} {g : T → T'}
    {compute' : Scope V → T' → m U'} {k : U → U'}
    (h : ∀ scope, scope.Clean →
      compute' scope (g f.value) = compute scope f.value >>= fun u => Pure.pure (k u))
    (hS : S.Settled) : (S.andThen h).Settled := by
  obtain ⟨v, hv⟩ := hS
  refine ⟨fun a => k (v a), fun a => ?_⟩
  show (S.value a >>= fun u => Pure.pure (k u)) = _
  rw [hv a, pure_bind]

/-! ## Two values -/

/-- Computes two things, the left one first. -/
def both (left : Scope V → T → m U) (right : Scope V → T' → m U') (scope : Scope V)
    (p : T × T') : m (U × U') := do
  let u ← left scope p.1
  return (u, ← right scope p.2)

variable {f' : Fragment T'} {compute' : Scope V → T' → m U'}

/-- Both preparations come before both values. -/
def zip (S : Stage B compute f s s₁) (S' : Stage B compute' f' s₁ s') :
    Stage B (both compute compute') (f.zip f') s s' where
  Prepared := S.Prepared × S'.Prepared
  prepare := do
    let a ← S.prepare
    return (a, ← S'.prepare)
  bindings p := S'.bindings p.2 ++ S.bindings p.1
  value p := do
    let u ← S.value p.1
    return (u, ← S'.value p.2)
  drawn_le := Nat.le_trans S.drawn_le S'.drawn_le
  drawnBetween p := (S'.drawnBetween p.2).append (S.drawnBetween p.1) S.drawn_le S'.drawn_le
  run_steps scope hscope := by
    show Stmt.runAll B scope (f.steps ++ f'.steps) = _
    rw [Stmt.runAll_append, S.run_steps scope hscope]
    simp only [bind_assoc, pure_bind]
    congr 1
    funext a
    rw [S'.run_steps _ ((S.drawnBetween a).clean.append hscope)]
    simp only [List.append_assoc]
  compute_value p scope hscope hext := by
    have hS := hext.trans ((S'.drawnBetween p.2).extends_append (S.drawnBetween p.1))
    have hS' := hext.trans Scope.Extends.append_right
    show (do let u ← compute scope f.value; return (u, ← compute' scope f'.value)) = _
    rw [S.compute_value p.1 scope hscope hS, S'.compute_value p.2 scope hscope hS']

/-- **Two stages in a row** mean both in a row if the value of the first is settled or the second
has nothing to prepare. -/
theorem meaning_zip (S : Stage B compute f s s₁) (S' : Stage B compute' f' s₁ s')
    (h : S.Settled ∨ S'.Quiet) :
    (S.zip S').meaning = (do
      let u ← S.meaning
      return (u, ← S'.meaning)) := by
  simp only [meaning, zip, bind_assoc, pure_bind]
  congr 1
  funext a
  rcases h with ⟨g, hg⟩ | ⟨a', ha'⟩
  · simp only [hg, pure_bind]
  · simp only [ha', pure_bind]

theorem quiet_zip {S : Stage B compute f s s₁} {S' : Stage B compute' f' s₁ s'} (h : S.Quiet)
    (h' : S'.Quiet) : (S.zip S').Quiet := by
  obtain ⟨a, ha⟩ := h
  obtain ⟨a', ha'⟩ := h'
  exact ⟨(a, a'), by simp [zip, ha, ha']⟩

theorem settled_zip {S : Stage B compute f s s₁} {S' : Stage B compute' f' s₁ s'} (h : S.Settled)
    (h' : S'.Settled) : (S.zip S').Settled := by
  obtain ⟨g, hg⟩ := h
  obtain ⟨g', hg'⟩ := h'
  exact ⟨fun p => (g p.1, g' p.2), fun p => by simp [zip, hg, hg']⟩

/-! ## One fragment after the other -/

section FollowedBy

variable {f f' : Fragment Expr}

/-- The value of the first fragment is computed among the steps. -/
def followedBy (S : Stage B (Expr.eval B) f s s₁) (S' : Stage B (Expr.eval B) f' s₁ s') :
    Stage B (Expr.eval B) (f.followedBy f') s s' where
  Prepared := S.Prepared × S'.Prepared
  prepare := do
    let a ← S.prepare
    let _ ← S.value a
    return (a, ← S'.prepare)
  bindings p := S'.bindings p.2 ++ S.bindings p.1
  value p := S'.value p.2
  drawn_le := Nat.le_trans S.drawn_le S'.drawn_le
  drawnBetween p := (S'.drawnBetween p.2).append (S.drawnBetween p.1) S.drawn_le S'.drawn_le
  run_steps scope hscope := by
    show Stmt.runAll B scope ((f.steps ++ [.eval f.value]) ++ f'.steps) = _
    rw [Stmt.runAll_append, Stmt.runAll_append, S.run_steps scope hscope]
    simp only [Stmt.runAll_singleton, Stmt.run, bind_assoc, pure_bind]
    congr 1
    funext a
    have hclean := (S.drawnBetween a).clean.append hscope
    rw [S.compute_value a _ hclean Scope.Extends.append_right, S'.run_steps _ hclean]
    simp only [List.append_assoc]
  compute_value p scope hscope hext :=
    S'.compute_value p.2 scope hscope (hext.trans Scope.Extends.append_right)

/-- One fragment after the other means one after the other, whatever they do. -/
theorem meaning_followedBy (S : Stage B (Expr.eval B) f s s₁)
    (S' : Stage B (Expr.eval B) f' s₁ s') :
    (S.followedBy S').meaning = (do
      let _ ← S.meaning
      S'.meaning) := by
  simp only [meaning, followedBy, bind_assoc, pure_bind]

theorem quiet_followedBy {S : Stage B (Expr.eval B) f s s₁} {S' : Stage B (Expr.eval B) f' s₁ s'}
    (h : S.Quiet) (hv : S.Settled) (h' : S'.Quiet) : (S.followedBy S').Quiet := by
  obtain ⟨a, ha⟩ := h
  obtain ⟨g, hg⟩ := hv
  obtain ⟨a', ha'⟩ := h'
  exact ⟨(a, a'), by simp [followedBy, ha, hg, ha']⟩

theorem settled_followedBy {S : Stage B (Expr.eval B) f s s₁}
    {S' : Stage B (Expr.eval B) f' s₁ s'} (h' : S'.Settled) : (S.followedBy S').Settled := by
  obtain ⟨g, hg⟩ := h'
  exact ⟨fun p => g p.2, fun p => hg p.2⟩

end FollowedBy

/-! ## Made-up functions -/

section MadeUp

variable {f : Fragment Expr}

/-- A function made up for a conditional is bound after the steps of the test, and the rest of the
test is left to its body. -/
def branches (hB : B.CallsBodies) (S : Stage B (Expr.eval B) f s s₁) (hs : s₁.drawn ≤ s'.drawn)
    (var : String) {y n : Fragment Expr} {yes no : m V}
    (hy : ∀ scope, scope.Clean → y.run B scope = yes)
    (hn : ∀ scope, scope.Clean → n.run B scope = no) :
    Stage B (Expr.eval B)
      (f.andThen fun test =>
        ⟨[.define (funcName (s'.drawn + 1)) {}
          [.branch test (y.assignTo var) (n.assignTo var), .ret (.name var)]],
          .call (.name (funcName (s'.drawn + 1))) [] []⟩) s ⟨s'.drawn + 2⟩ where
  Prepared := S.Prepared
  prepare := S.prepare
  bindings a :=
    (funcName (s'.drawn + 1), B.function {} (B.choose (S.value a) yes no)) :: S.bindings a
  value a := B.choose (S.value a) yes no
  drawn_le := by have := S.drawn_le; show s.drawn ≤ s'.drawn + 2; omega
  drawnBetween a :=
    ((S.drawnBetween a).mono (Nat.le_refl _) hs).cons (Nat.le_trans S.drawn_le hs)
      (show s'.drawn < s'.drawn + 2 by omega)
  run_steps scope hscope := by
    show Stmt.runAll B scope (f.steps ++ [_]) = _
    rw [Stmt.runAll_append, S.run_steps scope hscope]
    simp only [Stmt.runAll_singleton, Stmt.run, Stmt.result_branch, Expr.evalFields, bind_assoc,
      pure_bind]
    congr 1
    funext a
    have hclean := (S.drawnBetween a).clean.append hscope
    rw [S.compute_value a _ hclean Scope.Extends.append_right, hy _ hclean, hn _ hclean]
    rfl
  compute_value a scope _ hext := by
    have hfunc := hext (funcName (s'.drawn + 1)) _ List.lookup_cons_self
    -- the body of the function, in the scope that the steps of the test leave
    have hclean := (S.drawnBetween a).clean
    have hbody := Stmt.result_branch B (S.bindings a) f.value y n var
    rw [S.compute_value a _ hclean fun _ _ h => h, hy _ hclean, hn _ hclean] at hbody
    show Expr.eval B scope (.call (.name (funcName (s'.drawn + 1))) [] []) = _
    simp only [Expr.eval, hfunc, Expr.evalAll, Expr.evalFields, Backend.invoke, pure_bind, ite_self,
      ← hbody]
    exact hB _ _

theorem meaning_branches (hB : B.CallsBodies) (S : Stage B (Expr.eval B) f s s₁)
    (hs : s₁.drawn ≤ s'.drawn) (var : String) {y n : Fragment Expr} {yes no : m V}
    (hy : ∀ scope, scope.Clean → y.run B scope = yes)
    (hn : ∀ scope, scope.Clean → n.run B scope = no) :
    (S.branches hB hs var hy hn).meaning = B.choose S.meaning yes no := by
  simp only [meaning, branches, Backend.choose, bind_assoc]

variable {defaults : Fragment (List (String × Expr))}

/-- A function made up for a body is bound after the steps of its defaults, whose values are
computed there too; what is left is its name. -/
def define (S : Stage B (Expr.evalFields B) defaults s s₁) (hs : s₁.drawn ≤ s'.drawn)
    (params : Params Expr) {b : Fragment Expr} {body : m V}
    (hb : ∀ scope, scope.Clean → b.run B scope = body) :
    Stage B (Expr.eval B)
      ⟨defaults.steps ++ [.define (funcName (s'.drawn + 1))
        { params with keywords := defaults.value } b.functionBody],
        .name (funcName (s'.drawn + 1))⟩ s ⟨s'.drawn + 1⟩ where
  Prepared := S.Prepared × List (String × V)
  prepare := do
    let a ← S.prepare
    return (a, ← S.value a)
  bindings p :=
    (funcName (s'.drawn + 1), B.function ⟨params.positional, params.rest, p.2⟩ body) ::
      S.bindings p.1
  value p := Pure.pure (B.function ⟨params.positional, params.rest, p.2⟩ body)
  drawn_le := by have := S.drawn_le; show s.drawn ≤ s'.drawn + 1; omega
  drawnBetween p :=
    ((S.drawnBetween p.1).mono (Nat.le_refl _) hs).cons (Nat.le_trans S.drawn_le hs)
      (show s'.drawn < s'.drawn + 1 by omega)
  run_steps scope hscope := by
    show Stmt.runAll B scope (defaults.steps ++ [_]) = _
    rw [Stmt.runAll_append, S.run_steps scope hscope]
    simp only [Stmt.runAll_singleton, Stmt.run, Fragment.result_functionBody, bind_assoc, pure_bind]
    congr 1
    funext a
    have hclean := (S.drawnBetween a).clean.append hscope
    rw [S.compute_value a _ hclean Scope.Extends.append_right, hb _ hclean]
    rfl
  compute_value p scope _ hext := by
    have hfunc := hext (funcName (s'.drawn + 1)) _ List.lookup_cons_self
    show Expr.eval B scope (.name (funcName (s'.drawn + 1))) = _
    simp only [Expr.eval, hfunc]

theorem meaning_define (S : Stage B (Expr.evalFields B) defaults s s₁) (hs : s₁.drawn ≤ s'.drawn)
    (params : Params Expr) {b : Fragment Expr} {body : m V}
    (hb : ∀ scope, scope.Clean → b.run B scope = body) :
    (S.define hs params hb).meaning = (do
      return B.function ⟨params.positional, params.rest, ← S.meaning⟩ body) := by
  simp only [meaning, define, bind_assoc, pure_bind]

theorem quiet_define {S : Stage B (Expr.evalFields B) defaults s s₁} (hs : s₁.drawn ≤ s'.drawn)
    (params : Params Expr) {b : Fragment Expr} {body : m V}
    (hb : ∀ scope, scope.Clean → b.run B scope = body) (h : S.Quiet) (hv : S.Settled) :
    (S.define hs params hb).Quiet := by
  obtain ⟨a, ha⟩ := h
  obtain ⟨g, hg⟩ := hv
  exact ⟨(a, g a), by simp [define, ha, hg]⟩

theorem settled_define (S : Stage B (Expr.evalFields B) defaults s s₁) (hs : s₁.drawn ≤ s'.drawn)
    (params : Params Expr) {b : Fragment Expr} {body : m V}
    (hb : ∀ scope, scope.Clean → b.run B scope = body) : (S.define hs params hb).Settled :=
  ⟨fun p => B.function ⟨params.positional, params.rest, p.2⟩ body, fun _ => rfl⟩

end MadeUp

/-! ## Fragments that have a stage -/

/-- A fragment has a stage with a meaning `x`, which has nothing to prepare unless `steps`, and
whose value is settled unless `acts`. -/
def Realizes (B : Backend m V) (compute : Scope V → T → m U) (x : m U) (steps acts : Prop)
    (s : NameSupply) (f : Fragment T) (s' : NameSupply) : Prop :=
  ∃ S : Stage B compute f s s', S.meaning = x ∧ (¬ steps → S.Quiet) ∧ (¬ acts → S.Settled)

namespace Realizes

variable {x : m U} {x' : m U'} {steps acts steps' acts' : Prop}

omit [LawfulMonad m] in
theorem mono (h : Realizes B compute x steps acts s f s') (hsteps : steps → steps')
    (hacts : acts → acts') : Realizes B compute x steps' acts' s f s' := by
  obtain ⟨S, hS, hSq, hSs⟩ := h
  exact ⟨S, hS, fun hn => hSq fun h => hn (hsteps h), fun hn => hSs fun h => hn (hacts h)⟩

omit [LawfulMonad m] in
theorem drawn_le (h : Realizes B compute x steps acts s f s') : s.drawn ≤ s'.drawn := by
  obtain ⟨S, -⟩ := h
  exact S.drawn_le

theorem run_eq {x : m V} {f : Fragment Expr} (h : Realizes B (Expr.eval B) x steps acts s f s')
    {scope : Scope V} (hscope : scope.Clean) : f.run B scope = x := by
  obtain ⟨S, hS, -⟩ := h
  rw [S.run_eq_meaning hscope, hS]

theorem pure {t : T} (h : ∀ scope, scope.Clean → compute scope t = x)
    (hx : ¬ acts → ∃ u, x = Pure.pure u) : Realizes B compute x steps acts s (.pure t) s := by
  refine ⟨.pure s t x h, ?_, fun _ => ⟨(), rfl⟩, fun hn => ?_⟩
  · simp only [meaning, Stage.pure, pure_bind]
  · obtain ⟨u, hu⟩ := hx hn
    exact ⟨fun _ => u, fun _ => hu⟩

section

variable {g : T → T'} {compute' : Scope V → T' → m U'}

/-- Whatever is done with a value can be done after steps that do nothing. -/
theorem map (h : Realizes B compute x steps acts s f s') (hquiet : ¬ steps) {k : m U → m U'}
    (hvalue : ∀ scope, scope.Clean → compute' scope (g f.value) = k (compute scope f.value)) :
    Realizes B compute' (k x) steps True s (f.map g) s' := by
  obtain ⟨S, hS, hSq, -⟩ := h
  refine ⟨S.map k hvalue, ?_, hSq, fun hn => absurd trivial hn⟩
  rw [← hS]
  exact S.meaning_map_of_quiet hvalue (hSq hquiet)

theorem andThen (h : Realizes B compute x steps acts s f s₁) (hs : s₁.drawn ≤ s'.drawn)
    {k : U → m U'}
    (hvalue : ∀ scope, scope.Clean → compute' scope (g f.value) = compute scope f.value >>= k) :
    Realizes B compute' (x >>= k) steps True s (f.map g) s' := by
  obtain ⟨S, hS, hSq, -⟩ := h
  refine ⟨(S.andThen hvalue).widen hs, ?_, hSq, fun hn => absurd trivial hn⟩
  rw [← hS]
  exact S.meaning_andThen hvalue

theorem andReturn (h : Realizes B compute x steps acts s f s₁) (hs : s₁.drawn ≤ s'.drawn)
    {k : U → U'} (hvalue : ∀ scope, scope.Clean →
      compute' scope (g f.value) = compute scope f.value >>= fun u => Pure.pure (k u)) :
    Realizes B compute' (x >>= fun u => Pure.pure (k u)) steps acts s (f.map g) s' := by
  obtain ⟨S, hS, hSq, hSs⟩ := h
  refine ⟨(S.andThen hvalue).widen hs, ?_, hSq, fun hn => settled_andThen hvalue (hSs hn)⟩
  rw [← hS]
  exact S.meaning_andThen hvalue

end

/-- **Two values in a row** are computed one completely before the other, unless the first does
something in its value and the second does something in its steps. -/
theorem zip {f' : Fragment T'} {compute' : Scope V → T' → m U'}
    (h : Realizes B compute x steps acts s f s₁) (h' : Realizes B compute' x' steps' acts' s₁ f' s')
    (hrow : acts → ¬ steps') :
    Realizes B (both compute compute') (do let u ← x; return (u, ← x')) (steps ∨ steps')
      (acts ∨ acts') s (f.zip f') s' := by
  obtain ⟨S, hS, hSq, hSs⟩ := h
  obtain ⟨S', hS', hSq', hSs'⟩ := h'
  refine ⟨S.zip S', ?_, fun hn => ?_, fun hn => ?_⟩
  · rw [← hS, ← hS']
    by_cases hacts : acts
    · exact meaning_zip S S' (.inr (hSq' (hrow hacts)))
    · exact meaning_zip S S' (.inl (hSs hacts))
  · exact quiet_zip (hSq fun h => hn (.inl h)) (hSq' fun h => hn (.inr h))
  · exact settled_zip (hSs fun h => hn (.inl h)) (hSs' fun h => hn (.inr h))

theorem followedBy {x x' : m V} {f f' : Fragment Expr}
    (h : Realizes B (Expr.eval B) x steps acts s f s₁)
    (h' : Realizes B (Expr.eval B) x' steps' acts' s₁ f' s') :
    Realizes B (Expr.eval B) (do let _ ← x; x') (steps ∨ acts ∨ steps') acts' s
      (f.followedBy f') s' := by
  obtain ⟨S, hS, hSq, hSs⟩ := h
  obtain ⟨S', hS', hSq', hSs'⟩ := h'
  refine ⟨S.followedBy S', ?_, fun hn => ?_, fun hn => settled_followedBy (hSs' hn)⟩
  · rw [← hS, ← hS']
    exact S.meaning_followedBy S'
  · exact quiet_followedBy (hSq fun h => hn (.inl h)) (hSs fun h => hn (.inr (.inl h)))
      (hSq' fun h => hn (.inr (.inr h)))

theorem branches {x : m V} {f : Fragment Expr} (h : Realizes B (Expr.eval B) x steps acts s f s₁)
    (hB : B.CallsBodies) (hs : s₁.drawn ≤ s'.drawn) (var : String) {y n : Fragment Expr}
    {yes no : m V}
    (hy : ∀ scope, scope.Clean → y.run B scope = yes)
    (hn : ∀ scope, scope.Clean → n.run B scope = no) :
    Realizes B (Expr.eval B) (B.choose x yes no) steps True s
      (f.andThen fun test =>
        ⟨[.define (funcName (s'.drawn + 1)) {}
          [.branch test (y.assignTo var) (n.assignTo var), .ret (.name var)]],
          .call (.name (funcName (s'.drawn + 1))) [] []⟩) ⟨s'.drawn + 2⟩ := by
  obtain ⟨S, hS, hSq, -⟩ := h
  refine ⟨S.branches hB hs var hy hn, ?_, hSq, fun h => absurd trivial h⟩
  rw [meaning_branches, hS]

theorem define {defaults : Fragment (List (String × Expr))} {x : m (List (String × V))}
    (h : Realizes B (Expr.evalFields B) x steps acts s defaults s₁) (hs : s₁.drawn ≤ s'.drawn)
    (params : Params Expr) {b : Fragment Expr} {body : m V}
    (hb : ∀ scope, scope.Clean → b.run B scope = body) :
    Realizes B (Expr.eval B)
      (do return B.function ⟨params.positional, params.rest, ← x⟩ body) (steps ∨ acts) False s
      ⟨defaults.steps ++ [.define (funcName (s'.drawn + 1))
        { params with keywords := defaults.value } b.functionBody],
        .name (funcName (s'.drawn + 1))⟩ ⟨s'.drawn + 1⟩ := by
  obtain ⟨S, hS, hSq, hSs⟩ := h
  refine ⟨S.define hs params hb, ?_, fun hn => ?_, fun _ => settled_define S hs params hb⟩
  · rw [meaning_define, hS]
  · exact quiet_define hs params hb (hSq fun h => hn (.inl h)) (hSs fun h => hn (.inr h))

end Realizes

/-! ## Any number of values in a row -/

/-- **Items in a row** are carried out in order if values and steps keep apart. -/
theorem realizes_collect {α : Type} (compute : Scope V → T → m U)
    (computeAll : Scope V → List T → m (List U))
    (hnil : ∀ scope, computeAll scope [] = Pure.pure [])
    (hcons : ∀ scope t ts, computeAll scope (t :: ts) = (do
      let u ← compute scope t
      return u :: (← computeAll scope ts)))
    {x : α → m U} {steps acts : α → Prop} {items : List α} {fs : List (Fragment T)}
    (h : Chain (fun a => Realizes B compute (x a) (steps a) (acts a)) items s fs s')
    (hrow : InRow acts steps items) :
    Realizes B computeAll (inOrder (items.map x)) (∃ a ∈ items, steps a) (∃ a ∈ items, acts a) s
      (Fragment.collect fs) s' := by
  induction h with
  | nil => exact .pure (fun scope _ => hnil scope) fun _ => ⟨[], rfl⟩
  | @cons a items f fs _ _ _ ha _ ih =>
    obtain ⟨-, hrest, hcross⟩ :=
      InRow.append_iff.1 (show InRow acts steps ([a] ++ items) from hrow)
    have hvalue : ∀ scope : Scope V, scope.Clean →
        computeAll scope (f.value :: fs.map Fragment.value) =
          both compute computeAll scope (f.value, fs.map Fragment.value) >>=
            fun p => Pure.pure (p.1 :: p.2) := by
      intro scope _
      simp only [hcons, both, bind_assoc, pure_bind]
    have hzip := ((ha.zip (ih hrest) fun hacts => hcross ⟨a, List.mem_cons_self, hacts⟩).andReturn
      (g := fun p => p.1 :: p.2) (Nat.le_refl _) hvalue)
    simp only [bind_assoc, pure_bind] at hzip
    simp only [List.mem_cons, exists_eq_or_imp]
    exact hzip

end Stage

end TagLang
