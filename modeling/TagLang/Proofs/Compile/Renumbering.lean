import TagLang.Proofs.Compile.Traversal

/-!
# The supply matters only for numbers

Two compilers that have drawn different numbers of names give the same program, up to the numbers in
the names that they make up. If one has drawn `k` names more than the other, then both fail with the
same error, or both succeed, and `k` is added to the number of each made-up name wherever it is
defined, assigned or referred to (`compile_renumbered`). Both draw equally many names, also when
they fail.
-/

namespace TagLang

open NameSupply (renumber renumber_of_not_generated shifts_renumber Generated)

/-- A compilation ends alike from a supply and from one with `k` names more drawn: with the same
error, or with a result that `g` turns into the other one. Equally many names are drawn. -/
def CompileM.EndsAlike {α : Type} (k : Nat) (g : α → α) (x : CompileM α) (s : NameSupply) : Prop :=
  (∃ a s', x s = .ok a s' ∧ x (s.skip k) = .ok (g a) (s'.skip k)) ∨
    ∃ e s', x s = .error e s' ∧ x (s.skip k) = .error e (s'.skip k)

theorem CompileM.RunsBeside.endsAlike {α : Type} {k : Nat} {checks : List Check} {g : α → α}
    {x : CompileM α} (h : RunsBeside k checks (fun a b => b = g a) x x) (s : NameSupply) :
    EndsAlike k g x s := by
  cases hx : x s with
  | ok a s' =>
    obtain ⟨-, -, _, hy, rfl⟩ := h.of_ok hx
    exact .inl ⟨a, s', hx, hy⟩
  | error e s' => exact .inr ⟨e, s', hx, (h.of_error hx).2.2⟩

/-- **What a compiler did before matters only for the numbers of made-up names.** Nodes without
made-up names compile alike from any supply and from one with `k` names more drawn: with `k` added
to the number of each made-up name that is defined, assigned or referred to, or else with the same
error. So does a single node. Numbers have no bound here: a count of 32 bits comes to the same as
long as fewer than `2 ^ 32` names are drawn, those of the compilation itself among them. -/
theorem compile_renumbered (k : Nat) (s : NameSupply) :
    (∀ nodes : List Node, (∀ name ∈ Node.namesOfAll nodes, ¬ Generated name) →
      (Program.ofNodes nodes).EndsAlike k (Program.rename (renumber k)) s) ∧
    ∀ n : Node, (∀ name ∈ n.names, ¬ Generated name) →
      n.compile.EndsAlike k (Fragment.rename (renumber k)) s := by
  have hkept : ∀ name, ¬ Generated name → renumber k name = name := fun _ =>
    renumber_of_not_generated k
  refine ⟨fun nodes hnames => ?_, fun n hnames => ?_⟩
  · exact (Program.runsBeside_ofNodes (shifts_renumber k)
      fun name hname => hkept name (hnames name hname)).endsAlike s
  · exact (n.runsAlike (shifts_renumber k) fun name hname =>
      hkept name (hnames name hname)).endsAlike s

/-- Names that are almost made up: `<fn*>[x] <if>_temp_func_01 <do>_temp_var_ x</do></if></fn*>`. -/
def Node.almostMadeUp : Node :=
  .element ((Element.named "fn*").addChildren
    [.list [.symbol "x"], .element ((Element.named "if").addChildren
      [.symbol "_temp_func_01", .element ((Element.named "do").addChildren
        [.symbol "_temp_var_", .symbol "x"])])])

/-- Three names are drawn from either supply, and the failure of a second node changes nothing. -/
theorem compile_renumbered_almostMadeUp :
    (∃ f, Node.almostMadeUp.compile ⟨6⟩ = .ok f ⟨9⟩ ∧
      Node.almostMadeUp.compile ⟨10⟩ = .ok (f.rename (renumber 4)) ⟨13⟩) ∧
    ∃ e, Program.ofNodes [.almostMadeUp, .element (Element.named "do")] ⟨6⟩ = .error e ⟨9⟩ ∧
      Program.ofNodes [.almostMadeUp, .element (Element.named "do")] ⟨10⟩ = .error e ⟨13⟩ := by
  have hrenumbered := compile_renumbered 4 ⟨6⟩
  constructor
  · rcases hrenumbered.2 .almostMadeUp (by decide +kernel) with ⟨f, s', h, h'⟩ | ⟨e, s', h, -⟩
    · cases h
      exact ⟨_, rfl, h'⟩
    · cases h
  · rcases hrenumbered.1 [.almostMadeUp, .element (Element.named "do")] (by decide +kernel) with
      ⟨p, s', h, -⟩ | ⟨e, s', h, h'⟩
    · cases h
    · cases h
      exact ⟨_, rfl, h'⟩

end TagLang
