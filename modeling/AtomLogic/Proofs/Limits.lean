import AtomLogic.Proofs.Parametricity

/-! The limit on nested evaluations is no more than that: what evaluation gives with some limit, it
gives with any larger one. -/

namespace AtomLogic

/-- Whatever the first computation gives, so does the second. -/
def Extends {α : Type} (x y : Eval α) : Prop :=
  ∀ world step, x world = some step → y world = some step

namespace Extends

variable {α β : Type} {x y : Eval α}

theorem refl (x : Eval α) : Extends x x := fun _ _ ran => ran

theorem bind {f g : α → Eval β} (first : Extends x y) (next : ∀ a, Extends (f a) (g a)) :
    Extends (x >>= f) (y >>= g) := by
  intro world step ran
  obtain ⟨⟨a,middle⟩,ranFirst,ranNext⟩ := Option.bind_eq_some_iff.mp ran
  exact Option.bind_eq_some_iff.mpr ⟨(a,middle),first world _ ranFirst,next a middle step ranNext⟩

theorem respects : Respects (m := Eval) (n := Eval) fun _ => Extends where
  pure _ := refl _
  bind := bind
  space := refl _
  change _ := refl _

variable {evaluate more : Atom → Eval Answers} (each : ∀ goal, Extends (evaluate goal) (more goal))
include each

theorem dispatch (standard : Standard) (query : Atom) :
    Extends (dispatch evaluate standard.operation query) (dispatch more standard.operation query) :=
  (respects.execute each standard query.arguments).bind fun _ => refl _

theorem inferFrom (query stored : Atom) :
    Extends (inferFrom evaluate query stored) (inferFrom more query stored) := by
  rw [AtomLogic.inferFrom,AtomLogic.inferFrom]
  cases Rule.ofAtom? stored with
  | none => exact refl _
  | some rule =>
    refine (refl _).bind fun number => ?_
    dsimp only
    cases unify (rule.copy number).head query with
    | none => exact refl _
    | some s => exact (each _).bind fun answers => refl _

theorem infer (query : Atom) : Extends (infer evaluate query) (infer more query) :=
  (refl _).bind fun _ => respects.gather (inferFrom each query) _

theorem consult (chaining : Chaining) (query : Atom) :
    Extends (consult evaluate chaining query) (consult more chaining query) := by
  cases chaining with
  | enabled => exact (infer each query).bind fun found => refl _
  | disabled => exact refl _

end Extends

/-- A larger limit changes no result of evaluation with the standard operations. -/
theorem extends_evaluateWithin {depth more : Nat} (le : depth ≤ more) (chaining : Chaining)
    (query : Atom) :
    Extends (Interpreter.evaluateWithin .standard depth chaining query)
      (Interpreter.evaluateWithin .standard more chaining query) := by
  induction depth generalizing more chaining query with
  | zero => exact fun _ _ ran => nomatch ran
  | succ depth ih =>
    obtain ⟨more,rfl⟩ : ∃ n, more = n + 1 := ⟨more - 1,by omega⟩
    have le : depth ≤ more := Nat.le_of_succ_le_succ le
    rw [Interpreter.evaluateWithin,Interpreter.evaluateWithin,Registry.bind_find?_standard]
    cases query.head?.bind Standard.ofName? with
    | none =>
      exact (Extends.consult (ih le .disabled) chaining query).bind fun answers => Extends.refl _
    | some standard =>
      exact (Extends.dispatch (ih le chaining) standard query).bind fun answers => Extends.refl _

theorem extends_evaluate {limit more : Nat} (le : limit ≤ more) (query : Atom) :
    Extends (({ limit := limit } : Interpreter).evaluate query)
      (({ limit := more } : Interpreter).evaluate query) :=
  (extends_evaluateWithin le .enabled query).bind fun _ => Extends.refl _

theorem extends_applyRule {limit more : Nat} (le : limit ≤ more) (a : Atom) :
    Extends (({ limit := limit } : Interpreter).applyRule a)
      (({ limit := more } : Interpreter).applyRule a) := by
  rw [Interpreter.applyRule,Interpreter.applyRule]
  cases Rule.ofAtom? a with
  | none => exact Extends.refl _
  | some rule =>
    refine (Extends.refl _).bind fun _ => ?_
    exact (extends_evaluateWithin le .disabled rule.body).bind fun answers => Extends.refl _

end AtomLogic
