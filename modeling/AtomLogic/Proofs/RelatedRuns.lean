import AtomLogic.Proofs.Apart
import AtomLogic.Proofs.Ensures
import AtomLogic.Proofs.Renaming

/-! Computations whose runs go the same way from related worlds. A relation that respects how
computations are put together carries over from the evaluation of goals to what an operation does, if
the goals of the one are those of the other with renamed variables. -/

namespace AtomLogic

/-- The relation, which is up to a change of the results, respects how computations are put together.
What is done after an atom is stored is related to what is done after the renamed atom is. -/
structure Lockstep (names : String → String)
    (R : (α β : Type) → Eval α → Eval β → (α → β) → Prop) : Prop where
  injective : Function.Injective names
  pure {α β : Type} {change : α → β} {a : α} {b : β} :
    change a = b → R _ _ (pure a) (pure b) change
  bind {α β γ δ : Type} {change : α → β} {final : γ → δ} {x : Eval α} {y : Eval β}
    {f : α → Eval γ} {g : β → Eval δ} :
    R _ _ x y change → (∀ a, R _ _ (f a) (g (change a)) final) → R _ _ (x >>= f) (y >>= g) final
  add {α β : Type} {change : α → β} {x : Eval α} {y : Eval β} (a : Atom) : R _ _ x y change →
    R _ _ (modifyGetThe Space (Space.add a) >>= fun _ => x)
      (modifyGetThe Space (Space.add (a.rename names)) >>= fun _ => y) change

namespace Lockstep

open Substitution

variable {names : String → String} {R : (α β : Type) → Eval α → Eval β → (α → β) → Prop}
  (lockstep : Lockstep names R)
include lockstep

theorem gather {α β γ δ : Type} {change : α → β} {final : γ → δ} {results : α → Eval (List γ)}
    {resultsToo : β → Eval (List δ)}
    (each : ∀ a, R _ _ (results a) (resultsToo (change a)) (List.map final)) (as : List α) :
    R _ _ (gather results as) (gather resultsToo (as.map change)) (List.map final) := by
  induction as with
  | nil => exact lockstep.pure rfl
  | cons a as ih =>
    rw [List.map_cons,AtomLogic.gather,AtomLogic.gather]
    exact lockstep.bind (each a) fun first => lockstep.bind ih fun others =>
      lockstep.pure List.map_append

theorem restricted (query : Atom) {x y : Eval Answers} (answered : R _ _ x y (Answers.rename names)) :
    R _ _ (do return (← x).map fun (a,s) => (a,s.restrict query.variableNames))
      (do return (← y).map fun (a,s) => (a,s.restrict (query.rename names).variableNames))
      (Answers.rename names) := by
  refine lockstep.bind answered fun answers => lockstep.pure ?_
  simp [Answers.rename,Atom.variableNames_rename lockstep.injective,
    restrict_rename lockstep.injective]

variable {evaluate evaluateToo : Atom → Eval Answers}
  (each : ∀ goal, R _ _ (evaluate goal) (evaluateToo (goal.rename names)) (Answers.rename names))
include each

theorem meet (goal : Atom) (threads : List Substitution) :
    R _ _ (Standard.meet evaluate goal threads)
      (Standard.meet evaluateToo (goal.rename names) (threads.map (Substitution.rename names)))
      (List.map (Substitution.rename names)) := by
  refine lockstep.gather (fun thread => ?_) threads
  rw [apply_rename lockstep.injective]
  refine lockstep.bind (each _) fun answers => lockstep.pure ?_
  simp [Answers.rename,compose_rename lockstep.injective]

theorem meetAll (goals : List Atom) (threads : List Substitution) :
    R _ _ (Standard.meetAll evaluate goals threads)
      (Standard.meetAll evaluateToo (goals.map (Atom.rename names))
        (threads.map (Substitution.rename names))) (List.map (Substitution.rename names)) := by
  induction goals generalizing threads with
  | nil => exact lockstep.pure rfl
  | cons goal goals ih =>
    rw [List.map_cons,Standard.meetAll,Standard.meetAll]
    refine lockstep.bind (lockstep.meet each goal threads) fun left => ?_
    rw [List.isEmpty_map]
    split
    · exact lockstep.pure rfl
    · exact ih left

theorem conjoin (goals : List Atom) :
    R _ _ (Standard.conjoin evaluate goals)
      (Standard.conjoin evaluateToo (goals.map (Atom.rename names))) (Answers.rename names) := by
  rw [Standard.conjoin,Standard.conjoin,List.isEmpty_map]
  split
  · exact lockstep.pure rfl
  · refine lockstep.bind (lockstep.meetAll each goals [∅]) fun threads => lockstep.pure ?_
    have query : Atom.expr (.sym Standard.conjunction.name :: goals.map (Atom.rename names)) =
        (Atom.expr (.sym Standard.conjunction.name :: goals)).rename names := by
      rw [Atom.rename_expr,List.map_cons,Atom.rename_sym]
    simp only [query,Answers.rename,List.map_map,Function.comp_def,apply_rename lockstep.injective]

theorem negate (goal : Atom) :
    R _ _ (Standard.negate evaluate goal) (Standard.negate evaluateToo (goal.rename names))
      (Answers.rename names) := by
  refine lockstep.bind (each goal) fun answers => lockstep.pure ?_
  have same : (answers.rename names).isEmpty = answers.isEmpty := List.isEmpty_map
  rw [same]
  split <;> rfl

/-- What an operation does that looks nothing up. -/
theorem execute {standard : Standard} {arguments : List Atom}
    (blind : standard.lookups arguments = []) :
    R _ _ (standard.execute evaluate arguments)
      (standard.execute evaluateToo (arguments.map (Atom.rename names)))
      (Except.map (Answers.rename names)) := by
  fun_cases Standard.execute evaluate standard arguments with
  | case1 =>
    exact lockstep.bind (lockstep.conjoin each arguments) fun answers => lockstep.pure rfl
  | case2 =>
    have gathered : R _ _ (AtomLogic.gather evaluate arguments)
        (AtomLogic.gather evaluateToo (arguments.map (Atom.rename names))) (Answers.rename names) :=
      lockstep.gather each arguments
    exact lockstep.bind gathered fun answers => lockstep.pure rfl
  | case3 goal => exact lockstep.bind (lockstep.negate each goal) fun answers => lockstep.pure rfl
  | case4 a b =>
    refine lockstep.pure ?_
    rw [unify_rename lockstep.injective]
    cases unify a b <;> rfl
  | case5 pattern => cases blind
  | case6 pattern template => cases blind
  | case7 a => exact lockstep.add a (lockstep.pure rfl)
  | case8 a => cases blind
  | case9 a => exact lockstep.pure rfl
  | case10 => exact lockstep.pure rfl
  | case11 =>
    have one {b : Atom} (same : arguments.map (Atom.rename names) = [b]) : ∃ a, arguments = [a] :=
      (List.map_eq_singleton_iff.mp same).imp fun _ both => both.1
    have two {b c : Atom} (same : arguments.map (Atom.rename names) = [b,c]) :
        ∃ a d, arguments = [a,d] := by
      obtain ⟨a,_,rfl,_,rest⟩ := List.map_eq_cons_iff.mp same
      obtain ⟨d,rfl,_⟩ := List.map_eq_singleton_iff.mp rest
      exact ⟨a,d,rfl⟩
    rw [Standard.execute]
    · exact lockstep.pure (by rw [List.length_map]; rfl)
    all_goals grind

end Lockstep

/-! ### Runs that the other follows -/

/-- From related worlds, the first of them with some property, whatever the first computation gives
the second gives changed, and leaves a related world. -/
def Mirrors {α β : Type} (related : World → World → Prop) (before : World → Prop) (x : Eval α)
    (y : Eval β) (change : α → β) : Prop :=
  ∀ world other, related world other → before world → ∀ a later, x world = some (a,later) →
    ∃ laterToo, y other = some (change a,laterToo) ∧ related later laterToo

namespace Mirrors

variable {α β γ δ : Type} {related : World → World → Prop} {before : World → Prop} {x : Eval α}
  {y : Eval β} {change : α → β}

theorem pure {a : α} {b : β} (same : change a = b) :
    Mirrors related before (pure a) (pure b) change := by
  intro world other start _ c later ran
  cases ran
  exact ⟨other,congrArg (fun b => some (b,other)) same.symm,start⟩

theorem bind {f : α → Eval γ} {g : β → Eval δ} {final : γ → δ}
    (first : Mirrors related before x y change)
    (next : ∀ a, Mirrors related (fun _ => True) (f a) (g (change a)) final) :
    Mirrors related before (x >>= f) (y >>= g) final := by
  intro world other start holds c later ran
  obtain ⟨a,middle,ranFirst,ranNext⟩ := Eval.bind_eq_some_iff.mp ran
  obtain ⟨middleToo,ranToo,between⟩ := first world other start holds a middle ranFirst
  obtain ⟨laterToo,ranLast,done⟩ := next a middle middleToo between trivial c later ranNext
  exact ⟨laterToo,Eval.bind_eq_some_iff.mpr ⟨change a,middleToo,ranToo,ranLast⟩,done⟩

theorem weaken (mirrors : Mirrors related (fun _ => True) x y change) :
    Mirrors related before x y change :=
  fun world other start _ => mirrors world other start trivial

end Mirrors

/-! ### Runs that go the same way -/

/-- From related worlds either neither computation gives anything, or the second gives what the first
gives, changed, and related worlds are left. -/
def Matches {α β : Type} (related : World → World → Prop) (x : Eval α) (y : Eval β)
    (change : α → β) : Prop :=
  ∀ world other, related world other →
    Option.Rel (fun step stepToo => stepToo.1 = change step.1 ∧ related step.2 stepToo.2)
      (x world) (y other)

namespace Matches

variable {α β γ δ : Type} {related : World → World → Prop} {x : Eval α} {y : Eval β} {change : α → β}

theorem pure {a : α} {b : β} (same : change a = b) : Matches related (pure a) (pure b) change :=
  fun _ _ start => .some ⟨same.symm,start⟩

theorem failure : Matches related failure failure change := fun _ _ _ => .none

theorem bind {f : α → Eval γ} {g : β → Eval δ} {final : γ → δ} (first : Matches related x y change)
    (next : ∀ a, Matches related (f a) (g (change a)) final) :
    Matches related (x >>= f) (y >>= g) final := by
  intro world other start
  have ran := first world other start
  change Option.Rel _ ((x world).bind fun step => f step.1 step.2)
    ((y other).bind fun step => g step.1 step.2)
  generalize x world = left at ran ⊢
  generalize y other = right at ran ⊢
  cases ran with
  | none => exact .none
  | some both =>
    obtain ⟨same,between⟩ := both
    rw [Option.bind_some,Option.bind_some,same]
    exact next _ _ _ between

/-- Whatever the first computation gives, the second gives changed. -/
theorem forth (alike : Matches related x y change) {world other : World}
    (start : related world other) {a : α} {later : World} (ran : x world = some (a,later)) :
    ∃ laterToo, y other = some (change a,laterToo) ∧ related later laterToo := by
  have both := alike world other start
  rw [ran] at both
  generalize y other = right at both
  cases both with
  | some done => exact ⟨_,by rw [← done.1],done.2⟩

/-- Whatever the second computation gives, the first gives it before the change. -/
theorem back (alike : Matches related x y change) {world other : World}
    (start : related world other) {b : β} {laterToo : World} (ran : y other = some (b,laterToo)) :
    ∃ a later, x world = some (a,later) ∧ change a = b ∧ related later laterToo := by
  have both := alike world other start
  rw [ran] at both
  generalize x world = left at both
  cases both with
  | some done => exact ⟨_,_,rfl,done.1.symm,done.2⟩

end Matches

end AtomLogic
