import AtomLogic.Interpreter

/-! The operations take any monad that holds a space. Whatever relates the computations of two such
monads, and respects how computations are put together, relates what an operation does in the one
to what it does in the other. -/

namespace AtomLogic

variable {m n : Type → Type} [Monad m] [Monad n] [MonadStateOf Space m] [MonadStateOf Space n]

/-- The relation respects how computations on a space are put together. -/
structure Respects (R : (α : Type) → m α → n α → Prop) : Prop where
  pure {α : Type} : ∀ a : α, R _ (pure a) (pure a)
  bind {α β : Type} : ∀ {x : m α} {y : n α} {f : α → m β} {g : α → n β},
    R _ x y → (∀ a, R _ (f a) (g a)) → R _ (x >>= f) (y >>= g)
  space : R _ (getThe Space) (getThe Space)
  change {α : Type} : ∀ change : Space → α × Space,
    R _ (modifyGetThe Space change) (modifyGetThe Space change)

namespace Respects

variable {R : (α : Type) → m α → n α → Prop} (respects : Respects R)
include respects

theorem gather {α β : Type} {f : α → m (List β)} {g : α → n (List β)} (each : ∀ a, R _ (f a) (g a))
    (as : List α) : R _ (gather f as) (gather g as) := by
  induction as with
  | nil => exact respects.pure []
  | cons a as ih =>
    rw [AtomLogic.gather,AtomLogic.gather]
    exact respects.bind (each a) fun first => respects.bind ih fun others => respects.pure _

variable {evaluate : Atom → m Answers} {other : Atom → n Answers}
  (each : ∀ goal, R _ (evaluate goal) (other goal))
include each

theorem meet (goal : Atom) (threads : List Substitution) :
    R _ (Standard.meet evaluate goal threads) (Standard.meet other goal threads) :=
  respects.gather (fun _ => respects.bind (each _) fun _ => respects.pure _) threads

theorem meetAll (goals : List Atom) (threads : List Substitution) :
    R _ (Standard.meetAll evaluate goals threads) (Standard.meetAll other goals threads) := by
  induction goals generalizing threads with
  | nil => exact respects.pure threads
  | cons goal goals ih =>
    refine respects.bind (respects.meet each goal threads) fun left => ?_
    split
    · exact respects.pure []
    · exact ih left

theorem conjoin (goals : List Atom) :
    R _ (Standard.conjoin evaluate goals) (Standard.conjoin other goals) := by
  rw [Standard.conjoin,Standard.conjoin]
  split
  · exact respects.pure _
  · exact respects.bind (respects.meetAll each goals _) fun threads => respects.pure _

theorem execute (standard : Standard) (arguments : List Atom) :
    R _ (standard.execute evaluate arguments) (standard.execute other arguments) := by
  fun_cases Standard.execute evaluate standard arguments with
  | case1 => exact respects.bind (respects.conjoin each _) fun answers => respects.pure _
  | case2 => exact respects.bind (respects.gather each _) fun answers => respects.pure _
  | case3 goal =>
    have negated := respects.bind (each goal) fun answers =>
      respects.pure (if answers.isEmpty then [(Atom.truth,(∅ : Substitution))] else [])
    exact respects.bind negated fun answers => respects.pure _
  | case4 => exact respects.pure _
  | case5 => exact respects.bind respects.space fun space => respects.pure _
  | case6 => exact respects.bind respects.space fun space => respects.pure _
  | case7 a => exact respects.bind (respects.change (Space.add a)) fun new => respects.pure _
  | case8 a => exact respects.bind (respects.change (Space.remove a)) fun removed => respects.pure _
  | case9 => exact respects.pure _
  | case10 => exact respects.pure _
  | case11 => rw [Standard.execute] <;> first | assumption | exact respects.pure _

end Respects
end AtomLogic
