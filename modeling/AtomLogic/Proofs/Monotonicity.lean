import AtomLogic.Proofs.Goals
import Mathlib.Data.List.Flatten

/-! More atoms, no fewer answers. A goal without negation asks only for what is stored. In a space to which
atoms were added, its answers are those of before with others in between: each query lists at least
what it listed, in the same order, and a conjunction follows at least the threads it followed. -/

namespace AtomLogic

/-- What a goal without connectives asks for. -/
inductive Atom.IsLookup : Atom → Prop where
  | pattern {a : Atom} : a.IsPattern → a.IsLookup
  | equality (a b : Atom) : IsLookup (.expr [.sym Standard.equality.name,a,b])
  | quotation (a : Atom) : IsLookup (.expr [.sym Standard.quotation.name,a])
  | matching (pattern : Atom) : IsLookup (.expr [.sym Standard.matching.name,pattern])
  | template (pattern template : Atom) :
      IsLookup (.expr [.sym Standard.matching.name,pattern,template])

/-- A goal that never asks for what is not stored. -/
def Atom.IsPositive : Atom → Prop := BuiltFrom IsLookup [.conjunction,.disjunction]

theorem Atom.IsLookup.headed {goal : Atom} (lookup : goal.IsLookup) :
    ∃ name, goal.head? = some name := by
  cases lookup with
  | pattern isPattern => exact isPattern.imp fun _ pattern => pattern.1
  | _ => exact ⟨_,rfl⟩

/-! ### Spaces with more atoms -/

/-- The second space lists what the first does in the same order, maybe with more in between. -/
structure Space.Within (space other : Space) : Prop where
  bucket : ∀ key, (space.bucket key).Sublist (other.bucket key)
  toList : space.toList.Sublist other.toList

namespace Space.Within

variable {space other : Space}

theorem refl (space : Space) : space.Within space := ⟨fun _ => .refl _,.refl _⟩

theorem trans {last : Space} (within : space.Within other) (later : other.Within last) :
    space.Within last :=
  ⟨fun key => (within.bucket key).trans (later.bucket key),within.toList.trans later.toList⟩

theorem add (a : Atom) (space : Space) : space.Within (space.add a).2 := by
  by_cases stored : a ∈ space.toList
  · rw [Space.add_of_mem stored]
    exact refl space
  · obtain ⟨_,filed,opened⟩ := Space.add_of_not_mem stored
    have bucket : ∀ key, (space.bucket key).Sublist ((space.add a).2.bucket key) := by
      intro key
      rw [filed]
      split
      · exact List.sublist_append_left _ _
      · exact .refl _
    have keys : space.keys.Sublist (space.add a).2.keys := by
      rw [opened]
      split
      · exact .refl _
      · exact List.sublist_append_left _ _
    exact ⟨bucket,(keys.flatMap _).trans (List.Sublist.flatMap_right _ fun key _ => bucket key)⟩

theorem addAll (atoms : List Atom) (space : Space) : space.Within (space.addAll atoms).2 := by
  induction atoms generalizing space with
  | nil => exact refl space
  | cons a atoms ih => exact (add a space).trans (ih (space.add a).2)

theorem query (within : space.Within other) (pattern : Atom) :
    (space.query pattern).Sublist (other.query pattern) := by
  rw [Space.query,Space.query,unifyAll,unifyAll]
  refine List.Sublist.filterMap _ ?_
  rw [Space.candidates,Space.candidates]
  split
  · exact within.toList
  · exact within.bucket _

end Space.Within

/-! ### Computations that list more -/

/-- Either computation leaves its world as it is, and what the first lists the second lists too, in
the same order. -/
def Grows {α : Type} (world other : World) (x y : Eval (List α)) : Prop :=
  ∃ first second, x world = some (first,world) ∧ y other = some (second,other) ∧
    first.Sublist second

namespace Grows

variable {world other : World} {α β : Type} {x y : Eval (List α)}

theorem pure {first second : List α} (part : first.Sublist second) :
    Grows world other (pure first) (pure second) := ⟨first,second,rfl,rfl,part⟩

theorem bind {f g : List α → Eval (List β)} (grows : Grows world other x y)
    (next : ∀ first second : List α, first.Sublist second → Grows world other (f first) (g second)) :
    Grows world other (x >>= f) (y >>= g) := by
  obtain ⟨first,second,ran,ranToo,part⟩ := grows
  obtain ⟨left,right,ranNext,ranNextToo,partToo⟩ := next first second part
  exact ⟨left,right,Eval.bind_eq_some_iff.mpr ⟨first,world,ran,ranNext⟩,
    Eval.bind_eq_some_iff.mpr ⟨second,other,ranToo,ranNextToo⟩,partToo⟩

theorem map (grows : Grows world other x y) (change : α → β) :
    Grows world other (do return (← x).map change) (do return (← y).map change) :=
  grows.bind fun _ _ part => pure (part.map change)

/-- The second list may have further elements, for which only the second computation runs. -/
theorem gather {f g : α → Eval (List β)} {as bs : List α} (part : as.Sublist bs)
    (each : ∀ a ∈ bs, Grows world other (f a) (g a)) :
    Grows world other (gather f as) (gather g bs) := by
  induction part with
  | slnil => exact pure (.refl [])
  | cons b _ ih =>
    rw [List.forall_mem_cons] at each
    obtain ⟨_,more,_,ranMore,_⟩ := each.1
    obtain ⟨first,second,ran,ranToo,part⟩ := ih each.2
    refine ⟨first,more ++ second,ran,?_,part.trans (List.sublist_append_right more second)⟩
    rw [AtomLogic.gather]
    exact Eval.bind_eq_some_iff.mpr ⟨more,other,ranMore,Eval.map_eq_some ranToo _⟩
  | cons_cons a _ ih =>
    rw [List.forall_mem_cons] at each
    rw [AtomLogic.gather,AtomLogic.gather]
    exact each.1.bind fun _ _ first => (ih each.2).bind fun _ _ others => pure (first.append others)

variable {evaluate evaluateToo : Atom → Eval Answers}

theorem meetAll {goals : List Atom}
    (each : ∀ goal ∈ goals, ∀ values,
      Grows world other (evaluate (goal.instantiate values)) (evaluateToo (goal.instantiate values)))
    {threads more : List Substitution} (part : threads.Sublist more) :
    Grows world other (Standard.meetAll evaluate goals threads)
      (Standard.meetAll evaluateToo goals more) := by
  induction goals generalizing threads more with
  | nil => exact pure part
  | cons goal goals ih =>
    rw [List.forall_mem_cons] at each
    have met : Grows world other (Standard.meet evaluate goal threads)
        (Standard.meet evaluateToo goal more) :=
      gather part fun thread _ => (each.1 thread.value).map fun answer => thread.compose answer.2
    rw [Standard.meetAll_cons,Standard.meetAll_cons]
    exact met.bind fun _ _ part => ih each.2 part

theorem conjoin {goals : List Atom}
    (each : ∀ goal ∈ goals, ∀ values,
      Grows world other (evaluate (goal.instantiate values)) (evaluateToo (goal.instantiate values))) :
    Grows world other (Standard.conjoin evaluate goals) (Standard.conjoin evaluateToo goals) := by
  rw [Standard.conjoin,Standard.conjoin]
  split
  · exact pure (.refl _)
  · exact (meetAll each (.refl [∅])).map _

end Grows

/-! ### Evaluation -/

section

variable {world other : World} (within : world.space.Within other.space)
include within

theorem grows_lookup {goal : Atom} (lookup : goal.IsLookup) (values : String → Atom) (depth : Nat) :
    Grows world other
      (Interpreter.evaluateWithin .standard (depth + 1) .disabled (goal.instantiate values))
      (Interpreter.evaluateWithin .standard (depth + 1) .disabled (goal.instantiate values)) := by
  cases lookup with
  | pattern isPattern =>
    have pattern := isPattern.instantiate values
    exact ⟨_,_,evaluateWithin_of_pattern pattern depth world,
      evaluateWithin_of_pattern pattern depth other,(within.query _).map _⟩
  | equality a b => exact ⟨_,_,rfl,rfl,.refl _⟩
  | quotation a => exact ⟨_,_,rfl,rfl,.refl _⟩
  | matching pattern => exact ⟨_,_,rfl,rfl,(within.query _).map _⟩
  | template pattern template => exact ⟨_,_,rfl,rfl,((within.query _).map _).map _⟩

theorem grows_evaluateWithin {goal : Atom} (positive : goal.IsPositive) (values : String → Atom)
    {limit : Nat} (enough : goal.depth ≤ limit) :
    Grows world other
      (Interpreter.evaluateWithin .standard limit .disabled (goal.instantiate values))
      (Interpreter.evaluateWithin .standard limit .disabled (goal.instantiate values)) := by
  induction positive generalizing values limit with
  | basic lookup =>
    obtain ⟨name,headed⟩ := lookup.headed
    obtain ⟨depth,rfl⟩ := Atom.exists_depth_of_head? headed enough
    exact grows_lookup within lookup values depth
  | @connective standard goals among _ ih =>
    obtain ⟨depth,rfl⟩ := Atom.exists_depth_of_head? rfl enough
    have each : ∀ goal ∈ goals, ∀ values, Grows world other
        (Interpreter.evaluateWithin .standard depth .disabled (goal.instantiate values))
        (Interpreter.evaluateWithin .standard depth .disabled (goal.instantiate values)) :=
      fun goal asked values => ih goal asked values (Atom.depth_le_of_operand asked enough)
    rw [Atom.instantiate_expr,List.map_cons,Atom.instantiate_sym,evaluateWithin_of_head? rfl]
    refine Grows.map ?_ _
    rcases List.mem_pair.mp among with rfl | rfl
    · rw [dispatch_conjunction]
      refine Grows.conjoin (List.forall_mem_map.mpr fun goal asked others => ?_)
      rw [Atom.instantiate_instantiate]
      exact each goal asked _
    · rw [dispatch_disjunction]
      exact Grows.gather (.refl _) (List.forall_mem_map.mpr fun goal asked => each goal asked values)

end

/-- Adding atoms takes no answer of a positive goal away and changes neither the answers there were
nor their order. -/
theorem answers_sublist_of_addAll {goal : Atom} (positive : goal.IsPositive) {limit : Nat}
    (enough : goal.depth ≤ limit) (world : World) (atoms : List Atom) :
    ∃ answers more,
      Interpreter.evaluateWithin .standard limit .disabled goal world = some (answers,world) ∧
      Interpreter.evaluateWithin .standard limit .disabled goal
        { world with space := (world.space.addAll atoms).2 } =
          some (more,{ world with space := (world.space.addAll atoms).2 }) ∧
      answers.Sublist more := by
  have within : world.space.Within
      { world with space := (world.space.addAll atoms).2 : World }.space := .addAll atoms world.space
  have grows := grows_evaluateWithin within positive .var enough
  rwa [Atom.instantiate_self] at grows

private def sought : Atom := .expr [.sym "and",.expr [.sym "p",.var "x"],
  .expr [.sym "or",.expr [.sym "q",.var "x"],
    .expr [.sym "match",.expr [.sym "r",.var "x",.var "y"],.var "y"]]]

private def fewer : Space := .ofList [.expr [.sym "p",.sym "b"],.expr [.sym "q",.sym "b"]]

private def further : List Atom := [.expr [.sym "p",.sym "c"],.expr [.sym "q",.sym "c"],
  .expr [.sym "r",.sym "b",.sym "d"]]

/-- The new atoms give the thread that there was another answer, and start another thread. -/
theorem answers_sublist_of_addAll_sought :
    sought.IsPositive ∧ sought.depth ≤ 10000 ∧ ∃ answers more,
      Interpreter.evaluateWithin .standard 10000 .disabled sought { space := fewer } =
        some (answers,{ space := fewer }) ∧
      Interpreter.evaluateWithin .standard 10000 .disabled sought
        { space := (fewer.addAll further).2 } = some (more,{ space := (fewer.addAll further).2 }) ∧
      answers.Sublist more ∧ answers.length = 1 ∧ more.length = 3 := by
  have asks : ∀ name ∈ ["p","q"], (Atom.expr [.sym name,.var "x"]).IsPositive := by
    intro name among
    refine .basic (.pattern ⟨name,rfl,?_⟩)
    rcases List.mem_pair.mp among with rfl | rfl <;> rfl
  have positive : sought.IsPositive := by
    refine @Atom.BuiltFrom.connective _ _ .conjunction _ (by decide) ?_
    refine List.forall_mem_cons.mpr ⟨asks "p" (by decide),List.forall_mem_singleton.mpr ?_⟩
    refine @Atom.BuiltFrom.connective _ _ .disjunction _ (by decide) ?_
    refine List.forall_mem_cons.mpr ⟨asks "q" (by decide),List.forall_mem_singleton.mpr ?_⟩
    exact .basic (.template _ _)
  have enough : sought.depth ≤ 10000 := by decide
  refine ⟨positive,enough,?_⟩
  obtain ⟨answers,more,ran,ranMore,part⟩ :=
    answers_sublist_of_addAll positive enough { space := fewer } further
  have counted : (Interpreter.evaluateWithin .standard 10000 .disabled sought
      { space := fewer }).map (fun step => step.1.length) = some 1 := by decide +kernel
  have countedMore : (Interpreter.evaluateWithin .standard 10000 .disabled sought
      { space := (fewer.addAll further).2 }).map (fun step => step.1.length) = some 3 := by decide +kernel
  rw [ran] at counted
  rw [ranMore] at countedMore
  exact ⟨answers,more,ran,ranMore,part,Option.some.inj counted,Option.some.inj countedMore⟩

end AtomLogic
