import AtomLogic.Interpreter

/-! Total correctness of computations on the world: from every world of some kind there is a
result, and the result and the world that is left are as stated. -/

namespace AtomLogic

theorem Eval.map_eq_some {α β : Type} {x : Eval α} {world later : World} {a : α}
    (ran : x world = some (a,later)) (change : α → β) :
    (change <$> x) world = some (change a,later) := by
  change ((x world).bind _) = _
  rw [ran]
  rfl

theorem Eval.map_eq_none {α β : Type} {x : Eval α} {world : World} (ran : x world = none)
    (change : α → β) : (change <$> x) world = none := by
  change ((x world).bind _) = _
  rw [ran]
  rfl

theorem Eval.bind_eq_some_iff {α β : Type} {x : Eval α} {f : α → Eval β} {world later : World}
    {b : β} : (x >>= f) world = some (b,later) ↔
      ∃ a middle, x world = some (a,middle) ∧ f a middle = some (b,later) := by
  change ((x world).bind _) = _ ↔ _
  rw [Option.bind_eq_some_iff,Prod.exists]

theorem Eval.bind_congr {α β : Type} {x : Eval α} {f g : α → Eval β} {world : World}
    (same : ∀ a middle, x world = some (a,middle) → f a middle = g a middle) :
    (x >>= f) world = (x >>= g) world := by
  change (x world).bind _ = (x world).bind _
  cases ran : x world with
  | none => rfl
  | some step => exact same step.1 step.2 ran

theorem Eval.map_congr {α β : Type} {x y : Eval α} {world : World} (same : x world = y world)
    (f : α → β) : (f <$> x) world = (f <$> y) world := by
  change (x world).bind _ = (y world).bind _
  rw [same]

/-! ### Gathering without change -/

theorem gather_eq_nil {α β : Type} {f : α → Eval (List β)} {as : List α}
    (nothing : ∀ a ∈ as, f a = pure []) : gather f as = pure [] := by
  induction as with
  | nil => rfl
  | cons a as ih =>
    rw [List.forall_mem_cons] at nothing
    rw [gather,nothing.1,ih nothing.2]
    rfl

theorem gather_of_same {α β : Type} {f : α → Eval (List β)} {each : α → List β} {world : World}
    {as : List α} (same : ∀ a ∈ as, f a world = some (each a,world)) :
    gather f as world = some (as.flatMap each,world) := by
  induction as with
  | nil => rfl
  | cons a as ih =>
    rw [List.forall_mem_cons] at same
    rw [gather]
    exact Eval.bind_eq_some_iff.mpr ⟨each a,world,same.1,Eval.map_eq_some (ih same.2) _⟩

theorem inferFrom_of_none {stored : Atom} (noRule : Rule.ofAtom? stored = none)
    (evaluate : Atom → Eval Answers) (query : Atom) :
    inferFrom evaluate query stored = pure [] := by
  rw [inferFrom,noRule]

/-! ### Goals one after the other -/

theorem Standard.meetAll_nil (evaluate : Atom → Eval Answers) (goals : List Atom) :
    meetAll evaluate goals [] = pure [] := by
  cases goals with
  | nil => rfl
  | cons goal goals => rfl

/-- The goals that are not evaluated once no thread is left could not bring one back. -/
theorem Standard.meetAll_cons (evaluate : Atom → Eval Answers) (goal : Atom) (goals : List Atom)
    (threads : List Substitution) :
    meetAll evaluate (goal :: goals) threads =
      meet evaluate goal threads >>= meetAll evaluate goals := by
  rw [meetAll]
  congr 1
  funext left
  split
  · next none => rw [List.isEmpty_iff.mp none,meetAll_nil]
  · rfl

/-! ### Results from every world -/

/-- From every world with the first property, the computation succeeds and leaves a result and
a world with the second. -/
def Ensures {α : Type} (before : World → Prop) (x : Eval α) (after : α → World → Prop) : Prop :=
  ∀ world, before world → ∃ a later, x world = some (a,later) ∧ after a later

/-- Results that were gathered from the elements of a list, each as stated. -/
inductive Gathered {α β : Type} (each : α → List β → Prop) : List α → List β → Prop where
  | nil : Gathered each [] []
  | cons {a : α} {as : List α} {first others : List β} :
      each a first → Gathered each as others → Gathered each (a :: as) (first ++ others)

namespace Gathered

variable {α β : Type} {each : α → List β → Prop} {as : List α} {results : List β}

theorem flatMap {f : α → List β} (holds : ∀ a ∈ as, each a (f a)) :
    Gathered each as (as.flatMap f) := by
  induction as with
  | nil => exact .nil
  | cons a as ih =>
    rw [List.forall_mem_cons] at holds
    exact .cons holds.1 (ih holds.2)

theorem source (gathered : Gathered each as results) {b : β} (member : b ∈ results) :
    ∃ a ∈ as, ∃ part, each a part ∧ b ∈ part := by
  induction gathered with
  | nil => cases member
  | cons first others ih =>
    rcases List.mem_append.mp member with inside | later
    · exact ⟨_,List.mem_cons_self,_,first,inside⟩
    · obtain ⟨a,among,part,holds,inside⟩ := ih later
      exact ⟨a,List.mem_cons_of_mem _ among,part,holds,inside⟩

theorem part (gathered : Gathered each as results) {a : α} (among : a ∈ as) :
    ∃ part, each a part ∧ ∀ b ∈ part, b ∈ results := by
  induction gathered with
  | nil => cases among
  | cons first others ih =>
    rcases List.mem_cons.mp among with rfl | later
    · exact ⟨_,first,fun b inside => List.mem_append_left _ inside⟩
    · obtain ⟨part,holds,covered⟩ := ih later
      exact ⟨part,holds,fun b inside => List.mem_append_right _ (covered b inside)⟩

end Gathered

namespace Ensures

variable {α β : Type} {before : World → Prop} {x : Eval α} {after : α → World → Prop}

theorem pure {a : α} (holds : ∀ world, before world → after a world) :
    Ensures before (pure a) after :=
  fun world start => ⟨a,world,rfl,holds world start⟩

theorem bind {f : α → Eval β} {final : β → World → Prop} (first : Ensures before x after)
    (next : ∀ a, Ensures (after a) (f a) final) : Ensures before (x >>= f) final := by
  intro world start
  obtain ⟨a,middle,ran,between⟩ := first world start
  obtain ⟨b,later,ranToo,done⟩ := next a middle between
  refine ⟨b,later,?_,done⟩
  change ((x world).bind fun step => f step.1 step.2) = _
  rw [ran]
  exact ranToo

theorem mono {weaker : α → World → Prop} (first : Ensures before x after)
    (weakens : ∀ a later, after a later → weaker a later) : Ensures before x weaker := by
  intro world start
  obtain ⟨a,later,ran,done⟩ := first world start
  exact ⟨a,later,ran,weakens a later done⟩

theorem gather {kept : World → Prop} {results : α → Eval (List β)} {each : α → List β → Prop}
    {as : List α} (step : ∀ a ∈ as, Ensures kept (results a) fun part later =>
      kept later ∧ each a part) :
    Ensures kept (gather results as) fun all later => kept later ∧ Gathered each as all := by
  induction as with
  | nil => exact pure fun world start => ⟨start,.nil⟩
  | cons a as ih =>
    rw [AtomLogic.gather]
    refine (step a List.mem_cons_self).bind fun first => ?_
    intro middle ⟨keptOnce,holds⟩
    have rest := ih fun b member => step b (List.mem_cons_of_mem a member)
    refine (rest.bind fun others => pure fun later done => ?_) middle keptOnce
    exact ⟨done.1,.cons holds done.2⟩

/-- Storing the ground ones of some atoms keeps what storing any of them keeps. -/
theorem addGround (kept : World → Prop) (atoms : List Atom)
    (stores : ∀ a ∈ atoms, ∀ world, kept world → kept { world with space := (world.space.add a).2 }) :
    Ensures kept (Interpreter.addGround atoms) fun added later =>
      kept later ∧ ∀ a ∈ added, a ∈ atoms := by
  induction atoms with
  | nil => exact pure fun _ start => ⟨start,List.forall_mem_nil _⟩
  | cons a atoms ih =>
    rw [List.forall_mem_cons] at stores
    have stored : Ensures kept (modifyGetThe Space (Space.add a) : Eval Bool) fun _ => kept :=
      fun world start => ⟨_,_,rfl,stores.1 world start⟩
    rw [Interpreter.addGround]
    split
    · refine (ih stores.2).bind fun others => pure fun later done => ⟨done.1,?_⟩
      exact fun b member => List.mem_cons_of_mem a (done.2 b member)
    · refine stored.bind fun new => (ih stores.2).bind fun others => pure fun later done => ?_
      refine ⟨done.1,fun b member => ?_⟩
      cases new with
      | false => exact List.mem_cons_of_mem a (done.2 b member)
      | true => exact (List.mem_cons.mp member).elim (· ▸ List.mem_cons_self) fun later =>
          List.mem_cons_of_mem a (done.2 b later)

end Ensures
end AtomLogic
