import AtomLogic.Proofs.Limits

/-! Evaluation that keeps some names apart from what is stored: it goes on only as long as no atom
that is looked up mentions one of them. What it gives is what evaluation gives, and the fewer names
are kept apart, the more often it gives anything. -/

namespace AtomLogic

def Atom.isApart (names : List String) (a : Atom) : Bool := names.all fun name => !a.mentions name

theorem Atom.isApart_iff (names : List String) (a : Atom) :
    a.isApart names = true ↔ ∀ name ∈ names, a.mentions name = false := by
  simp [isApart]

/-- The atoms that an operation looks up, for their instances or, before it is removed, itself. -/
def Standard.lookups : Standard → List Atom → List Atom
  | matching, [pattern] => [pattern]
  | matching, [pattern,_] => [pattern]
  | retraction, [a] => [a]
  | _, _ => []

theorem Standard.lookups_cases (standard : Standard) (arguments : List Atom) :
    (∃ pattern, standard = .matching ∧ arguments = [pattern]) ∨
      (∃ pattern template, standard = .matching ∧ arguments = [pattern,template]) ∨
      (∃ a, standard = .retraction ∧ arguments = [a]) ∨ standard.lookups arguments = [] := by
  fun_cases Standard.lookups standard arguments with
  | case1 pattern => exact .inl ⟨pattern,rfl,rfl⟩
  | case2 pattern template => exact .inr (.inl ⟨pattern,template,rfl,rfl⟩)
  | case3 a => exact .inr (.inr (.inl ⟨a,rfl,rfl⟩))
  | case4 => exact .inr (.inr (.inr rfl))

section
variable (names : List String)

/-- Stops if an atom that the pattern is tried on mentions one of the names. -/
def keepApart (pattern : Atom) : Eval Unit := do
  if ((← getThe Space).candidates pattern).all (Atom.isApart names) then return () else failure

def keepAllApart : List Atom → Eval Unit
  | [] => return ()
  | pattern :: patterns => do
    keepApart names pattern
    keepAllApart patterns

def dispatchApart (evaluate : Atom → Eval Answers) (standard : Standard) (query : Atom) :
    Eval Answers := do
  keepAllApart names (standard.lookups query.arguments)
  dispatch evaluate standard.operation query

def consultApart (evaluate : Atom → Eval Answers) (chaining : Chaining) (query : Atom) :
    Eval Answers := do
  let inferred ← match chaining with
    | .enabled => infer evaluate query
    | .disabled => pure []
  keepApart names query
  return inferred ++ (← getThe Space).query query

/-- Evaluation with the standard operations that keeps the names apart. -/
def evaluateApart : Nat → Chaining → Atom → Eval Answers
  | 0, _, _ => failure
  | depth+1, chaining, query => do
    let answers ← match query.head?.bind Standard.ofName? with
      | some standard => dispatchApart names (evaluateApart depth chaining) standard query
      | none => consultApart names (evaluateApart depth .disabled) chaining query
    return answers.map fun (a,s) => (a,s.restrict query.variableNames)

end

/-- Nothing that the pattern is tried on mentions one of the names. -/
def LooksApart (names : List String) (pattern : Atom) (world : World) : Prop :=
  ∀ a ∈ world.space.candidates pattern, a.isApart names = true

theorem keepApart_eq_some {names : List String} {pattern : Atom} {world : World}
    {step : Unit × World} : keepApart names pattern world = some step ↔
      LooksApart names pattern world ∧ ((),world) = step := by
  change (if (world.space.candidates pattern).all _ then Pure.pure () else failure : Eval Unit)
    world = _ ↔ _
  rw [LooksApart,← List.all_eq_true]
  split
  · next apart => exact ⟨fun ran => ⟨apart,Option.some.inj ran⟩,fun given => congrArg some given.2⟩
  · next mixed => exact ⟨nofun,fun given => absurd given.1 mixed⟩

theorem keepAllApart_eq_some {names : List String} {patterns : List Atom} {world : World}
    {step : Unit × World} : keepAllApart names patterns world = some step ↔
      (∀ pattern ∈ patterns, LooksApart names pattern world) ∧ ((),world) = step := by
  induction patterns with
  | nil =>
    exact ⟨fun ran => ⟨List.forall_mem_nil _,Option.some.inj ran⟩,fun given => congrArg some given.2⟩
  | cons pattern patterns ih =>
    rw [List.forall_mem_cons]
    constructor
    · intro ran
      obtain ⟨_,first,ran⟩ := Option.bind_eq_some_iff.mp ran
      obtain ⟨apart,rfl⟩ := keepApart_eq_some.mp first
      obtain ⟨others,same⟩ := ih.mp ran
      exact ⟨⟨apart,others⟩,same⟩
    · rintro ⟨⟨apart,others⟩,same⟩
      have first := keepApart_eq_some.mpr ⟨apart,rfl⟩
      exact Option.bind_eq_some_iff.mpr ⟨_,first,ih.mpr ⟨others,same⟩⟩

/-! ### Fewer names -/

theorem keepApart_nil (pattern : Atom) : keepApart [] pattern = pure () := by
  funext world
  exact keepApart_eq_some.mpr ⟨fun a _ => (a.isApart_iff []).mpr (List.forall_mem_nil _),rfl⟩

theorem keepAllApart_nil (patterns : List Atom) : keepAllApart [] patterns = pure () := by
  induction patterns with
  | nil => rfl
  | cons pattern patterns ih => rw [keepAllApart,keepApart_nil,ih,pure_bind]

/-- With no names to keep apart this is evaluation. -/
theorem evaluateApart_nil (depth : Nat) (chaining : Chaining) (query : Atom) :
    evaluateApart [] depth chaining query =
      Interpreter.evaluateWithin .standard depth chaining query := by
  induction depth generalizing chaining query with
  | zero => rfl
  | succ depth ih =>
    have same chaining : evaluateApart [] depth chaining =
        Interpreter.evaluateWithin .standard depth chaining := funext (ih chaining)
    rw [evaluateApart,Interpreter.evaluateWithin,Registry.bind_find?_standard]
    cases query.head?.bind Standard.ofName? with
    | none =>
      cases chaining <;>
        simp only [Option.map_none,same,consultApart,consult,keepApart_nil,pure_bind]
    | some standard =>
      simp only [Option.map_some,same,dispatchApart,keepAllApart_nil,pure_bind]

namespace Extends

variable {names fewer : List String} (included : fewer ⊆ names)
include included

theorem keepApart (pattern : Atom) : Extends (keepApart names pattern) (keepApart fewer pattern) := by
  intro world step ran
  obtain ⟨apart,rfl⟩ := keepApart_eq_some.mp ran
  refine keepApart_eq_some.mpr ⟨fun a candidate => (a.isApart_iff fewer).mpr ?_,rfl⟩
  exact fun name member => (a.isApart_iff names).mp (apart a candidate) name (included member)

theorem keepAllApart (patterns : List Atom) :
    Extends (keepAllApart names patterns) (keepAllApart fewer patterns) := by
  induction patterns with
  | nil => exact refl _
  | cons pattern patterns ih => exact (keepApart included pattern).bind fun _ => ih

variable {evaluate more : Atom → Eval Answers} (each : ∀ goal, Extends (evaluate goal) (more goal))
include each

theorem dispatchApart (standard : Standard) (query : Atom) :
    Extends (dispatchApart names evaluate standard query)
      (dispatchApart fewer more standard query) :=
  (keepAllApart included _).bind fun _ => dispatch each standard query

theorem consultApart (chaining : Chaining) (query : Atom) :
    Extends (consultApart names evaluate chaining query)
      (consultApart fewer more chaining query) := by
  have looked (inferred : Answers) : Extends
      (do AtomLogic.keepApart names query; return inferred ++ (← getThe Space).query query)
      (do AtomLogic.keepApart fewer query; return inferred ++ (← getThe Space).query query) :=
    (keepApart included query).bind fun _ => refl _
  cases chaining with
  | enabled => exact (infer each query).bind looked
  | disabled => exact (refl _).bind looked

end Extends

theorem extends_evaluateApart {names fewer : List String} (included : fewer ⊆ names) (depth : Nat)
    (chaining : Chaining) (query : Atom) :
    Extends (evaluateApart names depth chaining query)
      (evaluateApart fewer depth chaining query) := by
  induction depth generalizing chaining query with
  | zero => exact Extends.refl _
  | succ depth ih =>
    rw [evaluateApart,evaluateApart]
    cases query.head?.bind Standard.ofName? with
    | none =>
      exact (Extends.consultApart included (ih .disabled) chaining query).bind fun _ =>
        Extends.refl _
    | some standard =>
      exact (Extends.dispatchApart included (ih chaining) standard query).bind fun _ =>
        Extends.refl _

/-- What evaluation gives while it keeps names apart, it gives in any case. -/
theorem evaluateWithin_of_apart {names : List String} {depth : Nat} {chaining : Chaining}
    {query : Atom} {world later : World} {answers : Answers}
    (ran : evaluateApart names depth chaining query world = some (answers,later)) :
    Interpreter.evaluateWithin .standard depth chaining query world = some (answers,later) := by
  rw [← evaluateApart_nil]
  exact extends_evaluateApart (List.nil_subset names) depth chaining query world _ ran

end AtomLogic
