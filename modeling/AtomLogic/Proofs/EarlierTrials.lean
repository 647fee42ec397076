import AtomLogic.Proofs.CopyNumbers
import AtomLogic.Proofs.RelatedRuns
import AtomLogic.Proofs.RenamedSpaces

/-! Answers do not depend on how many rules have been tried before. That number is in the names of
copied variables and nowhere else. Two evaluations that start from different numbers go the same way:
whatever the one names with a number that it has handed out, the other names with the number that
it handed out at that point. -/

namespace AtomLogic

/-! ### Renamed rules -/

namespace Rule

def rename (names : String → String) (rule : Rule) : Rule :=
  ⟨rule.body.rename names,rule.head.rename names⟩

theorem ofAtom?_rename (names : String → String) (a : Atom) :
    ofAtom? (a.rename names) = (ofAtom? a).map (rename names) := by
  fun_cases ofAtom? a with
  | case1 body head => rw [Atom.rename_expr,List.map_cons,Atom.rename_sym]; rfl
  | case2 name body head other => simp [ofAtom?,other]
  | case3 _ other =>
    rw [Option.map_none,Option.eq_none_iff_forall_ne_some]
    intro rule isRule
    rw [ofAtom?_eq_some_iff,toAtom] at isRule
    have headed : a.head? = some symbol := by
      rw [← Atom.head?_rename,isRule]
      rfl
    obtain ⟨arguments,rfl⟩ := Atom.eq_of_head? headed
    rw [Atom.rename_expr,List.map_cons] at isRule
    injection isRule with same
    obtain ⟨body,_,rfl,_,rest⟩ := List.map_eq_cons_iff.mp (List.cons.inj same).2
    obtain ⟨head,rfl,_⟩ := List.map_eq_singleton_iff.mp rest
    exact other symbol body head rfl

/-- The copy of the renamed rule is the renamed copy. -/
theorem copy_rename (first second number : Nat) (rule : Rule) :
    (rule.rename (recount first second)).copy (shift first second number) =
      (rule.copy number).rename (recount first second) := by
  have same (a : Atom) :
      (a.rename (recount first second)).rename (copyName (shift first second number)) =
        (a.rename (copyName number)).rename (recount first second) := by
    change (a.rename _).instantiate _ = (a.rename _).instantiate _
    rw [Atom.instantiate_rename,Atom.instantiate_rename]
    exact Atom.instantiate_congr fun name _ => congrArg Atom.var (renumber_copyName number name).symm
  rw [copy,copy,rename,rename,same,same]

end Rule

/-- Where one evaluation numbers copies from the first number on, the other does from the second. -/
structure Shifted (first second : Nat) (world other : World) : Prop where
  started : first ≤ world.tried
  tried : other.tried = Rule.shift first second world.tried
  spaces : world.space.Renames (Rule.recount first second) other.space

section Evaluation

open Rule

variable {first second : Nat}

theorem Shifted.reads {β γ : Type} {f : Space → Eval β} {g : Space → Eval γ} {change : β → γ}
    (next : ∀ space other, space.Renames (recount first second) other →
      Matches (Shifted first second) (f space) (g other) change) :
    Matches (Shifted first second) (getThe Space >>= f) (getThe Space >>= g) change :=
  fun world other shifted => next world.space other.space shifted.spaces world other shifted

theorem Shifted.numbers : Matches (Shifted first second)
    (modifyGetThe World fun world => (world.tried,{ world with tried := world.tried + 1 }))
    (modifyGetThe World fun world => (world.tried,{ world with tried := world.tried + 1 }))
    (shift first second) := by
  intro world other shifted
  have started := shifted.started
  refine .some ⟨shifted.tried,Nat.le_succ_of_le started,?_,shifted.spaces⟩
  change other.tried + 1 = shift first second (world.tried + 1)
  rw [shifted.tried,shift,shift,if_pos started,if_pos (Nat.le_succ_of_le started)]
  omega

variable (le : first ≤ second)
include le

theorem Shifted.lockstep :
    Lockstep (recount first second) fun _ _ => Matches (Shifted first second) where
  injective := (recount_leftInverse le).injective
  pure := Matches.pure
  bind := Matches.bind
  add a next := by
    intro world other shifted
    exact next { world with space := (world.space.add a).2 } { other with space := _ }
      ⟨shifted.started,shifted.tried,(shifted.spaces.add (recount_leftInverse le).injective a).2⟩

theorem Shifted.removes (a : Atom) :
    Matches (Shifted first second) (modifyGetThe Space (Space.remove a))
      (modifyGetThe Space (Space.remove (a.rename (recount first second)))) id := by
  intro world other shifted
  obtain ⟨same,renames⟩ := shifted.spaces.remove (recount_leftInverse le).injective a
  exact .some ⟨same,shifted.started,shifted.tried,renames⟩

variable {evaluate evaluateToo : Atom → Eval Answers}
  (each : ∀ goal, Matches (Shifted first second) (evaluate goal)
    (evaluateToo (goal.rename (recount first second))) (Answers.rename (recount first second)))
include each

theorem matches_execute (standard : Standard) (arguments : List Atom) :
    Matches (Shifted first second) (standard.execute evaluate arguments)
      (standard.execute evaluateToo (arguments.map (Atom.rename (recount first second))))
      (Except.map (Answers.rename (recount first second))) := by
  have injective := (recount_leftInverse le).injective
  -- Only what is looked up in the space depends on more than the goals.
  rcases standard.lookups_cases arguments with
    ⟨pattern,rfl,rfl⟩ | ⟨pattern,template,rfl,rfl⟩ | ⟨a,rfl,rfl⟩ | blind
  · refine Shifted.reads fun space other renames => Matches.pure ?_
    rw [renames.query injective]
    rfl
  · refine Shifted.reads fun space other renames => Matches.pure ?_
    dsimp only [List.map_cons]
    rw [renames.query injective]
    simp [Answers.rename,Substitution.apply_rename injective,Except.map]
  · refine (Shifted.removes le a).bind fun removed => Matches.pure ?_
    cases removed <;> rfl
  · exact (Shifted.lockstep le).execute each blind

theorem matches_dispatch (standard : Standard) (query : Atom) :
    Matches (Shifted first second) (dispatch evaluate standard.operation query)
      (dispatch evaluateToo standard.operation (query.rename (recount first second)))
      (Answers.rename (recount first second)) := by
  rw [dispatch,dispatch,Atom.arguments_rename]
  refine (matches_execute le each standard query.arguments).bind fun result => ?_
  cases result with
  | ok answers => exact Matches.pure rfl
  | error fault => exact Matches.pure rfl

theorem matches_inferFrom (query stored : Atom) :
    Matches (Shifted first second) (inferFrom evaluate query stored)
      (inferFrom evaluateToo (query.rename (recount first second))
        (stored.rename (recount first second))) (Answers.rename (recount first second)) := by
  have injective := (recount_leftInverse le).injective
  rw [inferFrom,inferFrom,ofAtom?_rename]
  cases ofAtom? stored with
  | none => exact Matches.pure rfl
  | some rule =>
    refine Shifted.numbers.bind fun number => ?_
    dsimp only
    rw [copy_rename]
    dsimp only [Rule.rename]
    rw [unify_rename injective]
    cases unify (rule.copy number).head query with
    | none => exact Matches.pure rfl
    | some s =>
      dsimp only [Option.map_some]
      rw [Substitution.apply_rename injective]
      refine (each _).bind fun answers => Matches.pure ?_
      simp [Answers.rename,Substitution.compose_rename injective,
        Substitution.apply_rename injective]

theorem matches_infer (query : Atom) :
    Matches (Shifted first second) (infer evaluate query)
      (infer evaluateToo (query.rename (recount first second)))
      (Answers.rename (recount first second)) := by
  refine Shifted.reads fun space other renames => ?_
  rw [renames.bucket]
  exact (Shifted.lockstep le).gather (matches_inferFrom le each query) _

theorem matches_consult (chaining : Chaining) (query : Atom) :
    Matches (Shifted first second) (consult evaluate chaining query)
      (consult evaluateToo chaining (query.rename (recount first second)))
      (Answers.rename (recount first second)) := by
  have looked (inferred : Answers) : Matches (Shifted first second)
      (do return inferred ++ (← getThe Space).query query)
      (do return inferred.rename (recount first second) ++
        (← getThe Space).query (query.rename (recount first second)))
      (Answers.rename (recount first second)) := by
    refine Shifted.reads fun space other renames => Matches.pure ?_
    rw [renames.query (recount_leftInverse le).injective]
    exact List.map_append
  cases chaining with
  | enabled => exact (matches_infer le each query).bind looked
  | disabled => exact looked []

omit each in
theorem matches_evaluateWithin (depth : Nat) (chaining : Chaining) (query : Atom) :
    Matches (Shifted first second)
      (Interpreter.evaluateWithin .standard depth chaining query)
      (Interpreter.evaluateWithin .standard depth chaining (query.rename (recount first second)))
      (Answers.rename (recount first second)) := by
  induction depth generalizing chaining query with
  | zero => exact Matches.failure
  | succ depth ih =>
    rw [Interpreter.evaluateWithin,Interpreter.evaluateWithin,Registry.bind_find?_standard,
      Registry.bind_find?_standard,Atom.head?_rename]
    cases query.head?.bind Standard.ofName? with
    | none =>
      exact (Shifted.lockstep le).restricted query
        (matches_consult le (ih .disabled) chaining query)
    | some standard =>
      exact (Shifted.lockstep le).restricted query
        (matches_dispatch le (ih chaining) standard query)

end Evaluation

/-- No variable of the atom has a number from the bound on in its name. -/
def Atom.NumberedBelow (bound : Nat) (a : Atom) : Prop :=
  ∀ name ∈ a.variableNames, ∀ number ∈ Rule.numbers name, number < bound

instance (bound : Nat) (a : Atom) : Decidable (a.NumberedBelow bound) :=
  inferInstanceAs (Decidable (∀ name ∈ a.variableNames, ∀ number ∈ Rule.numbers name, number < bound))

section
variable {first second : Nat}

theorem Atom.NumberedBelow.rename_recount {a : Atom} (below : a.NumberedBelow first) :
    a.rename (Rule.recount first second) = a :=
  Atom.rename_of_fixed fun name inside =>
    Rule.recount_of_lt (below name ((a.mem_variableNames name).mpr inside))

theorem Shifted.of_numberedBelow {world : World}
    (below : ∀ a ∈ world.space.toList, a.NumberedBelow first) :
    Shifted first second { world with tried := first } { world with tried := second } where
  started := Nat.le_refl first
  tried := by rw [Rule.shift,if_pos (Nat.le_refl first),Nat.sub_self,Nat.add_zero]
  spaces := .of_fixed fun a stored => (below a stored).rename_recount

theorem Shifted.tries {world other : World} (shifted : Shifted first second world other) :
    ∃ tries, world.tried = first + tries ∧ other.tried = second + tries := by
  refine ⟨world.tried - first,(Nat.add_sub_cancel' shifted.started).symm,?_⟩
  rw [shifted.tried,Rule.shift,if_pos shifted.started]

end

/-- An evaluation gives the same answers and leaves the same space whatever number of rules has been
tried before, except that copied variables are numbered from that number on, if names that are there
from the start have only smaller numbers. It tries equally many rules. -/
theorem answers_recount (limit first second : Nat) (query : Atom) (world : World)
    (below : ∀ a ∈ query :: world.space.toList, a.NumberedBelow first ∧ a.NumberedBelow second)
    {answers : Answers} {later : World}
    (ran : ({ limit := limit } : Interpreter).answers query { world with tried := first } =
      some (answers,later)) :
    ∃ laterToo,
      ({ limit := limit } : Interpreter).answers query { world with tried := second } =
        some (answers.rename (Rule.recount first second),laterToo) ∧
      later.space.Renames (Rule.recount first second) laterToo.space ∧
      ∃ tries, later.tried = first + tries ∧ laterToo.tried = second + tries := by
  obtain ⟨asked,stored⟩ := List.forall_mem_cons.mp below
  rcases Nat.le_total first second with le | le
  · have alike := matches_evaluateWithin le limit .enabled query
    rw [asked.1.rename_recount] at alike
    obtain ⟨laterToo,ranToo,shifted⟩ :=
      alike.forth (.of_numberedBelow fun a inside => (stored a inside).1) ran
    exact ⟨laterToo,ranToo,shifted.spaces,shifted.tries⟩
  · -- Counting down would not tell names apart, so here the second evaluation is followed.
    have alike := matches_evaluateWithin le limit .enabled query
    rw [asked.2.rename_recount] at alike
    obtain ⟨answersToo,laterToo,ranToo,rfl,shifted⟩ :=
      alike.back (.of_numberedBelow fun a inside => (stored a inside).2) ran
    obtain ⟨tries,counted,countedToo⟩ := shifted.tries
    rw [Answers.rename_leftInverse (Rule.recount_leftInverse le)]
    exact ⟨laterToo,ranToo,shifted.spaces.inverse (Rule.recount_leftInverse le),tries,countedToo,counted⟩

private def boxed (name : String) : Atom := .expr [.sym "box",.var name]

private def boxing : Space := .ofList [.expr [.sym "on"],
  (Rule.mk (.expr [.sym "on"]) (.expr [.sym "lamp",boxed "x;3"])).toAtom]

/-- Looks for a lamp and stores what is found. -/
private def storing (a : Atom) : Atom :=
  .expr [.sym "and",.expr [.sym "lamp",a],.expr [.sym "assert",a]]

/-- The rule's own variable has a number, which stays. The copy's variable gets into the answer and
into the space. -/
theorem answers_recount_storing :
    (∀ a ∈ storing (.var "q") :: boxing.toList, a.NumberedBelow 41 ∧ a.NumberedBelow 7) ∧
      ∃ answers later laterToo,
        ({} : Interpreter).answers (storing (.var "q")) { space := boxing, tried := 41 } =
          some (answers,later) ∧
        ({} : Interpreter).answers (storing (.var "q")) { space := boxing, tried := 7 } =
          some (answers.rename (Rule.recount 41 7),laterToo) ∧
        answers.map Prod.fst = [storing (boxed "x;3;41")] ∧
        (answers.rename (Rule.recount 41 7)).map Prod.fst = [storing (boxed "x;3;7")] ∧
        later.space.Renames (Rule.recount 41 7) laterToo.space ∧
        boxed "x;3;41" ∈ later.space.toList := by
  have below : ∀ a ∈ storing (.var "q") :: boxing.toList,
    a.NumberedBelow 41 ∧ a.NumberedBelow 7 := by decide +kernel
  have returns : (({} : Interpreter).answers (storing (.var "q"))
    { space := boxing, tried := 41 }).map (fun step => (step.1.map Prod.fst,
      (step.1.rename (Rule.recount 41 7)).map Prod.fst,step.2.space.toList.getLast?)) =
        some ([storing (boxed "x;3;41")],[storing (boxed "x;3;7")],some (boxed "x;3;41")) := by
    decide +kernel
  obtain ⟨⟨answers,later⟩,ran,shown⟩ := Option.map_eq_some_iff.mp returns
  obtain ⟨laterToo,ranToo,renames,_⟩ :=
    answers_recount 10000 41 7 (storing (.var "q")) { space := boxing } below ran
  simp only [Prod.mk.injEq] at shown
  exact ⟨below,answers,later,laterToo,ran,ranToo,shown.1,shown.2.1,renames,
    List.mem_of_getLast? shown.2.2⟩

end AtomLogic
