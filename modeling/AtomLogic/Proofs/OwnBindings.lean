import AtomLogic.Proofs.CircularBindings
import AtomLogic.Proofs.NaturalJoin

/-! An answer and its bindings. What a rule or a conjunction answers is the query under the bindings
that come with it, also once only the variables of the query are kept in them. What is looked up is
the stored atom itself, which is the query under its bindings if it is ground. -/

namespace AtomLogic

open Substitution

/-- The answer is the query under its own bindings, which bind each name once. -/
structure Fits (query : Atom) (answer : Atom × Substitution) : Prop where
  namesOnce : answer.2.names.Nodup
  equal : answer.2.apply query = answer.1

variable {query : Atom}

/-- The answer loses nothing with the bindings of other variables. -/
theorem Fits.restrict {answer : Atom × Substitution} (fits : Fits query answer) :
    Fits query (answer.1,answer.2.restrict query.variableNames) where
  namesOnce := nodup_restrict fits.namesOnce _
  equal := by
    rw [apply_restrict fits.namesOnce fun name => (query.mem_variableNames name).mpr]
    exact fits.equal

theorem Fits.of_mem_query {space : Space} {answer : Atom × Substitution}
    (found : answer ∈ space.query query) (ground : answer.1.hasVariables = false) :
    Fits query answer := by
  obtain ⟨_,unified⟩ := (space.mem_query query answer.1 answer.2).mp found
  obtain ⟨normal,same⟩ := unify_sound unified
  exact ⟨normal.namesOnce,same.trans (Atom.instantiate_ground ground _)⟩

/-! ### What rules and conjunctions answer -/

/-- All answers of an evaluation bind each name once. -/
theorem gives_evaluateWithin (depth : Nat) (chaining : Chaining) (goal : Atom) :
    Gives (fun _ => True) (Interpreter.evaluateWithin .standard depth chaining goal)
      (AllClear [] goal) := by
  rw [← evaluateApart_nil]
  refine (gives_evaluateApart (List.forall_mem_nil _) depth chaining goal).mono ?_
  exact fun answers found answer member => (found answer member).1

section Evaluation

variable {evaluate : Atom → Eval Answers}
  (each : ∀ goal, Gives (fun _ => True) (evaluate goal) (AllClear [] goal))
include each

theorem gives_inferFrom_fits (query stored : Atom) :
    Gives (fun _ => True) (inferFrom evaluate query stored) fun answers =>
      ∀ answer ∈ answers, Fits query answer := by
  rw [inferFrom]
  cases Rule.ofAtom? stored with
  | none => exact Gives.pure (List.forall_mem_nil _)
  | some rule =>
    refine (Gives.any _).bind fun number _ => ?_
    dsimp only
    cases unified : unify (rule.copy number).head query with
    | none => exact Gives.pure (List.forall_mem_nil _)
    | some s =>
      refine (each _).bind fun answers clear => Gives.pure (List.forall_mem_map.mpr ?_)
      intro answer member
      have once := (unify_sound unified).1.namesOnce
      exact ⟨nodup_compose once (clear answer member).once,rfl⟩

theorem gives_infer_fits (query : Atom) :
    Gives (fun _ => True) (infer evaluate query) fun answers => ∀ answer ∈ answers, Fits query answer :=
  (Gives.any _).bind fun _ _ => Gives.gather fun stored _ => gives_inferFrom_fits each query stored

theorem gives_conjoin_fits {goals : List Atom} (nonempty : goals ≠ []) :
    Gives (fun _ => True) (Standard.conjoin evaluate goals) fun answers =>
      ∀ answer ∈ answers, Fits (conjunctionOf goals) answer := by
  rw [Standard.conjoin,if_neg (mt List.isEmpty_iff.mp nonempty)]
  have threads : Gives (fun _ => True) (Standard.meetAll evaluate goals [∅]) fun left =>
      ∀ s ∈ left, s.Clear [] (conjunctionOf goals) :=
    gives_meetAll each (by simp) (List.forall_mem_singleton.mpr .empty)
  refine threads.bind fun left clear => Gives.pure (List.forall_mem_map.mpr fun s among => ?_)
  exact ⟨(clear s among).once,rfl⟩

end Evaluation

/-! ### Whole evaluations -/

variable {limit : Nat} {chaining : Chaining} {world later : World} {answers : Answers}

/-- The stored atoms are looked up in the space that the rules leave behind. -/
theorem consult_eq_some {evaluate : Atom → Eval Answers}
    (ran : consult evaluate chaining query world = some (answers,later)) :
    ∃ inferred, answers = inferred ++ later.space.query query ∧
      (inferred = [] ∨ infer evaluate query world = some (inferred,later)) := by
  cases chaining with
  | disabled =>
    cases ran
    exact ⟨[],rfl,.inl rfl⟩
  | enabled =>
    obtain ⟨inferred,middle,source,rest⟩ := Eval.bind_eq_some_iff.mp ran
    cases rest
    exact ⟨inferred,rfl,.inr source⟩

/-- An answer to a pattern that is not the pattern under its bindings is a stored atom with variables. -/
theorem fits_or_stored (pattern : query.IsPattern)
    (ran : Interpreter.evaluateWithin .standard limit chaining query world = some (answers,later)) :
    ∀ answer ∈ answers, Fits query answer ∨
      answer.1 ∈ later.space.toList ∧ answer.1.head? = query.head? ∧
        answer.1.hasVariables = true := by
  cases limit with
  | zero => cases ran
  | succ depth =>
    rw [Interpreter.evaluateWithin,pattern.find?_eq_none] at ran
    obtain ⟨unrestricted,middle,consulted,done⟩ := Eval.bind_eq_some_iff.mp ran
    cases done
    obtain ⟨inferred,rfl,source⟩ := consult_eq_some consulted
    refine List.forall_mem_map.mpr fun answer member => ?_
    rcases List.mem_append.mp member with derived | found
    · left
      rcases source with rfl | source
      · cases derived
      · exact (gives_infer_fits (gives_evaluateWithin depth .disabled) query world trivial
          _ _ source answer derived).restrict
    · obtain ⟨name,headed,_⟩ := pattern
      obtain ⟨candidate,_⟩ := (later.space.mem_query query answer.1 answer.2).mp found
      obtain ⟨stored,headedToo⟩ := (Space.mem_candidates headed later.space answer.1).mp candidate
      cases ground : answer.1.hasVariables with
      | false => exact .inl (Fits.of_mem_query found ground).restrict
      | true => exact .inr ⟨stored,headedToo.trans headed.symm,rfl⟩

theorem fits_of_conjunction {goals : List Atom} (nonempty : goals ≠ [])
    (ran : Interpreter.evaluateWithin .standard limit chaining (conjunctionOf goals) world =
      some (answers,later)) :
    ∀ answer ∈ answers, Fits (conjunctionOf goals) answer := by
  cases limit with
  | zero => cases ran
  | succ depth =>
    rw [evaluateWithin_of_head? rfl,dispatch_conjunction] at ran
    obtain ⟨unrestricted,middle,conjoined,done⟩ := Eval.bind_eq_some_iff.mp ran
    cases done
    have fits := gives_conjoin_fits (gives_evaluateWithin depth chaining) nonempty world trivial
      _ _ conjoined
    exact List.forall_mem_map.mpr fun answer member => (fits answer member).restrict

/-- An answer binds variables of its query only, and it is the query under its bindings: for a
conjunction in every space, and for a pattern in a space whose atoms other than rules are ground, if
the rules that are tried store no atom with variables where the pattern is looked up. -/
theorem apply_answer (limit : Nat) (query : Atom) {world later : World} {answers : Answers}
    (ran : ({ limit := limit } : Interpreter).answers query world = some (answers,later)) :
    (∀ answer ∈ answers, ∀ name ∈ answer.2.names, query.mentions name = true) ∧
      (query.IsPattern →
        (∀ a ∈ world.space.toList, a.head? ≠ some Rule.symbol → a.hasVariables = false) →
        (∀ a ∈ later.space.toList, a ∉ world.space.toList → a.head? = query.head? →
          a.hasVariables = false) →
        ∀ answer ∈ answers, answer.2.apply query = answer.1) ∧
      ∀ goals : List Atom, goals ≠ [] → query = conjunctionOf goals →
        ∀ answer ∈ answers, answer.2.apply query = answer.1 := by
  rw [Interpreter.answers] at ran
  refine ⟨?keys,?pattern,?conjunction⟩
  case keys =>
    rw [← evaluateApart_nil] at ran
    have gives := gives_evaluateApart (List.forall_mem_nil _) limit .enabled query world trivial
    exact fun answer member => (gives answers later ran answer member).2
  case pattern =>
    intro pattern grounded storing answer member
    rcases fits_or_stored pattern ran answer member with fits | ⟨stored,headed,unbound⟩
    · exact fits.equal
    · have ground : answer.1.hasVariables = false := by
        by_cases old : answer.1 ∈ world.space.toList
        · refine grounded _ old fun rule => ?_
          obtain ⟨name,own,free⟩ := pattern
          rw [rule,own] at headed
          obtain rfl := Option.some.inj headed
          cases free
        · exact storing _ stored old headed
      rw [ground] at unbound
      cases unbound
  case conjunction =>
    rintro goals nonempty rfl answer member
    exact (fits_of_conjunction nonempty ran answer member).equal

private def mortal (a : Atom) : Atom := .expr [.sym "mortal",a]

private def human (a : Atom) : Atom := .expr [.sym "human",a]

private def fathering : World := { space := .ofList [human (.sym "laios"),
  (Rule.mk (.expr [.sym "and",human (.var "x"),
    .expr [.sym "assert",mortal (.expr [.sym "son",.var "x"])]]) (mortal (.var "x"))).toAtom] }

private def knotted : World :=
  { space := .ofList [mortal (.var "y"),human (.expr [.sym "son",.var "x"])] }

private def knot : List Atom := [mortal (.var "x"),human (.var "x")]

/-- The rule stores a ground atom that is looked up after it. The conjunction has a circular binding. -/
theorem apply_answer_fathering :
    (∃ answers later, ({} : Interpreter).answers (mortal (.var "w")) fathering =
        some (answers,later) ∧
      (mortal (.var "w")).IsPattern ∧
      (∀ a ∈ fathering.space.toList, a.head? ≠ some Rule.symbol → a.hasVariables = false) ∧
      (∀ a ∈ later.space.toList, a ∉ fathering.space.toList → a.head? = some "mortal" →
        a.hasVariables = false) ∧
      answers.length = 2 ∧ ∀ answer ∈ answers, answer.2.apply (mortal (.var "w")) = answer.1) ∧
    ∃ answers later, ({} : Interpreter).answers (conjunctionOf knot) knotted =
        some (answers,later) ∧
      answers.map Prod.snd = [single "x" (.expr [.sym "son",.var "x"])] ∧ knot ≠ [] ∧
      (∀ answer ∈ answers, ∀ name ∈ answer.2.names, (conjunctionOf knot).mentions name = true) ∧
      ∀ answer ∈ answers, answer.2.apply (conjunctionOf knot) = answer.1 := by
  constructor
  · obtain ⟨⟨answers,later⟩,ran,storing,size⟩ : ∃ step : Answers × World,
        ({} : Interpreter).answers (mortal (.var "w")) fathering = some step ∧
          (∀ a ∈ step.2.space.toList, a ∉ fathering.space.toList → a.head? = some "mortal" →
            a.hasVariables = false) ∧ step.1.length = 2 :=
      ⟨_,Option.eq_some_of_isSome (by decide +kernel),by decide +kernel,by decide +kernel⟩
    have pattern : (mortal (.var "w")).IsPattern := ⟨"mortal",rfl,rfl⟩
    have grounded : ∀ a ∈ fathering.space.toList, a.head? ≠ some Rule.symbol →
        a.hasVariables = false := by decide +kernel
    exact ⟨answers,later,ran,pattern,grounded,storing,size,
      (apply_answer 10000 _ ran).2.1 pattern grounded storing⟩
  · obtain ⟨⟨answers,later⟩,ran,bindings⟩ : ∃ step : Answers × World,
        ({} : Interpreter).answers (conjunctionOf knot) knotted = some step ∧
          step.1.map Prod.snd = [single "x" (.expr [.sym "son",.var "x"])] :=
      ⟨_,Option.eq_some_of_isSome (by decide +kernel),by decide +kernel⟩
    have applied := apply_answer 10000 _ ran
    have nonempty : knot ≠ [] := List.cons_ne_nil _ _
    exact ⟨answers,later,ran,bindings,nonempty,applied.1,applied.2.2 knot nonempty rfl⟩

private def sowing : Atom :=
  (Rule.mk (.expr [.sym "assert",.expr [.sym "p",.var "x"]]) (.expr [.sym "p",.sym "a"])).toAtom

/-- A rule whose body stores an atom with a variable: the ground query finds that atom, and no bindings
make it of the query. -/
theorem apply_answer_ne_of_stored :
    (Text.parseAtoms "(implies (assert (p $x)) (p a))").toOption = some [sowing] ∧
      (Text.parseAtom "(p a)").toOption = some (.expr [.sym "p",.sym "a"]) ∧
      (Atom.expr [.sym "p",.sym "a"]).IsPattern ∧
      (∀ a ∈ (Space.ofList [sowing]).toList, a.head? ≠ some Rule.symbol → a.hasVariables = false) ∧
      ∃ later, ({} : Interpreter).answers (.expr [.sym "p",.sym "a"])
          { space := .ofList [sowing] } =
        some ([(.expr [.sym "p",.sym "a"],∅),(.expr [.sym "p",.var "x;0"],∅)],later) ∧
      (∅ : Substitution).apply (.expr [.sym "p",.sym "a"]) ≠ .expr [.sym "p",.var "x;0"] := by
  refine ⟨by decide +kernel,by decide +kernel,⟨"p",rfl,rfl⟩,by decide +kernel,
    { space := .ofList [sowing,.expr [.sym "p",.var "x;0"]],tried := 1 },?_,by decide⟩
  decide +kernel

end AtomLogic
