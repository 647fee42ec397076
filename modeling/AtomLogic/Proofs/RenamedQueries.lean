import AtomLogic.Proofs.AlikeSpaces
import AtomLogic.Proofs.OneStep
import AtomLogic.Proofs.RelatedRuns
import AtomLogic.Text.Reader

/-! Queries with other names for their variables. Rules are renamed apart from a query, so only the
variables of stored atoms can capture its own. As long as no atom that is looked up mentions a
variable of the query or one of its new names, the evaluations of the query and of the renamed query
go the same way, and their answers correspond. -/

namespace AtomLogic

/-- Worlds in which equally many rules have been tried, and whose spaces differ in what is not
looked up. -/
structure Twins (kept : List String) (world other : World) : Prop where
  tried : other.tried = world.tried
  spaces : Alike kept world.space other.space

section Evaluation

variable {kept : List String} {names : String → String} (permutes : Permutes kept names)
include permutes

theorem Twins.query {world other : World} (twins : Twins kept world other) {pattern : Atom}
    (apart : LooksApart kept pattern world) :
    other.space.query (pattern.rename names) = (world.space.query pattern).rename names := by
  have fixed : (world.space.candidates pattern).map (Atom.rename names) =
      world.space.candidates pattern := by
    rw [List.map_congr_left fun a candidate => permutes.rename_of_apart (apart a candidate),
      List.map_id']
  rw [Space.query,Space.query,twins.spaces.candidates Key.of_rename apart,
    ← unifyAll_rename permutes.injective,fixed]

theorem Twins.lockstep : Lockstep names fun _ _ => Mirrors (Twins kept) fun _ => True where
  injective := permutes.injective
  pure := Mirrors.pure
  bind := Mirrors.bind
  add a next := by
    intro world other twins _ result later ran
    exact next { world with space := (world.space.add a).2 }
      { other with space := (other.space.add (a.rename names)).2 }
      ⟨twins.tried,twins.spaces.add permutes a⟩ trivial result later ran

variable {evaluate evaluateToo : Atom → Eval Answers}
  (each : ∀ goal, Mirrors (Twins kept) (fun _ => True) (evaluate goal)
    (evaluateToo (goal.rename names)) (Answers.rename names))
include each

theorem mirrors_execute (standard : Standard) (arguments : List Atom) :
    Mirrors (Twins kept)
      (fun world => ∀ pattern ∈ standard.lookups arguments, LooksApart kept pattern world)
      (standard.execute evaluate arguments)
      (standard.execute evaluateToo (arguments.map (Atom.rename names)))
      (Except.map (Answers.rename names)) := by
  rcases standard.lookups_cases arguments with
    ⟨pattern,rfl,rfl⟩ | ⟨pattern,template,rfl,rfl⟩ | ⟨a,rfl,rfl⟩ | blind
  · intro world other twins apart result later ran
    cases ran
    have found := twins.query permutes (apart pattern List.mem_cons_self)
    exact ⟨other,congrArg (fun answers => some (Except.ok answers,other)) found,twins⟩
  · intro world other twins apart result later ran
    cases ran
    have found := twins.query permutes (apart pattern List.mem_cons_self)
    refine ⟨other,?_,twins⟩
    change some (Except.ok ((other.space.query (pattern.rename names)).map _),other) = _
    rw [found]
    simp [Answers.rename,Substitution.apply_rename permutes.injective,Except.map]
  · have removed : Mirrors (Twins kept) (LooksApart kept a) (modifyGetThe Space (Space.remove a))
        (modifyGetThe Space (Space.remove (a.rename names))) id := by
      intro world other twins apart removed later ran
      obtain ⟨same,alike⟩ := twins.spaces.remove permutes
        fun b stored => apart b (Space.mem_candidates_of_mem_bucket stored)
      change some ((world.space.remove a).1,{ world with space := (world.space.remove a).2 }) = _ at ran
      cases ran
      exact ⟨_,congrArg (fun removed => some (removed,_)) same,twins.tried,alike⟩
    refine Mirrors.bind (fun world other twins apart => removed world other twins
      (apart a List.mem_cons_self)) fun removed => Mirrors.pure ?_
    rw [id]
    split <;> rfl
  · exact Mirrors.weaken ((Twins.lockstep permutes).execute each blind)

theorem mirrors_dispatch {before : World → Prop} (standard : Standard) (query : Atom) :
    Mirrors (Twins kept) before (dispatchApart kept evaluate standard query)
      (dispatch evaluateToo standard.operation (query.rename names)) (Answers.rename names) := by
  intro world other twins _ answers later ran
  obtain ⟨_,looked,ran⟩ := Option.bind_eq_some_iff.mp ran
  obtain ⟨apart,rfl⟩ := keepAllApart_eq_some.mp looked
  have executed := mirrors_execute permutes each standard query.arguments
  rw [← Atom.arguments_rename] at executed
  refine (executed.bind fun result => ?_) world other twins apart answers later ran
  cases result with
  | ok answers => exact Mirrors.pure rfl
  | error fault => exact Mirrors.pure rfl

omit each in
theorem mirrors_looked {before : World → Prop} (query : Atom) (inferred : Answers) :
    Mirrors (Twins kept) before
      (do keepApart kept query; return inferred ++ (← getThe Space).query query)
      (do return inferred.rename names ++ (← getThe Space).query (query.rename names))
      (Answers.rename names) := by
  intro world other twins _ answers later ran
  obtain ⟨_,looked,ran⟩ := Option.bind_eq_some_iff.mp ran
  obtain ⟨apart,rfl⟩ := keepApart_eq_some.mp looked
  cases ran
  refine ⟨other,?_,twins⟩
  change some (inferred.rename names ++ other.space.query (query.rename names),other) = _
  rw [twins.query permutes apart,Answers.rename,Answers.rename,Answers.rename,List.map_append]

/-- The copy of the rule has the same new variables on both sides, which the renaming leaves. -/
theorem mirrors_inferFrom (plain : ∀ name ∈ kept, ';' ∉ name.toList) (query stored : Atom) :
    Mirrors (Twins kept) (fun _ => True) (inferFrom evaluate query stored)
      (inferFrom evaluateToo (query.rename names) stored) (Answers.rename names) := by
  rw [inferFrom,inferFrom]
  cases Rule.ofAtom? stored with
  | none => exact Mirrors.pure rfl
  | some rule =>
    have numbered : Mirrors (Twins kept) (fun _ => True)
        (modifyGetThe World fun world => (world.tried,{ world with tried := world.tried + 1 }))
        (modifyGetThe World fun world => (world.tried,{ world with tried := world.tried + 1 }))
        id := by
      intro world other twins _ number later ran
      cases ran
      exact ⟨_,congrArg (fun tried => some (tried,_)) twins.tried,
        congrArg (· + 1) twins.tried,twins.spaces⟩
    refine numbered.bind fun number => ?_
    have fixed (a : Atom) : (a.rename (Rule.copyName number)).rename names =
        a.rename (Rule.copyName number) :=
      Atom.rename_of_fixed fun name inside => permutes.fixed name fun among =>
        plain name among (semicolon_mem_of_mentions_copy inside)
    have heads : unify (rule.copy number).head (query.rename names) =
        (unify (rule.copy number).head query).map (Substitution.rename names) := by
      rw [← unify_rename permutes.injective]
      exact congrArg (unify · _) (fixed rule.head).symm
    dsimp only [id]
    rw [heads]
    cases unify (rule.copy number).head query with
    | none => exact Mirrors.pure rfl
    | some s =>
      have body : (s.rename names).apply (rule.copy number).body =
          (s.apply (rule.copy number).body).rename names := by
        rw [← Substitution.apply_rename permutes.injective]
        exact congrArg _ (fixed rule.body).symm
      dsimp only [Option.map_some]
      rw [body]
      refine (each _).bind fun answers => Mirrors.pure ?_
      simp [Answers.rename,Substitution.compose_rename permutes.injective,
        Substitution.apply_rename permutes.injective]

end Evaluation

section
variable {kept : List String} {names : String → String} (permutes : Permutes kept names)
include permutes

theorem mirrors_disabled (depth : Nat) (query : Atom) :
    Mirrors (Twins kept) (fun _ => True) (evaluateApart kept depth .disabled query)
      (Interpreter.evaluateWithin .standard depth .disabled (query.rename names))
      (Answers.rename names) := by
  induction depth generalizing query with
  | zero => exact fun _ _ _ _ _ _ ran => nomatch ran
  | succ depth ih =>
    rw [evaluateApart,Interpreter.evaluateWithin,Registry.bind_find?_standard,Atom.head?_rename]
    cases query.head?.bind Standard.ofName? with
    | none => exact (Twins.lockstep permutes).restricted query (mirrors_looked permutes query [])
    | some standard =>
      exact (Twins.lockstep permutes).restricted query (mirrors_dispatch permutes ih standard query)

/-- From one world the query and the renamed query try the same rules. -/
theorem answers_rename (plain : ∀ name ∈ kept, ';' ∉ name.toList) (depth : Nat) {query : Atom}
    (unregistered : query.head?.bind Standard.ofName? = none) {world later : World}
    {answers : Answers}
    (ran : evaluateApart kept depth .enabled query world = some (answers,later)) :
    ∃ laterToo, Interpreter.evaluateWithin .standard depth .enabled (query.rename names) world =
      some (answers.rename names,laterToo) := by
  cases depth with
  | zero => cases ran
  | succ depth =>
    rw [evaluateApart,unregistered] at ran
    rw [Interpreter.evaluateWithin,Registry.bind_find?_standard,Atom.head?_rename,unregistered]
    let rules := world.space.bucket (.headed Rule.symbol)
    have inferred : Mirrors (Twins kept) (fun _ => True)
        (gather (inferFrom (evaluateApart kept depth .disabled) query) rules)
        (gather (inferFrom (Interpreter.evaluateWithin .standard depth .disabled)
          (query.rename names)) rules) (Answers.rename names) := by
      rw [← List.map_id rules]
      nth_rewrite 1 [List.map_id]
      exact (Twins.lockstep permutes).gather
        (mirrors_inferFrom permutes (mirrors_disabled permutes depth) plain query) rules
    have answered : Mirrors (Twins kept) (fun _ => True) (do
          let found ← gather (inferFrom (evaluateApart kept depth .disabled) query) rules
          keepApart kept query
          return found ++ (← getThe Space).query query) (do
          let found ← gather (inferFrom (Interpreter.evaluateWithin .standard depth .disabled)
            (query.rename names)) rules
          return found ++ (← getThe Space).query (query.rename names)) (Answers.rename names) :=
      inferred.bind fun found => mirrors_looked permutes query found
    obtain ⟨laterToo,ranToo,_⟩ :=
      (Twins.lockstep permutes).restricted query answered world world ⟨rfl,.refl _⟩ trivial answers
        later ran
    exact ⟨laterToo,ranToo⟩

end

/-- The names of its variables do not matter to a query whose head is no operation if no atom that
is looked up mentions one of its variables or one of the new names: under any new names that tell
the variables apart it has as many results. -/
theorem evaluate_rename_of_apart (limit : Nat) (query : Atom) (names : String → String)
    (unregistered : ∀ name, query.head? = some name → Registry.standard.contains name = false)
    (injective : ∀ m n, query.mentions m = true → query.mentions n = true →
      names m = names n → m = n)
    (plain : ∀ name, query.mentions name = true →
      ';' ∉ name.toList ∧ ';' ∉ (names name).toList) (world : World)
    (apart : (evaluateApart (query.variableNames ++ query.variableNames.map names) limit .enabled
      query world).isSome) :
    ∃ results later renamed laterToo,
      ({ limit := limit } : Interpreter).evaluate query world = some (results,later) ∧
      ({ limit := limit } : Interpreter).evaluate (query.rename names) world =
        some (renamed,laterToo) ∧
      renamed.length = results.length ∧
      ({ limit := limit } : Interpreter).succeeds query world = some (!results.isEmpty,later) ∧
      ({ limit := limit } : Interpreter).succeeds (query.rename names) world =
        some (!results.isEmpty,laterToo) := by
  obtain ⟨⟨answers,later⟩,ran⟩ := Option.isSome_iff_exists.mp apart
  have told : ∀ m ∈ query.variableNames, ∀ n ∈ query.variableNames, names m = names n → m = n := by
    simp only [Atom.mem_variableNames]
    exact fun m inside n insideToo => injective m n inside insideToo
  obtain ⟨permuted,permutes,agrees⟩ := exists_permutes names query.variableNames told
  have plain : ∀ name ∈ query.variableNames ++ query.variableNames.map names, ';' ∉ name.toList := by
    rw [List.forall_mem_append,List.forall_mem_map]
    simp only [Atom.mem_variableNames]
    exact ⟨fun name inside => (plain name inside).1,fun name inside => (plain name inside).2⟩
  have headed : query.head?.bind Standard.ofName? = none := by
    rw [← Option.map_eq_none_iff (f := Standard.operation),← Registry.bind_find?_standard,
      Option.bind_eq_none_iff]
    exact fun name head => Option.isNone_iff_eq_none.mp
      (Option.isSome_eq_false_iff.mp (unregistered name head))
  have same : query.rename permuted = query.rename names :=
    Atom.rename_congr fun name inside => agrees name ((query.mem_variableNames name).mpr inside)
  obtain ⟨laterToo,ranToo⟩ := answers_rename permutes plain limit headed ran
  rw [same] at ranToo
  have answered : ({ limit := limit } : Interpreter).answers query world = some (answers,later) :=
    evaluateWithin_of_apart ran
  refine ⟨answers.map Prod.fst,later,(answers.rename permuted).map Prod.fst,laterToo,
    Eval.map_eq_some answered _,Eval.map_eq_some ranToo _,?_,?_,?_⟩
  · rw [Answers.rename,List.length_map,List.length_map,List.length_map]
  · rw [List.isEmpty_map]
    exact Eval.map_eq_some answered fun answers => !answers.isEmpty
  · have empty : (answers.rename permuted).isEmpty = answers.isEmpty := List.isEmpty_map
    rw [List.isEmpty_map,← empty]
    exact Eval.map_eq_some ranToo fun answers => !answers.isEmpty

private def withVariable (name : String) : Atom := .expr [.sym "p",.sym "b",.var name]

private def capturing : Space := .ofList [.expr [.sym "p",.var "x",.sym "a"]]

private def ruled : Space := .ofList [.expr [.sym "q",.var "z",.sym "a"],
  (Rule.mk (.expr [.sym "q",.var "x",.var "y"]) (.expr [.sym "p",.var "x",.var "y"])).toAtom]

/-- The rule mentions both names of the variable, but the stored atom, which is all that is looked
up, mentions neither. -/
theorem evaluate_rename_of_apart_ruled :
    (evaluateApart ["x","y"] 10000 .enabled (withVariable "x") { space := ruled }).isSome ∧
      ∃ results later renamed laterToo,
        ({} : Interpreter).evaluate (withVariable "x") { space := ruled } = some (results,later) ∧
        ({} : Interpreter).evaluate (withVariable "y") { space := ruled } =
          some (renamed,laterToo) ∧
        renamed.length = results.length ∧ results = [.expr [.sym "p",.sym "b",.sym "a"]] := by
  have only : ∀ name, (withVariable "x").mentions name = true → name = "x" := by
    intro name inside
    rw [← Atom.mem_variableNames] at inside
    exact List.mem_singleton.mp inside
  have apart : (evaluateApart ["x","y"] 10000 .enabled (withVariable "x")
    { space := ruled }).isSome := by decide +kernel
  have shown : (({} : Interpreter).evaluate (withVariable "x") { space := ruled }).map Prod.fst =
    some [.expr [.sym "p",.sym "b",.sym "a"]] := by decide +kernel
  obtain ⟨results,later,renamed,laterToo,ran,ranToo,same,_⟩ :=
    evaluate_rename_of_apart 10000 (withVariable "x") (fun _ => "y")
      (fun name head => by cases head; decide)
      (fun m n inside insideToo _ => (only m inside).trans (only n insideToo).symm)
      (fun name inside => by rw [only name inside]; decide) { space := ruled } apart
  rw [ran] at shown
  exact ⟨apart,results,later,renamed,laterToo,ran,ranToo,same,Option.some.inj shown⟩

/-- With a variable of the same name stored, the query fails that succeeds under another name. -/
theorem captured_of_stored_variable :
    (Text.parseAtoms "(p $x a)").toOption.map Space.ofList = some capturing ∧
      (Text.parseAtom "(p b $x)").toOption = some (withVariable "x") ∧
      (Text.parseAtom "(p b $y)").toOption = some (withVariable "y") ∧
      (withVariable "x").rename (fun _ => "y") = withVariable "y" ∧
      (({} : Interpreter).succeeds (withVariable "x") { space := capturing }).map Prod.fst =
        some false ∧
      (({} : Interpreter).succeeds (withVariable "y") { space := capturing }).map Prod.fst =
        some true := by
  refine ⟨?_,?_,?_,?_,?_,?_⟩ <;> decide +kernel

end AtomLogic