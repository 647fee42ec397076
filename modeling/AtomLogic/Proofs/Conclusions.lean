import AtomLogic.Proofs.CircularBindings
import AtomLogic.Proofs.Materialization
import AtomLogic.Proofs.Nesting
import AtomLogic.Proofs.RenamedQueries

/-! Conclusions that are stored and conclusions that are inferred. Applying a rule evaluates its body
as it is written. Inferring its head evaluates the body of a copy, under the substitution that unifies
the copy's head with the rule's own. That substitution does no more than give the variables other
names, so both evaluations go the same way, and the conclusions without variables are the same. -/

namespace AtomLogic
open Substitution

/-- Asks for what is stored under a pattern, or whether atoms are equal. -/
def Atom.IsTest (a : Atom) : Prop :=
  a.IsPattern ∨ ∃ arguments, a = .expr (.sym Standard.equality.name :: arguments)

/-- Connectives of tests. -/
def Atom.IsCondition : Atom → Prop := BuiltFrom IsTest [.conjunction,.disjunction,.negation]

/-- The rule is stored, and all that is stored with it are ground atoms that are no rules. -/
structure Space.Sole (space : Space) (rule : Rule) : Prop where
  stored : rule.toAtom ∈ space.toList
  others : ∀ a ∈ space.toList, a ≠ rule.toAtom → Rule.ofAtom? a = none ∧ a.hasVariables = false

/-! ### Evaluating a condition -/

theorem Space.Sole.looksApart {world : World} {rule : Rule} (sole : world.space.Sole rule)
    {pattern : Atom} (isPattern : pattern.IsPattern) (names : List String) :
    LooksApart names pattern world := by
  intro a candidate
  obtain ⟨name,headed,free⟩ := isPattern
  obtain ⟨stored,headedToo⟩ := (mem_candidates headed world.space a).mp candidate
  have noRule : Rule.ofAtom? a = none := Atom.IsPattern.ofAtom?_eq_none ⟨name,headedToo,free⟩
  obtain ⟨_,ground⟩ := sole.others a stored fun same => by
    rw [same,rule.ofAtom?_toAtom] at noRule
    cases noRule
  exact (a.isApart_iff names).mpr fun name _ => Atom.not_mentions_of_ground ground name

section Returns

variable {world : World}

/-- Connectives and equations look nothing up themselves. -/
theorem returns_of_operands {names : List String} {standard : Standard}
    (among : standard ∈ [.conjunction,.disjunction,.negation,.equality]) {goals : List Atom}
    {depth : Nat} (returns : standard.isConnective = true → ∀ goal ∈ goals, ∀ values,
      Returns (· = world) (evaluateApart names depth .disabled (goal.instantiate values))) :
    Returns (· = world)
      (evaluateApart names (depth + 1) .disabled (.expr (.sym standard.name :: goals))) := by
  have blind : standard.lookups goals = [] := by
    simp only [List.mem_cons,List.not_mem_nil,or_false] at among
    rcases among with rfl | rfl | rfl | rfl <;> rfl
  have executed : Returns (· = world)
      (standard.execute (evaluateApart names depth .disabled) goals) := by
    refine Returns.execute standard returns (fun same => ?_) fun same => ?_
    · rw [same] at among
      simp at among
    · rw [same] at among
      simp at among
  rw [evaluateApart,Atom.head?,Option.bind_some,Standard.ofName?_name]
  refine Returns.bind ?_ fun answers => Returns.pure _
  rw [dispatchApart,Atom.arguments,blind]
  exact (Returns.pure ()).bind fun _ => Returns.dispatch executed

/-- Evaluating a condition returns and leaves the world as it is. It looks at ground atoms only, so
it keeps any names apart. -/
theorem returns_condition {rule : Rule} (sole : world.space.Sole rule) {condition : Atom}
    (isCondition : condition.IsCondition) (names : List String) (values : String → Atom) {depth : Nat}
    (enough : condition.depth ≤ depth) :
    Returns (· = world) (evaluateApart names depth .disabled (condition.instantiate values)) := by
  induction isCondition generalizing values depth with
  | @basic a test =>
    rcases test with pattern | ⟨arguments,rfl⟩
    · obtain ⟨name,headed,_⟩ := id pattern
      obtain ⟨depth,rfl⟩ := Atom.exists_depth_of_head? headed enough
      have instanceToo := pattern.instantiate values
      have kept : Returns (· = world) (keepApart names (a.instantiate values)) := by
        rintro _ rfl
        exact ⟨(),_,keepApart_eq_some.mpr ⟨sole.looksApart instanceToo names,rfl⟩,rfl⟩
      rw [evaluateApart,instanceToo.ofName?_eq_none]
      refine Returns.bind ?_ fun answers => Returns.pure _
      exact (Returns.pure []).bind fun _ => kept.bind fun _ => Returns.space.bind fun _ =>
        Returns.pure _
    · obtain ⟨depth,rfl⟩ := Atom.exists_depth_of_head? rfl enough
      rw [Atom.instantiate_expr,List.map_cons,Atom.instantiate_sym]
      exact returns_of_operands (by decide) fun connective => Bool.noConfusion connective
  | @connective standard goals among _ ih =>
    obtain ⟨depth,rfl⟩ := Atom.exists_depth_of_head? rfl enough
    rw [Atom.instantiate_expr,List.map_cons,Atom.instantiate_sym]
    refine returns_of_operands (List.mem_append_left [_] among) fun _ => ?_
    refine List.forall_mem_map.mpr fun goal asked others => ?_
    rw [Atom.instantiate_instantiate]
    exact ih goal asked _ (Atom.depth_le_of_operand asked enough)

end Returns

/-! ### Earlier trials -/

/-- The spaces are the same, whatever else differs. -/
def SameSpace (world other : World) : Prop := other.space = world.space

theorem SameSpace.respects : Respects (m := Eval) (n := Eval) fun _ x y =>
    Mirrors SameSpace (fun _ => True) x y id where
  pure _ := Mirrors.pure rfl
  bind first next := first.bind next
  space := by
    intro world other same _ space later ran
    cases ran
    exact ⟨other,congrArg (fun space => some (space,other)) same,same⟩
  change change := by
    intro world other same _ result later ran
    cases ran
    exact ⟨{ other with space := (change world.space).2 },
      congrArg (fun space => some ((change space).1,{ other with space := (change space).2 })) same,rfl⟩

/-- Without rules, evaluation does not depend on how many of them have been tried. -/
theorem mirrors_sameSpace (depth : Nat) (query : Atom) :
    Mirrors SameSpace (fun _ => True) (Interpreter.evaluateWithin .standard depth .disabled query)
      (Interpreter.evaluateWithin .standard depth .disabled query) id := by
  induction depth generalizing query with
  | zero => exact fun _ _ _ _ _ _ ran => nomatch ran
  | succ depth ih =>
    rw [Interpreter.evaluateWithin,Registry.bind_find?_standard]
    cases query.head?.bind Standard.ofName? with
    | none =>
      refine SameSpace.respects.bind ?_ fun answers => SameSpace.respects.pure _
      exact (SameSpace.respects.pure []).bind fun _ => SameSpace.respects.space.bind fun _ =>
        SameSpace.respects.pure _
    | some standard =>
      refine SameSpace.respects.bind ?_ fun answers => SameSpace.respects.pure _
      refine (SameSpace.respects.execute ih standard query.arguments).bind fun result => ?_
      cases result <;> exact SameSpace.respects.pure _

/-! ### The copy of a rule -/

/-- The substitution that unifies the head of a copy with the rule's own gives the variables of the
copy other names, and different ones. -/
theorem Rule.exists_unifier_copy (rule : Rule) (number : Nat)
    (plain : ∀ name, rule.head.mentions name = true → ';' ∉ name.toList) :
    ∃ (s : Substitution) (names : String → String), unify (rule.copy number).head rule.head = some s ∧
      Function.Injective names ∧
      ∀ a : Atom, s.apply (a.rename (copyName number)) = a.rename names := by
  obtain ⟨values,onCopy,elsewhere⟩ := exists_values_copy number .var .var
  have original : (rule.copy number).head.instantiate values = rule.head := by
    rw [copy,Atom.instantiate_rename]
    exact (Atom.instantiate_congr fun name _ => onCopy name).trans rule.head.instantiate_self
  have own : rule.head.instantiate values = rule.head :=
    (Atom.instantiate_congr fun name inside => elsewhere name (plain name inside)).trans
      rule.head.instantiate_self
  obtain ⟨s,unified,factors⟩ := unify_complete (original.trans own.symm)
  -- a copied variable is assigned the original variable, so it can be bound to nothing but a variable
  have named (name : String) : ∃ new, s.value (copyName number name) = .var new ∧
      values new = .var name := by
    have through : (s.value (copyName number name)).instantiate values = .var name :=
      (factors (.var (copyName number name))).trans (onCopy name)
    cases value : s.value (copyName number name) with
    | var new =>
      rw [value] at through
      exact ⟨new,rfl,through⟩
    | sym symbol =>
      rw [value] at through
      cases through
    | expr children =>
      rw [value,Atom.instantiate_expr] at through
      cases through
  choose names renamed back using named
  refine ⟨s,names,unified,fun m n same => ?_,fun a => ?_⟩
  · exact Atom.var.inj ((back m).symm.trans ((congrArg values same).trans (back n)))
  · rw [apply,Atom.instantiate_rename]
    exact Atom.instantiate_congr fun name _ => renamed name

/-- On the variables of the rule the other names are those of a permutation. -/
theorem Rule.exists_permutes_copy (rule : Rule) (number : Nat)
    (plain : ∀ name, rule.head.mentions name = true → ';' ∉ name.toList) :
    ∃ (s : Substitution) (kept : List String) (names : String → String), Permutes kept names ∧
      unify (rule.copy number).head rule.head = some s ∧
      s.apply (rule.copy number).body = rule.body.rename names ∧
      s.apply rule.head = rule.head.rename names := by
  obtain ⟨s,names,unified,injective,applied⟩ := rule.exists_unifier_copy number plain
  obtain ⟨permuted,permutes,agrees⟩ :=
    exists_permutes names rule.toAtom.variableNames fun _ _ _ _ same => injective same
  have part {a : Atom} (inside : ∀ name, a.mentions name = true → rule.toAtom.mentions name = true) :
      a.rename permuted = a.rename names :=
    Atom.rename_congr fun name mentioned =>
      agrees name ((Atom.mem_variableNames _ _).mpr (inside name mentioned))
  refine ⟨s,_,permuted,permutes,unified,?_,?_⟩
  · rw [part fun name inside => by simp [toAtom,inside]]
    exact applied rule.body
  · rw [part fun name inside => by simp [toAtom,inside],← (unify_sound unified).2]
    exact applied rule.head

/-! ### Inference from a single rule -/

theorem gather_of_only {α β : Type} {f : α → Eval (List β)} {a : α} {as : List α}
    (once : as.Nodup) (among : a ∈ as) (others : ∀ b ∈ as, b ≠ a → f b = pure []) :
    gather f as = f a := by
  induction as with
  | nil => cases among
  | cons first as ih =>
    rw [List.nodup_cons] at once
    rw [List.forall_mem_cons] at others
    rw [gather]
    rcases List.mem_cons.mp among with rfl | later
    · have nothing : ∀ b ∈ as, f b = pure [] :=
        fun b member => others.2 b member fun same => once.1 (same ▸ member)
      rw [gather_eq_nil nothing]
      simp only [pure_bind,List.append_nil]
      exact bind_pure _
    · have differs : first ≠ a := fun same => once.1 (same ▸ later)
      rw [others.1 differs,ih once.2 later others.2]
      simp only [pure_bind,List.nil_append]
      exact bind_pure _

theorem infer_of_sole {world : World} {rule : Rule} (sole : world.space.Sole rule)
    (evaluate : Atom → Eval Answers) (query : Atom) :
    infer evaluate query world = inferFrom evaluate query rule.toAtom world := by
  have among : rule.toAtom ∈ world.space.bucket (.headed Rule.symbol) :=
    (world.space.mem_bucket_iff _ _).mpr ⟨sole.stored,rfl⟩
  change gather (inferFrom evaluate query) (world.space.bucket (.headed Rule.symbol)) world = _
  rw [gather_of_only (world.space.nodup_bucket _) among]
  intro a filed differs
  exact inferFrom_of_none (sole.others a ((world.space.mem_bucket_iff _ a).mp filed).1 differs).1 _ _

theorem inferFrom_of_unified {evaluate : Atom → Eval Answers} {query : Atom} {rule : Rule}
    {number : Nat} {s : Substitution} (unified : unify (rule.copy number).head query = some s)
    {world later : World} {answers : Answers}
    (ran : evaluate (s.apply (rule.copy number).body) { world with tried := number + 1 } =
      some (answers,later)) :
    inferFrom evaluate query rule.toAtom { world with tried := number } =
      some (answers.map fun (_,t) => ((s.compose t).apply query,s.compose t),later) := by
  rw [inferFrom,rule.ofAtom?_toAtom]
  refine Eval.bind_eq_some_iff.mpr ⟨number,{ world with tried := number + 1 },rfl,?_⟩
  dsimp only
  rw [unified]
  exact Eval.map_eq_some ran _

/-! ### Both ways -/

/-- Other names for variables do not matter to what is ground and new. -/
theorem Space.newAmong_rename (space : Space) (names : String → String) (atoms : List Atom) :
    space.newAmong (atoms.map (Atom.rename names)) = space.newAmong atoms := by
  have fixed {a : Atom} (ground : a.hasVariables = false) : a.rename names = a :=
    Atom.instantiate_ground ground _
  have same : ((fun a => !a.hasVariables && !space.contains a) ∘ Atom.rename names) =
      fun a => !a.hasVariables && !space.contains a := by
    funext a
    rw [Function.comp_apply,Atom.hasVariables_rename]
    cases ground : a.hasVariables with
    | false => rw [fixed ground]
    | true => rfl
  rw [newAmong,newAmong,List.filter_map,same]
  congr 1
  refine (List.map_congr_left fun a member => fixed ?_).trans (List.map_id' _)
  simpa using (Bool.and_eq_true_iff.mp (List.mem_filter.mp member).2).1

theorem evaluates_condition {kept : List String} {names : String → String}
    (permutes : Permutes kept names) {world : World} {rule : Rule} (sole : world.space.Sole rule)
    {condition : Atom} (isCondition : condition.IsCondition) :
    ∃ answers : Answers, ∀ limit, condition.depth ≤ limit →
      Interpreter.evaluateWithin .standard limit .disabled condition world = some (answers,world) ∧
      ∀ number, ∃ later, Interpreter.evaluateWithin .standard limit .disabled (condition.rename names)
        { world with tried := number } = some (answers.rename names,later) := by
  have returns := returns_condition sole isCondition kept .var (Nat.le_refl _)
  rw [condition.instantiate_self] at returns
  obtain ⟨answers,later,ran,same⟩ := returns world rfl
  rw [same] at ran
  refine ⟨answers,fun limit enough => ⟨?_,fun number => ?_⟩⟩
  · exact extends_evaluateWithin enough .disabled condition _ _ (evaluateWithin_of_apart ran)
  · obtain ⟨_,renamed,_⟩ := mirrors_disabled permutes condition.depth condition world world
      ⟨rfl,.refl _⟩ trivial answers world ran
    obtain ⟨later,ranToo,_⟩ := mirrors_sameSpace condition.depth (condition.rename names) world
      { world with tried := number } rfl trivial _ _ renamed
    exact ⟨later,extends_evaluateWithin enough .disabled _ _ _ ranToo⟩

/-- What is inferred for the rule's own head is what applying the rule concludes, with other names
for variables. -/
theorem infer_head {rule : Rule} (isCondition : rule.body.IsCondition)
    (plain : ∀ name, rule.head.mentions name = true → ';' ∉ name.toList) {world : World}
    (sole : world.space.Sole rule) (number : Nat) :
    ∃ (answers : Answers) (names : String → String), ∀ limit, rule.body.depth ≤ limit →
      Interpreter.evaluateWithin .standard limit .disabled rule.body world = some (answers,world) ∧
      ∃ derived later, infer (Interpreter.evaluateWithin .standard limit .disabled) rule.head
        { world with tried := number } = some (derived,later) ∧
        derived.map Prod.fst = answers.map fun answer => (answer.2.apply rule.head).rename names := by
  obtain ⟨s,kept,names,permutes,unified,body,head⟩ := rule.exists_permutes_copy number plain
  obtain ⟨answers,runs⟩ := evaluates_condition permutes sole isCondition
  refine ⟨answers,names,fun limit enough => ⟨(runs limit enough).1,?_⟩⟩
  obtain ⟨later,ran⟩ := (runs limit enough).2 (number + 1)
  have once := namesOnce_of_evaluateWithin ran
  rw [← body] at ran
  have soleToo : { world with tried := number : World }.space.Sole rule := sole
  refine ⟨_,later,(infer_of_sole soleToo _ _).trans (inferFrom_of_unified unified ran),?_⟩
  rw [List.map_map,Answers.rename,List.map_map]
  refine List.map_congr_left fun answer member => ?_
  have onceToo : (answer.2.rename names).names.Nodup := once _ (List.mem_map_of_mem member)
  change (s.compose (answer.2.rename names)).apply rule.head = _
  rw [apply_compose (unify_sound unified).1.namesOnce onceToo,head,apply_rename permutes.injective]

/-- Where one rule is stored with ground atoms, applying it stores and returns the conclusions that are
inferred for its own head, as far as they are ground and new, each where it first occurs. -/
theorem applyRule_eq_inferred {rule : Rule} (isCondition : rule.body.IsCondition)
    (plain : ∀ name, rule.head.mentions name = true → ';' ∉ name.toList) {world : World}
    (sole : world.space.Sole rule) {limit more : Nat} (enough : rule.body.depth ≤ limit)
    (enoughToo : rule.body.depth ≤ more) (number : Nat) :
    ∃ derived later added,
      infer (Interpreter.evaluateWithin .standard limit .disabled) rule.head
        { world with tried := number } = some (derived,later) ∧
      added = ((derived.map Prod.fst).filter fun a =>
        !a.hasVariables && !world.space.contains a).eraseDups ∧
      ({ limit := more } : Interpreter).applyRule rule.toAtom world =
        some (.ok added,{ world with space := (world.space.addAll added).2 }) := by
  obtain ⟨answers,names,runs⟩ := infer_head isCondition plain sole number
  obtain ⟨_,derived,later,inferred,concluded⟩ := runs limit enough
  obtain ⟨ran,_⟩ := runs more enoughToo
  refine ⟨derived,later,world.space.newAmong (derived.map Prod.fst),inferred,rfl,?_⟩
  have same : derived.map Prod.fst =
      (answers.map fun answer => answer.2.apply rule.head).map (Atom.rename names) := by
    rw [concluded,List.map_map]
    rfl
  have known : world.space.add rule.toAtom = (false,world.space) := Space.add_of_mem sole.stored
  have stored : (modifyGetThe Space (Space.add rule.toAtom) : Eval Bool) world = some (false,world) :=
    congrArg (fun step => some (step.1,{ world with space := step.2 })) known
  rw [same,Space.newAmong_rename,Interpreter.applyRule,rule.ofAtom?_toAtom]
  refine Eval.bind_eq_some_iff.mpr ⟨false,world,stored,?_⟩
  refine Eval.bind_eq_some_iff.mpr ⟨answers,world,ran,?_⟩
  exact Eval.map_eq_some (addGround_eq _ world) _

private def located (a b : Atom) : Atom := .expr [.sym "at",a,b]

private def placing : Rule :=
  ⟨.expr [.sym "and",.expr [.sym "robot",.var "x"],.expr [.sym "not",.expr [.sym "lost",.var "x"]],
    .expr [.sym "or",.expr [.sym "seen",.var "x",.var "y"],.expr [.sym "equal",.var "y",.sym "dock"],
      .expr [.sym "robot",.var "x"]]],located (.var "x") (.var "y")⟩

private def robots : World := { space := .ofList [placing.toAtom,
  .expr [.sym "robot",.sym "r"],.expr [.sym "robot",.sym "s"],.expr [.sym "lost",.sym "s"],
  .expr [.sym "seen",.sym "r",.sym "hall"],.expr [.sym "seen",.sym "r",.sym "dock"],
  located (.sym "r") (.sym "hall")] }

/-- Of four conclusions one is stored, one has a variable, and two are the same. -/
theorem applyRule_eq_inferred_robots :
    placing.body.IsCondition ∧ robots.space.Sole placing ∧ ∃ derived later,
      infer (Interpreter.evaluateWithin .standard 10000 .disabled) placing.head
        { robots with tried := 41 } = some (derived,later) ∧
      derived.map Prod.fst = [located (.sym "r") (.sym "hall"),located (.sym "r") (.sym "dock"),
        located (.sym "r") (.sym "dock"),located (.sym "r") (.var "y")] ∧
      ({} : Interpreter).applyRule placing.toAtom robots =
        some (.ok [located (.sym "r") (.sym "dock")],
          { robots with space := (robots.space.add (located (.sym "r") (.sym "dock"))).2 }) := by
  have asks : ∀ name ∈ ["robot","lost","seen"], ∀ arguments,
      (Atom.expr (.sym name :: arguments)).IsCondition := by
    intro name among arguments
    refine .basic (.inl ⟨name,rfl,?_⟩)
    simp only [List.mem_cons,List.not_mem_nil,or_false] at among
    rcases among with rfl | rfl | rfl <;> rfl
  have isCondition : placing.body.IsCondition := by
    refine @Atom.BuiltFrom.connective _ _ .conjunction _ (by decide) ?_
    refine List.forall_mem_cons.mpr ⟨asks "robot" (by decide) _,?_⟩
    refine List.forall_mem_cons.mpr ⟨?lost,List.forall_mem_singleton.mpr ?placed⟩
    case lost =>
      refine @Atom.BuiltFrom.connective _ _ .negation _ (by decide) ?_
      exact List.forall_mem_singleton.mpr (asks "lost" (by decide) _)
    case placed =>
      refine @Atom.BuiltFrom.connective _ _ .disjunction _ (by decide) ?_
      refine List.forall_mem_cons.mpr ⟨asks "seen" (by decide) _,?_⟩
      refine List.forall_mem_cons.mpr ⟨.basic (.inr ⟨_,rfl⟩),?_⟩
      exact List.forall_mem_singleton.mpr (asks "robot" (by decide) _)
  have plain : ∀ name, placing.head.mentions name = true → ';' ∉ name.toList := by
    intro name inside
    simp [placing,located] at inside
    rcases inside with rfl | rfl <;> decide
  have sole : robots.space.Sole placing := ⟨by decide +kernel,by decide +kernel⟩
  have nested : placing.body.depth ≤ 10000 := by decide
  obtain ⟨derived,later,added,inferred,new,applied⟩ :=
    applyRule_eq_inferred isCondition plain sole nested nested 41
  have shown : (infer (Interpreter.evaluateWithin .standard 10000 .disabled) placing.head
      { robots with tried := 41 }).map (fun step => step.1.map Prod.fst) =
        some [located (.sym "r") (.sym "hall"),located (.sym "r") (.sym "dock"),
          located (.sym "r") (.sym "dock"),located (.sym "r") (.var "y")] := by decide +kernel
  rw [inferred] at shown
  have shown : derived.map Prod.fst = _ := Option.some.inj shown
  have one : added = [located (.sym "r") (.sym "dock")] := by
    rw [new,shown]
    decide +kernel
  rw [one] at applied
  exact ⟨isCondition,sole,derived,later,inferred,shown,applied⟩

end AtomLogic
