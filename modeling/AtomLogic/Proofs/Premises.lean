import AtomLogic.Interpreter
import AtomLogic.Proofs.Composition
import AtomLogic.Proofs.Ensures
import AtomLogic.Proofs.MostGeneral
import AtomLogic.Proofs.SpaceSteps

/-! Evaluating the premises of a rule: patterns that no operation answers, one of them or a
conjunction. The substitutions that come out are those under which every premise is stored,
up to instantiation. -/

namespace AtomLogic

/-- Headed by a symbol that is no standard operation. -/
def Atom.IsPattern (a : Atom) : Prop :=
  ∃ name, a.head? = some name ∧ Registry.standard.find? name = none

/-- A pattern under whose head only ground atoms are stored. -/
structure Atom.Extensional (space : Space) (a : Atom) : Prop where
  pattern : a.IsPattern
  ground : ∀ b ∈ space.toList, b.head? = a.head? → b.hasVariables = false

/-- The goals of a body: those of a conjunction, otherwise the body itself. -/
def Atom.goals (body : Atom) : List Atom :=
  if body.head? = some Standard.conjunction.name then body.arguments else [body]

/-- Apart from rules, the stored atoms are ground. -/
def Space.Grounded (space : Space) : Prop :=
  ∀ a ∈ space.toList, Rule.ofAtom? a = none → a.hasVariables = false

/-- Apart from rules, whose premises are patterns, the stored atoms are ground. -/
structure Space.Definite (space : Space) : Prop where
  facts : ∀ a ∈ space.toList, Rule.ofAtom? a = none → a.hasVariables = false
  premises : ∀ a ∈ space.toList, ∀ rule, Rule.ofAtom? a = some rule →
    ∀ goal ∈ rule.body.goals, goal.IsPattern

theorem Space.Definite.grounded {space : Space} (definite : space.Definite) : space.Grounded :=
  definite.facts

open Substitution

theorem Atom.IsPattern.instantiate {a : Atom} (pattern : a.IsPattern) (values : String → Atom) :
    (a.instantiate values).IsPattern := by
  obtain ⟨name,headed,free⟩ := pattern
  exact ⟨name,head?_instantiate headed values,free⟩

theorem Atom.IsPattern.find?_eq_none {a : Atom} (pattern : a.IsPattern) :
    a.head?.bind Registry.standard.find? = none := by
  obtain ⟨name,headed,free⟩ := pattern
  rw [headed,Option.bind_some,free]

theorem Atom.IsPattern.ofName?_eq_none {a : Atom} (pattern : a.IsPattern) :
    a.head?.bind Standard.ofName? = none := by
  rw [← Option.map_eq_none_iff,← Registry.bind_find?_standard]
  exact pattern.find?_eq_none

theorem Atom.arguments_instantiate {a : Atom} {name : String} (headed : a.head? = some name)
    (values : String → Atom) :
    (a.instantiate values).arguments = a.arguments.map (Atom.instantiate values) := by
  obtain ⟨arguments,rfl⟩ := eq_of_head? headed
  rw [instantiate_expr,List.map_cons,Atom.arguments,Atom.arguments]

theorem Atom.goals_instantiate {body : Atom} (patterns : ∀ goal ∈ body.goals, goal.IsPattern)
    (values : String → Atom) :
    (body.instantiate values).goals = body.goals.map (Atom.instantiate values) := by
  by_cases conjunctive : body.head? = some Standard.conjunction.name
  · rw [goals,goals,if_pos conjunctive,if_pos (head?_instantiate conjunctive values),
      arguments_instantiate conjunctive]
  · rw [goals,if_neg conjunctive] at patterns
    obtain ⟨name,headed,_⟩ := patterns body List.mem_cons_self
    rw [goals,goals,if_neg conjunctive,if_neg]
    · rfl
    · rwa [head?_instantiate headed,← headed]

theorem Atom.mentions_goals {body : Atom} {name : String} (inside : body.mentions name = true) :
    ∃ goal ∈ body.goals, goal.mentions name = true := by
  by_cases conjunctive : body.head? = some Standard.conjunction.name
  · obtain ⟨arguments,rfl⟩ := eq_of_head? conjunctive
    rw [goals,if_pos conjunctive,Atom.arguments]
    simpa using inside
  · rw [goals,if_neg conjunctive]
    exact ⟨body,List.mem_cons_self,inside⟩

theorem Rule.head?_of_ofAtom? {a : Atom} {rule : Rule} (isRule : Rule.ofAtom? a = some rule) :
    a.head? = some Rule.symbol := by
  rw [(Rule.ofAtom?_eq_some_iff a rule).mp isRule,toAtom,Atom.head?]

/-- An operation answers what is headed by the symbol of rules, so no pattern is a rule. -/
theorem Atom.IsPattern.ofAtom?_eq_none {a : Atom} (pattern : a.IsPattern) :
    Rule.ofAtom? a = none := by
  cases isRule : Rule.ofAtom? a with
  | none => rfl
  | some rule =>
    obtain ⟨name,headed,free⟩ := pattern
    rw [Rule.head?_of_ofAtom? isRule] at headed
    obtain rfl := Option.some.inj headed
    cases free

theorem Space.Grounded.ground {space : Space} (grounded : space.Grounded) {a : Atom}
    (stored : a ∈ space.toList) (pattern : a.IsPattern) : a.hasVariables = false :=
  grounded a stored pattern.ofAtom?_eq_none

theorem Space.Grounded.extensional {space : Space} (grounded : space.Grounded) {a : Atom}
    (pattern : a.IsPattern) : a.Extensional space where
  pattern := pattern
  ground b stored same := by
    obtain ⟨name,headed,free⟩ := pattern
    exact grounded.ground stored ⟨name,same.trans headed,free⟩

namespace Atom.Extensional

variable {space : Space} {pattern : Atom} (extensional : pattern.Extensional space)
include extensional

theorem instantiate (values : String → Atom) : (pattern.instantiate values).Extensional space where
  pattern := extensional.pattern.instantiate values
  ground b stored same := by
    obtain ⟨name,headed,_⟩ := extensional.pattern
    refine extensional.ground b stored (same.trans ?_)
    rw [head?_instantiate headed,headed]

theorem ground_instance {values : String → Atom}
    (stored : pattern.instantiate values ∈ space.toList) :
    (pattern.instantiate values).hasVariables = false :=
  (extensional.instantiate values).ground _ stored rfl

theorem of_mem_query {a : Atom} {s : Substitution} (answer : (a,s) ∈ space.query pattern) :
    a ∈ space.toList ∧ a.hasVariables = false ∧ s.Normalized ∧ s.apply pattern = a := by
  obtain ⟨name,headed,_⟩ := extensional.pattern
  obtain ⟨candidate,unified⟩ := (space.mem_query pattern a s).mp answer
  obtain ⟨stored,headedToo⟩ := (Space.mem_candidates headed space a).mp candidate
  have ground := extensional.ground a stored (headedToo.trans headed.symm)
  obtain ⟨normal,equal⟩ := unify_sound unified
  exact ⟨stored,ground,normal,equal.trans (instantiate_ground ground _)⟩

theorem mem_query_instantiate {values : String → Atom}
    (stored : pattern.instantiate values ∈ space.toList) :
    ∃ s, (pattern.instantiate values,s) ∈ space.query pattern ∧ FactorsThrough values s := by
  have ground := extensional.ground_instance stored
  obtain ⟨name,headed,_⟩ := extensional.pattern
  have equal : Unifies pattern (pattern.instantiate values) values :=
    (instantiate_ground ground values).symm
  obtain ⟨s,unified,factors⟩ := unify_complete equal
  have candidate := (Space.mem_candidates headed space _).mpr
    ⟨stored,head?_instantiate headed values⟩
  exact ⟨s,(space.mem_query pattern _ s).mpr ⟨candidate,unified⟩,factors⟩

end Atom.Extensional

/-- The substitutions under which all goals are stored: each of the threads is one, and every
assignment that makes the goals stored atoms factors through one of them. -/
structure Meets (space : Space) (goals : List Atom) (threads : List Substitution) : Prop where
  namesOnce : ∀ s ∈ threads, s.names.Nodup
  stored : ∀ s ∈ threads, ∀ goal ∈ goals, s.apply goal ∈ space.toList
  complete : ∀ values : String → Atom, (∀ goal ∈ goals, goal.instantiate values ∈ space.toList) →
    ∃ s ∈ threads, FactorsThrough values s

namespace Meets

theorem start (space : Space) : Meets space [] [∅] where
  namesOnce := by
    intro s member
    rw [List.mem_singleton.mp member]
    exact Normalized.empty.namesOnce
  stored s _ := List.forall_mem_nil _
  complete values _ := ⟨∅,List.mem_singleton_self _,factorsThrough_empty values⟩

theorem restrict {space : Space} {goals : List Atom} {threads : List Substitution}
    (meets : Meets space goals threads) (names : List String)
    (kept : ∀ goal ∈ goals, ∀ name, goal.mentions name = true → name ∈ names) :
    Meets space goals (threads.map (·.restrict names)) where
  namesOnce := by
    intro s member
    obtain ⟨thread,among,rfl⟩ := List.mem_map.mp member
    exact nodup_restrict (meets.namesOnce thread among) names
  stored := by
    intro s member goal asked
    obtain ⟨thread,among,rfl⟩ := List.mem_map.mp member
    rw [apply_restrict (meets.namesOnce thread among) (kept goal asked)]
    exact meets.stored thread among goal asked
  complete := by
    intro values all
    obtain ⟨thread,among,factors⟩ := meets.complete values all
    exact ⟨_,List.mem_map_of_mem among,factors.restrict (meets.namesOnce thread among) names⟩

theorem restrictAnswers {space : Space} {goals : List Atom} {answers : Answers}
    (meets : Meets space goals (answers.map Prod.snd)) (names : List String)
    (kept : ∀ goal ∈ goals, ∀ name, goal.mentions name = true → name ∈ names) :
    Meets space goals ((answers.map fun (a,s) => (a,s.restrict names)).map Prod.snd) := by
  have restricted := meets.restrict names kept
  rw [List.map_map] at restricted ⊢
  exact restricted

theorem query {space : Space} {goal : Atom} (extensional : goal.Extensional space) :
    Meets space [goal] ((space.query goal).map Prod.snd) where
  namesOnce := by
    intro s member
    obtain ⟨⟨a,_⟩,answer,rfl⟩ := List.mem_map.mp member
    exact (extensional.of_mem_query answer).2.2.1.namesOnce
  stored := by
    intro s member
    obtain ⟨⟨a,_⟩,answer,rfl⟩ := List.mem_map.mp member
    obtain ⟨stored,_,_,equal⟩ := extensional.of_mem_query answer
    exact List.forall_mem_singleton.mpr (equal ▸ stored)
  complete := by
    intro values all
    obtain ⟨s,answer,factors⟩ := extensional.mem_query_instantiate (all goal List.mem_cons_self)
    exact ⟨s,List.mem_map_of_mem answer,factors⟩

theorem meet {space : Space} {goals : List Atom}
    (extensional : ∀ goal ∈ goals, goal.Extensional space) {threads left : List Substitution}
    (meets : Meets space goals threads) {goal : Atom}
    (gathered : Gathered (fun thread part => ∃ found, Meets space [thread.apply goal] found ∧
      part = found.map thread.compose) threads left) :
    Meets space (goals ++ [goal]) left where
  namesOnce := by
    intro s member
    obtain ⟨thread,among,part,⟨found,meetsGoal,rfl⟩,inside⟩ := gathered.source member
    obtain ⟨t,foundToo,rfl⟩ := List.mem_map.mp inside
    exact nodup_compose (meets.namesOnce thread among) (meetsGoal.namesOnce t foundToo)
  stored := by
    intro s member
    obtain ⟨thread,among,part,⟨found,meetsGoal,rfl⟩,inside⟩ := gathered.source member
    obtain ⟨t,foundToo,rfl⟩ := List.mem_map.mp inside
    have composed := apply_compose (meets.namesOnce thread among) (meetsGoal.namesOnce t foundToo)
    rw [List.forall_mem_append,List.forall_mem_singleton]
    constructor
    · intro earlier asked
      -- what an earlier goal has become is ground, so the later bindings leave it alone
      have known := meets.stored thread among earlier asked
      have ground : (thread.apply earlier).hasVariables = false :=
        (extensional earlier asked).ground_instance known
      rw [composed,apply,Atom.instantiate_ground ground]
      exact known
    · rw [composed]
      exact meetsGoal.stored t foundToo _ List.mem_cons_self
  complete := by
    intro values all
    rw [List.forall_mem_append,List.forall_mem_singleton] at all
    obtain ⟨thread,among,factors⟩ := meets.complete values all.1
    obtain ⟨part,⟨found,meetsGoal,rfl⟩,covered⟩ := gathered.part among
    obtain ⟨t,foundToo,factorsToo⟩ := meetsGoal.complete values <| by
      rw [List.forall_mem_singleton,factors]
      exact all.2
    exact ⟨_,covered _ (List.mem_map_of_mem foundToo),
      factors.compose (meets.namesOnce thread among) (meetsGoal.namesOnce t foundToo) factorsToo⟩

end Meets

/-! ### Evaluation -/

/-- Evaluation finds what meets any pattern, and keeps the space. -/
def Finds (space : Space) (evaluate : Atom → Eval Answers) : Prop :=
  ∀ goal : Atom, goal.IsPattern → Ensures (·.space = space) (evaluate goal) fun answers later =>
    later.space = space ∧ Meets space [goal] (answers.map Prod.snd)

variable {space : Space}

theorem evaluateWithin_of_consult {query : Atom} (pattern : query.IsPattern) {depth : Nat}
    {chaining : Chaining} {world later : World} {answers : Answers}
    (consulted : consult (Interpreter.evaluateWithin .standard depth .disabled) chaining query world =
      some (answers,later)) :
    Interpreter.evaluateWithin .standard (depth + 1) chaining query world =
      some (answers.map fun (a,s) => (a,s.restrict query.variableNames),later) := by
  rw [Interpreter.evaluateWithin,pattern.find?_eq_none]
  exact Eval.map_eq_some consulted _

theorem evaluateWithin_of_pattern {query : Atom} (pattern : query.IsPattern) (depth : Nat)
    (world : World) :
    Interpreter.evaluateWithin .standard (depth + 1) .disabled query world =
      some ((world.space.query query).map fun (a,s) => (a,s.restrict query.variableNames),world) :=
  evaluateWithin_of_consult pattern rfl

theorem finds_evaluateWithin (grounded : space.Grounded) (depth : Nat) :
    Finds space (Interpreter.evaluateWithin .standard (depth + 1) .disabled) := by
  intro goal pattern world same
  refine ⟨_,world,evaluateWithin_of_pattern pattern depth world,same,?_⟩
  rw [same]
  refine (Meets.query (grounded.extensional pattern)).restrictAnswers goal.variableNames
    (List.forall_mem_singleton.mpr fun name => ?_)
  exact (Atom.mem_variableNames name goal).mpr

namespace Finds

variable {evaluate : Atom → Eval Answers} (finds : Finds space evaluate)
  (grounded : space.Grounded)
include finds grounded

theorem meet {goals : List Atom} (patterns : ∀ goal ∈ goals, goal.IsPattern)
    {threads : List Substitution} (meets : Meets space goals threads) {goal : Atom}
    (pattern : goal.IsPattern) :
    Ensures (·.space = space) (Standard.meet evaluate goal threads) fun left later =>
      later.space = space ∧ Meets space (goals ++ [goal]) left := by
  refine (Ensures.gather fun thread _ => ?_).mono fun left later done =>
    ⟨done.1,meets.meet (fun goal asked => grounded.extensional (patterns goal asked)) done.2⟩
  refine (finds _ (pattern.instantiate thread.value)).bind fun answers => ?_
  refine Ensures.pure fun world done => ⟨done.1,answers.map Prod.snd,done.2,?_⟩
  rw [List.map_map]
  rfl

theorem meetAll (more : List Atom) (patterns : ∀ goal ∈ more, goal.IsPattern)
    {goals : List Atom} (patternsToo : ∀ goal ∈ goals, goal.IsPattern)
    {threads : List Substitution} (meets : Meets space goals threads) :
    Ensures (·.space = space) (Standard.meetAll evaluate more threads) fun left later =>
      later.space = space ∧ Meets space (goals ++ more) left := by
  induction more generalizing goals threads with
  | nil => exact Ensures.pure fun world same => ⟨same,(List.append_nil goals).symm ▸ meets⟩
  | cons goal more ih =>
    rw [List.forall_mem_cons] at patterns
    have patternsMore : ∀ earlier ∈ goals ++ [goal], earlier.IsPattern :=
      List.forall_mem_append.mpr ⟨patternsToo,List.forall_mem_singleton.mpr patterns.1⟩
    rw [Standard.meetAll_cons,← List.singleton_append,← List.append_assoc]
    refine (finds.meet grounded patternsToo meets patterns.1).bind fun left => ?_
    rintro world ⟨same,meetsOne⟩
    exact ih patterns.2 patternsMore meetsOne world same

theorem conjoin {goals : List Atom} (patterns : ∀ goal ∈ goals, goal.IsPattern) :
    Ensures (·.space = space) (Standard.conjoin evaluate goals) fun answers later =>
      later.space = space ∧ Meets space goals (answers.map Prod.snd) := by
  rw [Standard.conjoin]
  split
  · next none =>
    rw [List.isEmpty_iff.mp none]
    exact Ensures.pure fun world same => ⟨same,Meets.start space⟩
  · refine (finds.meetAll grounded goals patterns (List.forall_mem_nil _) (Meets.start space)).bind
      fun threads => Ensures.pure fun world done => ⟨done.1,?_⟩
    rw [List.map_map]
    exact (List.map_id threads).symm ▸ done.2

end Finds

theorem dispatch_of_ok {standard : Standard} {evaluate : Atom → Eval Answers} {query : Atom}
    {x : Eval Answers}
    (executes : standard.execute evaluate query.arguments = do return .ok (← x)) :
    dispatch evaluate standard.operation query = x := by
  change (standard.execute evaluate query.arguments >>= _) = x
  rw [executes,bind_assoc]
  simp only [pure_bind]
  exact bind_pure x

theorem dispatch_conjunction (evaluate : Atom → Eval Answers) (query : Atom) :
    dispatch evaluate (Standard.operation .conjunction) query =
      Standard.conjoin evaluate query.arguments := dispatch_of_ok rfl

theorem dispatch_disjunction (evaluate : Atom → Eval Answers) (query : Atom) :
    dispatch evaluate (Standard.operation .disjunction) query = gather evaluate query.arguments :=
  dispatch_of_ok rfl

theorem Standard.ofName?_name (standard : Standard) : ofName? standard.name = some standard := by
  cases standard <;> rfl

theorem evaluateWithin_of_head? {standard : Standard} {query : Atom}
    (headed : query.head? = some standard.name) (depth : Nat) (chaining : Chaining) :
    Interpreter.evaluateWithin .standard (depth + 1) chaining query = do
      return (← dispatch (Interpreter.evaluateWithin .standard depth chaining) standard.operation
        query).map fun (a,s) => (a,s.restrict query.variableNames) := by
  rw [Interpreter.evaluateWithin,Registry.bind_find?_standard,headed,Option.bind_some,
    Standard.ofName?_name,Option.map_some]

theorem ensures_evaluateWithin_body (grounded : space.Grounded) {body : Atom}
    (patterns : ∀ goal ∈ body.goals, goal.IsPattern) (depth : Nat) :
    Ensures (·.space = space) (Interpreter.evaluateWithin .standard (depth + 2) .disabled body)
      fun answers later => later.space = space ∧ Meets space body.goals (answers.map Prod.snd) := by
  by_cases conjunctive : body.head? = some Standard.conjunction.name
  · rw [Atom.goals,if_pos conjunctive] at patterns ⊢
    rw [evaluateWithin_of_head? conjunctive,dispatch_conjunction]
    refine ((finds_evaluateWithin grounded depth).conjoin grounded patterns).bind fun answers =>
      Ensures.pure fun later done => ⟨done.1,?_⟩
    apply done.2.restrictAnswers
    intro goal among name inside
    obtain ⟨arguments,rfl⟩ := Atom.eq_of_head? conjunctive
    exact (Atom.mem_variableNames _ _).mpr
      ((Atom.mentions_expr _ _).mpr ⟨goal,List.mem_cons_of_mem _ among,inside⟩)
  · rw [Atom.goals,if_neg conjunctive] at patterns ⊢
    exact finds_evaluateWithin grounded (depth + 1) body (patterns body List.mem_cons_self)

end AtomLogic
