import AtomLogic.Proofs.Apart
import AtomLogic.Proofs.MostGeneral
import AtomLogic.Proofs.OneStep
import AtomLogic.Proofs.Vocabulary
import AtomLogic.Text.Reader

/-! Circular bindings. Composition makes no occurs check and the variables of stored atoms are not
renamed, so an answer may bind a variable of its query to an atom that mentions the variable. But
this takes a stored atom that mentions a variable of the query: as long as none is looked up, all
answers have normalized bindings. -/

namespace AtomLogic

namespace Substitution
open Atom

/-- Names are bound once, and those of the list are left in values only if they are not bound
themselves and the goal mentions them. -/
structure Clear (names : List String) (goal : Atom) (s : Substitution) : Prop where
  once : s.names.Nodup
  clear : ∀ binding ∈ s.bindings, ∀ name ∈ names, binding.2.mentions name = true →
    name ∉ s.names ∧ goal.mentions name = true

variable {names : List String} {goal whole : Atom} {s t : Substitution}

namespace Clear

theorem empty : (∅ : Substitution).Clear names goal := ⟨List.nodup_nil,List.forall_mem_nil _⟩

theorem mono (clear : s.Clear names goal)
    (part : ∀ name ∈ names, goal.mentions name = true → whole.mentions name = true) :
    s.Clear names whole where
  once := clear.once
  clear binding bound name among inside :=
    have found := clear.clear binding bound name among inside
    ⟨found.1,part name among found.2⟩

theorem restrict (clear : s.Clear names goal) (kept : List String) :
    (s.restrict kept).Clear names goal where
  once := nodup_restrict clear.once kept
  clear binding bound name among inside :=
    have found := clear.clear binding (List.mem_filter.mp bound).1 name among inside
    ⟨fun left => found.1 ((names_restrict s kept).subset left),found.2⟩

theorem of_unify {a b : Atom} (unified : unify a b = some s)
    (part : ∀ name ∈ names, a.mentions name = true ∨ b.mentions name = true →
      goal.mentions name = true) : s.Clear names goal := by
  obtain ⟨normal,_⟩ := unify_sound unified
  refine ⟨normal.namesOnce,fun binding bound name among inside => ⟨fun left => ?_,?_⟩⟩
  · exact Bool.noConfusion ((normal.settled _ _ bound name left).symm.trans inside)
  · exact part name among (Vocabulary.mentions_of_unify unified bound inside)

theorem of_apply (clear : s.Clear names whole)
    (part : ∀ name ∈ names, goal.mentions name = true → whole.mentions name = true)
    {name : String} (among : name ∈ names) (inside : (s.apply goal).mentions name = true) :
    name ∉ s.names ∧ whole.mentions name = true := by
  obtain ⟨other,original,inside⟩ := (mentions_instantiate _ _ _).mp inside
  rcases s.value_cases other with bound | ⟨unbound,itself⟩
  · exact clear.clear _ bound name among inside
  · rw [itself,mentions_var] at inside
    subst inside
    exact ⟨unbound,part _ among original⟩

/-- The goal that is left under the first substitution mentions no name that it binds, so neither
do the values that the second one adds. -/
theorem compose (first : s.Clear names whole)
    (part : ∀ name ∈ names, goal.mentions name = true → whole.mentions name = true)
    (second : t.Clear names (s.apply goal)) : (s.compose t).Clear names whole := by
  have added : ∀ binding ∈ t.bindings, ∀ name ∈ names, binding.2.mentions name = true →
      name ∉ s.names ∧ name ∉ t.names ∧ whole.mentions name = true := by
    intro binding bound name among inside
    obtain ⟨unbound,left⟩ := second.clear binding bound name among inside
    obtain ⟨unboundToo,inWhole⟩ := first.of_apply part among left
    exact ⟨unboundToo,unbound,inWhole⟩
  refine ⟨nodup_compose first.once second.once,?_⟩
  rintro ⟨key,value⟩ bound name among inside
  suffices apart : name ∉ s.names ∧ name ∉ t.names ∧ whole.mentions name = true from
    ⟨fun left => (mem_names_compose left).elim apart.1 apart.2.1,apart.2.2⟩
  rcases (mem_compose s t key value).mp bound with ⟨⟨u,original,rfl⟩,_⟩ | ⟨new,_⟩
  · obtain ⟨other,inOriginal,inside⟩ := (mentions_instantiate _ _ _).mp inside
    rcases t.value_cases other with bound | ⟨unbound,itself⟩
    · exact added _ bound name among inside
    · rw [itself,mentions_var] at inside
      subst inside
      obtain ⟨unboundToo,inWhole⟩ := first.clear _ original _ among inOriginal
      exact ⟨unboundToo,unbound,inWhole⟩
  · exact added _ new name among inside

theorem normalized (clear : s.Clear names goal) (keys : ∀ name ∈ s.names, name ∈ names) :
    s.Normalized where
  namesOnce := clear.once
  settled _ _ bound name left :=
    Bool.eq_false_iff.mpr fun inside => (clear.clear _ bound name (keys name left) inside).1 left

end Clear
end Substitution

/-- The computation gives nothing from a world with the first property but results with the
second. -/
def Gives {α : Type} (before : World → Prop) (x : Eval α) (after : α → Prop) : Prop :=
  ∀ world, before world → ∀ a later, x world = some (a,later) → after a

namespace Gives

variable {α β : Type} {before : World → Prop} {x : Eval α} {after : α → Prop}

theorem pure {a : α} (holds : after a) : Gives before (pure a) after := by
  intro world _ b later ran
  cases ran
  exact holds

theorem bind {f : α → Eval β} {final : β → Prop} (first : Gives before x after)
    (next : ∀ a, after a → Gives (fun _ => True) (f a) final) : Gives before (x >>= f) final := by
  intro world start b later ran
  obtain ⟨a,middle,ranFirst,ranNext⟩ := Eval.bind_eq_some_iff.mp ran
  exact next a (first world start a middle ranFirst) middle trivial b later ranNext

theorem any (x : Eval α) : Gives before x fun _ => True := fun _ _ _ _ _ => trivial

theorem weaken (gives : Gives (fun _ => True) x after) : Gives before x after :=
  fun world _ => gives world trivial

theorem mono {weaker : α → Prop} (gives : Gives before x after)
    (weakens : ∀ a, after a → weaker a) : Gives before x weaker :=
  fun world start a later ran => weakens a (gives world start a later ran)

theorem gather {results : α → Eval (List β)} {each : β → Prop} {as : List α}
    (step : ∀ a ∈ as, Gives (fun _ => True) (results a) fun part => ∀ b ∈ part, each b) :
    Gives before (gather results as) fun all => ∀ b ∈ all, each b := by
  induction as generalizing before with
  | nil => exact pure (List.forall_mem_nil _)
  | cons a as ih =>
    rw [List.forall_mem_cons] at step
    rw [AtomLogic.gather]
    refine bind step.1.weaken fun first holds => ?_
    exact (ih step.2).bind fun others holdsToo =>
      pure (List.forall_mem_append.mpr ⟨holds,holdsToo⟩)

end Gives

open Substitution

theorem Atom.mentions_of_argument {query argument : Atom} (member : argument ∈ query.arguments)
    {name : String} (inside : argument.mentions name = true) : query.mentions name = true := by
  unfold arguments at member
  split at member
  · exact (mentions_expr _ _).mpr ⟨argument,List.mem_cons_of_mem _ member,inside⟩
  · cases member

/-- The bindings of all answers are clear for the goal. -/
def AllClear (names : List String) (goal : Atom) (answers : Answers) : Prop :=
  ∀ answer ∈ answers, answer.2.Clear names goal

/-- The operation faults, or the bindings of all its answers are clear. -/
def FaultsOrClear (names : List String) (goal : Atom) : Except Fault Answers → Prop
  | .ok answers => AllClear names goal answers
  | .error _ => True

section Evaluation

variable {names : List String} {query : Atom} {before : World → Prop}

theorem AllClear.mono {goal : Atom} {answers : Answers} (clear : AllClear names goal answers)
    (part : ∀ name ∈ names, goal.mentions name = true → query.mentions name = true) :
    AllClear names query answers :=
  fun answer member => (clear answer member).mono part

theorem allClear_query {pattern : Atom} {world : World} (apart : LooksApart names pattern world)
    (part : ∀ name ∈ names, pattern.mentions name = true → query.mentions name = true) :
    AllClear names query (world.space.query pattern) := by
  rintro ⟨a,s⟩ found
  obtain ⟨candidate,unified⟩ := (world.space.mem_query pattern a s).mp found
  refine .of_unify unified fun name among inside => ?_
  rcases inside with inside | inside
  · exact part name among inside
  · exact absurd inside (Bool.eq_false_iff.mp ((a.isApart_iff names).mp (apart a candidate) name among))

variable {evaluate : Atom → Eval Answers}
  (each : ∀ goal, Gives (fun _ => True) (evaluate goal) (AllClear names goal))
include each

theorem gives_meet {goal : Atom}
    (part : ∀ name ∈ names, goal.mentions name = true → query.mentions name = true)
    {threads : List Substitution} (clear : ∀ s ∈ threads, s.Clear names query) :
    Gives before (Standard.meet evaluate goal threads) fun left =>
      ∀ s ∈ left, s.Clear names query := by
  refine Gives.gather fun thread member => (each _).bind fun _ found => Gives.pure ?_
  exact List.forall_mem_map.mpr fun answer among =>
    (clear thread member).compose part (found answer among)

theorem gives_meetAll {goals : List Atom}
    (part : ∀ goal ∈ goals, ∀ name ∈ names, goal.mentions name = true → query.mentions name = true)
    {threads : List Substitution} (clear : ∀ s ∈ threads, s.Clear names query) :
    Gives before (Standard.meetAll evaluate goals threads) fun left =>
      ∀ s ∈ left, s.Clear names query := by
  induction goals generalizing threads before with
  | nil => exact Gives.pure clear
  | cons goal goals ih =>
    rw [List.forall_mem_cons] at part
    rw [Standard.meetAll_cons]
    exact (gives_meet each part.1 clear).bind fun left clear => ih part.2 clear

theorem gives_conjoin {goals : List Atom}
    (part : ∀ goal ∈ goals, ∀ name ∈ names, goal.mentions name = true → query.mentions name = true) :
    Gives before (Standard.conjoin evaluate goals) (AllClear names query) := by
  rw [Standard.conjoin]
  split
  · exact Gives.pure (List.forall_mem_singleton.mpr .empty)
  · refine (gives_meetAll each part (List.forall_mem_singleton.mpr .empty)).bind fun left clear => ?_
    exact Gives.pure (List.forall_mem_map.mpr clear)

theorem gives_execute (standard : Standard) {arguments : List Atom}
    (part : ∀ argument ∈ arguments,
      ∀ name ∈ names, argument.mentions name = true → query.mentions name = true) :
    Gives (fun world => ∀ pattern ∈ standard.lookups arguments, LooksApart names pattern world)
      (standard.execute evaluate arguments) (FaultsOrClear names query) := by
  have nothing (a : Atom) : AllClear names query [(a,∅)] := List.forall_mem_singleton.mpr .empty
  fun_cases Standard.execute evaluate standard arguments with
  | case1 => exact (gives_conjoin each part).bind fun answers clear => Gives.pure clear
  | case2 =>
    have gathered : Gives (fun _ => True) (gather evaluate arguments) (AllClear names query) :=
      Gives.gather fun goal member => (each goal).mono fun _ clear => clear.mono (part goal member)
    exact gathered.weaken.bind fun answers clear => Gives.pure clear
  | case3 goal =>
    have negated : Gives (fun _ => True) (Standard.negate evaluate goal) (AllClear names query) := by
      refine (Gives.any _).bind fun answers _ => Gives.pure ?_
      split
      · exact nothing .truth
      · exact List.forall_mem_nil _
    exact negated.weaken.bind fun answers clear => Gives.pure clear
  | case4 a b =>
    refine Gives.pure (List.forall_mem_map.mpr fun s member => ?_)
    refine .of_unify (Option.mem_toList.mp member) fun name among inside => ?_
    rcases inside with inside | inside
    · exact part a List.mem_cons_self name among inside
    · exact part b (List.mem_cons_of_mem _ List.mem_cons_self) name among inside
  | case5 pattern =>
    intro world apart result later ran
    cases ran
    exact allClear_query (apart pattern List.mem_cons_self) (part pattern List.mem_cons_self)
  | case6 pattern template =>
    intro world apart result later ran
    cases ran
    have found := allClear_query (apart pattern List.mem_cons_self) (part pattern List.mem_cons_self)
    exact List.forall_mem_map.mpr found
  | case7 a => exact (Gives.any _).bind fun _ _ => Gives.pure (nothing .unit)
  | case8 a =>
    refine (Gives.any _).bind fun removed _ => Gives.pure ?_
    split
    · exact nothing .unit
    · exact List.forall_mem_nil _
  | case9 a => exact Gives.pure (nothing a)
  | case10 => exact Gives.pure (nothing _)
  | case11 => exact Gives.pure trivial

theorem gives_dispatchApart (standard : Standard) (query : Atom) :
    Gives before (dispatchApart names evaluate standard query) (AllClear names query) := by
  have part : ∀ argument ∈ query.arguments, ∀ name ∈ names,
      argument.mentions name = true → query.mentions name = true :=
    fun argument member name _ => query.mentions_of_argument member
  intro world _ answers later ran
  obtain ⟨_,kept,ran⟩ := Option.bind_eq_some_iff.mp ran
  obtain ⟨apart,rfl⟩ := keepAllApart_eq_some.mp kept
  refine ((gives_execute each standard part).bind fun result clear => ?_) world apart answers later ran
  cases result with
  | ok answers => exact Gives.pure clear
  | error fault => exact Gives.pure (List.forall_mem_nil _)

/-- The variables of the copied rule are new, so what is kept apart comes from the query. -/
theorem gives_inferFrom (plain : ∀ name ∈ names, ';' ∉ name.toList) (stored : Atom) :
    Gives before (inferFrom evaluate query stored) (AllClear names query) := by
  rw [inferFrom]
  cases Rule.ofAtom? stored with
  | none => exact Gives.pure (List.forall_mem_nil _)
  | some rule =>
    refine (Gives.any _).bind fun number _ => ?_
    have new (a : Atom) : ∀ name ∈ names,
        (a.rename (Rule.copyName number)).mentions name = true → query.mentions name = true :=
      fun name among inside => absurd (semicolon_mem_of_mentions_copy inside) (plain name among)
    dsimp only
    cases unified : unify (rule.copy number).head query with
    | none => exact Gives.pure (List.forall_mem_nil _)
    | some s =>
      refine (each _).bind fun answers clear => Gives.pure (List.forall_mem_map.mpr ?_)
      have first : s.Clear names query := .of_unify unified fun name among inside =>
        inside.elim (new rule.head name among) id
      exact fun answer member => first.compose (new rule.body) (clear answer member)

theorem gives_consultApart (plain : ∀ name ∈ names, ';' ∉ name.toList) (chaining : Chaining)
    (query : Atom) : Gives before (consultApart names evaluate chaining query) (AllClear names query) := by
  have looked (inferred : Answers) (clear : AllClear names query inferred) : Gives (fun _ => True)
      (do keepApart names query; return inferred ++ (← getThe Space).query query)
      (AllClear names query) := by
    intro world _ answers later ran
    obtain ⟨_,kept,ran⟩ := Option.bind_eq_some_iff.mp ran
    obtain ⟨apart,rfl⟩ := keepApart_eq_some.mp kept
    cases ran
    exact List.forall_mem_append.mpr ⟨clear,allClear_query apart fun _ _ inside => inside⟩
  cases chaining with
  | enabled =>
    have inferred : Gives before (infer evaluate query) (AllClear names query) :=
      (Gives.any _).bind fun space _ => Gives.gather fun stored _ => gives_inferFrom each plain stored
    exact inferred.bind looked
  | disabled => exact (Gives.pure (List.forall_mem_nil _)).bind looked

end Evaluation

theorem gives_evaluateApart {names : List String} (plain : ∀ name ∈ names, ';' ∉ name.toList)
    (depth : Nat) (chaining : Chaining) (query : Atom) :
    Gives (fun _ => True) (evaluateApart names depth chaining query) fun answers =>
      ∀ answer ∈ answers, answer.2.Clear names query ∧
        ∀ name ∈ answer.2.names, query.mentions name = true := by
  induction depth generalizing chaining query with
  | zero => exact fun _ _ _ _ ran => nomatch ran
  | succ depth ih =>
    have each chaining goal := (ih chaining goal).mono fun answers found answer member =>
      (found answer member).1
    have restricted (answers : Answers) (clear : AllClear names query answers) :
        ∀ answer ∈ answers.map fun answer => (answer.1,answer.2.restrict query.variableNames),
          answer.2.Clear names query ∧ ∀ name ∈ answer.2.names, query.mentions name = true := by
      refine List.forall_mem_map.mpr fun answer member => ⟨(clear answer member).restrict _,?_⟩
      intro name bound
      obtain ⟨value,bound⟩ := mem_names.mp bound
      exact (query.mem_variableNames name).mp ((mem_restrict _ _ _ _).mp bound).2
    rw [evaluateApart]
    cases query.head?.bind Standard.ofName? with
    | none =>
      exact (gives_consultApart (each .disabled) plain chaining query).bind fun answers clear =>
        Gives.pure (restricted answers clear)
    | some standard =>
      exact (gives_dispatchApart (each chaining) standard query).bind fun answers clear =>
        Gives.pure (restricted answers clear)

/-- An answer binds each name once. -/
theorem namesOnce_of_evaluateWithin {depth : Nat} {chaining : Chaining} {query : Atom}
    {world later : World} {answers : Answers}
    (ran : Interpreter.evaluateWithin .standard depth chaining query world = some (answers,later)) :
    ∀ answer ∈ answers, answer.2.names.Nodup := by
  rw [← evaluateApart_nil] at ran
  have gives := gives_evaluateApart (List.forall_mem_nil _) depth chaining query world trivial
  exact fun answer member => (gives answers later ran answer member).1.once

/-- The bindings of an answer are bindings of the variables of its query, each once. They are
normalized, so applying them twice is applying them once, if no atom that is looked up mentions a
variable of the query. -/
theorem normalized_of_apart (limit : Nat) (query : Atom)
    (plain : ∀ name, query.mentions name = true → ';' ∉ name.toList) (world : World) :
    (∀ answers later, ({ limit := limit } : Interpreter).answers query world = some (answers,later) →
      ∀ answer ∈ answers, answer.2.names.Nodup ∧
        ∀ name ∈ answer.2.names, query.mentions name = true) ∧
      ∀ answers later,
        evaluateApart query.variableNames limit .enabled query world = some (answers,later) →
          ({ limit := limit } : Interpreter).answers query world = some (answers,later) ∧
            ∀ answer ∈ answers, answer.2.Normalized ∧
              ∀ a, answer.2.apply (answer.2.apply a) = answer.2.apply a := by
  constructor
  · intro answers later ran answer member
    rw [Interpreter.answers,← evaluateApart_nil] at ran
    obtain ⟨clear,keys⟩ :=
      gives_evaluateApart (List.forall_mem_nil _) limit .enabled query world trivial _ _ ran answer member
    exact ⟨clear.once,keys⟩
  · intro answers later ran
    refine ⟨evaluateWithin_of_apart ran,fun answer member => ?_⟩
    have plain : ∀ name ∈ query.variableNames, ';' ∉ name.toList :=
      fun name among => plain name ((query.mem_variableNames name).mp among)
    obtain ⟨clear,keys⟩ :=
      gives_evaluateApart plain limit .enabled query world trivial _ _ ran answer member
    have normal := clear.normalized fun name bound =>
      (query.mem_variableNames name).mpr (keys name bound)
    exact ⟨normal,normal.apply_apply⟩

private def both : Atom :=
  .expr [.sym "and",.expr [.sym "p",.var "x"],.expr [.sym "q",.var "x"]]

private def joining (name : String) : Space :=
  .ofList [.expr [.sym "p",.var "y"],.expr [.sym "q",.expr [.sym "g",.var name]]]

/-- The stored atoms share no variable with the query, so what is bound to its own is not circular. -/
theorem normalized_of_apart_joining :
    (∀ name, both.mentions name = true → ';' ∉ name.toList) ∧
      ∃ answers later, evaluateApart both.variableNames 10000 .enabled both
          { space := joining "z" } = some (answers,later) ∧
        answers.map Prod.snd = [⟨[("x",.expr [.sym "g",.var "z"])]⟩] ∧
          ∀ answer ∈ answers, answer.2.Normalized := by
  have plain : ∀ name, both.mentions name = true → ';' ∉ name.toList := by
    intro name inside
    rw [← both.mem_variableNames] at inside
    revert name
    decide
  obtain ⟨⟨answers,later⟩,ran,bindings⟩ : ∃ step,
      evaluateApart both.variableNames 10000 .enabled both { space := joining "z" } = some step ∧
        step.1.map Prod.snd = [⟨[("x",.expr [.sym "g",.var "z"])]⟩] :=
    ⟨_,Option.eq_some_of_isSome (by decide +kernel),by decide +kernel⟩
  obtain ⟨_,normal⟩ := (normalized_of_apart 10000 both plain { space := joining "z" }).2 _ _ ran
  exact ⟨plain,answers,later,ran,bindings,fun answer member => (normal answer member).1⟩

/-- With a variable of the query in a stored atom, what the two goals bind joins to a circle. -/
theorem circular_of_joined :
    (Text.parseAtoms "(p $y) (q (g $x))").toOption.map Space.ofList = some (joining "x") ∧
      (Text.parseAtom "(and (p $x) (q $x))").toOption = some both ∧
      ∃ a s later, ({} : Interpreter).answers both { space := joining "x" } = some ([(a,s)],later) ∧
        ("x",.expr [.sym "g",.var "x"]) ∈ s.bindings ∧ ¬s.Normalized ∧
          s.apply (s.apply (.var "x")) ≠ s.apply (.var "x") := by
  refine ⟨by decide +kernel,by decide +kernel,both.instantiate fun _ => .expr [.sym "g",.var "x"],
    ⟨[("x",.expr [.sym "g",.var "x"])]⟩,{ space := joining "x" },by decide +kernel,?_,?_,?_⟩
  · exact List.mem_cons_self
  · decide
  · decide

end AtomLogic
