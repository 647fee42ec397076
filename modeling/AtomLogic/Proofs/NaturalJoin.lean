import AtomLogic.Proofs.CompositionLaws
import AtomLogic.Proofs.Idempotence
import AtomLogic.Proofs.Premises
import Mathlib.Data.List.Forall2

/-! Conjunction as natural join. Where only ground atoms are stored under the heads of some patterns,
the threads of their conjunction are the rows of a table: each binds just the variables of the
patterns, each row that there is turns up, and no two are the same. So the order of the patterns
does not matter but to the order of the rows. -/

namespace AtomLogic

namespace Substitution

/-- A row of the join of some goals: just their variables are bound, each once, and to values that
make each goal a stored atom. -/
structure Joins (space : Space) (goals : List Atom) (s : Substitution) : Prop where
  namesOnce : s.names.Nodup
  names : ∀ name, name ∈ s.names ↔ ∃ goal ∈ goals, goal.mentions name = true
  stored : ∀ goal ∈ goals, s.apply goal ∈ space.toList

theorem restrict_of_bound {s : Substitution} {names : List String}
    (bound : ∀ name ∈ s.names, name ∈ names) : s.restrict names = s := by
  have kept : s.bindings.filter (fun binding => names.contains binding.1) = s.bindings :=
    List.filter_eq_self.mpr fun binding member =>
      List.contains_iff_mem.mpr (bound _ (List.mem_map_of_mem member))
  exact congrArg Substitution.mk kept

namespace Joins

variable {space : Space} {goals : List Atom} {s t : Substitution}

theorem perm {others : List Atom} (joins : s.Joins space goals) (perm : others.Perm goals) :
    s.Joins space others where
  namesOnce := joins.namesOnce
  names name := by
    rw [joins.names]
    simp only [perm.mem_iff]
  stored goal asked := joins.stored goal (perm.mem_iff.mp asked)

variable (extensional : ∀ goal ∈ goals, goal.Extensional space)
include extensional

theorem ground_value (joins : s.Joins space goals) {goal : Atom} (asked : goal ∈ goals)
    {name : String} (inside : goal.mentions name = true) : (s.value name).hasVariables = false :=
  have ground := (extensional goal asked).ground_instance (joins.stored goal asked)
  (Atom.ground_instantiate s.value goal).mp ground name inside

theorem proper (joins : s.Joins space goals) : s.Proper where
  namesOnce := joins.namesOnce
  changes := by
    rintro ⟨name,value⟩ bound itself
    obtain ⟨goal,asked,inside⟩ := (joins.names name).mp (mem_names.mpr ⟨_,bound⟩)
    have ground := joins.ground_value extensional asked inside
    have itself : value = .var name := itself
    rw [value_of_mem joins.namesOnce bound,itself] at ground
    cases ground

/-- A row is known by what it makes of the goals. -/
theorem agrees_iff (joins : s.Joins space goals) (joinsToo : t.Joins space goals) :
    s.agrees t = true ↔ ∀ goal ∈ goals, s.apply goal = t.apply goal := by
  rw [(joins.proper extensional).agrees_iff (joinsToo.proper extensional)]
  refine ⟨fun same goal _ => same goal,fun same a => Atom.instantiate_congr fun name _ => ?_⟩
  by_cases mentioned : ∃ goal ∈ goals, goal.mentions name = true
  · obtain ⟨goal,asked,inside⟩ := mentioned
    exact Atom.instantiate_eq_iff.mp (same goal asked) name inside
  · rw [value_of_not_mem (mt (joins.names name).mp mentioned),
      value_of_not_mem (mt (joinsToo.names name).mp mentioned)]

end Joins
end Substitution

open Substitution

/-- The threads are the rows of the join, each once. -/
structure Tabulates (space : Space) (goals : List Atom) (threads : List Substitution) : Prop
    extends Meets space goals threads where
  bound : ∀ s ∈ threads, ∀ name ∈ s.names, ∃ goal ∈ goals, goal.mentions name = true
  distinct : threads.Pairwise fun s t => ∃ goal ∈ goals, s.apply goal ≠ t.apply goal

theorem map_fst_unifyAll (pattern : Atom) (atoms : List Atom) :
    ((unifyAll pattern atoms).map Prod.fst).Sublist atoms := by
  induction atoms with
  | nil => exact .refl []
  | cons a atoms ih =>
    rw [unifyAll,List.filterMap_cons]
    cases unify pattern a with
    | none => exact ih.cons a
    | some s => exact ih.cons_cons a

theorem Atom.Extensional.mentions_of_query {space : Space} {goal : Atom}
    (extensional : goal.Extensional space) {answer : Atom × Substitution}
    (found : answer ∈ space.query goal) {name : String} (bound : name ∈ answer.2.names) :
    goal.mentions name = true := by
  obtain ⟨_,unified⟩ := (space.mem_query goal answer.1 answer.2).mp found
  obtain ⟨_,ground,_⟩ := extensional.of_mem_query found
  rcases involves_of_unifyWith Normalized.empty unified (.inl bound) with inside | inside | none
  · exact inside
  · exact Bool.noConfusion ((Atom.not_mentions_of_ground ground name).symm.trans inside)
  · rcases none with none | ⟨_,none,_⟩ <;> cases none

theorem countP_eq_one {α : Type} {chosen : α → Bool} {as : List α} {a : α} (among : a ∈ as)
    (holds : chosen a = true) (apart : as.Pairwise fun b c => ¬(chosen b = true ∧ chosen c = true)) :
    as.countP chosen = 1 := by
  induction as with
  | nil => cases among
  | cons b as ih =>
    rw [List.pairwise_cons] at apart
    by_cases first : chosen b = true
    · rw [List.countP_cons_of_pos first,List.countP_eq_zero.mpr]
      exact fun c member also => apart.1 c member ⟨first,also⟩
    · rw [List.countP_cons_of_neg first]
      refine ih ((List.mem_cons.mp among).resolve_left ?_) apart.2
      rintro rfl
      exact first holds

namespace Tabulates

variable {space : Space} {goals : List Atom} {threads : List Substitution}

theorem start (space : Space) : Tabulates space [] [∅] where
  toMeets := .start space
  bound := List.forall_mem_singleton.mpr (List.forall_mem_nil _)
  distinct := List.pairwise_singleton _ _

theorem query {goal : Atom} (extensional : goal.Extensional space) :
    Tabulates space [goal] ((space.query goal).map Prod.snd) where
  toMeets := .query extensional
  bound := by
    refine List.forall_mem_map.mpr fun answer found name bound => ?_
    exact ⟨goal,List.mem_singleton_self goal,extensional.mentions_of_query found bound⟩
  distinct := by
    have once : (space.candidates goal).Nodup := by
      obtain ⟨name,headed,_⟩ := extensional.pattern
      rw [Space.candidates,(Space.key_of_eq_headed goal name).mpr headed]
      exact space.nodup_bucket _
    have onceToo := (map_fst_unifyAll goal (space.candidates goal)).nodup once
    rw [List.pairwise_map]
    refine (List.pairwise_map.mp onceToo).imp_of_mem fun {a b} found foundToo differ => ?_
    obtain ⟨_,_,_,equal⟩ := extensional.of_mem_query found
    obtain ⟨_,_,_,equalToo⟩ := extensional.of_mem_query foundToo
    exact ⟨goal,List.mem_singleton_self goal,by rwa [equal,equalToo]⟩

section

variable (tabulates : Tabulates space goals threads)
  (extensional : ∀ goal ∈ goals, goal.Extensional space)
include tabulates extensional

theorem joins {s : Substitution} (among : s ∈ threads) : s.Joins space goals where
  namesOnce := tabulates.namesOnce s among
  names name := by
    refine ⟨tabulates.bound s among name,fun mentioned => ?_⟩
    obtain ⟨goal,asked,inside⟩ := mentioned
    have ground := (extensional goal asked).ground_instance (tabulates.stored s among goal asked)
    have value := (Atom.ground_instantiate s.value goal).mp ground name inside
    by_contra unbound
    rw [value_of_not_mem unbound] at value
    cases value
  stored := tabulates.stored s among

theorem covers {s : Substitution} (joins : s.Joins space goals) :
    ∃ t ∈ threads, t.agrees s = true := by
  obtain ⟨t,among,factors⟩ := tabulates.complete s.value joins.stored
  refine ⟨t,among,((tabulates.joins extensional among).agrees_iff extensional joins).mpr ?_⟩
  intro goal asked
  have ground : (t.apply goal).hasVariables = false :=
    (extensional goal asked).ground_instance (tabulates.stored t among goal asked)
  rw [← Atom.instantiate_ground ground s.value]
  exact factors goal

/-- What the goals have become under a thread is ground, so later bindings leave it alone. -/
theorem apply_compose_of_met {s t : Substitution} (among : s ∈ threads) (once : t.names.Nodup)
    {goal : Atom} (asked : goal ∈ goals) : (s.compose t).apply goal = s.apply goal := by
  have ground : (s.apply goal).hasVariables = false :=
    (extensional goal asked).ground_instance (tabulates.stored s among goal asked)
  rw [apply_compose (tabulates.namesOnce s among) once]
  exact Atom.instantiate_ground ground _

/-- One goal more: each row goes on with each answer to what the goal has become under it. -/
theorem meet {goal : Atom} (extensionalToo : goal.Extensional space) :
    Tabulates space (goals ++ [goal]) (threads.flatMap fun s =>
      (space.query (s.apply goal)).map fun answer => s.compose answer.2) where
  toMeets := by
    refine tabulates.toMeets.meet extensional (.flatMap fun s _ => ?_)
    exact ⟨_,.query (extensionalToo.instantiate s.value),by rw [List.map_map]; rfl⟩
  bound := by
    intro joined member name inside
    obtain ⟨s,among,member⟩ := List.mem_flatMap.mp member
    obtain ⟨answer,found,rfl⟩ := List.mem_map.mp member
    rcases mem_names_compose inside with bound | new
    · obtain ⟨earlier,asked,mentioned⟩ := tabulates.bound s among name bound
      exact ⟨earlier,List.mem_append_left _ asked,mentioned⟩
    · obtain ⟨other,original,inside⟩ := (Atom.mentions_instantiate _ _ _).mp
        ((extensionalToo.instantiate s.value).mentions_of_query found new)
      rcases s.value_cases other with bound | ⟨_,itself⟩
      · obtain ⟨earlier,asked,mentioned⟩ := tabulates.bound s among other (mem_names.mpr ⟨_,bound⟩)
        have ground := (tabulates.joins extensional among).ground_value extensional asked mentioned
        exact Bool.noConfusion ((Atom.not_mentions_of_ground ground name).symm.trans inside)
      · rw [itself,Atom.mentions_var] at inside
        exact ⟨goal,List.mem_append_right _ (List.mem_singleton_self goal),inside ▸ original⟩
  distinct := by
    have once {s : Substitution} {answer : Atom × Substitution}
        (found : answer ∈ space.query (s.apply goal)) : answer.2.names.Nodup :=
      ((extensionalToo.instantiate s.value).of_mem_query found).2.2.1.namesOnce
    rw [List.pairwise_flatMap]
    constructor
    · intro s among
      have apart := (query (extensionalToo.instantiate s.value)).distinct
      rw [List.pairwise_map] at apart ⊢
      refine apart.imp_of_mem fun {first second} found foundToo differ => ?_
      obtain ⟨_,same,differ⟩ := differ
      rw [List.mem_singleton.mp same] at differ
      refine ⟨goal,List.mem_append_right _ (List.mem_singleton_self goal),?_⟩
      rwa [apply_compose (tabulates.namesOnce s among) (once found),
        apply_compose (tabulates.namesOnce s among) (once foundToo)]
    · refine tabulates.distinct.imp_of_mem fun {s t} among amongToo differ => ?_
      obtain ⟨earlier,asked,differ⟩ := differ
      refine List.forall_mem_map.mpr fun first found => List.forall_mem_map.mpr fun second foundToo => ?_
      refine ⟨earlier,List.mem_append_left _ asked,?_⟩
      rwa [tabulates.apply_compose_of_met extensional among (once found) asked,
        tabulates.apply_compose_of_met extensional amongToo (once foundToo) asked]

end

/-! ### Rows and their order -/

theorem nodup_values (tabulates : Tabulates space goals threads) :
    (threads.map Substitution.value).Nodup := by
  rw [List.Nodup,List.pairwise_map]
  refine tabulates.distinct.imp fun {s t} differ same => ?_
  obtain ⟨goal,_,differ⟩ := differ
  exact differ (congrArg (Atom.instantiate · goal) same)

variable (extensional : ∀ goal ∈ goals, goal.Extensional space)
include extensional

/-- There is one thread for each row of the join. -/
theorem countP_agrees (tabulates : Tabulates space goals threads) {s : Substitution}
    (joins : s.Joins space goals) : threads.countP (fun t => t.agrees s) = 1 := by
  obtain ⟨t,among,agrees⟩ := tabulates.covers extensional joins
  refine countP_eq_one among agrees (tabulates.distinct.imp_of_mem fun {t u} among amongToo differ => ?_)
  rintro ⟨agrees,agreesToo⟩
  obtain ⟨goal,asked,differ⟩ := differ
  rw [(tabulates.joins extensional among).agrees_iff extensional joins] at agrees
  rw [(tabulates.joins extensional amongToo).agrees_iff extensional joins] at agreesToo
  exact differ ((agrees goal asked).trans (agreesToo goal asked).symm)

theorem values_subset (tabulates : Tabulates space goals threads) {others : List Atom}
    {more : List Substitution} (tabulatesToo : Tabulates space others more)
    (perm : others.Perm goals) :
    ∀ values ∈ more.map Substitution.value, values ∈ threads.map Substitution.value := by
  have extensionalToo : ∀ goal ∈ others, goal.Extensional space :=
    fun goal asked => extensional goal (perm.mem_iff.mp asked)
  refine List.forall_mem_map.mpr fun s among => ?_
  have joins := (tabulatesToo.joins extensionalToo among).perm perm.symm
  obtain ⟨t,amongToo,agrees⟩ := tabulates.covers extensional joins
  have proper := (tabulates.joins extensional amongToo).proper extensional
  rw [← (proper.agrees_iff_value (joins.proper extensional)).mp agrees]
  exact List.mem_map_of_mem amongToo

/-- The tables of the same goals in another order have the same rows in some order. -/
theorem arrange (tabulates : Tabulates space goals threads) {others : List Atom}
    {more : List Substitution} (tabulatesToo : Tabulates space others more)
    (perm : others.Perm goals) :
    ∃ arranged : List Substitution, arranged.Perm threads ∧
      List.Forall₂ (fun s t => s.agrees t = true) more arranged := by
  have extensionalToo : ∀ goal ∈ others, goal.Extensional space :=
    fun goal asked => extensional goal (perm.mem_iff.mp asked)
  have rows : (more.map Substitution.value).Perm (threads.map Substitution.value) :=
    (List.perm_ext_iff_of_nodup tabulatesToo.nodup_values tabulates.nodup_values).mpr fun values =>
      ⟨tabulates.values_subset extensional tabulatesToo perm values,
        tabulatesToo.values_subset extensionalToo tabulates perm.symm values⟩
  have proper : ∀ t ∈ threads, t.Proper := fun t among =>
    (tabulates.joins extensional among).proper extensional
  have properToo : ∀ s ∈ more, s.Proper := fun s among =>
    (tabulatesToo.joins extensionalToo among).proper extensionalToo
  have own : List.Forall₂ (fun values (t : Substitution) => t.Proper ∧ values = t.value)
      (threads.map Substitution.value) threads := by
    rw [List.forall₂_map_left_iff,List.forall₂_same]
    exact fun t among => ⟨proper t among,rfl⟩
  obtain ⟨arranged,alike,permuted⟩ := List.perm_comp_forall₂ rows own
  rw [List.forall₂_map_left_iff] at alike
  have both := (List.forall₂_and_left _ _).mpr ⟨properToo,alike⟩
  exact ⟨arranged,permuted,both.imp fun s t given => (given.1.agrees_iff_value given.2.1).mpr given.2.2⟩

end Tabulates

/-! ### Evaluation -/

def conjunctionOf (goals : List Atom) : Atom := .expr (.sym Standard.conjunction.name :: goals)

section Evaluation

variable {world : World} {chaining : Chaining}
  (ruleless : chaining = .enabled → ∀ a ∈ world.space.toList, Rule.ofAtom? a = none)
include ruleless

theorem consult_of_ruleless (evaluate : Atom → Eval Answers) (query : Atom) :
    consult evaluate chaining query world = some (world.space.query query,world) := by
  cases chaining with
  | disabled => rfl
  | enabled =>
    have nothing : gather (inferFrom evaluate query) (world.space.bucket (.headed Rule.symbol)) =
        pure [] := by
      refine gather_eq_nil fun a filed => inferFrom_of_none ?_ evaluate query
      exact ruleless rfl a ((world.space.mem_bucket_iff _ a).mp filed).1
    have inferred : infer evaluate query world = some ([],world) :=
      congrArg (fun gathered : Eval Answers => gathered world) nothing
    exact Eval.bind_eq_some_iff.mpr ⟨[],world,inferred,rfl⟩

/-- Without rules a pattern is only looked up. -/
theorem evaluateWithin_of_extensional {goal : Atom} (extensional : goal.Extensional world.space)
    (depth : Nat) : Interpreter.evaluateWithin .standard (depth + 1) chaining goal world =
      some (world.space.query goal,world) := by
  have kept : (world.space.query goal).map
      (fun answer => (answer.1,answer.2.restrict goal.variableNames)) = world.space.query goal := by
    refine (List.map_congr_left fun answer found => ?_).trans (List.map_id _)
    exact Prod.ext rfl (restrict_of_bound fun name bound =>
      (goal.mem_variableNames name).mpr (extensional.mentions_of_query found bound))
  have consulted := consult_of_ruleless ruleless
    (Interpreter.evaluateWithin .standard depth .disabled) goal
  exact (evaluateWithin_of_consult extensional.pattern consulted).trans
    (congrArg (fun answers => some (answers,world)) kept)

/-- Evaluating patterns one after the other goes on with the rows of the table so far. -/
theorem exists_meetAll (depth : Nat) {more : List Atom}
    (extensionalMore : ∀ goal ∈ more, goal.Extensional world.space) {goals : List Atom}
    (extensional : ∀ goal ∈ goals, goal.Extensional world.space) {threads : List Substitution}
    (tabulates : Tabulates world.space goals threads) :
    ∃ left, Standard.meetAll (Interpreter.evaluateWithin .standard (depth + 1) chaining) more threads
      world = some (left,world) ∧ Tabulates world.space (goals ++ more) left := by
  induction more generalizing goals threads with
  | nil => exact ⟨threads,rfl,(List.append_nil goals).symm ▸ tabulates⟩
  | cons goal more ih =>
    rw [List.forall_mem_cons] at extensionalMore
    obtain ⟨asks,extensionalMore⟩ := extensionalMore
    have met : Standard.meet (Interpreter.evaluateWithin .standard (depth + 1) chaining) goal threads
        world = some (threads.flatMap fun s =>
          (world.space.query (s.apply goal)).map fun answer => s.compose answer.2,world) :=
      gather_of_same fun s _ => Eval.map_eq_some
        (evaluateWithin_of_extensional ruleless (asks.instantiate s.value) depth) _
    have tabulatesToo := tabulates.meet extensional asks
    have extensionalToo : ∀ earlier ∈ goals ++ [goal], earlier.Extensional world.space :=
      List.forall_mem_append.mpr ⟨extensional,List.forall_mem_singleton.mpr asks⟩
    obtain ⟨left,ran,done⟩ := ih extensionalMore extensionalToo tabulatesToo
    rw [Standard.meetAll_cons,← List.singleton_append,← List.append_assoc]
    exact ⟨left,Eval.bind_eq_some_iff.mpr ⟨_,world,met,ran⟩,done⟩

theorem exists_conjunction {goals : List Atom} (nonempty : goals ≠ [])
    (extensional : ∀ goal ∈ goals, goal.Extensional world.space) (depth : Nat) :
    ∃ threads, Tabulates world.space goals threads ∧
      Interpreter.evaluateWithin .standard (depth + 2) chaining (conjunctionOf goals) world =
        some (threads.map fun s => (s.apply (conjunctionOf goals),s),world) := by
  obtain ⟨threads,ran,tabulates⟩ :=
    exists_meetAll ruleless depth extensional (List.forall_mem_nil _) (.start world.space)
  refine ⟨threads,tabulates,?_⟩
  have conjoined : Standard.conjoin (Interpreter.evaluateWithin .standard (depth + 1) chaining) goals
      world = some (threads.map fun s => (s.apply (conjunctionOf goals),s),world) := by
    rw [Standard.conjoin,if_neg (mt List.isEmpty_iff.mp nonempty)]
    exact Eval.map_eq_some ran _
  rw [conjunctionOf,evaluateWithin_of_head? rfl,dispatch_conjunction]
  refine (Eval.map_eq_some conjoined _).trans ?_
  rw [List.map_map]
  congr 2
  refine List.map_congr_left fun s among => Prod.ext rfl (restrict_of_bound fun name bound => ?_)
  obtain ⟨goal,asked,inside⟩ := tabulates.bound s among name bound
  exact (Atom.mem_variableNames _ _).mpr
    ((Atom.mentions_expr _ _).mpr ⟨goal,List.mem_cons_of_mem _ asked,inside⟩)

end Evaluation

/-- A conjunction of patterns is their natural join, if only ground atoms are stored under their heads
and no rule is tried: its answers are the rows, each once, and another order of the patterns gives
the same rows in some order. -/
theorem conjunction_joins {world : World} {goals : List Atom} (nonempty : goals ≠ [])
    (patterns : ∀ goal ∈ goals, goal.IsPattern)
    (ground : ∀ goal ∈ goals, ∀ a ∈ world.space.toList, a.head? = goal.head? → a.hasVariables = false)
    {chaining : Chaining}
    (ruleless : chaining = .enabled → ∀ a ∈ world.space.toList, Rule.ofAtom? a = none)
    {limit : Nat} (enough : 2 ≤ limit) :
    ∃ answers, Interpreter.evaluateWithin .standard limit chaining (conjunctionOf goals) world =
        some (answers,world) ∧
      (∀ answer ∈ answers, answer.2.Joins world.space goals ∧
        answer.1 = answer.2.apply (conjunctionOf goals)) ∧
      (∀ s : Substitution, s.Joins world.space goals → answers.countP (fun answer =>
        answer.1 == s.apply (conjunctionOf goals) && answer.2.agrees s) = 1) ∧
      ∀ others : List Atom, others.Perm goals → ∃ reordered,
        Interpreter.evaluateWithin .standard limit chaining (conjunctionOf others) world =
          some (reordered,world) ∧
        ∃ arranged, arranged.Perm (answers.map Prod.snd) ∧
          List.Forall₂ (fun s t => s.agrees t = true) (reordered.map Prod.snd) arranged := by
  obtain ⟨depth,rfl⟩ := Nat.exists_eq_add_of_le' enough
  have extensional : ∀ goal ∈ goals, goal.Extensional world.space :=
    fun goal asked => ⟨patterns goal asked,ground goal asked⟩
  have bindings (goals : List Atom) (threads : List Substitution) :
      (threads.map fun s => (s.apply (conjunctionOf goals),s)).map Prod.snd = threads := by
    rw [List.map_map]
    exact List.map_id threads
  obtain ⟨threads,tabulates,ran⟩ := exists_conjunction ruleless nonempty extensional depth
  refine ⟨_,ran,List.forall_mem_map.mpr fun s among => ⟨tabulates.joins extensional among,rfl⟩,?_,?_⟩
  · intro s joins
    rw [List.countP_map,← tabulates.countP_agrees extensional joins]
    refine List.countP_congr fun t among => ?_
    simp only [Function.comp_apply,Bool.and_eq_true,beq_iff_eq]
    refine and_iff_right_of_imp fun agrees => ?_
    have proper := (tabulates.joins extensional among).proper extensional
    exact (proper.agrees_iff (joins.proper extensional)).mp agrees _
  · intro others perm
    have extensionalToo : ∀ goal ∈ others, goal.Extensional world.space :=
      fun goal asked => extensional goal (perm.mem_iff.mp asked)
    have nonemptyToo : others ≠ [] := fun none => nonempty (List.perm_nil.mp (none ▸ perm.symm))
    obtain ⟨more,tabulatesToo,ranToo⟩ := exists_conjunction ruleless nonemptyToo extensionalToo depth
    refine ⟨_,ranToo,?_⟩
    rw [bindings,bindings]
    exact tabulates.arrange extensional tabulatesToo perm

private def parent (a b : Atom) : Atom := .expr [.sym "parent",a,b]

private def family : World := { space := .ofList [parent (.sym "ann") (.sym "bob"),
  parent (.sym "bob") (.sym "cid"),parent (.sym "bob") (.sym "dan"),
  .expr [.sym "likes",.var "x",.sym "ann"]] }

private def grandparent : List Atom := [parent (.var "x") (.var "y"),parent (.var "y") (.var "z")]

private def row (name : String) : Substitution :=
  ⟨[("x",.sym "ann"),("y",.sym "bob"),("z",.sym name)]⟩

/-- Both goals ask for the same atoms. An atom that is not ground is stored under another head. -/
theorem conjunction_joins_grandparent :
    ∃ answers, Interpreter.evaluateWithin .standard 10000 .enabled (conjunctionOf grandparent)
        family = some (answers,family) ∧
      answers.map Prod.snd = [row "cid",row "dan"] ∧
      (row "dan").Joins family.space grandparent ∧
      (answers.countP fun answer =>
        answer.1 == (row "dan").apply (conjunctionOf grandparent) && answer.2.agrees (row "dan")) = 1 ∧
      ∃ reordered, Interpreter.evaluateWithin .standard 10000 .enabled
          (conjunctionOf grandparent.reverse) family = some (reordered,family) ∧
        ∃ arranged, arranged.Perm (answers.map Prod.snd) ∧
          List.Forall₂ (fun s t => s.agrees t = true) (reordered.map Prod.snd) arranged := by
  have patterns : ∀ goal ∈ grandparent, goal.IsPattern := by
    refine List.forall_mem_cons.mpr ⟨⟨"parent",rfl,rfl⟩,?_⟩
    exact List.forall_mem_singleton.mpr ⟨"parent",rfl,rfl⟩
  have ground : ∀ goal ∈ grandparent, ∀ a ∈ family.space.toList, a.head? = goal.head? →
      a.hasVariables = false := by decide +kernel
  have ruleless : ∀ a ∈ family.space.toList, Rule.ofAtom? a = none := by decide +kernel
  obtain ⟨answers,ran,_,once,reorders⟩ := conjunction_joins (by decide) patterns ground
    (fun _ => ruleless : Chaining.enabled = .enabled → _) (by decide : 2 ≤ 10000)
  have joins : (row "dan").Joins family.space grandparent := by
    refine ⟨by decide,fun name => ?_,by decide +kernel⟩
    simp [Substitution.names,row,grandparent,parent]
    grind
  have shown : (Interpreter.evaluateWithin .standard 10000 .enabled (conjunctionOf grandparent)
      family).map (fun step => step.1.map Prod.snd) = some [row "cid",row "dan"] := by decide +kernel
  rw [ran] at shown
  exact ⟨answers,ran,Option.some.inj shown,joins,once _ joins,
    reorders _ (List.reverse_perm grandparent)⟩

end AtomLogic
