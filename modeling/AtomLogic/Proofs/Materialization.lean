import AtomLogic.Proofs.Premises
import Mathlib.Data.Set.Lattice
import Mathlib.Order.Bounds.Basic

/-! Materialization: a caller applies rules one after the other, each time storing what the rule
concludes from the facts of the moment. Whatever the order of the calls, only facts of the least
model are stored and no fact is returned twice, and when no rule yields anything new the facts
are the least model. -/

namespace AtomLogic
open Substitution

/-- Premises and conclusion of the rule are patterns, and each variable of the conclusion stands
in a premise. -/
structure Rule.RangeRestricted (rule : Rule) : Prop where
  premises : ∀ goal ∈ rule.body.goals, goal.IsPattern
  conclusion : rule.head.IsPattern
  covered : ∀ name, rule.head.mentions name = true → rule.body.mentions name = true

/-- The rule has an instance with this conclusion and with premises among the facts. -/
def Rule.Fires (rule : Rule) (facts : Set Atom) (a : Atom) : Prop :=
  ∃ values : String → Atom, (∀ goal ∈ rule.body.goals, goal.instantiate values ∈ facts) ∧
    rule.head.instantiate values = a

/-- Whatever a rule concludes from the facts is one of them. -/
def Closed (rules : Set Rule) (facts : Set Atom) : Prop :=
  ∀ rule ∈ rules, ∀ a, rule.Fires facts a → a ∈ facts

/-- The least closed set with some facts in it. -/
def leastModel (rules : Set Rule) (facts : Set Atom) : Set Atom :=
  ⋂₀ {model | facts ⊆ model ∧ Closed rules model}

/-- The stored atoms that are no rules. -/
def Space.facts (space : Space) : Set Atom := {a | a ∈ space.toList ∧ Rule.ofAtom? a = none}

/-! ### The least model -/

theorem Rule.Fires.mono {rule : Rule} {facts more : Set Atom} {a : Atom}
    (fires : rule.Fires facts a) (subset : facts ⊆ more) : rule.Fires more a := by
  obtain ⟨values,premises,conclusion⟩ := fires
  exact ⟨values,fun goal asked => subset (premises goal asked),conclusion⟩

theorem isLeast_leastModel (rules : Set Rule) (facts : Set Atom) :
    IsLeast {model | facts ⊆ model ∧ Closed rules model} (leastModel rules facts) := by
  have below : ∀ model, facts ⊆ model ∧ Closed rules model → leastModel rules facts ⊆ model :=
    fun model isModel => Set.sInter_subset_of_mem isModel
  refine ⟨⟨?_,?_⟩,below⟩
  · exact Set.subset_sInter fun model isModel => isModel.1
  · intro rule member a fires
    refine Set.mem_sInter.mpr fun model isModel => ?_
    exact isModel.2 rule member a (fires.mono (below model isModel))

/-! ### Facts of a space -/

theorem Rule.ofAtom?_toAtom (rule : Rule) : Rule.ofAtom? rule.toAtom = some rule :=
  (Rule.ofAtom?_eq_some_iff _ rule).mpr rfl

theorem Atom.IsPattern.mem_facts {a : Atom} (pattern : a.IsPattern) (space : Space) :
    a ∈ space.facts ↔ a ∈ space.toList :=
  and_iff_left pattern.ofAtom?_eq_none

theorem Space.facts_add_rule (space : Space) (rule : Rule) :
    (space.add rule.toAtom).2.facts = space.facts := by
  ext a
  have differs : Rule.ofAtom? a = none → a ≠ rule.toAtom := by
    intro isFact same
    rw [same,rule.ofAtom?_toAtom] at isFact
    cases isFact
  simp only [facts,Set.mem_ofPred_eq,Space.mem_add]
  constructor
  · intro given
    obtain ⟨stored,isFact⟩ := given
    exact ⟨stored.resolve_left (differs isFact),isFact⟩
  · intro given
    obtain ⟨stored,isFact⟩ := given
    exact ⟨.inr stored,isFact⟩

theorem Space.grounded_iff (space : Space) :
    space.Grounded ↔ ∀ a ∈ space.facts, a.hasVariables = false := by
  simp only [Grounded,facts,Set.mem_ofPred_eq,and_imp]

namespace Rule.RangeRestricted

variable {rule : Rule} (restricted : rule.RangeRestricted) {facts : Set Atom} {a : Atom}
include restricted

theorem pattern_of_fires (fires : rule.Fires facts a) : a.IsPattern := by
  obtain ⟨values,_,rfl⟩ := fires
  exact restricted.conclusion.instantiate values

theorem ground_instantiate {values : String → Atom}
    (ground : ∀ goal ∈ rule.body.goals, (goal.instantiate values).hasVariables = false) :
    (rule.head.instantiate values).hasVariables = false := by
  refine (Atom.ground_instantiate values rule.head).mpr fun name inside => ?_
  obtain ⟨goal,asked,inGoal⟩ := Atom.mentions_goals (restricted.covered name inside)
  exact (Atom.ground_instantiate values goal).mp (ground goal asked) name inGoal

theorem ground_of_fires (ground : ∀ b ∈ facts, b.hasVariables = false)
    (fires : rule.Fires facts a) : a.hasVariables = false := by
  obtain ⟨values,premises,rfl⟩ := fires
  exact restricted.ground_instantiate fun goal asked => ground _ (premises goal asked)

/-- What the rule concludes is its conclusion under the substitutions that meet its premises. -/
theorem fires_iff {space : Space} (grounded : space.Grounded) {threads : List Substitution}
    (meets : Meets space rule.body.goals threads) (a : Atom) :
    rule.Fires space.facts a ↔ a ∈ threads.map fun s => s.apply rule.head := by
  have fact : ∀ goal ∈ rule.body.goals, ∀ values : String → Atom,
      goal.instantiate values ∈ space.facts ↔ goal.instantiate values ∈ space.toList :=
    fun goal asked values => ((restricted.premises goal asked).instantiate values).mem_facts space
  constructor
  · intro fires
    obtain ⟨values,premises,rfl⟩ := fires
    obtain ⟨s,among,factors⟩ := meets.complete values fun goal asked =>
      (fact goal asked values).mp (premises goal asked)
    have ground : (s.apply rule.head).hasVariables = false :=
      restricted.ground_instantiate fun goal asked => grounded.ground
        (meets.stored s among goal asked) ((restricted.premises goal asked).instantiate s.value)
    rw [← factors rule.head,Atom.instantiate_ground ground]
    exact List.mem_map_of_mem among
  · intro given
    obtain ⟨s,among,rfl⟩ := List.mem_map.mp given
    exact ⟨s.value,fun goal asked => (fact goal asked s.value).mpr (meets.stored s among goal asked),
      rfl⟩

end Rule.RangeRestricted

/-! ### One call -/

theorem addGround_of_variables {a : Atom} (nonGround : a.hasVariables = true) (atoms : List Atom)
    (world : World) : Interpreter.addGround (a :: atoms) world = Interpreter.addGround atoms world := by
  rw [Interpreter.addGround,if_pos nonGround]
  change (Interpreter.addGround atoms world).bind _ = _
  cases Interpreter.addGround atoms world <;> rfl

theorem addGround_of_ground {a : Atom} (ground : a.hasVariables = false) (atoms : List Atom)
    (world : World) :
    Interpreter.addGround (a :: atoms) world =
      (Interpreter.addGround atoms { world with space := (world.space.add a).2 }).map
        fun step => (if (world.space.add a).1 then a :: step.1 else step.1,step.2) := by
  rw [Interpreter.addGround,if_neg (Bool.not_eq_true _ ▸ ground)]
  change (Interpreter.addGround atoms { world with space := (world.space.add a).2 }).bind _ = _
  cases Interpreter.addGround atoms { world with space := (world.space.add a).2 } <;> rfl

/-- Those of some atoms that are ground and not stored, each where it first occurs. -/
def Space.newAmong (space : Space) (atoms : List Atom) : List Atom :=
  (atoms.filter fun a => !a.hasVariables && !space.contains a).eraseDups

namespace Space

theorem mem_newAmong (space : Space) (atoms : List Atom) (a : Atom) :
    a ∈ space.newAmong atoms ↔ (a ∈ atoms ∧ a.hasVariables = false) ∧ a ∉ space.toList := by
  simp [newAmong,← contains_iff,and_assoc]

theorem nodup_eraseDups : ∀ atoms : List Atom, atoms.eraseDups.Nodup
  | [] => List.nodup_nil
  | a :: atoms => by
    rw [List.eraseDups_cons,List.nodup_cons]
    exact ⟨by simp,nodup_eraseDups _⟩
termination_by atoms => atoms.length
decreasing_by exact Nat.lt_succ_of_le (List.length_filter_le _ _)

theorem newAmong_of_dropped {space : Space} {a : Atom}
    (dropped : a.hasVariables = true ∨ a ∈ space.toList) (atoms : List Atom) :
    space.newAmong (a :: atoms) = space.newAmong atoms := by
  rw [← contains_iff] at dropped
  rw [newAmong,List.filter_cons_of_neg,newAmong]
  rcases dropped with nonGround | stored <;> simp [*]

theorem newAmong_of_new {space : Space} {a : Atom} (ground : a.hasVariables = false)
    (absent : a ∉ space.toList) (atoms : List Atom) :
    space.newAmong (a :: atoms) = a :: (space.add a).2.newAmong atoms := by
  rw [← contains_iff,Bool.not_eq_true] at absent
  rw [newAmong,List.filter_cons_of_pos,List.eraseDups_cons,List.filter_filter,newAmong]
  · congr 2
    refine List.filter_congr fun b _ => ?_
    have known : (space.add a).2.contains b = (b == a || space.contains b) := by
      rw [Bool.eq_iff_iff,Bool.or_eq_true,beq_iff_eq,contains_iff,contains_iff,mem_add]
    rw [known,Bool.not_or]
    exact Bool.and_left_comm _ _ _
  · rw [ground,absent]
    rfl

end Space

/-- Storing the ground ones of some atoms stores and returns the new ones among them. -/
theorem addGround_eq (atoms : List Atom) (world : World) :
    Interpreter.addGround atoms world = some (world.space.newAmong atoms,
      { world with space := (world.space.addAll (world.space.newAmong atoms)).2 }) := by
  induction atoms generalizing world with
  | nil => rfl
  | cons a atoms ih =>
    cases ground : a.hasVariables with
    | true => rw [addGround_of_variables ground,ih,Space.newAmong_of_dropped (.inl ground)]
    | false =>
      rw [addGround_of_ground ground,ih]
      by_cases stored : a ∈ world.space.toList
      · rw [Space.newAmong_of_dropped (.inr stored),Space.add_of_mem stored]
        rfl
      · rw [Space.newAmong_of_new ground stored,(world.space.add_fst a).mpr stored]
        rfl

theorem ensures_addGround (atoms : List Atom) (space : Space) :
    Ensures (·.space = space) (Interpreter.addGround atoms) fun added later =>
      added.Nodup ∧
      (∀ a, a ∈ added ↔ (a ∈ atoms ∧ a.hasVariables = false) ∧ a ∉ space.toList) ∧
      ∀ a, a ∈ later.space.toList ↔ a ∈ space.toList ∨ a ∈ added := by
  rintro world rfl
  refine ⟨_,_,addGround_eq atoms world,Space.nodup_eraseDups _,world.space.mem_newAmong atoms,?_⟩
  intro a
  rw [Space.mem_addAll,or_comm]

/-- What one application of a rule stores and returns: each conclusion that the facts did not
have, once. -/
structure Applied (rule : Rule) (space later : Space) (added : List Atom) : Prop where
  once : added.Nodup
  new : ∀ a, a ∈ added ↔ rule.Fires space.facts a ∧ a ∉ space.facts
  facts : later.facts = space.facts ∪ {a | a ∈ added}
  grounded : later.Grounded

theorem ensures_applyRule {rule : Rule} (restricted : rule.RangeRestricted) {space : Space}
    (grounded : space.Grounded) :
    Ensures (·.space = space) (({} : Interpreter).applyRule rule.toAtom) fun result later =>
      ∃ added, result = .ok added ∧ Applied rule space later.space added := by
  rw [Interpreter.applyRule,rule.ofAtom?_toAtom]
  have kept : (space.add rule.toAtom).2.facts = space.facts := space.facts_add_rule rule
  have groundedToo : (space.add rule.toAtom).2.Grounded := by
    rw [Space.grounded_iff,kept]
    exact space.grounded_iff.mp grounded
  have stored : Ensures (·.space = space) (modifyGetThe Space (Space.add rule.toAtom) : Eval Bool)
      fun _ later => later.space = (space.add rule.toAtom).2 :=
    fun world same => ⟨_,_,rfl,congrArg (fun space => (Space.add rule.toAtom space).2) same⟩
  refine stored.bind fun _ => ?_
  refine (ensures_evaluateWithin_body groundedToo restricted.premises 9998).bind fun answers => ?_
  intro middle given
  obtain ⟨same,meets⟩ := given
  obtain ⟨added,later,ran,once,new,storedToo⟩ :=
    ensures_addGround (answers.map fun answer => answer.2.apply rule.head) _ middle same
  refine ⟨.ok added,later,?_,added,rfl,?_⟩
  · change (Interpreter.addGround (answers.map fun answer => answer.2.apply rule.head) middle).bind _ = _
    rw [ran]
    rfl
  have fires : ∀ a, rule.Fires space.facts a ↔
      a ∈ answers.map fun answer => answer.2.apply rule.head := by
    intro a
    rw [← kept,restricted.fires_iff groundedToo meets,List.map_map]
    rfl
  have pattern : ∀ a, rule.Fires space.facts a → a.IsPattern :=
    fun a => restricted.pattern_of_fires
  have ground : ∀ a, rule.Fires space.facts a → a.hasVariables = false :=
    fun a => restricted.ground_of_fires (space.grounded_iff.mp grounded)
  have newFacts : ∀ a, a ∈ added ↔ rule.Fires space.facts a ∧ a ∉ space.facts := by
    intro a
    rw [new,← fires,and_iff_left_of_imp (ground a)]
    refine and_congr_right fun fired => ?_
    rw [← (pattern a fired).mem_facts,kept]
  have facts : later.space.facts = space.facts ∪ {a | a ∈ added} := by
    ext a
    rw [Set.mem_union,Set.mem_ofPred_eq,← kept]
    simp only [Space.facts,Set.mem_ofPred_eq]
    rw [storedToo,or_and_right]
    exact or_congr_right (and_iff_left_of_imp fun member =>
      (pattern a ((newFacts a).mp member).1).ofAtom?_eq_none)
  refine ⟨once,newFacts,facts,later.space.grounded_iff.mpr fun a member => ?_⟩
  rw [facts] at member
  exact member.elim (space.grounded_iff.mp grounded a) fun inside =>
    ground a ((newFacts a).mp inside).1

/-! ### Runs of calls -/

/-- What any calls leave: the facts of the start and those returned, all of the least model, none
of them returned twice or there before. -/
structure Materialized (rules : Set Rule) (start later : Space) (added : List Atom) : Prop where
  once : added.Nodup
  fresh : ∀ a ∈ added, a ∉ start.facts
  facts : later.facts = start.facts ∪ {a | a ∈ added}
  sound : later.facts ⊆ leastModel rules start.facts
  grounded : later.Grounded

/-- No rule yields anything that is not stored. -/
def Saturated (rules : Set Rule) (world : World) : Prop :=
  ∀ rule ∈ rules, ∃ later,
    ({} : Interpreter).applyRule rule.toAtom world = some (.ok [],later)

/-- Applies rules one after the other, and returns what each call returned. -/
def applyRules (calls : List Rule) : Eval (List (Except EvaluationError (List Atom))) :=
  calls.mapM fun rule => ({} : Interpreter).applyRule rule.toAtom

namespace Materialized

variable {rules : Set Rule} {first space later : Space} {earlier added : List Atom}

theorem start (grounded : space.Grounded) : Materialized rules space space [] where
  once := List.nodup_nil
  fresh := List.forall_mem_nil _
  facts := by simp
  sound := (isLeast_leastModel rules space.facts).1.1
  grounded := grounded

variable (materialized : Materialized rules first space earlier)
include materialized

theorem apply {rule : Rule} (member : rule ∈ rules) (applied : Applied rule space later added) :
    Materialized rules first later (earlier ++ added) where
  once := by
    refine materialized.once.append applied.once fun a before again => ?_
    refine ((applied.new a).mp again).2 ?_
    rw [materialized.facts]
    exact .inr before
  fresh := by
    rw [List.forall_mem_append]
    refine ⟨materialized.fresh,fun a inside before => ?_⟩
    refine ((applied.new a).mp inside).2 ?_
    rw [materialized.facts]
    exact .inl before
  facts := by
    rw [applied.facts,materialized.facts,Set.union_assoc]
    ext a
    simp
  sound := by
    rw [applied.facts]
    refine Set.union_subset materialized.sound fun a inside => ?_
    have fires := ((applied.new a).mp inside).1
    exact (isLeast_leastModel rules first.facts).1.2 rule member a (fires.mono materialized.sound)
  grounded := applied.grounded

theorem applyRules (restricted : ∀ rule ∈ rules, rule.RangeRestricted) {calls : List Rule}
    (members : ∀ rule ∈ calls, rule ∈ rules) :
    Ensures (·.space = space) (applyRules calls) fun results later =>
      ∃ lists : List (List Atom), results = lists.map .ok ∧
        Materialized rules first later.space (earlier ++ lists.flatten) := by
  induction calls generalizing space earlier with
  | nil =>
    refine Ensures.pure fun world same => ⟨[],rfl,?_⟩
    rw [List.flatten_nil,List.append_nil,same]
    exact materialized
  | cons rule calls ih =>
    rw [List.forall_mem_cons] at members
    rw [AtomLogic.applyRules,List.mapM_cons]
    refine (ensures_applyRule (restricted rule members.1) materialized.grounded).bind fun result => ?_
    intro middle given
    obtain ⟨added,rfl,applied⟩ := given
    have rest := ih (materialized.apply members.1 applied) members.2
    refine (rest.bind fun results => Ensures.pure fun world done => ?_) middle rfl
    obtain ⟨lists,rfl,materializedToo⟩ := done
    refine ⟨added :: lists,rfl,?_⟩
    rw [List.flatten_cons,← List.append_assoc]
    exact materializedToo

theorem eq_leastModel {world : World} (same : world.space = space)
    (restricted : ∀ rule ∈ rules, rule.RangeRestricted) (saturated : Saturated rules world) :
    space.facts = leastModel rules first.facts := by
  refine Set.Subset.antisymm materialized.sound ?_
  refine (isLeast_leastModel rules first.facts).2 ⟨?_,?_⟩
  · rw [materialized.facts]
    exact Set.subset_union_left
  · intro rule member a fires
    by_contra missing
    obtain ⟨last,ended⟩ := saturated rule member
    obtain ⟨result,later,ran,added,rfl,applied⟩ :=
      ensures_applyRule (restricted rule member) materialized.grounded world same
    rw [ran] at ended
    obtain rfl : added = [] := by simpa using congrArg (Option.map Prod.fst) ended
    exact List.not_mem_nil ((applied.new a).mpr ⟨fires,missing⟩)

end Materialized

theorem applyRules_concat (calls : List Rule) (rule : Rule) (start : World) :
    applyRules (calls ++ [rule]) start = (applyRules calls start).bind fun step =>
      (({} : Interpreter).applyRule rule.toAtom step.2).map fun last =>
        (step.1 ++ [last.1],last.2) := by
  rw [applyRules,List.mapM_append,List.mapM_cons,List.mapM_nil]
  change (applyRules calls start).bind _ = _
  congr 1
  funext step
  change ((({} : Interpreter).applyRule rule.toAtom step.2).bind _).bind _ = _
  cases ({} : Interpreter).applyRule rule.toAtom step.2 <;> rfl

/-- A run is over when, whatever rule is applied next, that call returns nothing. -/
theorem exists_saturated {rules : Set Rule} {calls : List Rule} {start : World}
    {results : List (Except EvaluationError (List Atom))} (nonempty : rules.Nonempty)
    (idle : ∀ rule ∈ rules,
      (applyRules (calls ++ [rule]) start).map Prod.fst = some (results ++ [.ok []])) :
    ∃ later, applyRules calls start = some (results,later) ∧ Saturated rules later := by
  have next : ∀ rule ∈ rules, ∃ later last, applyRules calls start = some (results,later) ∧
      ({} : Interpreter).applyRule rule.toAtom later = some (.ok [],last) := by
    intro rule member
    have ran := idle rule member
    rw [applyRules_concat] at ran
    simp only [Option.map_eq_some_iff,Option.bind_eq_some_iff] at ran
    obtain ⟨_,⟨⟨earlier,later⟩,first,⟨result,last⟩,second,rfl⟩,same⟩ := ran
    obtain ⟨rfl,ended⟩ := List.append_inj' same rfl
    obtain rfl := List.singleton_injective ended
    exact ⟨later,last,first,second⟩
  obtain ⟨rule,member⟩ := nonempty
  obtain ⟨later,_,ran,_⟩ := next rule member
  refine ⟨later,ran,fun rule member => ?_⟩
  obtain ⟨_,last,again,ended⟩ := next rule member
  obtain ⟨_,rfl⟩ := Prod.mk.inj (Option.some.inj (again.symm.trans ran))
  exact ⟨last,ended⟩

/-- Rules applied in any order, with any repetitions, store only facts of the least model and
return each new fact once. When no rule yields anything new the facts are the least model, so
all such runs end with the same facts. -/
theorem applyRules_leastModel (rules : Set Rule)
    (restricted : ∀ rule ∈ rules, rule.RangeRestricted) (start : World)
    (grounded : start.space.Grounded) :
    (∀ calls : List Rule, (∀ rule ∈ calls, rule ∈ rules) →
      ∃ (lists : List (List Atom)) (later : World), applyRules calls start = some (lists.map .ok,later) ∧
        lists.flatten.Nodup ∧ (∀ a ∈ lists.flatten, a ∉ start.space.facts) ∧
        later.space.facts = start.space.facts ∪ {a | a ∈ lists.flatten} ∧
        later.space.facts ⊆ leastModel rules start.space.facts ∧
        (Saturated rules later → later.space.facts = leastModel rules start.space.facts)) ∧
    ∀ (other : World) (calls others : List Rule) (results resultsToo later laterToo),
      other.space.Grounded → other.space.facts = start.space.facts →
      (∀ rule ∈ calls, rule ∈ rules) → (∀ rule ∈ others, rule ∈ rules) →
      applyRules calls start = some (results,later) →
      applyRules others other = some (resultsToo,laterToo) →
      Saturated rules later → Saturated rules laterToo →
      later.space.facts = laterToo.space.facts := by
  have run : ∀ (world : World), world.space.Grounded → ∀ calls : List Rule,
      (∀ rule ∈ calls, rule ∈ rules) → ∃ (lists : List (List Atom)) (later : World),
        applyRules calls world = some (lists.map .ok,later) ∧
          Materialized rules world.space later.space lists.flatten := by
    intro world grounded calls members
    obtain ⟨_,later,ran,lists,rfl,materialized⟩ :=
      (Materialized.start grounded).applyRules restricted members world rfl
    exact ⟨lists,later,ran,materialized⟩
  constructor
  · intro calls members
    obtain ⟨lists,later,ran,materialized⟩ := run start grounded calls members
    exact ⟨lists,later,ran,materialized.once,materialized.fresh,materialized.facts,
      materialized.sound,materialized.eq_leastModel rfl restricted⟩
  · intro other calls others results resultsToo later laterToo groundedToo same members membersToo
      ran ranToo saturated saturatedToo
    obtain ⟨_,_,ends,materialized⟩ := run start grounded calls members
    obtain ⟨_,_,endsToo,materializedToo⟩ := run other groundedToo others membersToo
    obtain ⟨_,rfl⟩ := Prod.mk.inj (Option.some.inj (ends.symm.trans ran))
    obtain ⟨_,rfl⟩ := Prod.mk.inj (Option.some.inj (endsToo.symm.trans ranToo))
    rw [materialized.eq_leastModel rfl restricted saturated,
      materializedToo.eq_leastModel rfl restricted saturatedToo,same]

private def isa (a b : Atom) : Atom := .expr [.sym "isa",a,b]

private def warm (a : Atom) : Atom := .expr [.sym "warm",a]

private def transitivity : Rule :=
  ⟨.expr [.sym "and",isa (.var "x") (.var "y"),isa (.var "y") (.var "z")],isa (.var "x") (.var "z")⟩

private def warmth : Rule := ⟨isa (.var "x") (.sym "Mammal"),warm (.var "x")⟩

private theorem rangeRestricted_transitivity : transitivity.RangeRestricted := by
  refine ⟨?_,⟨"isa",rfl,rfl⟩,?_⟩
  · exact List.forall_mem_cons.mpr ⟨⟨"isa",rfl,rfl⟩,List.forall_mem_singleton.mpr ⟨"isa",rfl,rfl⟩⟩
  · intro name inside
    simp [transitivity,isa] at inside ⊢
    tauto

private theorem rangeRestricted_warmth : warmth.RangeRestricted := by
  refine ⟨List.forall_mem_singleton.mpr ⟨"isa",rfl,rfl⟩,⟨"warm",rfl,rfl⟩,?_⟩
  intro name inside
  simpa [warmth,isa,warm] using inside

private def taxonomy : Space :=
  Space.ofList [isa (.sym "Fido") (.sym "Dog"),isa (.sym "Dog") (.sym "Mammal"),
    isa (.sym "Mammal") (.sym "Animal")]

private def taxonomyFromTop : Space :=
  Space.ofList [isa (.sym "Mammal") (.sym "Animal"),isa (.sym "Dog") (.sym "Mammal"),
    isa (.sym "Fido") (.sym "Dog")]

/-- Two orders of calls, each followed until no rule yields anything. -/
theorem applyRules_leastModel_taxonomy :
    let rules : Set Rule := {transitivity,warmth}
    let kinds := [isa (.sym "Fido") (.sym "Mammal"),isa (.sym "Dog") (.sym "Animal")]
    let lists := [kinds,[warm (.sym "Dog"),warm (.sym "Fido")],[isa (.sym "Fido") (.sym "Animal")],[]]
    let others :=
      [[warm (.sym "Dog")],kinds.reverse,[isa (.sym "Fido") (.sym "Animal")],[warm (.sym "Fido")]]
    (∀ rule ∈ rules, rule.RangeRestricted) ∧ taxonomy.Grounded ∧ taxonomyFromTop.Grounded ∧
      taxonomyFromTop.facts = taxonomy.facts ∧ ∃ later laterToo : World,
        applyRules [transitivity,warmth,transitivity,warmth] { space := taxonomy } =
          some (lists.map .ok,later) ∧
        applyRules [warmth,transitivity,transitivity,warmth] { space := taxonomyFromTop } =
          some (others.map .ok,laterToo) ∧
        Saturated rules later ∧ Saturated rules laterToo ∧
        later.space.facts = leastModel rules taxonomy.facts ∧
        later.space.facts = laterToo.space.facts := by
  intro rules kinds lists others
  have restricted : ∀ rule ∈ rules, rule.RangeRestricted := by
    rintro rule (rfl | rfl)
    · exact rangeRestricted_transitivity
    · exact rangeRestricted_warmth
  have members : ∀ rule ∈ [transitivity,warmth,transitivity,warmth], rule ∈ rules := by
    simp [rules]
  have membersToo : ∀ rule ∈ [warmth,transitivity,transitivity,warmth], rule ∈ rules := by
    simp [rules]
  have grounded : taxonomy.Grounded := by
    have ground : ∀ a ∈ taxonomy.toList, a.hasVariables = false := by decide
    exact fun a stored _ => ground a stored
  have same : taxonomyFromTop.facts = taxonomy.facts := by
    have reordered : taxonomyFromTop.toList.Perm taxonomy.toList := by decide +kernel
    simp only [Space.facts,reordered.mem_iff]
  have groundedToo : taxonomyFromTop.Grounded := by
    rw [Space.grounded_iff,same]
    exact taxonomy.grounded_iff.mp grounded
  obtain ⟨later,ran,saturated⟩ : ∃ later,
      applyRules [transitivity,warmth,transitivity,warmth] { space := taxonomy } =
        some (lists.map .ok,later) ∧ Saturated rules later := by
    refine exists_saturated ⟨warmth,.inr rfl⟩ ?_
    rintro rule (rfl | rfl) <;> decide +kernel
  obtain ⟨laterToo,ranToo,saturatedToo⟩ : ∃ later,
      applyRules [warmth,transitivity,transitivity,warmth] { space := taxonomyFromTop } =
        some (others.map .ok,later) ∧ Saturated rules later := by
    refine exists_saturated ⟨warmth,.inr rfl⟩ ?_
    rintro rule (rfl | rfl) <;> decide +kernel
  obtain ⟨one,two⟩ := applyRules_leastModel rules restricted { space := taxonomy } grounded
  obtain ⟨_,_,again,_,_,_,_,least⟩ := one _ members
  obtain ⟨_,rfl⟩ := Prod.mk.inj (Option.some.inj (again.symm.trans ran))
  refine ⟨restricted,grounded,groundedToo,same,_,laterToo,ran,ranToo,saturated,saturatedToo,
    least saturated,?_⟩
  exact two _ _ _ _ _ _ _ groundedToo same members membersToo ran ranToo saturated saturatedToo

end AtomLogic
