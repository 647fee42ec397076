import AtomLogic.Proofs.Premises
import Mathlib.Logic.Function.Basic

/-! One evaluation makes one step of inference. Its answers are, up to instantiation, the
instances of the query that are stored or that a stored rule concludes from stored atoms. -/

namespace AtomLogic
open Substitution

/-! ### Copies of rules -/

theorem Rule.copyName_injective (number : Nat) : Function.Injective (Rule.copyName number) := by
  intro first second same
  have letters := congrArg String.toList same
  simp only [copyName,String.append_assoc,String.toList_append] at letters
  exact String.toList_inj.mp (List.append_cancel_right letters)

theorem Rule.semicolon_mem_copyName (number : Nat) (name : String) :
    ';' ∈ (Rule.copyName number name).toList := by
  simp [copyName]

theorem semicolon_mem_of_mentions_copy {a : Atom} {number : Nat} {name : String}
    (inside : (a.rename (Rule.copyName number)).mentions name = true) : ';' ∈ name.toList := by
  obtain ⟨original,_,inside⟩ := (Atom.mentions_instantiate _ _ _).mp inside
  rw [Atom.mentions_var] at inside
  exact inside ▸ Rule.semicolon_mem_copyName number original

theorem Rule.mentions_of_ofAtom? {a : Atom} {rule : Rule} (isRule : Rule.ofAtom? a = some rule)
    (name : String) :
    a.mentions name = true ↔ rule.body.mentions name = true ∨ rule.head.mentions name = true := by
  rw [(Rule.ofAtom?_eq_some_iff a rule).mp isRule]
  simp [toAtom]

theorem exists_values_copy (number : Nat) (copied others : String → Atom) :
    ∃ values : String → Atom, (∀ name, values (Rule.copyName number name) = copied name) ∧
      ∀ name, ';' ∉ name.toList → values name = others name := by
  refine ⟨Function.extend (Rule.copyName number) copied others,?_,?_⟩
  · exact (Rule.copyName_injective number).extend_apply copied others
  · intro name plain
    apply Function.extend_apply'
    intro given
    obtain ⟨original,rfl⟩ := given
    exact plain (Rule.semicolon_mem_copyName number original)

/-! ### What one step yields -/

def Atom.Instance (a g : Atom) : Prop := ∃ values : String → Atom, a.instantiate values = g

/-- An instance of one of the answers. -/
def Yields (answers : Answers) (g : Atom) : Prop := ∃ answer ∈ answers, answer.1.Instance g

/-- The atom is a rule with a ground instance whose premises are stored and whose conclusion
is the other atom. -/
def Concludes (space : Space) (a g : Atom) : Prop :=
  ∃ rule, Rule.ofAtom? a = some rule ∧ ∃ values : String → Atom,
    (∀ name, a.mentions name = true → (values name).hasVariables = false) ∧
      (∀ goal ∈ rule.body.goals, goal.instantiate values ∈ space.toList) ∧
        rule.head.instantiate values = g

/-- What is stored, or concluded by a stored rule from what is stored. -/
def Consequence (space : Space) (g : Atom) : Prop :=
  g ∈ space.toList ∨ ∃ a ∈ space.toList, Concludes space a g

section Rules

variable {space : Space} (definite : space.Definite) {a : Atom} {rule : Rule}
  (isRule : Rule.ofAtom? a = some rule) (stored : a ∈ space.toList) {query : Atom} {number : Nat}
  {s : Substitution} (unified : unify (rule.copy number).head query = some s)
  {threads : List Substitution}
  (meets : Meets space (s.apply (rule.copy number).body).goals threads)
include definite isRule stored

theorem Rule.goals_copy (s : Substitution) (number : Nat) :
    (s.apply (rule.copy number).body).goals =
      rule.body.goals.map fun goal => s.apply (goal.rename (copyName number)) := by
  have patterns := definite.premises a stored rule isRule
  rw [apply,copy,Atom.instantiate_rename,Atom.goals_instantiate patterns]
  exact List.map_congr_left fun goal _ => (Atom.instantiate_rename _ _ _).symm

/-- A rule concludes its head under an assignment to its copy that makes the premises stored
atoms and the head ground. -/
theorem concludes_of_values {values : String → Atom}
    (premises : ∀ goal ∈ rule.body.goals,
      (goal.rename (Rule.copyName number)).instantiate values ∈ space.toList)
    (ground : ((rule.copy number).head.instantiate values).hasVariables = false) :
    Concludes space a ((rule.copy number).head.instantiate values) := by
  have renamed : ∀ b : Atom, (b.rename (Rule.copyName number)).instantiate values =
      b.instantiate (values ∘ Rule.copyName number) := Atom.instantiate_rename values _
  simp only [renamed] at premises
  rw [Rule.copy,renamed] at ground ⊢
  refine ⟨rule,isRule,values ∘ Rule.copyName number,?_,premises,rfl⟩
  intro name inside
  rcases (Rule.mentions_of_ofAtom? isRule name).mp inside with inBody | inHead
  · -- each variable of the body stands in a premise, which is ground because it is stored
    obtain ⟨goal,asked,inGoal⟩ := Atom.mentions_goals inBody
    have pattern := definite.premises a stored rule isRule goal asked
    have groundGoal := definite.grounded.ground (premises goal asked) (pattern.instantiate _)
    exact (Atom.ground_instantiate _ goal).mp groundGoal name inGoal
  · exact (Atom.ground_instantiate _ rule.head).mp ground name inHead

theorem answer_of_concludes (plain : ∀ name, query.mentions name = true → ';' ∉ name.toList)
    {g : Atom} (asked : query.Instance g) (concludes : Concludes space a g) (number : Nat) :
    ∃ s, unify (rule.copy number).head query = some s ∧
      ∀ threads, Meets space (s.apply (rule.copy number).body).goals threads →
        ∃ t ∈ threads, ((s.compose t).apply query).Instance g := by
  obtain ⟨others,rfl⟩ := asked
  obtain ⟨same,isSame,copied,_,premises,conclusion⟩ := concludes
  obtain rfl := Option.some.inj (isRule.symm.trans isSame)
  -- no name of the query is one of the copy, so one assignment serves both
  obtain ⟨values,onCopy,elsewhere⟩ := exists_values_copy number copied others
  have agrees : query.instantiate values = query.instantiate others :=
    Atom.instantiate_congr fun name inside => elsewhere name (plain name inside)
  have renamed : ∀ b : Atom, (b.rename (Rule.copyName number)).instantiate values =
      b.instantiate copied := by
    intro b
    rw [Atom.instantiate_rename]
    exact Atom.instantiate_congr fun name _ => onCopy name
  have equal : Unifies (rule.copy number).head query values := by
    rw [Unifies,agrees,← conclusion]
    exact renamed rule.head
  obtain ⟨s,unified,factors⟩ := unify_complete equal
  refine ⟨s,unified,fun threads meets => ?_⟩
  obtain ⟨t,among,factorsToo⟩ := meets.complete values <| by
    rw [Rule.goals_copy definite isRule stored,List.forall_mem_map]
    intro goal asked
    rw [factors,renamed]
    exact premises goal asked
  have through := factors.compose (unify_sound unified).1.namesOnce (meets.namesOnce t among)
    factorsToo
  exact ⟨t,among,values,(through query).trans agrees⟩

include unified meets

theorem concludes_of_answer {t : Substitution} (among : t ∈ threads) {g : Atom}
    (ground : g.hasVariables = false) (found : ((s.compose t).apply query).Instance g) :
    query.Instance g ∧ Concludes space a g := by
  obtain ⟨normal,equal⟩ := unify_sound unified
  have composed := apply_compose normal.namesOnce (meets.namesOnce t among)
  obtain ⟨others,rfl⟩ := found
  have under : ∀ b : Atom,
      b.instantiate (fun name => ((s.compose t).value name).instantiate others) =
        (t.apply (s.apply b)).instantiate others := by
    intro b
    rw [← composed,apply,Atom.instantiate_instantiate]
  have conclusion : ((s.compose t).apply query).instantiate others =
      (rule.copy number).head.instantiate fun name =>
        ((s.compose t).value name).instantiate others := by
    rw [under,equal,composed]
  refine ⟨⟨_,(Atom.instantiate_instantiate _ _ query).symm⟩,?_⟩
  rw [conclusion] at ground ⊢
  refine concludes_of_values definite isRule stored ?_ ground
  intro goal asked
  have known : t.apply (s.apply (goal.rename (Rule.copyName number))) ∈ space.toList := by
    apply meets.stored t among
    rw [Rule.goals_copy definite isRule stored]
    exact List.mem_map_of_mem asked
  have pattern := definite.premises a stored rule isRule goal asked
  have groundGoal := definite.grounded.ground known (((pattern.instantiate _).instantiate _).instantiate _)
  rw [under,Atom.instantiate_ground groundGoal]
  exact known

end Rules

/-! ### Evaluation -/

section Evaluation

variable {space : Space} (definite : space.Definite) {query : Atom}
  (plain : ∀ name, query.mentions name = true → ';' ∉ name.toList)

def Answered (query : Atom) (property : Atom → Prop) (answers : Answers) : Prop :=
  ∀ g : Atom, g.hasVariables = false → (Yields answers g ↔ query.Instance g ∧ property g)

theorem yields_append (first second : Answers) (g : Atom) :
    Yields (first ++ second) g ↔ Yields first g ∨ Yields second g := by
  simp only [Yields,List.mem_append,or_and_right,exists_or]

theorem answered_nil {property : Atom → Prop} (none : ∀ g, query.Instance g → ¬property g) :
    Answered query property [] := by
  intro g _
  simp only [Yields,List.not_mem_nil,false_and,exists_false,false_iff,not_and]
  exact none g

include definite plain

theorem ensures_inferFrom {a : Atom} (stored : a ∈ space.toList) (depth : Nat) :
    Ensures (·.space = space)
      (inferFrom (Interpreter.evaluateWithin .standard (depth + 2) .disabled) query a)
      fun answers later => later.space = space ∧ Answered query (Concludes space a) answers := by
  rw [inferFrom]
  cases isRule : Rule.ofAtom? a with
  | none =>
    refine Ensures.pure fun world same => ⟨same,answered_nil fun g _ concludes => ?_⟩
    obtain ⟨rule,isSome,_⟩ := concludes
    rw [isRule] at isSome
    cases isSome
  | some rule =>
    have counted : Ensures (·.space = space)
        (modifyGetThe World fun world => (world.tried,{ world with tried := world.tried + 1 }))
        fun _ later => later.space = space := fun world same => ⟨_,_,rfl,same⟩
    refine counted.bind fun number => ?_
    dsimp only
    have complete := fun g asked concludes =>
      answer_of_concludes definite isRule stored plain (g := g) asked concludes number
    cases unified : unify (rule.copy number).head query with
    | none =>
      refine Ensures.pure fun world same => ⟨same,answered_nil fun g asked concludes => ?_⟩
      obtain ⟨s,isSome,_⟩ := complete g asked concludes
      rw [unified] at isSome
      cases isSome
    | some s =>
      have premises : ∀ goal ∈ (s.apply (rule.copy number).body).goals, goal.IsPattern := by
        rw [Rule.goals_copy definite isRule stored,List.forall_mem_map]
        intro goal asked
        exact ((definite.premises a stored rule isRule goal asked).instantiate _).instantiate _
      refine (ensures_evaluateWithin_body definite.grounded premises depth).bind fun answers =>
        Ensures.pure fun world done => ⟨done.1,fun g ground => ⟨?_,?_⟩⟩
      · intro given
        obtain ⟨answer,member,found⟩ := given
        obtain ⟨⟨b,t⟩,among,rfl⟩ := List.mem_map.mp member
        exact concludes_of_answer definite isRule stored unified done.2
          (List.mem_map_of_mem among) ground found
      · intro given
        obtain ⟨asked,concludes⟩ := given
        obtain ⟨other,isSome,covered⟩ := complete g asked concludes
        rw [unified] at isSome
        obtain rfl := Option.some.inj isSome
        obtain ⟨t,among,found⟩ := covered _ done.2
        obtain ⟨answer,member,rfl⟩ := List.mem_map.mp among
        exact ⟨_,List.mem_map_of_mem member,found⟩

theorem ensures_infer (depth : Nat) :
    Ensures (·.space = space)
      (infer (Interpreter.evaluateWithin .standard (depth + 2) .disabled) query)
      fun answers later => later.space = space ∧
        Answered query (fun g => ∃ a ∈ space.toList, Concludes space a g) answers := by
  intro world same
  have bucket : ∀ a, a ∈ space.bucket (.headed Rule.symbol) ↔
      a ∈ space.toList ∧ a.head? = some Rule.symbol := by
    intro a
    rw [Space.mem_bucket_iff,Space.key_of_eq_headed]
  have inferred := Ensures.gather fun a (member : a ∈ space.bucket (.headed Rule.symbol)) =>
    ensures_inferFrom definite plain ((bucket a).mp member).1 depth
  obtain ⟨answers,later,ran,kept,gathered⟩ := inferred world same
  refine ⟨answers,later,?_,kept,fun g ground => ⟨?_,?_⟩⟩
  · rw [← ran,← same]
    rfl
  · intro given
    obtain ⟨answer,member,found⟩ := given
    obtain ⟨a,among,part,answered,inside⟩ := gathered.source member
    obtain ⟨asked,concludes⟩ := (answered g ground).mp ⟨answer,inside,found⟩
    exact ⟨asked,a,((bucket a).mp among).1,concludes⟩
  · intro given
    obtain ⟨asked,a,stored,concludes⟩ := given
    obtain ⟨rule,isRule,_⟩ := id concludes
    obtain ⟨part,answered,covered⟩ :=
      gathered.part ((bucket a).mpr ⟨stored,Rule.head?_of_ofAtom? isRule⟩)
    obtain ⟨answer,inside,found⟩ := (answered g ground).mpr ⟨asked,concludes⟩
    exact ⟨answer,covered answer inside,found⟩

omit plain in
theorem answered_query (pattern : query.IsPattern) :
    Answered query (· ∈ space.toList) (space.query query) := by
  intro g _
  constructor
  · intro given
    obtain ⟨⟨a,s⟩,answer,values,rfl⟩ := given
    obtain ⟨stored,ground,_,equal⟩ := (definite.grounded.extensional pattern).of_mem_query answer
    rw [Atom.instantiate_ground ground]
    exact ⟨⟨s.value,equal⟩,stored⟩
  · intro given
    obtain ⟨⟨values,rfl⟩,stored⟩ := given
    obtain ⟨s,answer,_⟩ := (definite.grounded.extensional pattern).mem_query_instantiate stored
    exact ⟨_,answer,.var,Atom.instantiate_self _⟩

theorem ensures_consult (pattern : query.IsPattern) (depth : Nat) :
    Ensures (·.space = space)
      (consult (Interpreter.evaluateWithin .standard (depth + 2) .disabled) .enabled query)
      fun answers later => later.space = space ∧ Answered query (Consequence space) answers := by
  refine (ensures_infer definite plain depth).bind fun inferred => ?_
  intro world given
  obtain ⟨same,answered⟩ := given
  refine ⟨inferred ++ space.query query,world,?_,same,fun g ground => ?_⟩
  · rw [← same]
    rfl
  · have known := answered_query definite pattern g ground
    rw [yields_append,answered g ground,known,Consequence,← and_or_left,or_comm]

theorem ensures_evaluate (pattern : query.IsPattern) :
    Ensures (·.space = space) (({} : Interpreter).evaluate query) fun atoms later =>
      later.space = space ∧ ∀ g : Atom, g.hasVariables = false →
        ((∃ a ∈ atoms, a.Instance g) ↔ query.Instance g ∧ Consequence space g) := by
  have answered : Ensures (·.space = space) (({} : Interpreter).answers query)
      fun answers later => later.space = space ∧ Answered query (Consequence space) answers := by
    rw [Interpreter.answers,Interpreter.evaluateWithin,pattern.find?_eq_none]
    refine (ensures_consult definite plain pattern 9997).bind fun answers =>
      Ensures.pure fun later done => ⟨done.1,fun g ground => ?_⟩
    rw [← done.2 g ground]
    simp [Yields]
  refine answered.bind fun answers => Ensures.pure fun later done => ⟨done.1,fun g ground => ?_⟩
  rw [← done.2 g ground]
  simp [Yields]

end Evaluation

/-- Evaluating a pattern makes one step of inference: among the ground atoms, exactly the
consequences of the space that are instances of the query are instances of an answer. The
space stays as it is, so no conclusion becomes a premise. -/
theorem evaluate_iff_consequence (world : World) (definite : world.space.Definite) (query : Atom)
    (pattern : query.IsPattern)
    (plain : ∀ name, query.mentions name = true → ';' ∉ name.toList) :
    ∃ answers later, ({} : Interpreter).evaluate query world = some (answers,later) ∧
      later.space = world.space ∧
        ∀ g : Atom, g.hasVariables = false →
          ((∃ answer ∈ answers, answer.Instance g) ↔
            query.Instance g ∧ Consequence world.space g) :=
  ensures_evaluate definite plain pattern world rfl

private def humans : Space := Space.ofList [.expr [.sym "Human",.sym "Socrates"],
  .expr [.sym "implies",.expr [.sym "Human",.var "x"],.expr [.sym "Mortal",.var "x"]]]

theorem evaluate_iff_consequence_mortal :
    humans.Definite ∧ ∃ answers later,
      ({} : Interpreter).evaluate (.expr [.sym "Mortal",.var "x"]) { space := humans } =
        some (answers,later) ∧
      ∃ answer ∈ answers, answer.Instance (.expr [.sym "Mortal",.sym "Socrates"]) := by
  have stored : humans.toList = [.expr [.sym "Human",.sym "Socrates"],
      .expr [.sym "implies",.expr [.sym "Human",.var "x"],.expr [.sym "Mortal",.var "x"]]] := by
    decide
  have definite : humans.Definite := by
    constructor
    · rw [stored,List.forall_mem_cons,List.forall_mem_singleton]
      exact ⟨fun _ => rfl,nofun⟩
    · rw [stored,List.forall_mem_cons,List.forall_mem_singleton]
      refine ⟨nofun,fun rule isRule => ?_⟩
      obtain rfl := Option.some.inj isRule
      exact List.forall_mem_singleton.mpr ⟨"Human",rfl,rfl⟩
  refine ⟨definite,?_⟩
  obtain ⟨answers,later,ran,_,exactly⟩ := evaluate_iff_consequence { space := humans } definite
    (.expr [.sym "Mortal",.var "x"]) ⟨"Mortal",rfl,rfl⟩ (by simp)
  refine ⟨answers,later,ran,(exactly _ rfl).mpr ⟨⟨fun _ => .sym "Socrates",rfl⟩,.inr ?_⟩⟩
  have known : .expr [.sym "implies",.expr [.sym "Human",.var "x"],.expr [.sym "Mortal",.var "x"]] ∈
      humans.toList := stored ▸ List.mem_cons_of_mem _ List.mem_cons_self
  refine ⟨_,known,_,rfl,fun _ => .sym "Socrates",fun _ _ => rfl,?_,rfl⟩
  rw [stored]
  exact List.forall_mem_singleton.mpr List.mem_cons_self

end AtomLogic
