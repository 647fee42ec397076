import AtomLogic.Proofs.Trials
import AtomLogic.Proofs.Vocabulary

/-! Evaluation keeps to a vocabulary. If the stored atoms and the query are spelled in it, then so
is whatever a rule is tried with, whatever is answered and whatever is stored afterwards. -/

namespace AtomLogic
namespace Vocabulary

/-- At the moment of the trial every name is in the vocabulary. -/
structure Knows (v : Vocabulary) (trial : Trial) : Prop where
  space : v.Stocks trial.number trial.world.space
  query : v.Spells trial.number trial.query
  rule : v.Spells trial.number trial.rule.toAtom

/-- What lasts of a space while atoms of the vocabulary are evaluated: its atoms are spelled, more
tries make no difference, and storing or removing an atom makes none if the vocabulary has the
symbol for it. -/
structure Lasts (v : Vocabulary) (lasting : Nat → Space → Prop) : Prop where
  stocks : ∀ {tried space}, lasting tried space → v.Stocks tried space
  mono : ∀ {tried later space}, lasting tried space → tried ≤ later → lasting later space
  add : v.symbols Standard.assertion.name → ∀ {tried space a}, lasting tried space →
    v.Spells tried a → lasting tried (space.add a).2
  remove : v.symbols Standard.retraction.name → ∀ {tried space} (a : Atom), lasting tried space →
    lasting tried (space.remove a).2

theorem lasts_stocks (v : Vocabulary) : v.Lasts v.Stocks where
  stocks stocked := stocked
  mono := Stocks.mono
  add _ := Stocks.add
  remove _ _ _ a stocked := stocked.remove a

/-- From a world of which the property holds and in which so many rules have been tried, every trial
is in the vocabulary, and the property holds of the world that is left. The result is as stated for
the number of rules that have been tried by then. -/
def Keeps {α : Type} (v : Vocabulary) (lasting : Nat → Space → Prop) (tried : Nat) (x : Traced α)
    (after : Nat → α → Prop) : Prop :=
  ∀ world : World, lasting world.tried world.space → tried ≤ world.tried →
    (∀ trial ∈ (x world).1, v.Knows trial) ∧
      ∀ a later, (x world).2 = some (a,later) →
        lasting later.tried later.space ∧ world.tried ≤ later.tried ∧ after later.tried a

namespace Keeps

variable {v : Vocabulary} {lasting : Nat → Space → Prop} {tried : Nat} {α β : Type} {x : Traced α}
  {after : Nat → α → Prop}

theorem pure {a : α} (holds : ∀ later, tried ≤ later → after later a) :
    v.Keeps lasting tried (pure a) after := by
  intro world held grown
  refine ⟨List.forall_mem_nil _,fun b later ran => ?_⟩
  cases ran
  exact ⟨held,Nat.le_refl _,holds _ grown⟩

theorem failure : v.Keeps lasting tried (.ofEval failure) after :=
  fun _ _ _ => ⟨List.forall_mem_nil _,fun _ _ ran => nomatch ran⟩

theorem space (lasts : v.Lasts lasting) : v.Keeps lasting tried (getThe Space) fun later space =>
    v.Stocks later space ∧ tried ≤ later := by
  intro world held grown
  refine ⟨List.forall_mem_nil _,fun b later ran => ?_⟩
  cases ran
  exact ⟨held,Nat.le_refl _,lasts.stocks held,grown⟩

theorem change {change : Space → α × Space}
    (changes : ∀ later space, tried ≤ later → lasting later space → lasting later (change space).2) :
    v.Keeps lasting tried (modifyGetThe Space change) fun later _ => tried ≤ later := by
  intro world held grown
  refine ⟨List.forall_mem_nil _,fun b later ran => ?_⟩
  cases ran
  exact ⟨changes _ _ grown held,Nat.le_refl _,grown⟩

theorem tryRule (lasts : v.Lasts lasting) {rule : Rule} {query : Atom}
    (known : v.Spells tried rule.toAtom) (spelled : v.Spells tried query) :
    v.Keeps lasting tried (Traced.tryRule rule query) fun later number =>
      tried ≤ number ∧ number < later := by
  intro world held grown
  refine ⟨?_,fun number later ran => ?_⟩
  · exact List.forall_mem_singleton.mpr ⟨lasts.stocks held,spelled.mono grown,known.mono grown⟩
  · cases ran
    exact ⟨lasts.mono held (Nat.le_succ _),Nat.le_succ _,grown,Nat.lt_succ_self _⟩

theorem bind {f : α → Traced β} {final : Nat → β → Prop} (first : v.Keeps lasting tried x after)
    (next : ∀ later a, tried ≤ later → after later a → v.Keeps lasting later (f a) final) :
    v.Keeps lasting tried (x >>= f) final := by
  intro world held grown
  obtain ⟨known,left⟩ := first world held grown
  change (∀ trial ∈ (Traced.andThen x f world).1, _) ∧
    ∀ b later, (Traced.andThen x f world).2 = _ → _
  rw [Traced.andThen]
  cases ran : x world with
  | mk trials outcome =>
    rw [ran] at known left
    cases outcome with
    | none =>
      refine ⟨known,fun _ _ absent => ?_⟩
      cases absent
    | some step =>
      obtain ⟨heldToo,grownToo,holds⟩ := left step.1 step.2 rfl
      obtain ⟨knownToo,leftToo⟩ :=
        next step.2.tried step.1 (grown.trans grownToo) holds step.2 heldToo (Nat.le_refl _)
      refine ⟨List.forall_mem_append.mpr ⟨known,knownToo⟩,fun b later ranToo => ?_⟩
      obtain ⟨heldLast,grownLast,done⟩ := leftToo b later ranToo
      exact ⟨heldLast,grownToo.trans grownLast,done⟩

theorem gather {f : α → Traced (List β)} {good : Nat → β → Prop}
    (grows : ∀ {earlier later b}, earlier ≤ later → good earlier b → good later b) {as : List α}
    (each : ∀ a ∈ as, ∀ later, tried ≤ later →
      v.Keeps lasting later (f a) fun n part => ∀ b ∈ part, good n b) :
    v.Keeps lasting tried (gather f as) fun n all => ∀ b ∈ all, good n b := by
  induction as generalizing tried with
  | nil => exact pure fun later _ => List.forall_mem_nil _
  | cons a as ih =>
    rw [List.forall_mem_cons] at each
    rw [AtomLogic.gather]
    refine (each.1 tried (Nat.le_refl _)).bind fun middle first grown holds => ?_
    refine (ih fun b member later grownToo => each.2 b member later (grown.trans grownToo)).bind
      fun last others grownToo holdsToo => pure fun later grownLast => ?_
    rw [List.forall_mem_append]
    exact ⟨fun b member => grows (grownToo.trans grownLast) (holds b member),
      fun b member => grows grownLast (holdsToo b member)⟩

section Evaluation

variable (lasts : v.Lasts lasting) {evaluate : Atom → Traced Answers}
  (sound : ∀ tried goal, v.Spells tried goal → v.Keeps lasting tried (evaluate goal) v.Answered)
include sound

theorem meet {goal : Atom} (spelled : v.Spells tried goal) {threads : List Substitution}
    (carried : ∀ s ∈ threads, v.Carries tried s) :
    v.Keeps lasting tried (Standard.meet evaluate goal threads) fun later left =>
      ∀ s ∈ left, v.Carries later s := by
  refine gather (fun grown carried => carried.mono grown) fun s member later grown => ?_
  have carriedToo := (carried s member).mono grown
  refine (sound later _ (carriedToo.apply (spelled.mono grown))).bind
    fun middle answers grownToo answered => pure fun last grownLast => ?_
  rw [List.forall_mem_map]
  intro answer among
  exact (carriedToo.mono (grownToo.trans grownLast)).compose ((answered.mono grownLast) answer among).2

theorem meetAll {goals : List Atom} (spelled : ∀ goal ∈ goals, v.Spells tried goal)
    {threads : List Substitution} (carried : ∀ s ∈ threads, v.Carries tried s) :
    v.Keeps lasting tried (Standard.meetAll evaluate goals threads) fun later left =>
      ∀ s ∈ left, v.Carries later s := by
  induction goals generalizing tried threads with
  | nil => exact pure fun later grown s member => (carried s member).mono grown
  | cons goal goals ih =>
    rw [List.forall_mem_cons] at spelled
    refine (meet sound spelled.1 carried).bind fun later left grown carriedToo => ?_
    split
    · exact pure fun _ _ => List.forall_mem_nil _
    · exact ih (fun goal member => (spelled.2 goal member).mono grown) carriedToo

theorem conjoin {goals : List Atom} (spelled : ∀ goal ∈ goals, v.Spells tried goal) :
    v.Keeps lasting tried (Standard.conjoin evaluate goals) v.Answered := by
  rw [Standard.conjoin]
  split
  · exact pure fun _ _ => List.forall_mem_singleton.mpr ⟨spells_truth,carries_empty⟩
  · refine (meetAll sound spelled (List.forall_mem_singleton.mpr carries_empty)).bind
      fun later threads grown carried => pure fun last grownToo => ?_
    refine List.forall_mem_map.mpr fun s member => ?_
    have carriedToo := (carried s member).mono grownToo
    refine ⟨carriedToo.apply ((spells_expr _).mpr (List.forall_mem_cons.mpr ?_)),carriedToo⟩
    exact ⟨spells_conjunction,fun goal asked =>
      (spelled goal asked).mono (grown.trans grownToo)⟩

include lasts in
theorem execute (standard : Standard) (named : v.symbols standard.name) {arguments : List Atom}
    (spelled : ∀ argument ∈ arguments, v.Spells tried argument) :
    v.Keeps lasting tried (standard.execute evaluate arguments) fun later result =>
      ∀ answers, result = .ok answers → v.Answered later answers := by
  have done {later : Nat} {answers : Answers} (answered : v.Answered later answers) :
      v.Keeps lasting later (Pure.pure (.ok answers)) fun last (result : Except Fault Answers) =>
        ∀ answers, result = .ok answers → v.Answered last answers :=
    pure fun last grown others same => Except.ok.inj same ▸ answered.mono grown
  have one {later : Nat} {a : Atom} (known : v.Spells later a) : v.Answered later [(a,∅)] :=
    List.forall_mem_singleton.mpr ⟨known,carries_empty⟩
  fun_cases Standard.execute evaluate standard arguments with
  | case1 => exact (conjoin sound spelled).bind fun _ answers _ => done
  | case2 =>
    refine (gather ?_ fun goal asked later grown => ?_).bind fun _ answers _ => done
    · exact fun grown known => ⟨known.1.mono grown,known.2.mono grown⟩
    · exact sound later goal ((spelled goal asked).mono grown)
  | case3 goal =>
    rw [List.forall_mem_singleton] at spelled
    have negated : v.Keeps lasting tried (Standard.negate evaluate goal) v.Answered := by
      refine (sound tried goal spelled).bind fun _ answers _ _ => pure fun last _ => ?_
      split
      · exact one spells_truth
      · exact List.forall_mem_nil _
    exact negated.bind fun _ answers _ => done
  | case4 a b =>
    rw [List.forall_mem_cons,List.forall_mem_singleton] at spelled
    refine done (List.forall_mem_map.mpr fun s unified => ⟨spells_truth,?_⟩)
    exact carries_unify spelled.1 spelled.2 (Option.mem_toList.mp unified)
  | case5 pattern =>
    rw [List.forall_mem_singleton] at spelled
    exact (space lasts).bind fun later space _ given => done (given.1.query (spelled.mono given.2))
  | case6 pattern template =>
    rw [List.forall_mem_cons,List.forall_mem_singleton] at spelled
    refine (space lasts).bind fun later space _ given =>
      done (List.forall_mem_map.mpr fun answer found => ?_)
    have carried := (given.1.query (spelled.1.mono given.2) answer found).2
    exact ⟨carried.apply (spelled.2.mono given.2),carried⟩
  | case7 a =>
    rw [List.forall_mem_singleton] at spelled
    exact (change fun later space grown held => lasts.add named held (spelled.mono grown)).bind
      fun _ _ _ _ => done (one spells_unit)
  | case8 a =>
    refine (change fun later space _ held => lasts.remove named a held).bind fun _ removed _ _ => done ?_
    split
    · exact one spells_unit
    · exact List.forall_mem_nil _
  | case9 a =>
    rw [List.forall_mem_singleton] at spelled
    exact done (one spelled)
  | case10 body head =>
    rw [List.forall_mem_cons,List.forall_mem_singleton] at spelled
    exact done (one ((spells_toAtom ⟨body,head⟩).mpr spelled))
  | case11 =>
    refine pure fun _ _ _ fault => ?_
    cases fault

include lasts in
theorem dispatch {standard : Standard} (named : v.symbols standard.name) {query : Atom}
    (spelled : v.Spells tried query) :
    v.Keeps lasting tried (Traced.dispatch evaluate standard query) v.Answered := by
  refine (execute lasts sound standard named spelled.arguments).bind fun later result _ answered => ?_
  cases result with
  | ok answers => exact pure fun last grown => (answered answers rfl).mono grown
  | error fault => exact pure fun _ _ => List.forall_mem_nil _

include lasts in
theorem inferFrom {query stored : Atom} (spelled : v.Spells tried query)
    (known : v.Spells tried stored) :
    v.Keeps lasting tried (Traced.inferFrom evaluate query stored) v.Answered := by
  rw [Traced.inferFrom]
  cases isRule : Rule.ofAtom? stored with
  | none => exact pure fun _ _ => List.forall_mem_nil _
  | some rule =>
    obtain rfl := (Rule.ofAtom?_eq_some_iff _ rule).mp isRule
    refine (tryRule lasts known spelled).bind fun later number grown given => ?_
    have parts := (spells_toAtom rule).mp known
    have bodyToo : v.Spells later (rule.copy number).body := (parts.1.rename given.1).mono given.2
    have headToo : v.Spells later (rule.copy number).head := (parts.2.rename given.1).mono given.2
    dsimp only
    cases unified : unify (rule.copy number).head query with
    | none => exact pure fun _ _ => List.forall_mem_nil _
    | some s =>
      have carried := carries_unify headToo (spelled.mono grown) unified
      refine (sound later _ (carried.apply bodyToo)).bind
        fun middle answers grownToo answered => pure fun last grownLast => ?_
      refine List.forall_mem_map.mpr fun answer among => ?_
      have composed := (carried.mono (grownToo.trans grownLast)).compose
        ((answered answer among).2.mono grownLast)
      have queried := spelled.mono (grown.trans (grownToo.trans grownLast))
      exact ⟨composed.apply queried,composed⟩

include lasts in
theorem infer {query : Atom} (spelled : v.Spells tried query) :
    v.Keeps lasting tried (Traced.infer evaluate query) v.Answered := by
  refine (space lasts).bind fun later space grown given => ?_
  refine gather (fun grown known => ⟨known.1.mono grown,known.2.mono grown⟩)
    fun stored member last grownToo => ?_
  have known := given.1 stored ((space.mem_bucket_iff _ stored).mp member).1
  exact inferFrom lasts sound (spelled.mono (grown.trans grownToo)) (known.mono grownToo)

include lasts in
theorem consult (chaining : Chaining) {query : Atom} (spelled : v.Spells tried query) :
    v.Keeps lasting tried (Traced.consult evaluate chaining query) v.Answered := by
  have queried {inferred : Answers} {later : Nat} (grown : tried ≤ later)
      (answered : v.Answered later inferred) :
      v.Keeps lasting later (do return inferred ++ (← getThe Space).query query) v.Answered := by
    refine (space lasts).bind fun middle space grownToo given => pure fun last grownLast => ?_
    have found := (given.1.query (spelled.mono (grown.trans grownToo))).mono grownLast
    exact List.forall_mem_append.mpr ⟨answered.mono (grownToo.trans grownLast),found⟩
  cases chaining with
  | enabled => exact (infer lasts sound spelled).bind fun later answers => queried
  | disabled =>
    have none : v.Keeps lasting tried (Pure.pure []) v.Answered := pure fun _ _ => List.forall_mem_nil _
    exact none.bind fun later answers => queried

end Evaluation

theorem evaluateWithin (lasts : v.Lasts lasting) (depth : Nat) (chaining : Chaining) {tried : Nat}
    {query : Atom}
    (spelled : v.Spells tried query) :
    v.Keeps lasting tried (Traced.evaluateWithin depth chaining query) v.Answered := by
  induction depth generalizing chaining tried query with
  | zero => exact failure
  | succ depth ih =>
    have restricted {later : Nat} {answers : Answers} (answered : v.Answered later answers) :
        v.Keeps lasting later (Pure.pure (answers.map fun answer =>
          (answer.1,answer.2.restrict query.variableNames))) v.Answered := by
      refine pure fun last grown => List.forall_mem_map.mpr fun answer found => ?_
      exact ⟨(answered answer found).1.mono grown,((answered answer found).2.mono grown).restrict _⟩
    rw [Traced.evaluateWithin]
    cases headed : query.head?.bind Standard.ofName? with
    | some standard =>
      exact (dispatch lasts (fun _ _ => ih chaining) (spelled.operation headed) spelled).bind
        fun _ _ _ => restricted
    | none =>
      exact (consult lasts (fun _ _ => ih .disabled) chaining spelled).bind fun _ _ _ => restricted

theorem addGround {atoms : List Atom} (spelled : ∀ a ∈ atoms, v.Spells tried a) :
    v.Keeps v.Stocks tried (.ofEval (Interpreter.addGround atoms)) fun later added =>
      ∀ a ∈ added, v.Spells later a := by
  intro world stocked grown
  refine ⟨List.forall_mem_nil _,fun added later ran => ?_⟩
  have kept := Ensures.addGround
    (fun later => v.Stocks world.tried later.space ∧ later.tried = world.tried) atoms
    fun a member later start => ⟨start.1.add ((spelled a member).mono grown),start.2⟩
  obtain ⟨others,last,ranToo,⟨stockedToo,same⟩,part⟩ := kept world ⟨stocked,rfl⟩
  cases ran.symm.trans ranToo
  rw [same]
  exact ⟨stockedToo,Nat.le_refl _,fun a member => (spelled a (part a member)).mono grown⟩

theorem call (limit : Nat) {call : Call} (spelled : v.Spells tried call.atom) :
    v.Keeps v.Stocks tried (call.traced limit) fun later shown => ∀ a ∈ shown, v.Spells later a := by
  cases call with
  | store a =>
    exact (change fun later space grown stocked => stocked.add (spelled.mono grown)).bind
      fun _ _ _ _ => pure fun _ _ => List.forall_mem_nil _
  | remove a =>
    exact (change fun later space _ stocked => stocked.remove a).bind
      fun _ _ _ _ => pure fun _ _ => List.forall_mem_nil _
  | evaluate query =>
    refine (evaluateWithin v.lasts_stocks limit .enabled spelled).bind fun later answers _ answered =>
      pure fun last grown => ?_
    intro a member
    obtain ⟨answer,found,inside⟩ := List.mem_flatMap.mp member
    have known := (answered.mono grown) answer found
    rcases List.mem_cons.mp inside with rfl | bound
    · exact known.1
    · exact List.forall_mem_map.mpr known.2 a bound
  | applyRule a =>
    rw [Call.traced]
    cases isRule : Rule.ofAtom? a with
    | none => exact pure fun _ _ => List.forall_mem_nil _
    | some rule =>
      obtain rfl := (Rule.ofAtom?_eq_some_iff _ rule).mp isRule
      have parts := (spells_toAtom rule).mp spelled
      refine (change fun later space grown stocked => stocked.add (spelled.mono grown)).bind
        fun later _ _ grown => ?_
      refine (evaluateWithin v.lasts_stocks limit .disabled (parts.1.mono grown)).bind
        fun middle answers grownToo answered => addGround ?_
      refine List.forall_mem_map.mpr fun answer found => ?_
      exact (answered answer found).2.apply (parts.2.mono (grown.trans grownToo))

end Keeps
end Vocabulary

/-! ### Runs of calls -/

/-- The worlds that calls lead to, with all that their caller has seen on the way. What it may
ask for can depend on what it has seen. -/
inductive Reached (limit : Nat) (supplied : List Atom → Atom → Prop) (first : World) :
    World → List Atom → Prop where
  | start : Reached limit supplied first first []
  | call {world later : World} {seen shown : List Atom} (call : Call) :
      Reached limit supplied first world seen → supplied seen call.atom →
        call.perform { limit := limit } world = some (shown,later) →
          Reached limit supplied first later (shown ++ seen)

theorem Reached.known {v : Vocabulary} {limit : Nat} {supplied : List Atom → Atom → Prop}
    {first world : World} {seen : List Atom} (reached : Reached limit supplied first world seen)
    (spelled : ∀ tried seen a, (∀ b ∈ seen, v.Spells tried b) → supplied seen a → v.Spells tried a)
    (stocked : v.Stocks first.tried first.space) :
    v.Stocks world.tried world.space ∧ ∀ a ∈ seen, v.Spells world.tried a := by
  induction reached with
  | start => exact ⟨stocked,List.forall_mem_nil _⟩
  | @call world later seen shown call _ asked ran ih =>
    obtain ⟨stocked,known⟩ := ih
    have keeps := Vocabulary.Keeps.call limit (spelled _ _ _ known asked)
    rw [← (Records.call limit call).outcome] at ran
    obtain ⟨stockedToo,grown,shownToo⟩ := (keeps world stocked (Nat.le_refl _)).2 shown later ran
    refine ⟨stockedToo,List.forall_mem_append.mpr ⟨shownToo,fun a member => ?_⟩⟩
    exact (known a member).mono grown

end AtomLogic
