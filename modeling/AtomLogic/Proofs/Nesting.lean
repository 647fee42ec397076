import AtomLogic.Proofs.Goals
import AtomLogic.Proofs.Limits
import AtomLogic.Proofs.ReadBack

/-! How deep evaluations nest. What is written nests no deeper than its connectives do, and the
body of a rule adds its own. But what is stored can supply goals for ever. Without goals that a
binding supplies evaluation returns, whatever facts are stored. -/

namespace AtomLogic
open Substitution

/-- The computation returns from every such world, and leaves one. -/
def Returns {α : Type} (kept : World → Prop) (x : Eval α) : Prop := Ensures kept x fun _ => kept

namespace Returns

variable {kept : World → Prop} {α β : Type} {x : Eval α}

theorem pure (a : α) : Returns kept (pure a) := Ensures.pure fun _ start => start

theorem bind {f : α → Eval β} (first : Returns kept x) (next : ∀ a, Returns kept (f a)) :
    Returns kept (x >>= f) := Ensures.bind first next

theorem space : Returns kept (getThe Space) := fun world start => ⟨_,world,rfl,start⟩

theorem change {change : Space → α × Space}
    (changes : ∀ world, kept world → kept { world with space := (change world.space).2 }) :
    Returns kept (modifyGetThe Space change) := fun world start => ⟨_,_,rfl,changes world start⟩

theorem gather {f : α → Eval (List β)} {as : List α} (each : ∀ a ∈ as, Returns kept (f a)) :
    Returns kept (gather f as) := by
  have gathered : Ensures kept (AtomLogic.gather f as) fun all later =>
      kept later ∧ Gathered (fun _ _ => True) as all :=
    Ensures.gather fun a member => (each a member).mono fun _ _ start => ⟨start,trivial⟩
  exact gathered.mono fun _ _ done => done.1

variable {evaluate : Atom → Eval Answers}

theorem meet {goal : Atom} (returns : ∀ values, Returns kept (evaluate (goal.instantiate values)))
    (threads : List Substitution) : Returns kept (Standard.meet evaluate goal threads) :=
  gather fun thread _ => (returns thread.value).bind fun _ => pure _

theorem meetAll {goals : List Atom}
    (returns : ∀ goal ∈ goals, ∀ values, Returns kept (evaluate (goal.instantiate values)))
    (threads : List Substitution) : Returns kept (Standard.meetAll evaluate goals threads) := by
  induction goals generalizing threads with
  | nil => exact pure threads
  | cons goal goals ih =>
    rw [List.forall_mem_cons] at returns
    rw [Standard.meetAll_cons]
    exact (meet returns.1 threads).bind fun left => ih returns.2 left

theorem conjoin {goals : List Atom}
    (returns : ∀ goal ∈ goals, ∀ values, Returns kept (evaluate (goal.instantiate values))) :
    Returns kept (Standard.conjoin evaluate goals) := by
  rw [Standard.conjoin]
  split
  · exact pure _
  · exact (meetAll returns _).bind fun threads => pure _

/-- An operation returns if the goals that it evaluates do. -/
theorem execute (standard : Standard) {arguments : List Atom}
    (goals : standard.isConnective = true → ∀ goal ∈ arguments, ∀ values,
      Returns kept (evaluate (goal.instantiate values)))
    (stores : standard = .assertion → ∀ a ∈ arguments, ∀ world, kept world →
      kept { world with space := (world.space.add a).2 })
    (removes : standard = .retraction → ∀ a world, kept world →
      kept { world with space := (world.space.remove a).2 }) :
    Returns kept (standard.execute evaluate arguments) := by
  have asked (connective : standard.isConnective = true) :
      ∀ goal ∈ arguments, Returns kept (evaluate goal) := by
    intro goal member
    have returns := goals connective goal member .var
    rwa [Atom.instantiate_self] at returns
  fun_cases Standard.execute evaluate standard arguments with
  | case1 => exact (conjoin (goals rfl)).bind fun answers => pure _
  | case2 => exact (gather (asked rfl)).bind fun answers => pure _
  | case3 goal =>
    exact ((asked rfl goal List.mem_cons_self).bind fun _ => pure _).bind fun answers => pure _
  | case4 => exact pure _
  | case5 => exact space.bind fun space => pure _
  | case6 => exact space.bind fun space => pure _
  | case7 a => exact (change (stores rfl a List.mem_cons_self)).bind fun new => pure _
  | case8 a => exact (change (removes rfl a)).bind fun removed => pure _
  | case9 => exact pure _
  | case10 => exact pure _
  | case11 => exact pure _

theorem dispatch {standard : Standard} {query : Atom}
    (returns : Returns kept (standard.execute evaluate query.arguments)) :
    Returns kept (dispatch evaluate standard.operation query) := by
  refine bind returns fun result => ?_
  cases result with
  | ok answers => exact pure answers
  | error fault => exact pure []

end Returns

/-- Where rules are chained, no goal in the body of a stored one is supplied by a binding. -/
def Orderly (chaining : Chaining) (bound : Nat) (world : World) : Prop :=
  chaining = .enabled → ∀ a ∈ world.space.toList, a.orderly bound = true

theorem orderly_disabled (bound : Nat) (world : World) : Orderly .disabled bound world := by
  intro chained
  cases chained

section Nesting

variable {chaining : Chaining} {bound : Nat}

/-- An operation on a settled atom returns if its goals do, which are settled one less deep. -/
theorem returns_dispatch {depth : Nat} {evaluate : Atom → Eval Answers} {query : Atom}
    {standard : Standard} (answered : query.head?.bind Standard.ofName? = some standard)
    (settled : query.settled chaining (depth + 1) = true) (within : depth ≤ bound)
    (returns : ∀ goal : Atom, goal.settled chaining depth = true →
      Returns (Orderly chaining bound) (evaluate goal)) :
    Returns (Orderly chaining bound) (dispatch evaluate standard.operation query) := by
  rw [Atom.settled_succ,Atom.operands,Atom.asserted,Atom.argumentsOf,Atom.argumentsOf,answered,
    Option.any_some,Option.any_some] at settled
  refine Returns.dispatch (Returns.execute standard ?_ ?_ ?_)
  · intro connective goal asked values
    rw [if_pos connective] at settled
    obtain ⟨rigid,settled⟩ := settled.1 goal asked
    exact returns _ (Atom.settled_instantiate rigid values settled)
  · rintro rfl a member world orderly strict b stored
    obtain ⟨_,rules⟩ := settled.2 strict a member
    rcases (world.space.mem_add a b).mp stored with rfl | old
    · rw [Atom.orderly_iff]
      intro rule isRule
      obtain ⟨rigid,settled⟩ := rules rule isRule
      exact ⟨rigid,Atom.settled_mono (strict ▸ settled) within⟩
    · exact orderly strict b old
  · exact fun _ a world orderly strict b stored =>
      orderly strict b ((world.space.mem_remove a b).mp stored).2

theorem returns_disabled (depth : Nat) : ∀ {limit : Nat} {query : Atom}, depth ≤ limit →
    depth ≤ bound + 1 → query.settled chaining depth = true →
      Returns (Orderly chaining bound)
        (Interpreter.evaluateWithin .standard limit .disabled query) := by
  induction depth with
  | zero => exact fun _ _ settled => nomatch settled
  | succ depth ih =>
    intro limit query enough within settled
    obtain ⟨limit,rfl⟩ : ∃ n, limit = n + 1 := ⟨limit - 1,by omega⟩
    rw [Interpreter.evaluateWithin,Registry.bind_find?_standard]
    cases answered : query.head?.bind Standard.ofName? with
    | none =>
      refine Returns.bind ?_ fun answers => Returns.pure _
      exact (Returns.pure []).bind fun _ => Returns.space.bind fun _ => Returns.pure _
    | some standard =>
      refine (returns_dispatch answered settled (by omega) fun goal settled => ?_).bind
        fun answers => Returns.pure _
      exact ih (by omega) (by omega) settled

theorem returns_inferFrom {evaluate : Atom → Eval Answers} {stored : Atom}
    (orderly : stored.orderly bound = true)
    (returns : ∀ goal : Atom, goal.settled .enabled bound = true →
      Returns (Orderly .enabled bound) (evaluate goal)) (query : Atom) :
    Returns (Orderly .enabled bound) (inferFrom evaluate query stored) := by
  rw [inferFrom]
  cases isRule : Rule.ofAtom? stored with
  | none => exact Returns.pure []
  | some rule =>
    obtain ⟨rigid,settled⟩ := Atom.orderly_iff.mp orderly rule isRule
    have counted : Returns (Orderly .enabled bound)
        (modifyGetThe World fun world => (world.tried,{ world with tried := world.tried + 1 })) :=
      fun world start => ⟨_,_,rfl,start⟩
    refine counted.bind fun number => ?_
    dsimp only
    cases unify (rule.copy number).head query with
    | none => exact Returns.pure []
    | some s =>
      have rigidCopy := (Atom.rigid_instantiate rigid fun name => .var (Rule.copyName number name)).1
      have settledCopy := Atom.settled_instantiate rigid
        (fun name => .var (Rule.copyName number name)) settled
      exact (returns _ (Atom.settled_instantiate rigidCopy s.value settledCopy)).bind
        fun answers => Returns.pure _

theorem returns_enabled (depth : Nat) : ∀ {limit : Nat} {query : Atom}, depth + bound ≤ limit →
    depth ≤ bound + 1 → query.settled .enabled depth = true →
      Returns (Orderly .enabled bound)
        (Interpreter.evaluateWithin .standard limit .enabled query) := by
  induction depth with
  | zero => exact fun _ _ settled => nomatch settled
  | succ depth ih =>
    intro limit query enough within settled
    obtain ⟨limit,rfl⟩ : ∃ n, limit = n + 1 := ⟨limit - 1,by omega⟩
    rw [Interpreter.evaluateWithin,Registry.bind_find?_standard]
    cases answered : query.head?.bind Standard.ofName? with
    | none =>
      have inferred : Returns (Orderly .enabled bound)
          (infer (Interpreter.evaluateWithin .standard limit .disabled) query) := by
        intro world orderly
        have each : ∀ a ∈ world.space.bucket (.headed Rule.symbol), Returns (Orderly .enabled bound)
            (inferFrom (Interpreter.evaluateWithin .standard limit .disabled) query a) := by
          intro a member
          refine returns_inferFrom (orderly rfl a ((world.space.mem_bucket_iff _ a).mp member).1) ?_ _
          exact fun goal settled => returns_disabled bound (by omega) (by omega) settled
        exact Returns.gather each world orderly
      refine Returns.bind ?_ fun answers => Returns.pure _
      exact inferred.bind fun _ => Returns.space.bind fun _ => Returns.pure _
    | some standard =>
      refine (returns_dispatch answered settled (by omega) fun goal settled => ?_).bind
        fun answers => Returns.pure _
      exact ih (by omega) (by omega) settled

end Nesting

/-- Evaluation of a settled query returns if the stored rules are orderly, whatever else is stored,
and leaves them so. A rule is applied whatever is stored, if its body is settled. From some limit
on the limit makes no difference, and the depth of what is written bounds how deep connectives
nest. -/
theorem evaluate_returns (bound : Nat) :
    (∀ (world : World) (query : Atom), (∀ a ∈ world.space.toList, a.orderly bound = true) →
      query.settled .enabled bound = true →
        ∃ answers later, (∀ limit, 2 * bound ≤ limit →
            ({ limit := limit } : Interpreter).evaluate query world = some (answers,later)) ∧
          ∀ a ∈ later.space.toList, a.orderly bound = true) ∧
      (∀ (world : World) (a : Atom), (∀ rule, Rule.ofAtom? a = some rule →
        rule.body.settled .disabled bound = true) →
          ∃ result later, ∀ limit, bound ≤ limit →
            ({ limit := limit } : Interpreter).applyRule a world = some (result,later)) ∧
      ∀ (chaining : Chaining) (depth : Nat) (a : Atom), a.settled chaining depth = true →
        a.settled chaining (a.depth + 1) = true := by
  refine ⟨?_,?_,fun _ _ _ => Atom.settled_depth⟩
  · intro world query orderly settled
    have nests : bound + bound ≤ 2 * bound := (Nat.two_mul bound).ge
    have returns : Returns (Orderly .enabled bound)
        (({ limit := 2 * bound } : Interpreter).evaluate query) :=
      (returns_enabled bound nests (Nat.le_succ _) settled).bind fun answers => Returns.pure _
    obtain ⟨answers,later,ran,orderlyToo⟩ := returns world fun _ => orderly
    exact ⟨answers,later,fun limit enough => extends_evaluate enough query world _ ran,
      orderlyToo rfl⟩
  · intro world a settled
    have returns : Returns (Orderly .disabled bound)
        (({ limit := bound } : Interpreter).applyRule a) := by
      rw [Interpreter.applyRule]
      cases isRule : Rule.ofAtom? a with
      | none => exact Returns.pure _
      | some rule =>
        refine (Returns.change fun _ _ => orderly_disabled bound _).bind fun _ => ?_
        refine (returns_disabled bound (Nat.le_refl _) (Nat.le_succ _) (settled rule isRule)).bind
          fun answers => ?_
        have added := Ensures.addGround (Orderly .disabled bound)
          (answers.map fun answer => answer.2.apply rule.head) fun _ _ _ _ => orderly_disabled bound _
        exact Returns.bind (added.mono fun _ _ done => done.1) fun added => Returns.pure _
    obtain ⟨result,later,ran,_⟩ := returns world (orderly_disabled bound world)
    exact ⟨result,later,fun limit enough => extends_applyRule enough a world _ ran⟩

private def unrelated : Rule :=
  ⟨.expr [.sym "and",.expr [.sym "p",.var "x"],.expr [.sym "not",.expr [.sym "r",.var "x"]]],
    .expr [.sym "q",.var "x"]⟩

private def borrowed : World := { space := .ofList [
  .expr [.sym "p",.expr [.sym "and",.expr [.sym "p",.var "y"],.var "y"]],unrelated.toAtom] }

private def borrowing : Atom := .expr [.sym "and",.expr [.sym "q",.var "z"],
  .expr [.sym "or",.expr [.sym "p",.var "z"],.sym "r"]]

/-- A stored fact has a goal in it that a binding would supply, but nothing evaluates it. -/
theorem evaluate_returns_borrowed :
    (∀ a ∈ borrowed.space.toList, a.orderly 1001 = true) ∧
      borrowing.settled .enabled 1001 = true ∧ unrelated.body.settled .disabled 1001 = true ∧
      (∃ answers later, ({} : Interpreter).evaluate borrowing borrowed = some (answers,later)) ∧
      ∃ result later,
        ({} : Interpreter).applyRule unrelated.toAtom borrowed = some (result,later) := by
  have orderly : ∀ a ∈ borrowed.space.toList, a.orderly 1001 = true := by
    rw [borrowed]
    simp only [Space.mem_ofList]
    decide +kernel
  have settled : borrowing.settled .enabled 1001 = true := by decide +kernel
  have settledToo : unrelated.body.settled .disabled 1001 = true := by decide +kernel
  obtain ⟨evaluates,applies,_⟩ := evaluate_returns 1001
  obtain ⟨answers,later,ran,_⟩ := evaluates borrowed borrowing orderly settled
  obtain ⟨result,last,ranToo⟩ := applies borrowed unrelated.toAtom fun rule isRule => by
    cases isRule
    exact settledToo
  exact ⟨orderly,settled,settledToo,⟨answers,later,ran 10000 (by decide)⟩,
    result,last,ranToo 10000 (by decide)⟩

/-! ### Goals without end -/

theorem conjoin_eq_none {evaluate : Atom → Eval Answers} {goal next a : Atom} {s : Substitution}
    {world : World} (first : evaluate goal world = some ([(a,s)],world))
    (second : evaluate (((∅ : Substitution).compose s).apply next) world = none) :
    Standard.conjoin evaluate [goal,next] world = none := by
  have met : Standard.meet evaluate goal [∅] world =
      some ([(∅ : Substitution).compose s],world) := by
    rw [Standard.meet,gather,apply_empty]
    change ((evaluate goal world).bind _ |>.bind _) = _
    rw [first]
    rfl
  have metToo : Standard.meet evaluate next [(∅ : Substitution).compose s] world = none := by
    rw [Standard.meet,gather]
    change ((evaluate _ world).bind _ |>.bind _) = _
    rw [second]
    rfl
  change ((Standard.meet evaluate goal [∅] world).bind fun step =>
    (if step.1.isEmpty then pure [] else Standard.meetAll evaluate [next] step.1) step.2).bind _ = _
  rw [met]
  change ((Standard.meet evaluate next _ world).bind _).bind _ = none
  rw [metToo]
  rfl

theorem evaluateWithin_conjunction_eq_none {goals : List Atom} {depth : Nat} {chaining : Chaining}
    {world : World}
    (conjoined : Standard.conjoin (Interpreter.evaluateWithin .standard depth chaining) goals world =
      none) :
    Interpreter.evaluateWithin .standard (depth + 1) chaining
      (.expr (.sym Standard.conjunction.name :: goals)) world = none := by
  rw [evaluateWithin_of_head? rfl,dispatch_conjunction]
  exact Eval.map_eq_none conjoined _

private def again (name : String) : Atom := .expr [.sym "and",.expr [.sym "p",.var name],.var name]

private def endless : List Atom := [.expr [.sym "p",again "y"],.expr [.sym "p",again "x"]]

private theorem evaluateWithin_again {first second : String}
    (found : (Space.ofList endless).query (.expr [.sym "p",.var first]) =
      [(.expr [.sym "p",again second],single first (again second))])
    (next : ((∅ : Substitution).compose (single first (again second))).apply (.var first) =
      again second) {depth : Nat}
    (later : Interpreter.evaluateWithin .standard depth .enabled (again second)
      { space := .ofList endless } = none) :
    Interpreter.evaluateWithin .standard (depth + 1) .enabled (again first)
      { space := .ofList endless } = none := by
  refine evaluateWithin_conjunction_eq_none ?_
  cases depth with
  | zero => rfl
  | succ depth =>
    have consulted : consult (Interpreter.evaluateWithin .standard depth .disabled) .enabled
        (.expr [.sym "p",.var first]) { space := .ofList endless } =
          some ((Space.ofList endless).query (.expr [.sym "p",.var first]),
            { space := .ofList endless }) := rfl
    rw [found] at consulted
    have answered := evaluateWithin_of_consult ⟨"p",rfl,rfl⟩ consulted
    have names : (Atom.expr [.sym "p",.var first]).variableNames = [first] := rfl
    have kept : (single first (again second)).restrict [first] = single first (again second) := by
      simp [restrict,single]
    simp only [List.map_singleton,names,kept] at answered
    refine conjoin_eq_none answered ?_
    rw [next]
    exact later

/-- Two stored facts supply each other as goals, and no limit suffices. -/
theorem evaluate_eq_none_of_supplied_goals :
    Text.parseAtoms "(p (and (p $y) $y))\n(p (and (p $x) $x))\n" = .ok endless ∧
      Text.parseAtom "(and (p $x) $x)" = .ok (again "x") ∧
      ∀ limit, ({ limit := limit } : Interpreter).evaluate (again "x")
        { space := .ofList endless } = none := by
  have representable : ∀ a ∈ endless, a.Representable := by
    have readable : ∀ a ∈ endless, a.isWritten = true ∧ a.depth ≤ Text.maximalDepth := by
      decide +kernel
    exact fun a member => ⟨(readable a member).1,(readable a member).2⟩
  have text : "(p (and (p $y) $y))\n(p (and (p $x) $x))\n" =
      String.join (endless.map fun a => a.text ++ "\n") := by decide +kernel
  have query : "(and (p $x) $x)" = (again "x").text := by decide +kernel
  rw [text,query]
  refine ⟨Text.parseAtoms_lines representable,Text.parseAtom_text ⟨by decide,by decide⟩,?_⟩
  have never : ∀ depth,
      Interpreter.evaluateWithin .standard depth .enabled (again "x")
          { space := .ofList endless } = none ∧
        Interpreter.evaluateWithin .standard depth .enabled (again "y")
          { space := .ofList endless } = none := by
    intro depth
    induction depth with
    | zero => exact ⟨rfl,rfl⟩
    | succ depth ih =>
      exact ⟨evaluateWithin_again (by decide +kernel) (by decide) ih.2,
        evaluateWithin_again (by decide +kernel) (by decide) ih.1⟩
  intro limit
  change (Interpreter.evaluateWithin .standard limit .enabled (again "x") _).bind _ = none
  rw [(never limit).1]
  rfl

end AtomLogic
