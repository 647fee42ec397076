import AtomLogic.Proofs.Ensures
import AtomLogic.Proofs.Parametricity

/-! Evaluation with a list of the rules that it tries. The list tells of every rule at the moment
its copy is numbered, of those before a failure too. Leaving the list out gives evaluation itself,
and the copies get consecutive numbers, so the list misses none. -/

namespace AtomLogic

/-- A rule that is about to be copied for a query. -/
structure Trial where
  world : World
  rule : Rule
  query : Atom
deriving DecidableEq, Inhabited, Repr

namespace Trial

/-- The number of the copy. -/
def number (trial : Trial) : Nat := trial.world.tried

def copy (trial : Trial) : Rule := trial.rule.copy trial.number

end Trial

/-- A computation on the world that lists the rules it tries. -/
def Traced (α : Type) : Type := World → List Trial × Option (α × World)

namespace Traced

variable {α β : Type}

def ofEval (x : Eval α) : Traced α := fun world => ([],x world)

def andThen (x : Traced α) (f : α → Traced β) : Traced β := fun world =>
  match x world with
  | (trials,none) => (trials,none)
  | (trials,some (a,later)) => (trials ++ (f a later).1,(f a later).2)

instance : Monad Traced where
  pure a := ofEval (pure a)
  bind := andThen

instance : MonadStateOf Space Traced where
  get := ofEval (getThe Space)
  set space := ofEval (set space)
  modifyGet change := ofEval (modifyGetThe Space change)

/-- Lists the rule with its query, and numbers the copy. -/
def tryRule (rule : Rule) (query : Atom) : Traced Nat := fun world =>
  ([⟨world,rule,query⟩],some (world.tried,{ world with tried := world.tried + 1 }))

def inferFrom (evaluate : Atom → Traced Answers) (query stored : Atom) : Traced Answers := do
  match Rule.ofAtom? stored with
  | none => return []
  | some rule =>
    let number ← tryRule rule query
    let copy := rule.copy number
    match unify copy.head query with
    | none => return []
    | some s =>
      let answers ← evaluate (s.apply copy.body)
      return answers.map fun (_,t) => ((s.compose t).apply query,s.compose t)

def infer (evaluate : Atom → Traced Answers) (query : Atom) : Traced Answers := do
  gather (inferFrom evaluate query) ((← getThe Space).bucket (.headed Rule.symbol))

def consult (evaluate : Atom → Traced Answers) (chaining : Chaining) (query : Atom) :
    Traced Answers := do
  let inferred ← match chaining with
    | .enabled => infer evaluate query
    | .disabled => pure []
  return inferred ++ (← getThe Space).query query

def dispatch (evaluate : Atom → Traced Answers) (standard : Standard) (query : Atom) :
    Traced Answers := do
  match ← standard.execute evaluate query.arguments with
  | .ok answers => return answers
  | .error _ => return []

/-- Evaluation with the standard operations. -/
def evaluateWithin : Nat → Chaining → Atom → Traced Answers
  | 0, _, _ => ofEval failure
  | depth+1, chaining, query => do
    let answers ← match query.head?.bind Standard.ofName? with
      | some standard => dispatch (evaluateWithin depth chaining) standard query
      | none => consult (evaluateWithin depth .disabled) chaining query
    return answers.map fun (a,s) => (a,s.restrict query.variableNames)

end Traced

/-! ### Leaving the list out -/

/-- The computation with a list does what the other does, and the list misses no copy: their
numbers follow one another from the count before to the count after. -/
structure Records {α : Type} (x : Traced α) (y : Eval α) : Prop where
  outcome : ∀ world, (x world).2 = y world
  numbered : ∀ world, (x world).1.map Trial.number = List.range' world.tried (x world).1.length
  counted : ∀ world a later, y world = some (a,later) →
    later.tried = world.tried + (x world).1.length

namespace Records

variable {α β : Type} {x : Traced α} {y : Eval α}

theorem ofEval (steady : ∀ world a later, y world = some (a,later) → later.tried = world.tried) :
    Records (.ofEval y) y where
  outcome _ := rfl
  numbered _ := rfl
  counted := steady

theorem pure (a : α) : Records (pure a) (pure a) := by
  refine ofEval fun world b later ran => ?_
  cases ran
  rfl

theorem space : Records (getThe Space) (getThe Space) := by
  refine ofEval fun world space later ran => ?_
  cases ran
  rfl

theorem change (change : Space → α × Space) :
    Records (modifyGetThe Space change) (modifyGetThe Space change) := by
  refine ofEval fun world a later ran => ?_
  cases ran
  rfl

theorem failure : Records (.ofEval failure) (failure : Eval α) :=
  ofEval fun _ _ _ ran => nomatch ran

theorem tryRule (rule : Rule) (query : Atom) :
    Records (Traced.tryRule rule query) (modifyGetThe World fun world =>
      (world.tried,{ world with tried := world.tried + 1 })) where
  outcome _ := rfl
  numbered _ := rfl
  counted := by
    intro world number later ran
    cases ran
    rfl

theorem bind {f : α → Traced β} {g : α → Eval β} (first : Records x y)
    (next : ∀ a, Records (f a) (g a)) : Records (x >>= f) (y >>= g) := by
  have each : ∀ world, (∃ trials, x world = (trials,none) ∧ (x >>= f) world = (trials,none) ∧
        (y >>= g) world = none) ∨
      ∃ trials a middle, x world = (trials,some (a,middle)) ∧
        (x >>= f) world = (trials ++ (f a middle).1,(f a middle).2) ∧
          (y >>= g) world = g a middle := by
    intro world
    change (∃ trials, x world = _ ∧ Traced.andThen x f world = _ ∧
        (y world).bind (fun step => g step.1 step.2) = _) ∨
      ∃ trials a middle, x world = _ ∧ Traced.andThen x f world = _ ∧
        (y world).bind (fun step => g step.1 step.2) = _
    rw [← first.outcome world,Traced.andThen]
    obtain ⟨trials,outcome⟩ := x world
    cases outcome with
    | none => exact .inl ⟨trials,rfl,rfl,rfl⟩
    | some step => exact .inr ⟨trials,step.1,step.2,rfl,rfl,rfl⟩
  constructor
  · intro world
    rcases each world with ⟨trials,_,traced,plain⟩ | ⟨trials,a,middle,_,traced,plain⟩
    · rw [traced,plain]
    · rw [traced,plain,(next a).outcome]
  · intro world
    have numbered := first.numbered world
    rcases each world with ⟨trials,ran,traced,_⟩ | ⟨trials,a,middle,ran,traced,_⟩
    · rw [ran] at numbered
      rw [traced,numbered]
    · have counted := first.counted world a middle (by rw [← first.outcome,ran])
      rw [ran] at numbered counted
      rw [traced,List.map_append,List.length_append,numbered,(next a).numbered,counted,
        List.range'_append_1]
  · intro world b later done
    rcases each world with ⟨trials,_,_,plain⟩ | ⟨trials,a,middle,ran,traced,plain⟩
    · rw [plain] at done
      cases done
    · have counted := first.counted world a middle (by rw [← first.outcome,ran])
      rw [ran] at counted
      rw [plain] at done
      rw [traced,List.length_append,(next a).counted middle b later done,counted,Nat.add_assoc]

theorem respects : Respects (m := Traced) (n := Eval) fun _ => Records where
  pure := pure
  bind := bind
  space := space
  change := change

section Evaluation

variable {traced : Atom → Traced Answers} {evaluate : Atom → Eval Answers}
  (each : ∀ goal, Records (traced goal) (evaluate goal))
include each

theorem dispatch (standard : Standard) (query : Atom) :
    Records (Traced.dispatch traced standard query)
      (AtomLogic.dispatch evaluate standard.operation query) := by
  refine (respects.execute each standard query.arguments).bind fun result => ?_
  cases result with
  | ok answers => exact pure answers
  | error fault => exact pure []

theorem inferFrom (query stored : Atom) :
    Records (Traced.inferFrom traced query stored) (AtomLogic.inferFrom evaluate query stored) := by
  rw [Traced.inferFrom,AtomLogic.inferFrom]
  cases Rule.ofAtom? stored with
  | none => exact pure []
  | some rule =>
    refine (tryRule rule query).bind fun number => ?_
    dsimp only
    cases unify (rule.copy number).head query with
    | none => exact pure []
    | some s => exact (each _).bind fun answers => pure _

theorem infer (query : Atom) :
    Records (Traced.infer traced query) (AtomLogic.infer evaluate query) :=
  space.bind fun _ => respects.gather (inferFrom each query) _

theorem consult (chaining : Chaining) (query : Atom) :
    Records (Traced.consult traced chaining query) (AtomLogic.consult evaluate chaining query) := by
  cases chaining with
  | enabled => exact (infer each query).bind fun inferred => space.bind fun space => pure _
  | disabled => exact (pure []).bind fun inferred => space.bind fun space => pure _

end Evaluation

theorem evaluateWithin (depth : Nat) : ∀ (chaining : Chaining) (query : Atom),
    Records (Traced.evaluateWithin depth chaining query)
      (Interpreter.evaluateWithin .standard depth chaining query) := by
  induction depth with
  | zero => exact fun _ _ => failure
  | succ depth ih =>
    intro chaining query
    rw [Traced.evaluateWithin,Interpreter.evaluateWithin,Registry.bind_find?_standard]
    cases query.head?.bind Standard.ofName? with
    | none => exact (consult (ih .disabled) chaining query).bind fun answers => pure _
    | some standard => exact (dispatch (ih chaining) standard query).bind fun answers => pure _

end Records

/-! ### Calls -/

/-- What an interpreter is asked for, with the atom that comes with it. -/
inductive Call where
  | store (a : Atom)
  | remove (a : Atom)
  | evaluate (query : Atom)
  | applyRule (a : Atom)
deriving DecidableEq, Inhabited, Repr

namespace Call

def atom : Call → Atom
  | store a => a
  | remove a => a
  | evaluate query => query
  | applyRule a => a

/-- The answers, and what they bind. -/
def shown (answers : Answers) : List Atom :=
  answers.flatMap fun (a,s) => a :: s.bindings.map Prod.snd

/-- Does what is asked for. The atoms are those that the caller gets to see. -/
def perform (interpreter : Interpreter) : Call → Eval (List Atom)
  | store a => do
    let _ ← modifyGetThe Space (Space.add a)
    return []
  | remove a => do
    let _ ← modifyGetThe Space (Space.remove a)
    return []
  | evaluate query => return shown (← interpreter.answers query)
  | applyRule a => do
    match ← interpreter.applyRule a with
    | .ok added => return added
    | .error _ => return []

/-- The same with a list of the rules that are tried. -/
def traced (limit : Nat) : Call → Traced (List Atom)
  | store a => do
    let _ ← modifyGetThe Space (Space.add a)
    return []
  | remove a => do
    let _ ← modifyGetThe Space (Space.remove a)
    return []
  | evaluate query => return shown (← Traced.evaluateWithin limit .enabled query)
  | applyRule a => do
    match Rule.ofAtom? a with
    | none => return []
    | some rule =>
      let _ ← modifyGetThe Space (Space.add a)
      let answers ← Traced.evaluateWithin limit .disabled rule.body
      Traced.ofEval (Interpreter.addGround (answers.map fun (_,s) => s.apply rule.head))

end Call

theorem Records.addGround (atoms : List Atom) :
    Records (.ofEval (Interpreter.addGround atoms)) (Interpreter.addGround atoms) := by
  refine Records.ofEval fun world added later ran => ?_
  have kept := Ensures.addGround (·.tried = world.tried) atoms fun _ _ _ same => same
  obtain ⟨others,last,ranToo,same,_⟩ := kept world rfl
  rw [ran] at ranToo
  cases ranToo
  exact same

theorem Records.call (limit : Nat) (call : Call) :
    Records (call.traced limit) (call.perform { limit := limit }) := by
  cases call with
  | store a => exact (change (Space.add a)).bind fun _ => pure []
  | remove a => exact (change (Space.remove a)).bind fun _ => pure []
  | evaluate query => exact (evaluateWithin limit .enabled query).bind fun answers => pure _
  | applyRule a =>
    rw [Call.traced,Call.perform,Interpreter.applyRule]
    cases Rule.ofAtom? a with
    | none => exact pure []
    | some rule =>
      simp only [bind_assoc,pure_bind,bind_pure]
      exact (change (Space.add a)).bind fun _ =>
        (evaluateWithin limit .disabled rule.body).bind fun answers => addGround _

end AtomLogic
