import AtomLogic.Operation.Standard

/-! Evaluation. A query headed by an operation is handed to it. Any other query is
answered by the stored rules whose head unifies with it, and then by the stored atoms.
The body of a rule is evaluated without rules, so one evaluation makes one step of
inference: a conclusion never serves as a premise. Operations can evaluate what they
find in the space, which can go on for ever, so the nesting of evaluations is limited. -/

namespace AtomLogic

inductive Chaining where
  | enabled
  | disabled
deriving DecidableEq, Inhabited, Repr

inductive EvaluationError where
  | cancelled
  | notARule (a : Atom)
deriving DecidableEq, Inhabited, Repr

def EvaluationError.message : EvaluationError → String
  | cancelled => "evaluation cancelled"
  | notARule a => s!"not a rule (expected (implies body head)): {a.text}"

/-- The answers that one stored atom, taken as a rule, gives to a query: the query under
each way in which the body of a fresh copy holds once the heads are unified. -/
def inferFrom (evaluate : Atom → Eval Answers) (query stored : Atom) : Eval Answers := do
  match Rule.ofAtom? stored with
  | none => return []
  | some rule =>
    let number ← modifyGetThe World fun world => (world.tried,{ world with tried := world.tried + 1 })
    let copy := rule.copy number
    match unify copy.head query with
    | none => return []
    | some s =>
      let answers ← evaluate (s.apply copy.body)
      return answers.map fun (_,t) => ((s.compose t).apply query,s.compose t)

def infer (evaluate : Atom → Eval Answers) (query : Atom) : Eval Answers := do
  gather (inferFrom evaluate query) ((← getThe Space).bucket (.headed Rule.symbol))

def consult (evaluate : Atom → Eval Answers) (chaining : Chaining) (query : Atom) :
    Eval Answers := do
  let inferred ← match chaining with
    | .enabled => infer evaluate query
    | .disabled => pure []
  return inferred ++ (← getThe Space).query query

def dispatch (evaluate : Atom → Eval Answers) (operation : Operation) (query : Atom) :
    Eval Answers := do
  match ← operation.run evaluate query.arguments with
  | .ok answers => return answers
  | .error _ => return []

structure Interpreter where
  registry : Registry := .standard
  /-- How many evaluations may be nested in one another. -/
  limit : Nat := 10000

namespace Interpreter

/-- Evaluation nested at most so deep. The bindings of an answer are those of the
query's variables. -/
def evaluateWithin (registry : Registry) : Nat → Chaining → Atom → Eval Answers
  | 0, _, _ => failure
  | depth+1, chaining, query => do
    let answers ← match query.head?.bind registry.find? with
      | some operation => dispatch (evaluateWithin registry depth chaining) operation query
      | none => consult (evaluateWithin registry depth .disabled) chaining query
    return answers.map fun (a,s) => (a,s.restrict query.variableNames)

def answers (interpreter : Interpreter) (query : Atom) : Eval Answers :=
  evaluateWithin interpreter.registry interpreter.limit .enabled query

def evaluate (interpreter : Interpreter) (query : Atom) : Eval (List Atom) := do
  return (← interpreter.answers query).map Prod.fst

def succeeds (interpreter : Interpreter) (query : Atom) : Eval Bool := do
  return !(← interpreter.answers query).isEmpty

def evaluateFirst (interpreter : Interpreter) (query : Atom) : Eval (Option Atom) := do
  return (← interpreter.evaluate query).head?

def evaluateCancellable (interpreter : Interpreter) (query : Atom) :
    Eval (Except EvaluationError (List Atom)) := do
  if (← getThe World).cancelled then return .error .cancelled
  let found ← interpreter.evaluate query
  if (← getThe World).cancelled then return .error .cancelled
  return .ok found

/-- Stores those of some atoms that are ground and new, and returns them. -/
def addGround : List Atom → Eval (List Atom)
  | [] => return []
  | a :: as => do
    let new ← if a.hasVariables then pure false else modifyGetThe Space (Space.add a)
    let others ← addGround as
    return if new then a :: others else others

/-- Stores a rule and the ground conclusions that it has now. Returns the new ones. -/
def applyRule (interpreter : Interpreter) (a : Atom) :
    Eval (Except EvaluationError (List Atom)) := do
  match Rule.ofAtom? a with
  | none => return .error (.notARule a)
  | some rule =>
    let _ ← modifyGetThe Space (Space.add a)
    let answers ← evaluateWithin interpreter.registry interpreter.limit .disabled rule.body
    let added ← addGround (answers.map fun (_,s) => s.apply rule.head)
    return .ok added

def summary (interpreter : Interpreter) (space : Space) : String :=
  s!"Interpreter \x7b space: {space.summary}, registry: {interpreter.registry.summary} \x7d"

end Interpreter
end AtomLogic
