import AtomLogic.Operation
import AtomLogic.Rule

/-! The standard operations: the connectives over answers, unification, reading and
changing the space, and quoting. They are given for any monad that holds a space, since
they ask no more of the world. -/

namespace AtomLogic

inductive Standard where
  | conjunction
  | disjunction
  | negation
  | equality
  | matching
  | assertion
  | retraction
  | quotation
  | implication
deriving DecidableEq, Inhabited, Repr

def gather {m : Type → Type} [Monad m] {α β : Type} (results : α → m (List β)) :
    List α → m (List β)
  | [] => pure []
  | a :: as => do
    let first ← results a
    let others ← gather results as
    return first ++ others

namespace Standard

def name : Standard → String
  | conjunction => "and"
  | disjunction => "or"
  | negation => "not"
  | equality => "equal"
  | matching => "match"
  | assertion => "assert"
  | retraction => "retract"
  | quotation => "quote"
  | implication => Rule.symbol

def arity : Standard → Arity
  | conjunction => .any
  | disjunction => .any
  | negation => .exactly 1
  | equality => .exactly 2
  | matching => .oneOrTwo
  | assertion => .exactly 1
  | retraction => .exactly 1
  | quotation => .exactly 1
  | implication => .exactly 2

def all : List Standard :=
  [conjunction,disjunction,negation,equality,matching,assertion,retraction,quotation,implication]

def ofName? (name : String) : Option Standard := all.find? (·.name == name)

variable {m : Type → Type} [Monad m]

def meet (evaluate : Atom → m Answers) (goal : Atom) (threads : List Substitution) :
    m (List Substitution) :=
  gather (fun thread => do
    let answers ← evaluate (thread.apply goal)
    return answers.map fun (_,s) => thread.compose s) threads

/-- The threads that are left after all the goals. Once none is left, the goals that
follow are not evaluated. -/
def meetAll (evaluate : Atom → m Answers) : List Atom → List Substitution → m (List Substitution)
  | [], threads => pure threads
  | goal :: goals, threads => do
    let left ← meet evaluate goal threads
    if left.isEmpty then pure [] else meetAll evaluate goals left

/-- Conjunction: the goals under each thread of bindings that meets them all. Without
goals it is true. -/
def conjoin (evaluate : Atom → m Answers) (goals : List Atom) : m Answers := do
  if goals.isEmpty then return [(.truth,∅)]
  let threads ← meetAll evaluate goals [∅]
  return threads.map fun s => (s.apply (.expr (.sym conjunction.name :: goals)),s)

def negate (evaluate : Atom → m Answers) (goal : Atom) : m Answers := do
  let answers ← evaluate goal
  return if answers.isEmpty then [(.truth,∅)] else []

/-- What an operation yields. With a number of arguments that it does not take it faults
and does nothing. -/
def execute [MonadStateOf Space m] (evaluate : Atom → m Answers) :
    Standard → List Atom → m (Except Fault Answers)
  | conjunction, goals => do return .ok (← conjoin evaluate goals)
  | disjunction, goals => do return .ok (← gather evaluate goals)
  | negation, [goal] => do return .ok (← negate evaluate goal)
  | equality, [a,b] => return .ok ((unify a b).toList.map (.truth,·))
  | matching, [pattern] => do return .ok ((← getThe Space).query pattern)
  | matching, [pattern,template] => do
    let found := (← getThe Space).query pattern
    return .ok (found.map fun (_,s) => (s.apply template,s))
  | assertion, [a] => do
    let _ ← modifyGetThe Space (Space.add a)
    return .ok [(.unit,∅)]
  | retraction, [a] => do
    let removed ← modifyGetThe Space (Space.remove a)
    return .ok (if removed then [(.unit,∅)] else [])
  | quotation, [a] => return .ok [(a,∅)]
  | implication, [body,head] => return .ok [((Rule.mk body head).toAtom,∅)]
  | operation, arguments =>
    return .error (.arity operation.name operation.arity arguments.length)

def operation (standard : Standard) : Operation := ⟨standard.name,fun evaluate => standard.execute evaluate⟩

end Standard

def Registry.standard : Registry := ⟨Standard.all.map Standard.operation⟩

theorem Registry.bind_find?_standard (head : Option String) :
    head.bind standard.find? = (head.bind Standard.ofName?).map Standard.operation := by
  cases head with
  | none => rfl
  | some name => exact List.find?_map

end AtomLogic
