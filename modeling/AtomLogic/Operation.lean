import AtomLogic.Space
import AtomLogic.Text.Quoted

/-! Operations, the heads that an interpreter answers itself. An operation gets its
arguments as they are written and evaluates them as it sees fit. It may read and change
the world, and a fault does not undo what it did before. -/

namespace AtomLogic

structure World where
  space : Space := ∅
  /-- How many rules have been tried, which numbers their copies. -/
  tried : Nat := 0
  cancelled : Bool := false
deriving DecidableEq, Inhabited, Repr

/-- A computation on the world. It has no result if evaluation nests too deeply. -/
abbrev Eval := StateT World Option

instance : MonadStateOf Space Eval where
  get := fun world => some (world.space,world)
  set space := fun world => some ((),{ world with space := space })
  modifyGet change := fun world =>
    let (result,space) := change world.space
    some (result,{ world with space := space })

inductive Arity where
  | any
  | exactly (count : Nat)
  | oneOrTwo
deriving DecidableEq, Inhabited, Repr

def Arity.text : Arity → String
  | any => "any number of arguments"
  | exactly 1 => "1 argument"
  | exactly count => s!"{count} arguments"
  | oneOrTwo => "1 or 2 arguments"

inductive Fault where
  | arity (operation : String) (expected : Arity) (given : Nat)
  | failure (reason : String)
deriving DecidableEq, Inhabited, Repr

def Fault.message : Fault → String
  | arity operation expected given =>
    s!"Incorrect argument: {operation} requires {expected.text}, got {given}"
  | failure reason => s!"Runtime error: {reason}"

/-- An operation: what it does with its arguments, given a way to evaluate atoms. -/
structure Operation where
  name : String
  run : (Atom → Eval Answers) → List Atom → Eval (Except Fault Answers)

structure Registry where
  operations : List Operation

namespace Registry

def empty : Registry := ⟨[]⟩

instance : EmptyCollection Registry := ⟨empty⟩

def find? (registry : Registry) (name : String) : Option Operation :=
  registry.operations.find? (·.name == name)

def contains (registry : Registry) (name : String) : Bool := (registry.find? name).isSome

def register (registry : Registry) (operation : Operation) : Registry :=
  ⟨operation :: registry.operations.filter (·.name != operation.name)⟩

def names (registry : Registry) : List String :=
  (registry.operations.map Operation.name).mergeSort (fun a b => decide (a ≤ b))

def summary (registry : Registry) : String :=
  let names := ", ".intercalate (registry.names.map Text.quoted)
  s!"GroundedRegistry \x7b operations: [{names}] \x7d"

end Registry
end AtomLogic
