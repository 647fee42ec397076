import AtomLogic.Interpreter
import AtomLogic.Text.Reader

/-! The fact store: an interpreter that takes and gives text. A text is read before
anything is evaluated, and a batch of queries is read as a whole before any of them is. -/

namespace AtomLogic

inductive FactStoreError where
  | unreadable (error : Text.ReadError)
  | refused (error : EvaluationError)
deriving DecidableEq, Inhabited, Repr

def FactStoreError.message : FactStoreError → String
  | unreadable error => s!"parse error: {error.message}"
  | refused error => error.message

structure FactStore where
  interpreter : Interpreter

namespace FactStore

def cancel : Eval Unit := modifyThe World fun world => { world with cancelled := true }

def addFact (text : String) : Eval (Except FactStoreError Unit) := do
  match Text.parseAtom text with
  | .error e => return .error (.unreadable e)
  | .ok a =>
    let _ ← modifyGetThe Space (Space.add a)
    return .ok ()

def answerText (store : FactStore) (query : Atom) : Eval (Except FactStoreError String) := do
  match ← store.interpreter.evaluateCancellable query with
  | .error e => return .error (.refused e)
  | .ok found => return .ok (Text.listText found)

def executeQuery (store : FactStore) (text : String) : Eval (Except FactStoreError String) := do
  match Text.parseAtom text with
  | .error e => return .error (.unreadable e)
  | .ok query => store.answerText query

def answerTexts (store : FactStore) : List Atom → Eval (Except FactStoreError (List String))
  | [] => return .ok []
  | query :: queries => do
    match ← store.answerText query with
    | .error e => return .error e
    | .ok first =>
      match ← store.answerTexts queries with
      | .error e => return .error e
      | .ok others => return .ok (first :: others)

/-- The answers to a batch of queries. Nothing is evaluated unless all of them can be read. -/
def executeQueries (store : FactStore) (texts : List String) :
    Eval (Except FactStoreError (List String)) := do
  match texts.mapM Text.parseAtom with
  | .error e => return .error (.unreadable e)
  | .ok queries => store.answerTexts queries

def applyRule (store : FactStore) (text : String) : Eval (Except FactStoreError String) := do
  match Text.parseAtom text with
  | .error e => return .error (.unreadable e)
  | .ok rule =>
    match ← store.interpreter.applyRule rule with
    | .error e => return .error (.refused e)
    | .ok added => return .ok (Text.listText added)

end FactStore
end AtomLogic
