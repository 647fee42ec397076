import AtomLogic.Files
import AtomLogic.Interpreter
import AtomLogic.Text.Program

/-! Sessions: running programs on an interpreter. Asserted atoms go straight into the
space and every query gives one line of output. A program is read as a whole before any
of its statements runs. The prelude is a list of files whose programs run first; a file
that is broken ends it. -/

namespace AtomLogic

/-- Runs programs, showing at most so many answers to a query; zero means all of them. -/
structure Session where
  interpreter : Interpreter
  maxResults : Nat := 0

inductive PreludeError where
  | unreadable (path : String) (fault : FileFault)
  | malformed (path : String) (error : Text.ReadError)
deriving DecidableEq, Inhabited, Repr

def PreludeError.message : PreludeError → String
  | unreadable path fault => s!"failed to read '{path}': {fault.message}"
  | malformed path error => s!"{path}: {error.message}"

def cap {α : Type} (limit : Nat) (results : List α) : List α :=
  if limit = 0 then results else results.take limit

namespace Session

def runStatement (session : Session) : Text.Statement → Eval (List String)
  | .assertion a => do
    let _ ← modifyGetThe Space (Space.add a)
    return []
  | .query query => do
    let found ← session.interpreter.evaluate query
    return [Text.listText (cap session.maxResults found)]

def runStatements (session : Session) (statements : List Text.Statement) : Eval (List String) :=
  gather session.runStatement statements

def runText (session : Session) (text : String) : Eval (Except Text.ReadError (List String)) := do
  match Text.parseProgram text with
  | .error e => return .error e
  | .ok statements => return .ok (← session.runStatements statements)

def runFile (session : Session) (path : String) (content : Except FileFault ByteArray) :
    Eval (Except PreludeError Unit) := do
  match decodeContent content with
  | .error fault => return .error (.unreadable path fault)
  | .ok text =>
    match ← session.runText text with
    | .error e => return .error (.malformed path e)
    | .ok _ => return .ok ()

/-- Runs what was found in each of the files, up to the first that is broken. -/
def loadPrelude (session : Session) :
    List (String × Except FileFault ByteArray) → Eval (Except PreludeError Unit)
  | [] => return .ok ()
  | (path,content) :: files => do
    match ← session.runFile path content with
    | .error e => return .error e
    | .ok _ => session.loadPrelude files

end Session
end AtomLogic
