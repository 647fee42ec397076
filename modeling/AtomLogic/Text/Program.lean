import AtomLogic.Text.Reader

/-! Programs. A top-level symbol of one exclamation mark makes a query of the atom
after it, whatever that atom is; every other top-level atom is asserted. -/

namespace AtomLogic.Text

/-- One step of a program: an atom to add, or a query to answer. -/
inductive Statement where
  | assertion (a : Atom)
  | query (a : Atom)
deriving DecidableEq, Inhabited, Repr

def queryMark : String := "!"

def readAs (use : Atom → Statement) (tokens : List Located) :
    Except ReadError Statement × List Located :=
  match readAtom [] tokens with
  | (.ok a,left) => (.ok (use a),left)
  | (.error e,left) => (.error e,left)

theorem readAs_shorter {use : Atom → Statement} {tokens left : List Located}
    {statement : Statement} (read : readAs use tokens = (.ok statement,left)) :
    left.length < tokens.length := by
  unfold readAs at read
  split at read
  · next a rest step =>
    have := readAtom_shorter step
    simp_all
  · simp at read

def readStatement : List Located → Except ReadError Statement × List Located
  | [] => (.error .emptyInput,[])
  | ⟨token,position⟩ :: rest =>
    if token = .sym queryMark then
      if atEnd rest then (.error (.danglingQuery position),rest) else readAs .query rest
    else readAs .assertion (⟨token,position⟩ :: rest)

theorem readStatement_shorter {tokens left : List Located} {statement : Statement}
    (read : readStatement tokens = (.ok statement,left)) : left.length < tokens.length := by
  unfold readStatement at read
  split at read
  · simp at read
  · split at read
    · split at read
      · simp at read
      · exact Nat.lt_succ_of_lt (readAs_shorter read)
    · exact readAs_shorter read

/-- Reads statements to the end, behind those already read, which are held last first. -/
def readStatements (tokens : List Located) (read : List Statement) :
    Except ReadError (List Statement) :=
  if atEnd tokens then .ok read.reverse
  else
    match step : readStatement tokens with
    | (.error e,_) => .error e
    | (.ok statement,left) =>
      have := readStatement_shorter step
      readStatements left (statement :: read)
termination_by tokens.length

def parseProgram (text : String) : Except ReadError (List Statement) := do
  readStatements (← tokenize text) []

end AtomLogic.Text
