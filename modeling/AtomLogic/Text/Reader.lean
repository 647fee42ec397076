import AtomLogic.Atom
import AtomLogic.Text.Token

/-! Reading atoms from tokens. One pass keeps the open expressions on a stack, so an
atom of any depth is read in constant stack space. What follows the mark of the end is
never reached. Each step also returns the tokens that are left, after an error those
from the fault on. -/

namespace AtomLogic.Text

/-- An expression that is still open: where it opened, and its children, last first. -/
structure Frame where
  opened : Position
  children : List Atom
deriving DecidableEq, Inhabited, Repr

def atEnd : List Located → Bool
  | [] => true
  | l :: _ => l.token == .finish

def endError : List Frame → ReadError
  | [] => .emptyInput
  | frame :: _ => .unclosed frame.opened

/-- Reads the rest of an atom of which some expressions are open, innermost first. -/
def readAtom : List Frame → List Located → Except ReadError Atom × List Located
  | stack, [] => (.error (endError stack),[])
  | stack, ⟨token,position⟩ :: rest =>
    match token, stack with
    | .finish, stack => (.error (endError stack),⟨token,position⟩ :: rest)
    | .opening, stack =>
      if stack.length < maximalDepth then readAtom (⟨position,[]⟩ :: stack) rest
      else (.error (.tooDeep position),⟨token,position⟩ :: rest)
    | .closing, [] => (.error (.unmatchedClose position),⟨token,position⟩ :: rest)
    | .closing, [frame] => (.ok (.expr frame.children.reverse),rest)
    | .closing, frame :: outer :: stack =>
      readAtom (⟨outer.opened,.expr frame.children.reverse :: outer.children⟩ :: stack) rest
    | .sym name, [] => (.ok (.sym name),rest)
    | .sym name, frame :: stack =>
      readAtom (⟨frame.opened,.sym name :: frame.children⟩ :: stack) rest
    | .var name, [] => (.ok (.var name),rest)
    | .var name, frame :: stack =>
      readAtom (⟨frame.opened,.var name :: frame.children⟩ :: stack) rest

theorem readAtom_shorter {stack : List Frame} {tokens left : List Located} {a : Atom}
    (read : readAtom stack tokens = (.ok a,left)) : left.length < tokens.length := by
  fun_induction readAtom stack tokens
  all_goals simp_all
  all_goals omega

/-- Reads atoms to the end, behind those already read, which are held last first. -/
def readAtoms (tokens : List Located) (read : List Atom) :
    Except ReadError (List Atom) × List Located :=
  if atEnd tokens then (.ok read.reverse,tokens)
  else
    match step : readAtom [] tokens with
    | (.error e,left) => (.error e,left)
    | (.ok a,left) =>
      have := readAtom_shorter step
      readAtoms left (a :: read)
termination_by tokens.length

def parseAtom (text : String) : Except ReadError Atom := do
  let tokens ← tokenize text
  let (read,left) := readAtom [] tokens
  let a ← read
  match left with
  | [] => pure a
  | ⟨.finish,_⟩ :: _ => pure a
  | ⟨.closing,position⟩ :: _ => throw (.unmatchedClose position)
  | ⟨_,position⟩ :: _ => throw (.trailingInput position)

def parseAtoms (text : String) : Except ReadError (List Atom) := do
  (readAtoms (← tokenize text) []).1

def listText (atoms : List Atom) : String :=
  "[" ++ ", ".intercalate (atoms.map Atom.text) ++ "]"

end AtomLogic.Text
