import AtomLogic.Space.Index
import AtomLogic.Unification

/-! The space, an indexed set of atoms. An expression headed by a symbol is filed
under that symbol and every other atom among the loose ones. Buckets keep the order
in which their atoms came, and the headed buckets the order in which they were opened;
a headed bucket that loses its last atom is closed. -/

namespace AtomLogic

structure Space extends Index where
  consistent : toIndex.Consistent
deriving DecidableEq, Repr

namespace Space

def empty : Space := ⟨.empty,Index.consistent_empty⟩

instance : EmptyCollection Space := ⟨empty⟩

instance : Inhabited Space := ⟨empty⟩

def keys (space : Space) : List Key := space.order

def isEmpty (space : Space) : Bool := space.count == 0

def add (a : Atom) (space : Space) : Bool × Space :=
  let step := space.toIndex.add a
  (step.1,⟨step.2,space.consistent.add a⟩)

def remove (a : Atom) (space : Space) : Bool × Space :=
  let step := space.toIndex.remove a
  (step.1,⟨step.2,space.consistent.remove a⟩)

/-- Stores atoms one after the other, and counts the new ones. -/
def addAll : List Atom → Space → Nat × Space
  | [], space => (0,space)
  | a :: as, space =>
    let (new,grown) := space.add a
    let (others,space) := grown.addAll as
    (others + new.toNat,space)

def ofList (atoms : List Atom) : Space := (addAll atoms ∅).2

/-- The atoms that a pattern is tried on: those of its own bucket if a symbol heads it,
otherwise all. -/
def candidates (space : Space) (pattern : Atom) : List Atom :=
  match Key.of pattern with
  | .loose => space.toList
  | .headed name => space.bucket (.headed name)

def query (space : Space) (pattern : Atom) : Answers := unifyAll pattern (space.candidates pattern)

def matchesAny (space : Space) (pattern : Atom) : Bool :=
  (space.candidates pattern).any (canUnify pattern)

def summary (space : Space) : String :=
  s!"AtomSpace \x7b count: {space.count}, buckets: {space.keys.length} \x7d"

end Space
end AtomLogic
