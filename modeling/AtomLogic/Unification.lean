import AtomLogic.Substitution

/-! Unification with an occurs check. Children are unified from left to right, and
what the earlier ones bind is seen by the later ones. Each step first replaces a
bound variable by its value, which can be larger than the atoms at hand, so the
recursion is bounded by a depth. `unifyWith` allows a depth that every unification
from a normalized substitution keeps within: each level consumes another expression
of the two atoms or of the bound values. -/

namespace AtomLogic

namespace Substitution

def resolve (s : Substitution) : Atom → Atom
  | .var name => s.value name
  | a => a

def solve? (s : Substitution) (name : String) (term : Atom) : Option Substitution :=
  let term := s.apply term
  if term.mentions name then none else s.bind? name term

def weight (s : Substitution) : Nat := Atom.sizeAll (s.bindings.map Prod.snd)

end Substitution

def unifyPairs (unifyPair : Atom → Atom → Substitution → Option (Option Substitution)) :
    List Atom → List Atom → Substitution → Option (Option Substitution)
  | a :: as, b :: bs, s =>
    match unifyPair a b s with
    | some (some extended) => unifyPairs unifyPair as bs extended
    | stopped => stopped
  | _, _, s => some (some s)

/-- Unification on top of a substitution, to a bounded depth. There is no result at all
if the depth is used up, and no substitution if the atoms do not unify. -/
def unifyWithin : Nat → Atom → Atom → Substitution → Option (Option Substitution)
  | 0, _, _, _ => none
  | depth+1, a, b, s =>
    match s.resolve a, s.resolve b with
    | .var x, b => some (if b = .var x then some s else s.solve? x b)
    | a, .var y => some (s.solve? y a)
    | .sym p, .sym q => some (if p = q then some s else none)
    | .expr as, .expr bs =>
      if as.length = bs.length then unifyPairs (unifyWithin depth) as bs s else some none
    | _, _ => some none

/-- A depth that unification from a normalized substitution does not use up. -/
def unificationDepth (a b : Atom) (s : Substitution) : Nat := a.size + b.size + s.weight + 1

/-- The most general extension of a substitution under which two atoms become equal. -/
def unifyWith (a b : Atom) (s : Substitution) : Option Substitution :=
  (unifyWithin (unificationDepth a b s) a b s).join

def unify (a b : Atom) : Option Substitution := unifyWith a b ∅

def canUnify (a b : Atom) : Bool := (unify a b).isSome

def unifyAll (pattern : Atom) (atoms : List Atom) : Answers :=
  atoms.filterMap fun a => (unify pattern a).map (a,·)

end AtomLogic
