import AtomLogic.Space

/-! A query answered one match at a time. The candidates are those stored when the
search is opened; what happens to the space afterwards does not reach it. -/

namespace AtomLogic

/-- A pattern and the candidates that have not been tried on it. -/
structure Search where
  pattern : Atom
  candidates : List Atom
deriving DecidableEq, Inhabited, Repr

namespace Search

def of (space : Space) (pattern : Atom) : Search := ⟨pattern,space.candidates pattern⟩

def firstMatch (pattern : Atom) : List Atom → Option (Atom × Substitution) × List Atom
  | [] => (none,[])
  | a :: rest =>
    match unify pattern a with
    | some s => (some (a,s),rest)
    | none => firstMatch pattern rest

def next (search : Search) : Option (Atom × Substitution) × Search :=
  let (found,rest) := firstMatch search.pattern search.candidates
  (found,⟨search.pattern,rest⟩)

def remaining (search : Search) : Nat := search.candidates.length

end Search
end AtomLogic
