import AtomLogic.Atom

/-! Rules. A rule is stored as an expression of the symbol `implies`, its body and its
head. A rule is renamed before it is used: each of its variables gets a number behind a
semicolon, which no name read from text contains. -/

namespace AtomLogic

/-- If the body holds then so does the head. -/
structure Rule where
  body : Atom
  head : Atom
deriving DecidableEq, Inhabited, Repr

namespace Rule

def symbol : String := "implies"

def ofAtom? : Atom → Option Rule
  | .expr [.sym name,body,head] => if name = symbol then some ⟨body,head⟩ else none
  | _ => none

def toAtom (rule : Rule) : Atom := .expr [.sym symbol,rule.body,rule.head]

theorem ofAtom?_eq_some_iff (a : Atom) (rule : Rule) :
    ofAtom? a = some rule ↔ a = rule.toAtom := by
  constructor
  · intro isRule
    unfold ofAtom? at isRule
    split at isRule
    · next name body head =>
      split at isRule
      · next same =>
        obtain rfl := Option.some.inj isRule
        rw [toAtom,same]
      · cases isRule
    · cases isRule
  · rintro rfl
    rw [toAtom,ofAtom?,if_pos rfl]

def copyName (number : Nat) (name : String) : String := name ++ ";" ++ toString number

def copy (rule : Rule) (number : Nat) : Rule :=
  ⟨rule.body.rename (copyName number),rule.head.rename (copyName number)⟩

end Rule
end AtomLogic
