import AtomLogic.Atom

/-! Substitutions: finite maps from variable names to atoms, in the order in which
the bindings were made. A substitution made with `bind?` alone is normalized: no
bound value mentions a bound name, so one look-up resolves a variable completely. -/

namespace AtomLogic

/-- Values for some variables. Each name is bound once. -/
structure Substitution where
  bindings : List (String × Atom)
deriving DecidableEq, Inhabited, Repr

namespace Substitution

def empty : Substitution := ⟨[]⟩

instance : EmptyCollection Substitution := ⟨empty⟩

def single (name : String) (value : Atom) : Substitution := ⟨[(name,value)]⟩

def find? (s : Substitution) (name : String) : Option Atom := s.bindings.lookup name

def contains (s : Substitution) (name : String) : Bool := (s.find? name).isSome

def names (s : Substitution) : List String := s.bindings.map Prod.fst

def size (s : Substitution) : Nat := s.bindings.length

def isEmpty (s : Substitution) : Bool := s.bindings.isEmpty

/-- What a variable stands for; one that is not bound stands for itself. -/
def value (s : Substitution) (name : String) : Atom := (s.find? name).getD (.var name)

def apply (s : Substitution) (a : Atom) : Atom := a.instantiate s.value

def mapValues (change : Atom → Atom) (s : Substitution) : Substitution :=
  ⟨s.bindings.map fun (name,value) => (name,change value)⟩

/-- Adds a binding and puts its value into the values already there. A name that is
bound keeps its value, which the new one has to equal. There is no result if the
value, under the substitution, mentions the name that it is bound to. -/
def bind? (s : Substitution) (name : String) (value : Atom) : Option Substitution :=
  let value := s.apply value
  match s.find? name with
  | some existing => if existing = value then some s else none
  | none =>
    if value = .var name then some s
    else if value.mentions name then none
    else some ⟨(s.mapValues (single name value).apply).bindings ++ [(name,value)]⟩

/-- The substitution that applies `s` first and `t` after it. A variable that ends up
standing for itself is not bound. -/
def compose (s t : Substitution) : Substitution :=
  ⟨(s.mapValues t.apply).bindings.filter (fun (name,value) => value ≠ .var name) ++
    t.bindings.filter (fun (name,_) => !s.contains name)⟩

def restrict (s : Substitution) (names : List String) : Substitution :=
  ⟨s.bindings.filter fun (name,_) => names.contains name⟩

def agrees (s t : Substitution) : Bool :=
  s.size == t.size && s.bindings.all fun (name,value) => t.find? name == some value

def bindingText : String × Atom → String
  | (name,value) => "$" ++ name ++ " -> " ++ value.text

def text (s : Substitution) : String :=
  "\x7b" ++ ", ".intercalate (s.bindings.map bindingText) ++ "\x7d"

end Substitution

abbrev Answers := List (Atom × Substitution)

end AtomLogic
