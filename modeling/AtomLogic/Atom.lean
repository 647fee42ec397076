/-! Atoms, the terms of the language: constants, variables and expressions.
Every traversal is a pair of structurally recursive functions, one on atoms and
one on lists of atoms, so closed instances reduce by computation. -/

namespace AtomLogic

/-- A term. The name of a variable is kept without the dollar sign that marks it
in text. -/
inductive Atom where
  | sym (name : String)
  | var (name : String)
  | expr (children : List Atom)
deriving Inhabited, Repr

namespace Atom

/-- Induction on atoms, with the children of an expression as list members. -/
@[induction_eliminator]
theorem induct {motive : Atom → Prop} (sym : ∀ name, motive (.sym name))
    (var : ∀ name, motive (.var name))
    (expr : ∀ children, (∀ a ∈ children, motive a) → motive (.expr children)) :
    ∀ a, motive a :=
  Atom.rec (motive_1 := motive) (motive_2 := fun children => ∀ a ∈ children, motive a)
    sym var expr (by simp) (fun _ _ first others => by simpa using ⟨first,others⟩)

mutual
private def decideEq : (a b : Atom) → Decidable (a = b)
  | .sym m, .sym n =>
    if same : m = n then isTrue (same ▸ rfl) else isFalse (fun e => same (Atom.sym.inj e))
  | .var m, .var n =>
    if same : m = n then isTrue (same ▸ rfl) else isFalse (fun e => same (Atom.var.inj e))
  | .expr as, .expr bs =>
    match decideEqAll as bs with
    | isTrue same => isTrue (same ▸ rfl)
    | isFalse other => isFalse (fun e => other (Atom.expr.inj e))
  | .sym _, .var _ => isFalse nofun
  | .sym _, .expr _ => isFalse nofun
  | .var _, .sym _ => isFalse nofun
  | .var _, .expr _ => isFalse nofun
  | .expr _, .sym _ => isFalse nofun
  | .expr _, .var _ => isFalse nofun

private def decideEqAll : (as bs : List Atom) → Decidable (as = bs)
  | [], [] => isTrue rfl
  | [], _ :: _ => isFalse nofun
  | _ :: _, [] => isFalse nofun
  | a :: as, b :: bs =>
    match decideEq a b with
    | isFalse other => isFalse (fun e => other (List.cons.inj e).1)
    | isTrue first =>
      match decideEqAll as bs with
      | isTrue rest => isTrue (by rw [first,rest])
      | isFalse other => isFalse (fun e => other (List.cons.inj e).2)
end

instance : DecidableEq Atom := decideEq

def truth : Atom := .sym "True"

def unit : Atom := .expr []

def isSymbol : Atom → Bool
  | .sym _ => true
  | _ => false

def isVariable : Atom → Bool
  | .var _ => true
  | _ => false

def isExpression : Atom → Bool
  | .expr _ => true
  | _ => false

def children? : Atom → Option (List Atom)
  | .expr children => some children
  | _ => none

def arguments : Atom → List Atom
  | .expr (_ :: arguments) => arguments
  | _ => []

def arity (a : Atom) : Nat := (a.children?.map List.length).getD 0

def head? : Atom → Option String
  | .expr (.sym name :: _) => some name
  | _ => none

mutual
def size : Atom → Nat
  | .sym _ => 1
  | .var _ => 1
  | .expr children => sizeAll children + 1

def sizeAll : List Atom → Nat
  | [] => 0
  | a :: as => a.size + sizeAll as
end

mutual
/-- How many expressions enclose the innermost one, that one included. -/
def depth : Atom → Nat
  | .sym _ => 0
  | .var _ => 0
  | .expr children => depthAll children + 1

def depthAll : List Atom → Nat
  | [] => 0
  | a :: as => max a.depth (depthAll as)
end

mutual
def occurrences : Atom → List String
  | .sym _ => []
  | .var name => [name]
  | .expr children => occurrencesAll children

def occurrencesAll : List Atom → List String
  | [] => []
  | a :: as => a.occurrences ++ occurrencesAll as
end

mutual
def hasVariables : Atom → Bool
  | .sym _ => false
  | .var _ => true
  | .expr children => anyHasVariables children

def anyHasVariables : List Atom → Bool
  | [] => false
  | a :: as => a.hasVariables || anyHasVariables as
end

mutual
def mentions (name : String) : Atom → Bool
  | .sym _ => false
  | .var other => other == name
  | .expr children => anyMentions name children

def anyMentions (name : String) : List Atom → Bool
  | [] => false
  | a :: as => a.mentions name || anyMentions name as
end

def noteName (names : List String) (name : String) : List String :=
  if names.contains name then names else names ++ [name]

/-- The names of the variables, each once, in the order of first occurrence. -/
def variableNames (a : Atom) : List String := a.occurrences.foldl noteName []

mutual
def instantiate (values : String → Atom) : Atom → Atom
  | .sym name => .sym name
  | .var name => values name
  | .expr children => .expr (instantiateAll values children)

def instantiateAll (values : String → Atom) : List Atom → List Atom
  | [] => []
  | a :: as => a.instantiate values :: instantiateAll values as
end

def rename (names : String → String) (a : Atom) : Atom :=
  a.instantiate (fun name => .var (names name))

mutual
/-- The written form: a symbol is its name, a variable its name behind a dollar sign,
and an expression its children in parentheses with one space between them. -/
def text : Atom → String
  | .sym name => name
  | .var name => "$" ++ name
  | .expr children => "(" ++ textAll children ++ ")"

def textAll : List Atom → String
  | [] => ""
  | [a] => a.text
  | a :: b :: as => a.text ++ " " ++ textAll (b :: as)
end

instance : ToString Atom := ⟨text⟩

mutual
/-- The order of atoms: symbols, then variables, then expressions; names by their
characters, expressions by their children from left to right. -/
def order : Atom → Atom → Ordering
  | .sym m, .sym n => compare m n
  | .sym _, _ => .lt
  | .var _, .sym _ => .gt
  | .var m, .var n => compare m n
  | .var _, .expr _ => .lt
  | .expr as, .expr bs => orderAll as bs
  | .expr _, _ => .gt

def orderAll : List Atom → List Atom → Ordering
  | [], [] => .eq
  | [], _ :: _ => .lt
  | _ :: _, [] => .gt
  | a :: as, b :: bs => (order a b).then (orderAll as bs)
end

instance : Ord Atom := ⟨order⟩

theorem instantiateAll_eq_map (values : String → Atom) (as : List Atom) :
    instantiateAll values as = as.map (instantiate values) := by
  induction as with
  | nil => rfl
  | cons a as ih => simp [instantiateAll,ih]

theorem anyMentions_eq_any (name : String) (as : List Atom) :
    anyMentions name as = as.any (mentions name) := by
  induction as with
  | nil => rfl
  | cons a as ih => simp [anyMentions,ih]

theorem anyHasVariables_eq_any (as : List Atom) : anyHasVariables as = as.any hasVariables := by
  induction as with
  | nil => rfl
  | cons a as ih => simp [anyHasVariables,ih]

theorem occurrencesAll_eq_flatMap (as : List Atom) :
    occurrencesAll as = as.flatMap occurrences := by
  induction as with
  | nil => rfl
  | cons a as ih => simp [occurrencesAll,ih]

end Atom
end AtomLogic
