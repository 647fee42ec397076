import AtomLogic.Text.Token

/-! Whether the text typed so far is ready to be read. Only the balance of the
parentheses counts, so a text that nests too deeply is still complete. -/

namespace AtomLogic.Text

/-- How far a text has come. -/
inductive Completeness where
  | complete
  | incomplete
  | invalid
deriving DecidableEq, Inhabited, Repr

/-- How far some tokens have come, with a number of expressions already open. -/
def balance : Nat → List Located → Completeness
  | 0, [] => .complete
  | _+1, [] => .incomplete
  | depth, l :: rest =>
    match l.token, depth with
    | .opening, depth => balance (depth + 1) rest
    | .closing, 0 => .invalid
    | .closing, depth+1 => balance depth rest
    | _, depth => balance depth rest

def completeness (text : String) : Completeness :=
  match tokenize text with
  | .error _ => .invalid
  | .ok tokens => balance 0 tokens

end AtomLogic.Text
