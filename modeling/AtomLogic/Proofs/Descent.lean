import AtomLogic.Text.Reader

/-! Reading by descent. The reader of an atom calls itself for each child of an expression. It reads
the same as the single pass does, whose stack holds what the calls that are not finished have read. -/

namespace AtomLogic.Text

/-- What a call makes of some tokens: a fault, or a result behind which fewer of them are left. -/
inductive Descent (α : Type) (tokens : List Located) where
  | fault (error : ReadError) (left : List Located)
  | done (result : α) (left : List Located) (shorter : left.length < tokens.length)

namespace Descent

/-- The outcome, and the tokens that are left. -/
def step {α : Type} {tokens : List Located} : Descent α tokens → Except ReadError α × List Located
  | fault error left => (.error error,left)
  | done result left _ => (.ok result,left)

end Descent

mutual
/-- Reads an atom around which so many expressions are open. -/
def descend (depth : Nat) : (tokens : List Located) → Descent Atom tokens
  | [] => .fault .emptyInput []
  | ⟨token,position⟩ :: rest =>
    match token with
    | .finish => .fault .emptyInput (⟨token,position⟩ :: rest)
    | .closing => .fault (.unmatchedClose position) (⟨token,position⟩ :: rest)
    | .sym name => .done (.sym name) rest (Nat.lt_succ_self _)
    | .var name => .done (.var name) rest (Nat.lt_succ_self _)
    | .opening =>
      if depth < maximalDepth then
        match descendAll (depth + 1) position [] rest with
        | .fault error left => .fault error left
        | .done children left shorter => .done (.expr children) left (Nat.lt_succ_of_lt shorter)
      else .fault (.tooDeep position) (⟨token,position⟩ :: rest)
termination_by tokens => (tokens.length,0)

/-- Reads the other children of an expression and the parenthesis that closes it, behind the children
that it has so far, which are held last first. -/
def descendAll (depth : Nat) (opened : Position) (children : List Atom) :
    (tokens : List Located) → Descent (List Atom) tokens
  | [] => .fault (.unclosed opened) []
  | ⟨token,position⟩ :: rest =>
    match token with
    | .finish => .fault (.unclosed opened) (⟨token,position⟩ :: rest)
    | .closing => .done children.reverse rest (Nat.lt_succ_self _)
    | token =>
      match descend depth (⟨token,position⟩ :: rest) with
      | .fault error left => .fault error left
      | .done child left shorter =>
        match descendAll depth opened (child :: children) left with
        | .fault error left => .fault error left
        | .done children left later => .done children left (Nat.lt_trans later shorter)
termination_by tokens => (tokens.length,1)
end

/-- What becomes of an outcome: a fault stays, and a result is gone on with. -/
def andThen {α β : Type} (next : α → List Located → Except ReadError β × List Located) :
    Except ReadError α × List Located → Except ReadError β × List Located
  | (.error error,left) => (.error error,left)
  | (.ok result,left) => next result left

/-- Goes on with an atom that has been read: it is the next child of the innermost open expression. -/
def resume : List Frame → Atom → List Located → Except ReadError Atom × List Located
  | [],a,left => (.ok a,left)
  | frame :: stack,a,left => readAtom (⟨frame.opened,a :: frame.children⟩ :: stack) left

/-- The first of some tokens is one with which an atom begins. -/
inductive AtomAhead : List Located → Prop where
  | intro {token : Token} {position : Position} {rest : List Located} :
      token ≠ .finish → token ≠ .closing → AtomAhead (⟨token,position⟩ :: rest)

theorem step_descend_opening (depth : Nat) (position : Position) (rest : List Located) :
    (descend depth (⟨.opening,position⟩ :: rest)).step =
      if depth < maximalDepth then
        andThen (fun children left => (.ok (.expr children),left))
          (descendAll (depth + 1) position [] rest).step
      else (.error (.tooDeep position),⟨.opening,position⟩ :: rest) := by
  rw [descend]
  split
  · cases descendAll (depth + 1) position [] rest <;> rfl
  · rfl

theorem step_descendAll_of_atomAhead {tokens : List Located} (ahead : AtomAhead tokens) (depth : Nat)
    (opened : Position) (children : List Atom) :
    (descendAll depth opened children tokens).step =
      andThen (fun child left => (descendAll depth opened (child :: children) left).step)
        (descend depth tokens).step := by
  obtain ⟨unfinished,unclosed⟩ := ahead
  rw [descendAll]
  · cases descend depth _ with
    | fault error left => rfl
    | done child left shorter =>
      simp only [Descent.step,andThen]
      cases descendAll depth opened (child :: children) left <;> rfl
  · exact unfinished
  · exact unclosed

mutual
-- Both are by the tokens that are left. A call for a child goes on with the same tokens, so the
-- equation for atoms comes before the one for children.
theorem readAtom_eq_descend (stack : List Frame) (tokens : List Located)
    (begins : stack = [] ∨ AtomAhead tokens) :
    readAtom stack tokens = andThen (resume stack) (descend stack.length tokens).step := by
  match tokens with
  | [] =>
    obtain rfl : stack = [] := begins.resolve_right nofun
    rw [readAtom,descend]
    rfl
  | ⟨token,position⟩ :: rest =>
    cases token with
    | finish =>
      obtain rfl : stack = [] := begins.resolve_right fun ⟨unfinished,_⟩ => unfinished rfl
      rw [readAtom,descend]
      rfl
    | closing =>
      obtain rfl : stack = [] := begins.resolve_right fun ⟨_,unclosed⟩ => unclosed rfl
      rw [readAtom,descend]
      rfl
    | sym name =>
      rw [descend]
      cases stack <;> rw [readAtom] <;> rfl
    | var name =>
      rw [descend]
      cases stack <;> rw [readAtom] <;> rfl
    | opening =>
      rw [readAtom,step_descend_opening]
      split
      next room =>
        rw [readAtom_eq_descendAll stack position [] rest]
        rcases (descendAll (stack.length + 1) position [] rest).step with ⟨_ | _,_⟩ <;> rfl
      next => rfl
termination_by (tokens.length,0)

theorem readAtom_eq_descendAll (stack : List Frame) (opened : Position) (children : List Atom)
    (tokens : List Located) :
    readAtom (⟨opened,children⟩ :: stack) tokens =
      andThen (fun children => resume stack (.expr children))
        (descendAll (stack.length + 1) opened children tokens).step := by
  have child (ahead : AtomAhead tokens) : readAtom (⟨opened,children⟩ :: stack) tokens =
      andThen (fun children => resume stack (.expr children))
        (descendAll (stack.length + 1) opened children tokens).step := by
    rw [readAtom_eq_descend (⟨opened,children⟩ :: stack) tokens (.inr ahead),List.length_cons,
      step_descendAll_of_atomAhead ahead]
    cases descend (stack.length + 1) tokens with
    | fault error left => rfl
    | done child left shorter =>
      exact readAtom_eq_descendAll stack opened (child :: children) left
  match tokens with
  | [] =>
    rw [readAtom,descendAll]
    rfl
  | ⟨token,position⟩ :: rest =>
    cases token with
    | finish =>
      rw [readAtom,descendAll]
      rfl
    | closing =>
      rw [descendAll]
      cases stack <;> rw [readAtom] <;> rfl
    | sym | var | opening => exact child (.intro (by simp) (by simp))
termination_by (tokens.length,1)
end

/-- The pass and the descent have the same outcome on all tokens, and leave the same tokens. -/
theorem readAtom_nil_eq_descend (tokens : List Located) :
    readAtom [] tokens = (descend 0 tokens).step := by
  rw [readAtom_eq_descend [] tokens (.inl rfl)]
  cases descend 0 tokens with
  | fault error left => rfl
  | done a left shorter => rfl

end AtomLogic.Text
