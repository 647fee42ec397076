import AtomLogic.Text.Blank
import AtomLogic.Text.ReadError

/-! Tokens and how they are cut from a text. A name runs up to the next blank,
parenthesis or semicolon; a semicolon starts a comment that ends with its line. The
cursor moves past whatever it reads, the dollar sign of a variable without a name
included, so reading can go on after an error. -/

namespace AtomLogic.Text

/-- The pieces of a text. The last one marks its end. -/
inductive Token where
  | opening
  | closing
  | sym (name : String)
  | var (name : String)
  | finish
deriving DecidableEq, Inhabited, Repr

def Token.text : Token → String
  | opening => "("
  | closing => ")"
  | sym name => name
  | var name => "$" ++ name
  | finish => "EOF"

structure Located where
  token : Token
  position : Position
deriving DecidableEq, Inhabited, Repr

def isDelimiter (c : Char) : Bool := isBlank c || c == '(' || c == ')' || c == ';'

def isNameChar (c : Char) : Bool := !isDelimiter c

structure Cursor where
  rest : List Char
  position : Position
deriving DecidableEq, Inhabited, Repr

namespace Cursor

def ofString (text : String) : Cursor := ⟨text.toList,.start⟩

def past (c : Char) (rest : List Char) (position : Position) : Cursor := ⟨rest,position.after c⟩

def skipComment : List Char → Position → Cursor
  | [], position => ⟨[],position⟩
  | c :: rest, position =>
    if c = '\n' then ⟨rest,position.after c⟩ else skipComment rest (position.after c)

theorem skipComment_length (rest : List Char) (position : Position) :
    (skipComment rest position).rest.length ≤ rest.length := by
  induction rest generalizing position with
  | nil => simp [skipComment]
  | cons c rest ih =>
    rw [skipComment]
    split
    · simp
    · exact Nat.le_succ_of_le (ih _)

def skipBlanks : List Char → Position → Cursor
  | [], position => ⟨[],position⟩
  | c :: rest, position =>
    if isBlank c then skipBlanks rest (position.after c)
    else if c = ';' then
      skipBlanks (skipComment rest (position.after c)).rest
        (skipComment rest (position.after c)).position
    else ⟨c :: rest,position⟩
termination_by rest => rest.length
decreasing_by
  · simp
  · have := skipComment_length rest (position.after c)
    simp only [List.length_cons]
    omega

theorem skipBlanks_length (rest : List Char) (position : Position) :
    (skipBlanks rest position).rest.length ≤ rest.length := by
  fun_induction skipBlanks rest position with
  | case1 => simp
  | case2 _ _ _ _ ih => exact Nat.le_succ_of_le ih
  | case3 rest position =>
    have := skipComment_length rest (position.after ';')
    simp only [List.length_cons]
    omega
  | case4 => simp

theorem skipBlanks_head {rest : List Char} {position : Position} {c : Char} {left : List Char}
    (stopped : (skipBlanks rest position).rest = c :: left) : isBlank c = false ∧ c ≠ ';' := by
  fun_induction skipBlanks rest position with
  | case1 => simp at stopped
  | case2 _ _ _ _ ih => exact ih stopped
  | case3 _ _ _ ih => exact ih stopped
  | case4 => simp_all

def takeName (rest : List Char) (position : Position) : String × Cursor :=
  (String.ofList (rest.takeWhile isNameChar),
    ⟨rest.dropWhile isNameChar,position.afterAll (rest.takeWhile isNameChar)⟩)

theorem takeName_length (rest : List Char) (position : Position) :
    (takeName rest position).2.rest.length ≤ rest.length := by
  simpa [takeName] using (List.dropWhile_suffix isNameChar (l := rest)).length_le

/-- Cuts the next token, and says what is left. -/
def next (cursor : Cursor) : Except ReadError Located × Cursor :=
  let ready := skipBlanks cursor.rest cursor.position
  match ready.rest with
  | [] => (.ok ⟨.finish,ready.position⟩,ready)
  | '(' :: rest => (.ok ⟨.opening,ready.position⟩,past '(' rest ready.position)
  | ')' :: rest => (.ok ⟨.closing,ready.position⟩,past ')' rest ready.position)
  | '$' :: rest =>
    let (name,left) := takeName rest (ready.position.after '$')
    if name.isEmpty then (.error (.emptyVariable ready.position),left)
    else (.ok ⟨.var name,ready.position⟩,left)
  | rest =>
    let (name,left) := takeName rest ready.position
    (.ok ⟨.sym name,ready.position⟩,left)

theorem next_shorter (cursor : Cursor) :
    (∃ position, cursor.next.1 = .ok ⟨.finish,position⟩) ∨
      cursor.next.2.rest.length < cursor.rest.length := by
  have skipped := skipBlanks_length cursor.rest cursor.position
  rw [next]
  dsimp only
  split
  · exact .inl ⟨_,rfl⟩
  · next rest found =>
    right
    rw [found,List.length_cons] at skipped
    exact skipped
  · next rest found =>
    right
    rw [found,List.length_cons] at skipped
    exact skipped
  · next rest found =>
    have := takeName_length rest ((skipBlanks cursor.rest cursor.position).position.after '$')
    right
    split <;> simp_all <;> omega
  · next rest ended notOpening notClosing notVariable =>
    right
    cases found : (skipBlanks cursor.rest cursor.position).rest with
    | nil => exact absurd found ended
    | cons c left =>
      have name : isNameChar c = true := by
        have := skipBlanks_head found
        simp only [isNameChar,isDelimiter,this.1,Bool.false_or,Bool.not_eq_eq_eq_not,
          Bool.not_true,Bool.or_eq_false_iff,beq_eq_false_iff_ne,ne_eq]
        exact ⟨⟨fun e => notOpening left (e ▸ found),fun e => notClosing left (e ▸ found)⟩,this.2⟩
      have := (List.dropWhile_suffix isNameChar (l := left)).length_le
      simp only [found,List.length_cons] at skipped
      simp only [takeName,List.dropWhile_cons,name,if_true]
      omega

theorem next_decreases {cursor left : Cursor} {located : Located}
    (step : cursor.next = (.ok located,left)) (goesOn : located.token ≠ .finish) :
    left.rest.length < cursor.rest.length := by
  rcases next_shorter cursor with ⟨position,ended⟩ | shorter
  · rw [step] at ended
    exact absurd (congrArg Located.token (Except.ok.inj ended)) goesOn
  · simpa [step] using shorter

/-- The tokens from a cursor to the end of its text, behind those already cut, which
are held last first. -/
def tokens (cursor : Cursor) (cut : List Located) : Except ReadError (List Located) :=
  match step : cursor.next with
  | (.error e,_) => .error e
  | (.ok located,left) =>
    if ended : located.token = .finish then .ok (located :: cut).reverse
    else
      have : left.rest.length < cursor.rest.length := next_decreases step ended
      tokens left (located :: cut)
termination_by cursor.rest.length

end Cursor

def tokenize (text : String) : Except ReadError (List Located) := (Cursor.ofString text).tokens []

end AtomLogic.Text
